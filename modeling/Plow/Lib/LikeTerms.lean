import Mathlib

/-!
# Like terms

`collect` brings a sum of terms (a key and a coefficient each) to its normal form: the terms sorted
by key, one for each key, none of coefficient zero.  It keeps the sum (`collect_sum`), and two sums
in normal form with the same terms are the same list (`sorted_ext`).
-/

set_option linter.unusedSectionVars false

namespace Plow.Lib

open List

section sorted
variable {T : Type*} {r : T → T → Prop}

theorem sorted_ext (hirr : ∀ a, ¬ r a a) (hasymm : ∀ a b, r a b → ¬ r b a) {l l' : List T}
    (h : l.Pairwise r) (h' : l'.Pairwise r) (hmem : ∀ t, t ∈ l ↔ t ∈ l') : l = l' := by
  have hne : ∀ a b, r a b → a ≠ b := fun a b hab heq => hirr a (heq ▸ hab)
  have hnd : l.Nodup := h.imp (hne _ _)
  have hnd' : l'.Nodup := h'.imp (hne _ _)
  refine List.Perm.eq_of_pairwise (fun a b _ _ hab hba => absurd hba (hasymm a b hab)) h h' ?_
  exact (perm_ext_iff_of_nodup hnd hnd').mpr hmem

end sorted

section collect
variable {κ R : Type*} [LinearOrder κ] [AddCommMonoid R] [DecidableEq R] {t u : κ × R}
  {terms ts : List (κ × R)}

def mergeFrom : κ × R → List (κ × R) → List (κ × R)
  | t, [] => [t]
  | t, u :: us => if t.1 = u.1 then mergeFrom (t.1, t.2 + u.2) us else t :: mergeFrom u us

def mergeLike : List (κ × R) → List (κ × R)
  | [] => []
  | t :: ts => mergeFrom t ts

def collect (terms : List (κ × R)) : List (κ × R) :=
  (mergeLike (terms.insertionSort (·.1 ≤ ·.1))).filter (·.2 ≠ 0)

/-! ### The sum -/

section sum
variable {M : Type*} [AddCommMonoid M] {f : κ → R → M}

theorem mergeFrom_sum (hadd : ∀ k a b, f k (a + b) = f k a + f k b) (t : κ × R)
    (ts : List (κ × R)) : ((mergeFrom t ts).map fun u => f u.1 u.2).sum =
      f t.1 t.2 + (ts.map fun u => f u.1 u.2).sum := by
  induction ts generalizing t with
  | nil => simp [mergeFrom]
  | cons u us ih =>
    unfold mergeFrom
    split
    · next heq =>
      rw [ih, map_cons, sum_cons, hadd, heq, add_assoc]
    · rw [map_cons, sum_cons, ih, map_cons, sum_cons]

theorem filter_sum (hzero : ∀ k, f k 0 = 0) (ts : List (κ × R)) :
    ((ts.filter (·.2 ≠ 0)).map fun u => f u.1 u.2).sum = (ts.map fun u => f u.1 u.2).sum := by
  induction ts with
  | nil => rfl
  | cons t ts ih =>
    rw [filter_cons, map_cons, sum_cons, ← ih]
    split
    · rw [map_cons, sum_cons]
    · next hz =>
      have hz : t.2 = 0 := by simpa using hz
      rw [hz, hzero, zero_add]

theorem collect_sum (hzero : ∀ k, f k 0 = 0) (hadd : ∀ k a b, f k (a + b) = f k a + f k b)
    (terms : List (κ × R)) : ((collect terms).map fun u => f u.1 u.2).sum =
      (terms.map fun u => f u.1 u.2).sum := by
  have hperm := (perm_insertionSort (fun a b : κ × R => a.1 ≤ b.1) terms).map
    fun u => f u.1 u.2
  rw [collect, filter_sum hzero, ← hperm.sum_eq]
  match terms.insertionSort (fun a b : κ × R => a.1 ≤ b.1) with
  | [] => rfl
  | t :: ts => rw [mergeLike, mergeFrom_sum hadd, map_cons, sum_cons]

end sum

/-! ### The normal form -/

theorem mergeFrom_key (h : u ∈ mergeFrom t ts) : ∃ v ∈ t :: ts, v.1 = u.1 := by
  induction ts generalizing t with
  | nil => exact ⟨t, mem_cons_self, by rw [mem_singleton.mp h]⟩
  | cons w ws ih =>
    unfold mergeFrom at h
    split at h
    · obtain ⟨v, hv, hk⟩ := ih h
      rcases mem_cons.mp hv with rfl | hv
      · exact ⟨t, mem_cons_self, hk⟩
      · exact ⟨v, mem_cons_of_mem _ (mem_cons_of_mem _ hv), hk⟩
    · rcases mem_cons.mp h with rfl | h
      · exact ⟨u, mem_cons_self, rfl⟩
      · obtain ⟨v, hv, hk⟩ := ih h
        exact ⟨v, mem_cons_of_mem _ hv, hk⟩

theorem mergeFrom_sorted (h : (t :: ts).Pairwise fun a b => a.1 ≤ b.1) :
    (mergeFrom t ts).Pairwise fun a b => a.1 < b.1 := by
  induction ts generalizing t with
  | nil => exact pairwise_singleton _ _
  | cons u us ih =>
    obtain ⟨ht, hts⟩ := pairwise_cons.mp h
    unfold mergeFrom
    split
    · next heq =>
      refine ih (pairwise_cons.mpr ⟨fun v hv => ht v (mem_cons_of_mem _ hv), ?_⟩)
      exact (pairwise_cons.mp hts).2
    · next hne =>
      refine pairwise_cons.mpr ⟨fun v hv => ?_, ih hts⟩
      obtain ⟨w, hw, hk⟩ := mergeFrom_key hv
      have hlt : t.1 < u.1 := lt_of_le_of_ne (ht u mem_cons_self) hne
      rw [← hk]
      rcases mem_cons.mp hw with rfl | hw
      · exact hlt
      · exact lt_of_lt_of_le hlt ((pairwise_cons.mp hts).1 w hw)

theorem collect_sorted (terms : List (κ × R)) : (collect terms).Pairwise fun a b => a.1 < b.1 := by
  refine List.Pairwise.filter _ ?_
  have hsort := pairwise_insertionSort (fun a b : κ × R => a.1 ≤ b.1) terms
  revert hsort
  match terms.insertionSort (fun a b : κ × R => a.1 ≤ b.1) with
  | [] => exact fun _ => .nil
  | t :: ts => exact fun hsort => mergeFrom_sorted hsort

theorem collect_ne_zero (h : t ∈ collect terms) : t.2 ≠ 0 :=
  of_decide_eq_true (mem_filter.mp h).2

theorem collect_key (h : t ∈ collect terms) : ∃ u ∈ terms, u.1 = t.1 := by
  have hm := (mem_filter.mp h).1
  have hperm := perm_insertionSort (fun a b : κ × R => a.1 ≤ b.1) terms
  revert hm hperm
  match terms.insertionSort (fun a b : κ × R => a.1 ≤ b.1) with
  | [] => exact fun hm => nomatch hm
  | u :: us =>
    intro hm hperm
    obtain ⟨v, hv, hk⟩ := mergeFrom_key hm
    exact ⟨v, hperm.subset hv, hk⟩

end collect

end Plow.Lib
