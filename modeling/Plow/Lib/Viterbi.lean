import Mathlib

/-!
# Best paths through a trellis

A path takes one of `k` states at each layer of a trellis. It pays the score of its state in each
layer and the score of the edge between each two.

Working from the last layer to the first, the best path from a state goes on with the best path from
some state of the next layer (`BestFrom.step`). When the last of the equally good states is taken, the
path is the lexicographically greatest of the best ones. `BestFrom.optimal` chooses the state of the
first layer.
-/

namespace Plow.Lib

open List

/-! ### Places of a maximum -/

section
variable {α : Type*} [LinearOrder α] {f : ℕ → α} {k i : ℕ}

/-- the last place below `k` where `f` is largest -/
structure LastMax (f : ℕ → α) (k i : ℕ) : Prop where
  lt : i < k
  le : ∀ j < k, f j ≤ f i
  last : ∀ j < k, f j = f i → j ≤ i

/-- the first place below `k` where `f` is largest -/
structure FirstMax (f : ℕ → α) (k i : ℕ) : Prop where
  lt : i < k
  le : ∀ j < k, f j ≤ f i
  first : ∀ j < k, f j = f i → i ≤ j

def lastMax (f : ℕ → α) (k : ℕ) (d : α) : α × ℕ :=
  (List.range k).foldl (fun b j => if j = 0 ∨ b.1 ≤ f j then (f j, j) else b) (d, 0)

def firstMax (f : ℕ → α) (k : ℕ) : ℕ :=
  (List.range' 1 (k - 1)).foldl (fun i j => if f i < f j then j else i) 0

theorem lastMax_succ (f : ℕ → α) (k : ℕ) (d : α) :
    lastMax f (k + 1) d =
      if k = 0 ∨ (lastMax f k d).1 ≤ f k then (f k, k) else lastMax f k d := by
  rw [lastMax, range_succ, foldl_append]
  rfl

theorem lastMax_spec (f : ℕ → α) (d : α) (hk : 0 < k) :
    LastMax f k (lastMax f k d).2 ∧ (lastMax f k d).1 = f (lastMax f k d).2 := by
  induction k with
  | zero => exact absurd hk (lt_irrefl 0)
  | succ k ih =>
    rw [lastMax_succ]
    by_cases hc : k = 0 ∨ (lastMax f k d).1 ≤ f k
    · rw [if_pos hc]
      refine ⟨⟨Nat.lt_succ_self k, fun j hj => ?_, fun j hj _ => Nat.le_of_lt_succ hj⟩, rfl⟩
      obtain rfl | hj := eq_or_lt_of_le (Nat.le_of_lt_succ hj)
      · exact le_refl _
      · obtain ⟨h, he⟩ := ih (Nat.zero_lt_of_lt hj)
        rw [he] at hc
        exact (h.le j hj).trans (hc.resolve_left (Nat.ne_zero_of_lt hj))
    · rw [if_neg hc]
      obtain ⟨h0, hlt⟩ := not_or.mp hc
      obtain ⟨h, he⟩ := ih (Nat.pos_of_ne_zero h0)
      rw [he] at hlt
      refine ⟨⟨Nat.lt_succ_of_lt h.lt, fun j hj => ?_, fun j hj hf => ?_⟩, he⟩
      · obtain rfl | hj := eq_or_lt_of_le (Nat.le_of_lt_succ hj)
        · exact le_of_not_ge hlt
        · exact h.le j hj
      · obtain rfl | hj := eq_or_lt_of_le (Nat.le_of_lt_succ hj)
        · exact absurd (le_of_eq hf.symm) hlt
        · exact h.last j hj hf

theorem firstMax_spec (f : ℕ → α) (hk : 0 < k) : FirstMax f k (firstMax f k) := by
  have run (n : ℕ) : FirstMax f (n + 1)
      ((range' 1 n).foldl (fun i j => if f i < f j then j else i) 0) := by
    induction n with
    | zero =>
      refine ⟨Nat.one_pos, fun j hj => ?_, fun j _ _ => Nat.zero_le j⟩
      rw [Nat.lt_one_iff.mp hj]
      exact le_refl _
    | succ n ih =>
      rw [range'_1_concat, foldl_append, Nat.add_comm 1 n]
      show FirstMax f (n + 1 + 1) (if f _ < f (n + 1) then n + 1 else _)
      generalize foldl _ 0 (range' 1 n) = i at ih ⊢
      by_cases hc : f i < f (n + 1)
      · rw [if_pos hc]
        refine ⟨Nat.lt_succ_self _, fun j hj => ?_, fun j hj hf => ?_⟩
        · obtain rfl | hj := eq_or_lt_of_le (Nat.le_of_lt_succ hj)
          · exact le_refl _
          · exact (ih.le j hj).trans (le_of_lt hc)
        · obtain rfl | hj := eq_or_lt_of_le (Nat.le_of_lt_succ hj)
          · exact le_refl _
          · exact absurd hf (ne_of_lt ((ih.le j hj).trans_lt hc))
      · rw [if_neg hc]
        refine ⟨Nat.lt_succ_of_lt ih.lt, fun j hj => ?_, fun j hj hf => ?_⟩
        · obtain rfl | hj := eq_or_lt_of_le (Nat.le_of_lt_succ hj)
          · exact le_of_not_gt hc
          · exact ih.le j hj
        · obtain rfl | hj := eq_or_lt_of_le (Nat.le_of_lt_succ hj)
          · exact le_of_lt ih.lt
          · exact ih.first j hj hf
  obtain ⟨k, rfl⟩ := Nat.exists_eq_succ_of_ne_zero (Nat.pos_iff_ne_zero.mp hk)
  exact run k

end

/-! ### Paths -/

section
variable {α : Type*} [AddCommMonoid α] {edge : ℕ → ℕ → α} {k y i : ℕ} {n : ℕ → α}
  {ns : List (ℕ → α)} {ts best : List ℕ}

def pathScore (edge : ℕ → ℕ → α) : List (ℕ → α) → List ℕ → α
  | n :: ns, t :: ts => n t + ((ts.head?.map (edge t)).getD 0 + pathScore edge ns ts)
  | _, _ => 0

structure IsPath (k m : ℕ) (ts : List ℕ) : Prop where
  length : ts.length = m
  lt : ∀ t ∈ ts, t < k

theorem pathScore_cons (h : ts.head? = some i) :
    pathScore edge (n :: ns) (y :: ts) = n y + (edge y i + pathScore edge ns ts) := by
  rw [pathScore, h]
  rfl

variable [LinearOrder α] {paths : ℕ → List ℕ}

/-- `best` is the greatest of the best paths that begin at `y` -/
structure BestFrom (edge : ℕ → ℕ → α) (k : ℕ) (ns : List (ℕ → α)) (y : ℕ) (best : List ℕ) :
    Prop where
  path : IsPath k ns.length best
  head : best.head? = some y
  le : ∀ ts, IsPath k ns.length ts → ts.head? = some y →
    pathScore edge ns ts ≤ pathScore edge ns best
  last : ∀ ts, IsPath k ns.length ts → ts.head? = some y →
    pathScore edge ns ts = pathScore edge ns best → ts ≤ best

/-- `best` is best; among the best paths it begins lowest, and goes on highest -/
structure Optimal (edge : ℕ → ℕ → α) (k : ℕ) (ns : List (ℕ → α)) (best : List ℕ) : Prop where
  path : IsPath k ns.length best
  le : ∀ ts, IsPath k ns.length ts → pathScore edge ns ts ≤ pathScore edge ns best
  tie : ∀ ts, IsPath k ns.length ts → pathScore edge ns ts = pathScore edge ns best →
    best.headI < ts.headI ∨ best.headI = ts.headI ∧ ts.tail ≤ best.tail

theorem BestFrom.single (edge : ℕ → ℕ → α) (n : ℕ → α) (hy : y < k) :
    BestFrom edge k [n] y [y] := by
  have only (ts : List ℕ) (h : IsPath k [n].length ts) (hh : ts.head? = some y) : ts = [y] := by
    obtain ⟨t, rfl⟩ := length_eq_one_iff.mp h.length
    rw [Option.some.inj hh]
  refine ⟨⟨rfl, fun t ht => mem_singleton.mp ht ▸ hy⟩, rfl, fun ts h hh => ?_,
    fun ts h hh _ => ?_⟩
  · rw [only ts h hh]
  · rw [only ts h hh]

/-- the best path begins at the first state whose best path is best -/
theorem BestFrom.optimal (hns : ns ≠ []) (h : ∀ i < k, BestFrom edge k ns i (paths i))
    (hi : FirstMax (fun i => pathScore edge ns (paths i)) k i) : Optimal edge k ns (paths i) := by
  have hb := h i hi.lt
  have rival (ts : List ℕ) (hp : IsPath k ns.length ts) : ∃ j us, ts = j :: us ∧ j < k := by
    obtain ⟨j, us, rfl⟩ := exists_cons_of_ne_nil
      (ne_nil_of_length_pos (hp.length ▸ length_pos_of_ne_nil hns))
    exact ⟨j, us, rfl, hp.lt j mem_cons_self⟩
  refine ⟨hb.path, fun ts hp => ?_, fun ts hp he => ?_⟩
  · obtain ⟨j, us, rfl, hj⟩ := rival ts hp
    exact ((h j hj).le _ hp rfl).trans (hi.le j hj)
  · obtain ⟨j, us, rfl, hj⟩ := rival ts hp
    obtain ⟨vs, hv⟩ := head?_eq_some_iff.mp hb.head
    have h1 := (h j hj).le _ hp rfl
    have h2 : pathScore edge ns (j :: us) = pathScore edge ns (paths j) :=
      le_antisymm h1 ((hi.le j hj).trans (le_of_eq he.symm))
    have hij : i ≤ j := hi.first j hj (h2.symm.trans he)
    rw [hv]
    obtain rfl | hlt := eq_or_lt_of_le hij
    · refine Or.inr ⟨rfl, ?_⟩
      have h3 := (h i hj).last _ hp rfl he
      rw [hv] at h3
      exact le_of_not_gt fun hlt => absurd h3 (not_le_of_gt (Lex.cons hlt))
    · exact Or.inl hlt

variable [IsOrderedCancelAddMonoid α]

/-- a best path from `y` goes on with the best path from the last state that makes most of it -/
theorem BestFrom.step (hns : ns ≠ []) (hy : y < k) (h : ∀ i < k, BestFrom edge k ns i (paths i))
    (hi : LastMax (fun i => n y + (edge y i + pathScore edge ns (paths i))) k i) :
    BestFrom edge k (n :: ns) y (y :: paths i) := by
  have hb := h i hi.lt
  have hscore : pathScore edge (n :: ns) (y :: paths i) =
      n y + (edge y i + pathScore edge ns (paths i)) := pathScore_cons hb.head
  -- a rival goes on with some path of the rest
  have rival (ts : List ℕ) (hp : IsPath k (n :: ns).length ts) (hh : ts.head? = some y) :
      ∃ j ts', ts = y :: ts' ∧ j < k ∧ ts'.head? = some j ∧ IsPath k ns.length ts' ∧
        pathScore edge (n :: ns) ts = n y + (edge y j + pathScore edge ns ts') := by
    obtain ⟨t, ts', rfl⟩ := exists_cons_of_length_eq_add_one hp.length
    obtain rfl : t = y := Option.some.inj hh
    have hlen : ts'.length = ns.length := Nat.succ.inj hp.length
    obtain ⟨j, us, rfl⟩ := exists_cons_of_ne_nil
      (ne_nil_of_length_pos (hlen ▸ length_pos_of_ne_nil hns))
    have hlt : ∀ u ∈ j :: us, u < k := fun u hu => hp.lt u (mem_cons_of_mem _ hu)
    exact ⟨j, j :: us, rfl, hlt j mem_cons_self, rfl, ⟨hlen, hlt⟩, pathScore_cons rfl⟩
  refine ⟨⟨congrArg Nat.succ hb.path.length, ?_⟩, rfl, fun ts hp hh => ?_, fun ts hp hh he => ?_⟩
  · exact forall_mem_cons.mpr ⟨hy, hb.path.lt⟩
  · obtain ⟨j, ts', rfl, hj, hhj, hp', hs⟩ := rival ts hp hh
    rw [hs, hscore]
    have h1 : n y + (edge y j + pathScore edge ns ts') ≤
        n y + (edge y j + pathScore edge ns (paths j)) :=
      add_le_add_right (add_le_add_right ((h j hj).le ts' hp' hhj) _) _
    exact h1.trans (hi.le j hj)
  · obtain ⟨j, ts', rfl, hj, hhj, hp', hs⟩ := rival ts hp hh
    rw [hs, hscore] at he
    have h1 : pathScore edge ns ts' ≤ pathScore edge ns (paths j) := (h j hj).le ts' hp' hhj
    have h2 := hi.le j hj
    have h3 : n y + (edge y j + pathScore edge ns (paths j)) ≤
        n y + (edge y j + pathScore edge ns ts') := h2.trans (le_of_eq he.symm)
    have h4 : pathScore edge ns ts' = pathScore edge ns (paths j) :=
      le_antisymm h1 (le_of_add_le_add_left (le_of_add_le_add_left h3))
    have hji : j ≤ i := hi.last j hj (by rw [← h4]; exact he)
    have hts : ts' ≤ paths j := (h j hj).last ts' hp' hhj h4
    refine cons_le_cons y ?_
    obtain rfl | hlt := eq_or_lt_of_le hji
    · exact hts
    · obtain ⟨us, rfl⟩ := head?_eq_some_iff.mp hhj
      obtain ⟨vs, hv⟩ := head?_eq_some_iff.mp hb.head
      rw [hv]
      exact le_of_lt (Lex.rel hlt)

end

end Plow.Lib
