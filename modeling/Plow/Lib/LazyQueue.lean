import Mathlib

/-!
# Lazy queues

A lazy queue keeps entries that are out of date until a pop comes across them.  A pop asks a verdict
for each entry: an entry is skipped for good, passed over but kept, or taken.

* `scan`, `scan_filter`   what a pop leaves: the entries that are neither skipped nor taken, in order;
* `Fifo q W t`            the waiting keys `W` all have an entry, and their first entries are in the
                          order of the time stamps `t`;
* `Fifo.first`            so a pop that may take waiting keys only takes the one with the oldest stamp.

A key may have more than one entry: `Fifo` looks at the first.  This is why a key that starts to wait
(`Fifo.enter`) has to ask where its left-over entry stands.
-/

namespace Plow.Lib

open List

variable {K : Type*}

inductive Verdict where
  | skip
  | stay
  | take
  deriving DecidableEq

/-- Pop up to the first entry that is taken.  What comes back is the queue left and the entry. -/
def scan (f : K → Verdict) : List K → List K × Option K
  | [] => ([], none)
  | k :: rest =>
    match f k with
    | .skip => scan f rest
    | .stay => (k :: (scan f rest).1, (scan f rest).2)
    | .take => (rest, some k)

section
variable (f : K → Verdict)

theorem scan_sublist (l : List K) : (scan f l).1.Sublist l := by
  induction l with
  | nil => exact .refl _
  | cons k rest ih =>
    unfold scan
    split
    · exact ih.cons k
    · exact ih.cons_cons k
    · exact sublist_cons_self k rest

variable {l : List K} {v k : K}

theorem scan_found (h : (scan f l).2 = some v) : v ∈ l ∧ f v = .take := by
  induction l with
  | nil => cases h
  | cons k rest ih =>
    unfold scan at h
    split at h
    · exact ⟨mem_cons_of_mem _ (ih h).1, (ih h).2⟩
    · exact ⟨mem_cons_of_mem _ (ih h).1, (ih h).2⟩
    · next hk =>
      cases h
      exact ⟨mem_cons_self, hk⟩

theorem scan_some (hm : k ∈ l) (hk : f k = .take) : ∃ v, (scan f l).2 = some v := by
  induction l with
  | nil => cases hm
  | cons j rest ih =>
    unfold scan
    split
    · next hj =>
      have hne : k ≠ j := fun e => by simp [← e, hk] at hj
      exact ih ((mem_cons.mp hm).resolve_left hne)
    · next hj =>
      have hne : k ≠ j := fun e => by simp [← e, hk] at hj
      exact ih ((mem_cons.mp hm).resolve_left hne)
    · exact ⟨j, rfl⟩

theorem scan_length (h : (scan f l).2 = some v) : (scan f l).1.length < l.length := by
  induction l with
  | nil => cases h
  | cons k rest ih =>
    unfold scan at h ⊢
    rw [length_cons]
    split at h
    · have := ih h
      omega
    · have := ih h
      rw [length_cons]
      omega
    · simp

theorem scan_filter (l : List K) (p : K → Bool) (hp : ∀ k, p k = true → f k ≠ .skip)
    (hv : ∀ v, (scan f l).2 = some v → p v = false) : (scan f l).1.filter p = l.filter p := by
  induction l with
  | nil => rfl
  | cons k rest ih =>
    unfold scan at hv ⊢
    split at hv
    · next hk => rw [ih hv, filter_cons_of_neg (fun e => hp k e hk)]
    · rw [filter_cons, filter_cons, ih hv]
    · rw [filter_cons_of_neg (by simp [hv k rfl])]

theorem mem_scan (hm : k ∈ l) (hk : f k ≠ .skip)
    (hv : (scan f l).2 ≠ some k) : k ∈ (scan f l).1 := by
  classical
  have h := scan_filter f l (fun j => decide (j = k)) (fun j hj => by simp_all)
    (fun v h => by simpa using fun e : v = k => hv (e ▸ h))
  exact (mem_filter.mp (h ▸ mem_filter.mpr ⟨hm, by simp⟩)).1

theorem scan_first [DecidableEq K] (h : (scan f l).2 = some v)
    (hk : f k = .take) : l.idxOf v ≤ l.idxOf k := by
  induction l with
  | nil => cases h
  | cons j rest ih =>
    unfold scan at h
    split at h
    · next hj =>
      have hv := (scan_found f h).2
      rw [idxOf_cons_ne _ (fun e => by simp [e, hv] at hj),
        idxOf_cons_ne _ (fun e => by simp [e, hk] at hj)]
      exact Nat.succ_le_succ (ih h)
    · next hj =>
      have hv := (scan_found f h).2
      rw [idxOf_cons_ne _ (fun e => by simp [e, hv] at hj),
        idxOf_cons_ne _ (fun e => by simp [e, hk] at hj)]
      exact Nat.succ_le_succ (ih h)
    · cases h
      rw [idxOf_cons_self]
      exact Nat.zero_le _

end

/-! ## the order of the waiting keys -/

variable [DecidableEq K]

theorem idxOf_filter_lt (p : K → Bool) {i j : K} (hi : p i = true) (hj : p j = true) (q : List K) :
    (q.filter p).idxOf i < (q.filter p).idxOf j ↔ q.idxOf i < q.idxOf j := by
  induction q with
  | nil => rfl
  | cons k rest ih =>
    by_cases ei : k = i
    · subst ei
      rw [filter_cons_of_pos hi, idxOf_cons_self, idxOf_cons_self]
      by_cases ej : k = j
      · simp [ej]
      · simp [idxOf_cons_ne _ ej]
    · by_cases ej : k = j
      · subst ej
        simp [filter_cons_of_pos hj]
      · rw [idxOf_cons_ne _ ei, idxOf_cons_ne _ ej, Nat.succ_lt_succ_iff, ← ih]
        cases hk : p k with
        | false => rw [filter_cons_of_neg (by simp [hk])]
        | true =>
          rw [filter_cons_of_pos hk, idxOf_cons_ne _ ei, idxOf_cons_ne _ ej,
            Nat.succ_lt_succ_iff]

theorem mem_of_filter {q q' : List K} {W : K → Prop} {i : K}
    (hq : ∀ p : K → Bool, (∀ i, p i = true → W i) → q'.filter p = q.filter p) (hi : W i)
    (hm : i ∈ q) : i ∈ q' := by
  have e := hq (fun k => decide (k = i)) (fun k hk => by simpa [of_decide_eq_true hk] using hi)
  have hm' : i ∈ q.filter (fun k => decide (k = i)) := mem_filter.mpr ⟨hm, by simp⟩
  rw [← e] at hm'
  exact (mem_filter.mp hm').1

structure Fifo (q : List K) (W : K → Prop) (t : K → Nat) : Prop where
  mem : ∀ i, W i → i ∈ q
  order : ∀ i j, W i → W j → t i < t j → q.idxOf i < q.idxOf j

namespace Fifo
variable {q q' : List K} {W W' : K → Prop} {t t' : K → Nat} {x : K}

theorem of_empty (h : ∀ i, ¬ W i) : Fifo q W t :=
  ⟨fun i hi => absurd hi (h i), fun i _ hi => absurd hi (h i)⟩

theorem mono (h : Fifo q W t) (hW : ∀ i, W' i → W i) (ht : ∀ i, W' i → t' i = t i) :
    Fifo q W' t' where
  mem i hi := h.mem i (hW i hi)
  order i j hi hj hlt := by
    rw [ht i hi, ht j hj] at hlt
    exact h.order i j (hW i hi) (hW j hj) hlt

theorem append (h : Fifo q W t) (r : List K) : Fifo (q ++ r) W t where
  mem i hi := mem_append_left r (h.mem i hi)
  order i j hi hj hlt := by
    rw [idxOf_append_of_mem (h.mem i hi), idxOf_append_of_mem (h.mem j hj)]
    exact h.order i j hi hj hlt

theorem trim (h : Fifo q W t)
    (hq : ∀ p : K → Bool, (∀ i, p i = true → W i) → q'.filter p = q.filter p) : Fifo q' W t where
  mem i hi := mem_of_filter hq hi (h.mem i hi)
  order i j hi hj hlt := by
    have e := hq (fun k => decide (k = i ∨ k = j)) (fun k hk => by
      rcases of_decide_eq_true hk with rfl | rfl
      · exact hi
      · exact hj)
    rw [← idxOf_filter_lt (fun k => decide (k = i ∨ k = j)) (by simp) (by simp), e,
      idxOf_filter_lt _ (by simp) (by simp)]
    exact h.order i j hi hj hlt

/-- where the key `x` with the stamp `n` would stand: in its place among the waiting keys, or behind
them all when it has no entry -/
def Fits (q : List K) (W : K → Prop) (t : K → Nat) (x : K) (n : Nat) : Prop :=
  ∀ j, W j → j ≠ x → if x ∈ q then (t j < n → q.idxOf j < q.idxOf x) ∧ (n < t j → q.idxOf x < q.idxOf j)
    else t j ≤ n

/-- a key starts to wait, with a new entry -/
theorem enter (h : Fifo q W t) {n : Nat} (hx : Fits q W t x n) (hW : ∀ i, W' i → i ≠ x → W i)
    (ht : ∀ i, W' i → i ≠ x → t' i = t i) (hn : t' x = n) : Fifo (q ++ [x]) W' t' where
  mem i hi := by
    by_cases e : i = x
    · simp [e]
    · exact mem_append_left _ (h.mem i (hW i hi e))
  order i j hi hj hlt := by
    by_cases ei : i = x
    · by_cases ej : j = x
      · rw [ei, ej] at hlt
        exact absurd hlt (Nat.lt_irrefl _)
      · have hjm := h.mem j (hW j hj ej)
        have hf := hx j (hW j hj ej) ej
        rw [ei, ht j hj ej, hn] at hlt
        rw [ei]
        split at hf
        · next hm =>
          rw [idxOf_append_of_mem hm, idxOf_append_of_mem hjm]
          exact hf.2 hlt
        · omega
    · have him := h.mem i (hW i hi ei)
      rw [idxOf_append_of_mem him]
      by_cases ej : j = x
      · have hf := hx i (hW i hi ei) ei
        rw [ej, ht i hi ei, hn] at hlt
        rw [ej]
        split at hf
        · next hm =>
          rw [idxOf_append_of_mem hm]
          exact hf.1 hlt
        · next hm =>
          rw [idxOf_append_of_notMem hm]
          have := idxOf_lt_length_of_mem him
          omega
      · rw [idxOf_append_of_mem (h.mem j (hW j hj ej))]
        rw [ht i hi ei, ht j hj ej] at hlt
        exact h.order i j (hW i hi ei) (hW j hj ej) hlt

theorem first (h : Fifo q W t) {v j : K} (hv : W v) (hj : W j) (hne : j ≠ v)
    (hinj : t j = t v → j = v) (hle : q.idxOf v ≤ q.idxOf j) : t v < t j := by
  by_contra hc
  have hlt : t j < t v := Nat.lt_of_le_of_ne (Nat.le_of_not_lt hc) (fun e => hne (hinj e))
  have := h.order j v hj hv hlt
  omega

end Fifo
end Plow.Lib
