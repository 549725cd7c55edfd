import Mathlib

/-!
# Sweeps

The value of a node is a function of the values of nodes before it.  A sweep computes the nodes of a
list again, one after the other and in place; `settle` sweeps until nothing changes, a given number of
times at most.  Where the nodes have ranks below that number, everything fits in the end
(`settle_settled`), whatever it began with.
-/

namespace Plow.Lib

open List Function

variable {α : Type} [DecidableEq α] (f : (α → Nat) → α → Nat)

def sweep : List α → (α → Nat) → (α → Nat) × Bool
  | [], V => (V, false)
  | t :: l, V =>
    let r := sweep l (Function.update V t (f V t))
    (r.1, decide (f V t ≠ V t) || r.2)

def settle (nodes : List α) : Nat → (α → Nat) → α → Nat
  | 0, V => V
  | n + 1, V =>
    let r := sweep f nodes V
    if r.2 then settle nodes n r.1 else r.1

/-- the value of a node depends on nodes of a lower rank, and on its own only as it is left -/
structure Ranked (rank : α → Nat) : Prop where
  reads : ∀ V V' t, (∀ s, rank s < rank t → V s = V' s) → V t = V' t → f V t = f V' t
  again : ∀ V t, f (Function.update V t (f V t)) t = f V t

/-- the nodes of a rank below `k` fit -/
def Settled (rank : α → Nat) (nodes : List α) (k : Nat) (V : α → Nat) : Prop :=
  ∀ t ∈ nodes, rank t < k → f V t = V t

variable {f} {rank : α → Nat} {nodes l : List α} {V V' : α → Nat} {k n : Nat} {t : α}

theorem fits_update (hf : Ranked f rank) (h : Settled f rank nodes k V) {s : α} (hs : f V s = V s)
    (hk : rank s ≤ k) (ht : t ∈ nodes) : f (update V t (f V t)) s = update V t (f V t) s := by
  by_cases hst : s = t
  · rw [hst, update_self]
    exact hf.again V t
  · rw [update_of_ne hst, ← hs]
    refine hf.reads _ V s (fun q hq => ?_) (update_of_ne hst _ _)
    by_cases hqt : q = t
    · -- a node of a lower rank fits, nothing changes there
      rw [hqt, update_self]
      exact h t ht (by rw [← hqt]; omega)
    · exact update_of_ne hqt _ _

theorem settled_update (hf : Ranked f rank) (h : Settled f rank nodes k V) (ht : t ∈ nodes) :
    Settled f rank nodes k (update V t (f V t)) :=
  fun s hs hk => fits_update hf h (h s hs hk) (Nat.le_of_lt hk) ht

theorem fits_sweep (hf : Ranked f rank) (hl : ∀ t ∈ l, t ∈ nodes) (h : Settled f rank nodes k V) {s : α}
    (hs : f V s = V s) (hk : rank s ≤ k) : f (sweep f l V).1 s = (sweep f l V).1 s := by
  induction l generalizing V with
  | nil => exact hs
  | cons t l ih =>
    have ht := hl t mem_cons_self
    exact ih (fun t ht => hl t (mem_cons_of_mem _ ht)) (settled_update hf h ht) (fits_update hf h hs hk ht)

theorem sweep_fits (hf : Ranked f rank) (hl : ∀ t ∈ l, t ∈ nodes) (h : Settled f rank nodes k V) {s : α}
    (hs : s ∈ l) (hk : rank s ≤ k) : f (sweep f l V).1 s = (sweep f l V).1 s := by
  induction l generalizing V with
  | nil => cases hs
  | cons t l ih =>
    have ht := hl t mem_cons_self
    have hrest : ∀ t ∈ l, t ∈ nodes := fun t ht => hl t (mem_cons_of_mem _ ht)
    rcases mem_cons.mp hs with rfl | hs
    · refine fits_sweep hf hrest (settled_update hf h ht) ?_ hk
      rw [update_self]
      exact hf.again V s
    · exact ih hrest (settled_update hf h ht) hs

theorem sweep_unchanged (h : (sweep f l V).2 = false) : (sweep f l V).1 = V ∧ ∀ t ∈ l, f V t = V t := by
  induction l generalizing V with
  | nil => exact ⟨rfl, nofun⟩
  | cons t l ih =>
    obtain ⟨h1, h2⟩ := Bool.or_eq_false_iff.mp h
    have hfit : f V t = V t := by simpa using h1
    have hsame : update V t (f V t) = V := by
      rw [hfit, update_eq_self]
    unfold sweep
    rw [hsame] at h2 ⊢
    obtain ⟨hv, hall⟩ := ih h2
    refine ⟨hv, fun s hs => ?_⟩
    rcases mem_cons.mp hs with rfl | hs
    · exact hfit
    · exact hall s hs

theorem settle_settled (hf : Ranked f rank) (h : Settled f rank nodes k V) :
    Settled f rank nodes (k + n) (settle f nodes n V) := by
  induction n generalizing V k with
  | zero => exact h
  | succ n ih =>
    unfold settle
    dsimp only
    split
    · have hstep : Settled f rank nodes (k + 1) (sweep f nodes V).1 := fun s hs hk =>
        sweep_fits hf (fun t ht => ht) h hs (Nat.le_of_lt_succ hk)
      have := ih hstep
      rwa [Nat.add_right_comm] at this
    · next hno =>
      obtain ⟨hv, hall⟩ := sweep_unchanged (V := V) (by simpa using hno)
      rw [hv]
      exact fun s hs _ => hall s hs

theorem settle_fits (hf : Ranked f rank) (hn : ∀ t ∈ nodes, rank t < n) (ht : t ∈ nodes) :
    f (settle f nodes n V) t = settle f nodes n V t := by
  have h : Settled f rank nodes 0 V := fun s _ hk => absurd hk (Nat.not_lt_zero _)
  have := settle_settled (n := n) hf h t ht
  rw [Nat.zero_add] at this
  exact this (hn t ht)

theorem settle_keeps {P : (α → Nat) → Prop} (hP : ∀ V t, t ∈ nodes → P V → P (update V t (f V t)))
    (h : P V) : P (settle f nodes n V) := by
  have hsweep : ∀ (l : List α) (V : α → Nat), (∀ t ∈ l, t ∈ nodes) → P V → P (sweep f l V).1 := by
    intro l
    induction l with
    | nil => exact fun V _ h => h
    | cons t l ih =>
      exact fun V hl h => ih _ (fun t ht => hl t (mem_cons_of_mem _ ht)) (hP V t (hl t mem_cons_self) h)
  induction n generalizing V with
  | zero => exact h
  | succ n ih =>
    unfold settle
    dsimp only
    split
    · exact ih (hsweep nodes V (fun t ht => ht) h)
    · exact hsweep nodes V (fun t ht => ht) h

/-! ### The greatest of a list -/

theorem foldl_max_le_iff {l : List Nat} {m b : Nat} : l.foldl max m ≤ b ↔ m ≤ b ∧ ∀ a ∈ l, a ≤ b := by
  induction l generalizing m with
  | nil => exact ⟨fun h => ⟨h, nofun⟩, fun h => h.1⟩
  | cons a l ih => rw [foldl_cons, ih, Nat.max_le, forall_mem_cons, and_assoc]

theorem le_foldl_max {l : List Nat} {m a : Nat} (h : a ∈ l) : a ≤ l.foldl max m :=
  (foldl_max_le_iff.mp (Nat.le_refl _)).2 a h

theorem foldl_max_eq {l : List Nat} {m : Nat} : l.foldl max m = m ∨ l.foldl max m ∈ l := by
  induction l generalizing m with
  | nil => exact .inl rfl
  | cons a l ih =>
    rw [foldl_cons]
    rcases ih (m := max m a) with h | h
    · rw [h]
      rcases Nat.le_total m a with hle | hle
      · exact .inr (by rw [Nat.max_eq_right hle]; exact mem_cons_self)
      · exact .inl (Nat.max_eq_left hle)
    · exact .inr (mem_cons_of_mem _ h)

end Plow.Lib

/-!
# Bookings

A `Booking` is a slot held over a window of time, `start` included and `stop` not.  Bookings that are
apart hold different slots at any time, so no more of them are live than there are slots (`live_le`).
-/

namespace Plow.Lib

structure Booking (S T : Type) where
  slot : S
  start : T
  stop : T
  deriving DecidableEq, Repr

namespace Booking

variable {S T : Type} [LinearOrder T] {a b : Booking S T} {l : List (Booking S T)} {t : T}

def Covers (b : Booking S T) (t : T) : Prop := b.start ≤ t ∧ t < b.stop

instance (b : Booking S T) (t : T) : Decidable (b.Covers t) := inferInstanceAs (Decidable (_ ∧ _))

def Apart (a b : Booking S T) : Prop := a.slot = b.slot → a.stop ≤ b.start ∨ b.stop ≤ a.start

theorem Apart.symm (h : a.Apart b) : b.Apart a := fun hs => (h hs.symm).symm

theorem Apart.slot_ne (h : a.Apart b) (ha : a.Covers t) (hb : b.Covers t) : a.slot ≠ b.slot := by
  intro hs
  rcases h hs with h | h
  · exact absurd (lt_of_lt_of_le (lt_of_le_of_lt hb.1 ha.2) h) (lt_irrefl _)
  · exact absurd (lt_of_lt_of_le (lt_of_le_of_lt ha.1 hb.2) h) (lt_irrefl _)

theorem live_le {slots : List S} (hp : l.Pairwise Apart) (hs : ∀ b ∈ l, b.slot ∈ slots) (t : T) :
    (l.filter fun b => b.Covers t).length ≤ slots.length := by
  have hlive : ((l.filter fun b => b.Covers t).map (·.slot)).Nodup := by
    refine List.pairwise_map.mpr ((hp.sublist List.filter_sublist).imp_of_mem fun ha hb hab => ?_)
    exact hab.slot_ne (of_decide_eq_true (List.mem_filter.mp ha).2) (of_decide_eq_true (List.mem_filter.mp hb).2)
  have hsub : (l.filter fun b => b.Covers t).map (·.slot) ⊆ slots := by
    intro s hmem
    obtain ⟨b, hb, rfl⟩ := List.mem_map.mp hmem
    exact hs b (List.mem_filter.mp hb).1
  have hle := (List.subperm_of_subset hlive hsub).length_le
  rwa [List.length_map] at hle

end Booking
end Plow.Lib
