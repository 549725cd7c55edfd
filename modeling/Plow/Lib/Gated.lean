import Mathlib

/-!
# Items that start when others are done

An item starts once and finishes later; whether it may start is told by what is done.  Where a
relation says some of what has to be done first (`Respects`), what it leads from is done before what
it leads to starts (`done_of_path`); where it says all (`OrderedBy`), nothing else is in every run
(`before_iff`).
-/

namespace Plow.Lib

open Finset Relation

structure Gated (α : Type) where
  items : Finset α
  /-- the item may start when exactly these are done -/
  enabled : Finset α → α → Prop

namespace Gated
variable {α : Type} [DecidableEq α] {G : Gated α} {R : α → α → Prop} {rank : α → ℕ}

structure State (α : Type) where
  started : Finset α
  done : Finset α

def init : State α := ⟨∅, ∅⟩

inductive Step (G : Gated α) : State α → State α → Prop where
  | start {s : State α} {x : α} (mem : x ∈ G.items) (idle : x ∉ s.started)
      (enabled : G.enabled s.done x) : Step G s ⟨insert x s.started, s.done⟩
  | finish {s : State α} {x : α} (started : x ∈ s.started) (running : x ∉ s.done) :
      Step G s ⟨s.started, insert x s.done⟩

def Reachable (G : Gated α) : State α → Prop := Relation.ReflTransGen G.Step init

/-- An item may start only if those `R` puts before it are done. -/
def Respects (G : Gated α) (R : α → α → Prop) : Prop :=
  ∀ done ⊆ G.items, ∀ x ∈ G.items, G.enabled done x → ∀ y, R y x → y ∈ done

/-- An item may start exactly if those `R` puts before it are done. -/
def OrderedBy (G : Gated α) (R : α → α → Prop) : Prop :=
  ∀ done ⊆ G.items, ∀ x ∈ G.items, G.enabled done x ↔ ∀ y, R y x → y ∈ done

/-- what holds of the states of a run -/
structure Run (G : Gated α) (R : α → α → Prop) (s : State α) : Prop where
  items : s.started ⊆ G.items
  sub : s.done ⊆ s.started
  before : ∀ x ∈ s.started, ∀ y, R y x → y ∈ s.done

theorem OrderedBy.respects (h : G.OrderedBy R) : G.Respects R := fun done hd x hx =>
  (h done hd x hx).mp

theorem Run.step (hR : G.Respects R) {s s' : State α} (h : G.Run R s) (hs : G.Step s s') :
    G.Run R s' := by
  cases hs with
  | @start x mem idle enabled =>
    refine ⟨insert_subset mem h.items, h.sub.trans (subset_insert _ _), ?_⟩
    intro z hz y hy
    rcases mem_insert.mp hz with rfl | hz
    · exact hR _ (h.sub.trans h.items) _ mem enabled y hy
    · exact h.before z hz y hy
  | finish started running =>
    refine ⟨h.items, insert_subset started h.sub, fun z hz y hy => ?_⟩
    exact mem_insert_of_mem (h.before z hz y hy)

theorem Reachable.run (hR : G.Respects R) {s : State α} (h : G.Reachable s) : G.Run R s := by
  induction h with
  | refl =>
    exact ⟨empty_subset _, Finset.Subset.refl _, fun x hx => absurd hx (notMem_empty x)⟩
  | tail _ hs ih => exact ih.step hR hs

theorem done_of_path (hR : G.Respects R) {s : State α} (h : G.Reachable s) {x y : α}
    (hp : TransGen R y x) (hx : x ∈ s.started) : y ∈ s.done := by
  have hrun := h.run hR
  induction hp using TransGen.head_induction_on with
  | single hy => exact hrun.before x hx _ hy
  | head hyz _ ih => exact hrun.before _ (hrun.sub ih) _ hyz

/-- A set of items that nothing outside comes before can run alone. -/
theorem exists_ran (hR : G.OrderedBy R) (hrank : ∀ y x, R y x → rank y < rank x)
    (A : Finset α) (hA : A ⊆ G.items) (hclosed : ∀ x ∈ A, ∀ y, R y x → y ∈ A) :
    G.Reachable ⟨A, A⟩ := by
  -- induction on what is left, the lowest rank first
  suffices hall : ∀ (n : ℕ) (D : Finset α), D ⊆ A → (∀ x ∈ D, ∀ y, R y x → y ∈ D) →
      (A \ D).card = n → G.Reachable ⟨D, D⟩ → G.Reachable ⟨A, A⟩ by
    exact hall _ ∅ (empty_subset A) (fun x hx => absurd hx (notMem_empty x)) rfl .refl
  intro n
  induction n with
  | zero =>
    intro D hD _ hcard hreach
    rw [card_eq_zero, sdiff_eq_empty_iff_subset] at hcard
    rwa [Finset.Subset.antisymm hcard hD]
  | succ n ih =>
    intro D hD hdown hcard hreach
    have hne : (A \ D).Nonempty := card_pos.mp (by omega)
    obtain ⟨x, hx, hmin⟩ := exists_min_image (A \ D) rank hne
    obtain ⟨hxA, hxD⟩ := mem_sdiff.mp hx
    have hbefore : ∀ y, R y x → y ∈ D := by
      intro y hy
      by_contra hyD
      have := hmin y (mem_sdiff.mpr ⟨hclosed x hxA y hy, hyD⟩)
      have := hrank y x hy
      omega
    have hen : G.enabled D x := (hR D (hD.trans hA) x (hA hxA)).mpr hbefore
    have h1 : G.Reachable ⟨insert x D, D⟩ := hreach.tail (.start (hA hxA) hxD hen)
    have h2 : G.Reachable ⟨insert x D, insert x D⟩ :=
      h1.tail (.finish (mem_insert_self x D) hxD)
    refine ih (insert x D) (insert_subset hxA hD) ?_ ?_ h2
    · intro z hz y hy
      rcases mem_insert.mp hz with rfl | hz
      · exact mem_insert_of_mem (hbefore y hy)
      · exact mem_insert_of_mem (hdown z hz y hy)
    · rw [sdiff_insert, card_erase_of_mem hx, hcard]
      rfl

/-- An item is done before another starts in every run exactly if the relation leads there. -/
theorem before_iff (hR : G.OrderedBy R) (hrank : ∀ y x, R y x → rank y < rank x)
    (hitems : ∀ y x, R y x → y ∈ G.items) {x y : α} (hx : x ∈ G.items) :
    (∀ s, G.Reachable s → x ∈ s.started → y ∈ s.done) ↔ TransGen R y x := by
  classical
  refine ⟨fun h => ?_, fun hp s hs hxs => done_of_path hR.respects hs hp hxs⟩
  -- run what comes before `x`, then start it
  obtain ⟨A, hA⟩ : ∃ A : Finset α, A = G.items.filter fun z => TransGen R z x := ⟨_, rfl⟩
  have hmem : ∀ z, z ∈ A ↔ TransGen R z x := by
    intro z
    rw [hA, mem_filter]
    refine ⟨And.right, fun hz => ⟨?_, hz⟩⟩
    obtain ⟨w, hw, -⟩ := TransGen.head'_iff.mp hz
    exact hitems z w hw
  have hsub : A ⊆ G.items := hA ▸ filter_subset _ _
  have hran : G.Reachable ⟨A, A⟩ := exists_ran hR hrank A hsub fun z hz w hw =>
    (hmem w).mpr (.head hw ((hmem z).mp hz))
  have hnot : x ∉ A := by
    intro hxA
    have hlt : ∀ z, TransGen R z x → rank z < rank x := fun z hz => by
      induction hz using TransGen.head_induction_on with
      | single h => exact hrank _ _ h
      | head h _ ih => exact (hrank _ _ h).trans ih
    exact Nat.lt_irrefl _ (hlt x ((hmem x).mp hxA))
  have hstart : G.Reachable ⟨insert x A, A⟩ :=
    hran.tail (.start hx hnot ((hR A hsub x hx).mpr fun z hz => (hmem z).mpr (.single hz)))
  exact (hmem y).mp (h _ hstart (mem_insert_self x A))

end Gated

end Plow.Lib
