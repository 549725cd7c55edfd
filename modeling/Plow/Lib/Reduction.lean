import Mathlib

/-!
# Transitive reduction

The edges of a graph whose sources are below their targets, less those that a path of two or more
edges implies (`transitiveReduction`).  The edges that are left reach what all of them reach
(`reduction_reaches`).
-/

namespace Plow.Lib
open Relation Function List

def succ (edges : Finset (ℕ × ℕ)) (a : ℕ) : Finset ℕ :=
  (edges.filter (·.1 = a)).image Prod.snd

/-- what is reached from each node below `n`, computed from the last to the first -/
def reach (n : ℕ) (edges : Finset (ℕ × ℕ)) : ℕ → Finset ℕ :=
  (List.range n).foldr (fun a reach =>
    Function.update reach a (succ edges a ∪ (succ edges a).biUnion reach)) fun _ => ∅

def transitiveReduction (n : ℕ) (edges : Finset (ℕ × ℕ)) : Finset (ℕ × ℕ) :=
  edges.filter fun e =>
    ¬ ∃ m ∈ succ edges e.1, m ≠ e.2 ∧ e.2 ∈ reach n edges m

section
variable {n a b : ℕ} {edges : Finset (ℕ × ℕ)}

theorem mem_succ : b ∈ succ edges a ↔ (a, b) ∈ edges := by
  simp [succ]

theorem reach_sound (h : b ∈ reach n edges a) :
    TransGen (fun x y => (x, y) ∈ edges) a b := by
  suffices hall : ∀ l : List ℕ, ∀ a b, b ∈ l.foldr (fun a reach =>
      update reach a (succ edges a ∪ (succ edges a).biUnion reach)) (fun _ => ∅) a →
      TransGen (fun x y => (x, y) ∈ edges) a b from hall _ a b h
  intro l
  induction l with
  | nil =>
    intro a b hb
    exact absurd hb (Finset.notMem_empty b)
  | cons c l ih =>
    intro a b hb
    rw [foldr_cons] at hb
    by_cases hac : a = c
    · subst hac
      rw [update_self] at hb
      rcases Finset.mem_union.mp hb with hb | hb
      · exact .single (mem_succ.mp hb)
      · obtain ⟨m, hm, hmb⟩ := Finset.mem_biUnion.mp hb
        exact .head (mem_succ.mp hm) (ih m b hmb)
    · rw [update_of_ne hac] at hb
      exact ih a b hb

theorem reach_complete (htop : ∀ e ∈ edges, e.1 < e.2 ∧ e.2 < n)
    (h : TransGen (fun x y => (x, y) ∈ edges) a b) : b ∈ reach n edges a := by
  -- a node is not written after those it leads to
  have hall : ∀ m ≤ n, ∀ a b, n - m ≤ a → TransGen (fun x y => (x, y) ∈ edges) a b →
      b ∈ ((range n).drop (n - m)).foldr (fun a reach =>
        update reach a (succ edges a ∪ (succ edges a).biUnion reach)) (fun _ => ∅) a := by
    intro m
    induction m with
    | zero =>
      intro _ a b ha hab
      obtain ⟨c, hac, -⟩ := TransGen.head'_iff.mp hab
      have := htop _ hac
      omega
    | succ m ih =>
      intro hm a b ha hab
      have hlt : n - (m + 1) < (range n).length := by
        rw [length_range]
        omega
      rw [drop_eq_getElem_cons hlt, getElem_range, foldr_cons,
        show n - (m + 1) + 1 = n - m by omega]
      by_cases heq : a = n - (m + 1)
      · obtain ⟨c, hac, hcb⟩ := TransGen.head'_iff.mp hab
        have hc := htop _ hac
        simp only at hc
        rw [← heq, update_self, Finset.mem_union, Finset.mem_biUnion]
        rcases reflTransGen_iff_eq_or_transGen.mp hcb with rfl | hcb
        · exact Or.inl (mem_succ.mpr hac)
        · exact Or.inr ⟨c, mem_succ.mpr hac, ih (by omega) c b (by omega) hcb⟩
      · rw [update_of_ne heq]
        exact ih (by omega) a b (by omega) hab
  have hrange := hall n (Nat.le_refl n) a b (by omega) h
  rwa [Nat.sub_self, drop_zero] at hrange

/-- An edge that is left is the only way from its source to its target. -/
theorem reduction_minimal (htop : ∀ e ∈ edges, e.1 < e.2 ∧ e.2 < n) {e : ℕ × ℕ}
    (he : e ∈ transitiveReduction n edges) :
    ¬ TransGen (fun x y => (x, y) ∈ (transitiveReduction n edges).erase e) e.1 e.2 := by
  intro hpath
  obtain ⟨m, hm, hrest⟩ := TransGen.head'_iff.mp hpath
  have hne : m ≠ e.2 := fun heq => (Finset.mem_erase.mp hm).1 (by rw [heq])
  have hsub : ∀ x y, (x, y) ∈ (transitiveReduction n edges).erase e → (x, y) ∈ edges :=
    fun x y hxy => Finset.mem_of_mem_filter _ (Finset.mem_of_mem_erase hxy)
  have hmb := (reflTransGen_iff_eq_or_transGen.mp hrest).resolve_left hne.symm
  exact (Finset.mem_filter.mp he).2
    ⟨m, mem_succ.mpr (hsub _ _ hm), hne, reach_complete htop (TransGen.mono hsub _ _ hmb)⟩

theorem lt_of_path (htop : ∀ e ∈ edges, e.1 < e.2)
    (h : TransGen (fun x y => (x, y) ∈ edges) a b) : a < b := by
  induction h with
  | single h => exact htop _ h
  | tail _ h ih => exact Nat.lt_trans ih (htop _ h)

/-- What the edges reach is reached by those that are left. -/
theorem reduction_reaches (htop : ∀ e ∈ edges, e.1 < e.2)
    (h : TransGen (fun x y => (x, y) ∈ edges) a b) :
    TransGen (fun x y => (x, y) ∈ transitiveReduction n edges) a b := by
  -- induction on the length of the span; the edges of a path are shorter than the edge it implies
  suffices hall : ∀ k, ∀ a b, b - a ≤ k →
      TransGen (fun x y => (x, y) ∈ edges) a b →
      TransGen (fun x y => (x, y) ∈ transitiveReduction n edges) a b from
    hall _ a b le_rfl h
  intro k
  induction k with
  | zero =>
    intro a b hk h
    have := lt_of_path htop h
    omega
  | succ k ih =>
    intro a b hk h
    rcases TransGen.head'_iff.mp h with ⟨m, ham, hmb⟩
    have ham' := htop _ ham
    rcases reflTransGen_iff_eq_or_transGen.mp hmb with rfl | hmb
    · by_cases hkeep : (a, b) ∈ transitiveReduction n edges
      · exact .single hkeep
      · have hred : ∃ m ∈ succ edges a, m ≠ b ∧ b ∈ reach n edges m := by
          by_contra hno
          exact hkeep (Finset.mem_filter.mpr ⟨ham, hno⟩)
        obtain ⟨m, hm, -, hreach⟩ := hred
        have hm := mem_succ.mp hm
        have hmb := reach_sound hreach
        have h1 := htop _ hm
        have h2 := lt_of_path htop hmb
        simp only at h1 ham'
        exact (ih a m (by omega) (.single hm)).trans (ih m b (by omega) hmb)
    · have h2 := lt_of_path htop hmb
      simp only at ham'
      exact (ih a m (by omega) (.single ham)).trans (ih m b (by omega) hmb)

end
end Plow.Lib
