import Plow.Devbuild.Keeps
import Plow.Lib.PathSearch

/-!
# The witness of the reduction

`finish` records the coarse edges that it reduced, those that it kept, and for each of the first a
path of the others.  The paths are there (`reduction_witnessed`).
-/

namespace Plow.Devbuild
open List

structure ReductionWitness where
  original : List (ℕ × ℕ)
  retained : List (ℕ × ℕ)
  paths : List (Option (List ℕ))

/-- the retained edges from a node, in order -/
def nextOf (retained : Finset (ℕ × ℕ)) (a : ℕ) : List ℕ := (Lib.succ retained a).sort

def ReductionWitness.new (n : ℕ) (original : List (ℕ × ℕ)) (retained : Finset (ℕ × ℕ)) :
    ReductionWitness where
  original
  retained := ((retained.image toLex).sort).map ofLex
  paths := original.map fun e =>
    if e ∈ retained then some [] else Lib.pathTo (nextOf retained) n e.1 e.2

/-- the coarse dependencies, in the order of their consumers -/
def originalCoarse (ops : List Op) : List (ℕ × ℕ) :=
  ops.zipIdx.flatMap fun p => p.1.deps.filterMap fun d =>
    match d with
    | .coarse c => some (c, p.2)
    | .fine _ _ => none

namespace Builder

/-- the operations after the granularity is selected -/
def selected (b : Builder) (k : Launch) : Option (List Op) :=
  (b.fused k).map fun ops => selectGranularity k.fineForce (isolateNative (k.native ops) ops)

/-- the witness that `finish` leaves -/
def reductionWitness (b : Builder) (k : Launch) : Option ReductionWitness :=
  (b.selected k).map fun ops => .new ops.length (originalCoarse ops)
    (Lib.transitiveReduction ops.length (coarseEdges ops))

end Builder

variable {n : ℕ} {edges retained : Finset (ℕ × ℕ)} {ops : List Op} {a c : ℕ} {e : ℕ × ℕ}

theorem mem_retained {original : List (ℕ × ℕ)} :
    e ∈ (ReductionWitness.new n original retained).retained ↔ e ∈ retained := by
  rw [ReductionWitness.new, mem_map]
  constructor
  · rintro ⟨x, hx, rfl⟩
    obtain ⟨y, hy, rfl⟩ := Finset.mem_image.mp ((Finset.mem_sort _).mp hx)
    exact hy
  · intro h
    exact ⟨toLex e, (Finset.mem_sort _).mpr (Finset.mem_image_of_mem _ h), rfl⟩

theorem mem_nextOf {b : ℕ} : b ∈ nextOf retained a ↔ (a, b) ∈ retained := by
  rw [nextOf, Finset.mem_sort, Lib.mem_succ]

/-- The edges of a graph that is reduced have a path each. -/
theorem witness_path (htop : ∀ e ∈ edges, e.1 < e.2 ∧ e.2 < n) (he : e ∈ edges) :
    ∃ path, (if e ∈ Lib.transitiveReduction n edges then some []
        else Lib.pathTo (nextOf (Lib.transitiveReduction n edges)) n e.1 e.2) = some path ∧
      (path = [] ↔ e ∈ Lib.transitiveReduction n edges) ∧
      Lib.Leads (nextOf (Lib.transitiveReduction n edges)) e.1 path e.2 := by
  split
  · next hkeep =>
    exact ⟨[], rfl, iff_of_true rfl hkeep, .cons_cons (mem_nextOf.mpr hkeep) (.singleton _)⟩
  · next hkeep =>
    have hreach := @Lib.reduction_reaches n e.1 e.2 _ (fun x hx => (htop x hx).1) (.single he)
    obtain ⟨path, hpath, hleads⟩ := @Lib.pathTo_complete
      (nextOf (Lib.transitiveReduction n edges)) n e.1 e.2
      (fun a b hb => htop _ (Finset.mem_of_mem_filter _ (mem_nextOf.mp hb)))
      (by simpa only [mem_nextOf] using hreach)
    refine ⟨path, hpath, iff_of_false (fun hnil => hkeep ?_) hkeep, hleads⟩
    rw [hnil] at hleads
    exact mem_nextOf.mp hleads.rel

/-- Reduction keeps what is reached, and no edge more than it needs; the witness of a builder lists
the coarse edges and gives a path of the retained ones for each. -/
theorem reduction_witnessed :
    (∀ (n : ℕ) (edges : Finset (ℕ × ℕ)), (∀ e ∈ edges, e.1 < e.2 ∧ e.2 < n) →
      let kept := Lib.transitiveReduction n edges
      kept ⊆ edges ∧
        (∀ a b, Relation.TransGen (fun x y => (x, y) ∈ kept) a b ↔
          Relation.TransGen (fun x y => (x, y) ∈ edges) a b) ∧
        ∀ e ∈ kept, ¬ Relation.TransGen (fun x y => (x, y) ∈ kept.erase e) e.1 e.2) ∧
      ∀ (b : Builder) (k : Launch) (p : Program), Reach b → b.finish k = some p →
        ∃ ops w, b.selected k = some ops ∧ b.reductionWitness k = some w ∧
          w.original = originalCoarse ops ∧
          (∀ a c, (a, c) ∈ w.retained ↔ CoarseEdge (reduceDeps ops) a c) ∧
          w.paths.length = w.original.length ∧
          ∀ (i : ℕ) e, w.original[i]? = some e → ∃ path, w.paths[i]? = some (some path) ∧
            (path = [] ↔ e ∈ w.retained) ∧
            IsChain (fun x y => (x, y) ∈ w.retained) (e.1 :: (path ++ [e.2])) := by
  refine ⟨fun n edges htop => ⟨Finset.filter_subset _ _, fun a b => ⟨?_, ?_⟩, ?_⟩, ?_⟩
  · exact Relation.TransGen.mono (fun x y hxy => Finset.mem_of_mem_filter _ hxy) a b
  · exact Lib.reduction_reaches fun e he => (htop e he).1
  · exact fun e he => Lib.reduction_minimal htop he
  · intro b k p hb hp
    obtain ⟨ops, hops, -⟩ := Option.bind_eq_some_iff.mp hp
    have hf : Formed b.nCu (selectGranularity k.fineForce
        (Builder.isolateNative (k.native ops) ops)) :=
      granularity_formed ((Builder.fused_formed hb.formed hops).mapIdx
        fun _ _ hx => hx.congr ⟨rfl, rfl, rfl⟩)
    have hsel : b.selected k = some (selectGranularity k.fineForce
        (Builder.isolateNative (k.native ops) ops)) := by
      rw [Builder.selected, hops]
      rfl
    generalize selectGranularity k.fineForce (Builder.isolateNative (k.native ops) ops) = sel
      at hf hsel
    have htop : ∀ e ∈ coarseEdges sel, e.1 < e.2 ∧ e.2 < sel.length := by
      rintro ⟨a, c⟩ he
      obtain ⟨op, hop, hd⟩ := mem_coarseEdges.mp he
      exact ⟨(hf c op hop).dep_lt _ hd, (List.getElem?_eq_some_iff.mp hop).1⟩
    refine ⟨sel, _, hsel, by rw [Builder.reductionWitness, hsel]; rfl, rfl, fun a c => ?_,
      length_map _, fun i e hi => ?_⟩
    · rw [mem_retained, coarseEdge_reduced]
    · have hi : (originalCoarse sel)[i]? = some e := hi
      obtain ⟨path, hpath, hnil, hleads⟩ := witness_path htop
        (mem_toFinset.mpr (mem_of_getElem? hi) : e ∈ coarseEdges sel)
      refine ⟨path, ?_, hnil.trans mem_retained.symm, ?_⟩
      · refine getElem?_map.trans ?_
        rw [hi]
        exact congrArg some hpath
      · simpa only [mem_retained, Lib.Leads, mem_nextOf] using hleads

/-- of two operations one behind the other, and of a chain with a shortcut -/
theorem reduction_witnessed_pair :
    ¬ Relation.TransGen (fun x y => (x, y) ∈ (Lib.transitiveReduction 3
        {(0, 1), (1, 2), (0, 2)}).erase (0, 1)) 0 1 ∧
      ∃ b, Builder.pairOn [0, 1] = some b ∧ ∃ w, b.reductionWitness Builder.plainLaunch = some w ∧
        ∃ path, w.paths[0]? = some (some path) ∧
          IsChain (fun x y => (x, y) ∈ w.retained) (0 :: (path ++ [1])) := by
  obtain ⟨hgraph, hwitness⟩ := reduction_witnessed
  obtain ⟨b, hb⟩ : ∃ b, Builder.pairOn [0, 1] = some b := ⟨_, rfl⟩
  obtain ⟨p, hp⟩ : ∃ p, b.finish Builder.plainLaunch = some p := by
    cases hb
    exact ⟨_, rfl⟩
  refine ⟨(hgraph 3 {(0, 1), (1, 2), (0, 2)} (by decide)).2.2 (0, 1) (by decide), b, hb, ?_⟩
  obtain ⟨ops, w, hops, hw, horig, -, -, hall⟩ := hwitness b _ p (Builder.pairOn_reach hb) hp
  obtain ⟨path, hpath, -, hchain⟩ := hall 0 (0, 1) (by
    cases hb
    cases hops
    rw [horig]
    rfl)
  exact ⟨w, hw, path, hpath, hchain⟩

end Plow.Devbuild
