import Plow.Devbuild.Model
import Plow.Lib.Reduction

/-!
# Whole-graph fusion

Two passes over the operations replace a producer and the consumer right behind it by one
operation: a `Residual` by the `AttnRes` it feeds, and an `AttnRes` by the two-shot reduction that
feeds it.  They differ in the pairs they take (`residualPair`, `xreducePair`) and in what they make
of a pair (`intoAttnRes`, `intoXreduce`); `fuseLoop` renumbers the operations.
-/

namespace Plow.Devbuild

/-- `ProgramGraph::from_ops`: the dependencies name earlier operations -/
def Topological (ops : List Op) : Prop :=
  ∀ i, ∀ op : Op, ops[i]? = some op → ∀ d ∈ op.deps, d.producer < i

instance (ops : List Op) : Decidable (Topological ops) :=
  decidable_of_iff (∀ p ∈ ops.zipIdx, ∀ d ∈ p.1.deps, d.producer < p.2) (by
    constructor
    · intro h i op hop d hd
      exact h (op, i) (List.mem_zipIdx_iff_getElem?.mpr hop) d hd
    · rintro h ⟨op, i⟩ hp d hd
      exact h i op (List.mem_zipIdx_iff_getElem?.mp hp) d hd)

def predecessors (ops : List Op) (i : ℕ) : List ℕ :=
  (ops[i]?.map fun op => op.deps.map Dep.producer).getD []

def successors (ops : List Op) (p : ℕ) : List ℕ :=
  ops.zipIdx.flatMap fun c => (c.1.deps.filter fun d => d.producer = p).map fun _ => c.2

def u32? (n : ℕ) : Option ℕ := if n < 4294967296 then some n else none

/-- `compatible` of `fuse_materialized_residual_inputs` -/
def residualPair (ops : List Op) (p : ℕ) : Option Unit := do
  let producer ← ops[p]?
  let consumer ← ops[p + 1]?
  guard (predecessors ops (p + 1) = [p])
  guard (producer.inst.op = opResidual ∧ consumer.inst.op = opAttnRes)
  guard (consumer.deps = [.coarse p])
  guard (producer.deps.all fun d => !d.isFine)
  guard (producer.inst.t 0 = consumer.inst.t 1)
  guard (producer.inst.t 1 ≠ tensorNone ∧ producer.inst.t 2 ≠ tensorNone)
  guard (u32? (consumer.inst.i 0 * consumer.inst.i 1) = some (producer.inst.i 0))
  guard (producer.inst.f 0 = 0x3f800000)
  guard (consumer.inst.t 6 = tensorNone ∧ consumer.inst.t 7 = tensorNone)
  guard (consumer.inst.i 5 = tensorNoneI)

def intoAttnRes (producer consumer : Op) (_ : Unit) : Op :=
  { consumer with
    inst := { consumer.inst with
      t := Function.update (Function.update consumer.inst.t 6 (producer.inst.t 1)) 7
        (producer.inst.t 2)
      i := Function.update consumer.inst.i 5
        (if producer.inst.t 3 = tensorNone then tensorNoneI else producer.inst.t 3) } }

/-- the addend that `fuse_xreduce_attnres` hands to the reduction -/
def xreduceResidual (producer consumer : DevInst) : Option ℕ :=
  if consumer.t 6 = producer.t 0 ∧ consumer.t 7 ≠ tensorNone then some (consumer.t 7)
  else if consumer.t 7 = producer.t 0 ∧ consumer.t 6 ≠ tensorNone then some (consumer.t 6)
  else if consumer.t 6 = tensorNone ∧ consumer.t 7 = tensorNone ∧ consumer.t 1 = producer.t 0 then
    some tensorNone
  else none

/-- `compatible` of `fuse_xreduce_attnres` -/
def xreducePair (ops : List Op) (p : ℕ) : Option ℕ := do
  let producer ← ops[p]?
  let consumer ← ops[p + 1]?
  guard (predecessors ops (p + 1) = [p])
  guard (producer.inst.op = opXReduceTwoShot ∧ consumer.inst.op = opAttnRes)
  guard (consumer.deps = [.coarse p])
  guard (successors ops p = [p + 1])
  guard (∀ k : Fin 8, 1 ≤ k → producer.inst.t k = tensorNone)
  guard (∀ k : Fin 8, 5 ≤ k → producer.inst.i k = 0)
  guard (1 < producer.inst.i 1)
  guard (consumer.inst.i 0 % producer.inst.i 1 = 0)
  guard (u32? (consumer.inst.i 0 * consumer.inst.i 1) = some (producer.inst.i 0))
  guard (producer.cus = consumer.cus)
  guard (consumer.inst.t 1 ≠ tensorNone ∧ consumer.inst.t 2 ≠ tensorNone ∧
    consumer.inst.t 3 ≠ tensorNone ∧ consumer.inst.t 4 = tensorNone ∧
    consumer.inst.t 5 ≠ tensorNone)
  guard (consumer.inst.i 5 = tensorNoneI)
  xreduceResidual producer.inst consumer.inst

def intoXreduce (producer consumer : Op) (residual : ℕ) : Op :=
  let d := producer.inst
  let c := consumer.inst
  { producer with
    inst := { d with
      t := fun k => match k with
        | 1 => residual
        | 2 => c.t 0
        | 3 => c.t 2
        | 4 => c.t 3
        | 5 => c.t 5
        | 6 => c.t 1
        | k => d.t k
      i := fun k => match k with
        | 5 => c.i 1
        | 6 => c.i 2
        | 7 => c.i 4
        | k => d.i k
      f := Function.update d.f 0 (c.f 0) } }

def Dep.remap (map : ℕ → ℕ) : Dep → Dep
  | .coarse c => .coarse (map c)
  | .fine producer fineMap => .fine (map producer) fineMap

section
variable {D : Type} (pair : ℕ → Option D) (into : Op → Op → D → Op)

/-- the operations from the `idx`-th on, under the numbers `map` gives to those before them -/
def fuseLoop : ℕ → (ℕ → ℕ) → List Op → List Op → List Op
  | _, _, out, [] => out
  | _, map, out, [op] =>
    out ++ [{ op with deps := op.deps.map (Dep.remap map), counter := out.length }]
  | idx, map, out, op :: consumer :: rest =>
    match pair idx with
    | some d =>
      fuseLoop (idx + 2)
        (Function.update (Function.update map idx out.length) (idx + 1) out.length)
        (out ++ [{ into op consumer d with
          deps := op.deps.map (Dep.remap map), counter := out.length }])
        rest
    | none =>
      fuseLoop (idx + 1) (Function.update map idx out.length)
        (out ++ [{ op with deps := op.deps.map (Dep.remap map), counter := out.length }])
        (consumer :: rest)

end

def u32Max : ℕ := 0xffffffff

def fuseMaterializedResidualInputs (ops : List Op) : Option (List Op) :=
  if Topological ops then
    some (fuseLoop (residualPair ops) intoAttnRes 0 (fun _ => u32Max) [] ops)
  else none

def fuseXreduceAttnres (ops : List Op) : Option (List Op) :=
  if Topological ops then
    some (fuseLoop (xreducePair ops) intoXreduce 0 (fun _ => u32Max) [] ops)
  else none

end Plow.Devbuild

/-!
# The dependencies that `finish` keeps

`selectGranularity` makes a fine dependency coarse where every operation of the region it belongs
to is uniform; `reduceDeps` drops the coarse dependencies that a path of others implies;
`resliceClass` and `resliceGemv` give operations more slices.
-/

namespace Plow.Devbuild

/-! ### Coarse or fine -/

/-- `find` with path halving; `fuel` bounds the steps to the root -/
def find : ℕ → List ℕ → ℕ → List ℕ × ℕ
  | 0, uf, x => (uf, x)
  | fuel + 1, uf, x =>
    if uf.getD x x = x then (uf, x)
    else
      let up := uf.getD (uf.getD x x) (uf.getD x x)
      find fuel (uf.set x up) up

/-- the regions: a fine dependency joins its producer and its consumer -/
def unite (ops : List Op) : List ℕ :=
  ops.zipIdx.foldl (fun uf p =>
    (p.1.deps.filter Dep.isFine).foldl (fun uf d =>
      let (uf, a) := find ops.length uf p.2
      let (uf, b) := find ops.length uf d.producer
      if a ≠ b then uf.set a b else uf) uf) (List.range ops.length)

def hetero (op : Op) : Bool :=
  match op.work with
  | [] => false
  | w0 :: w => w.any (· ≠ w0)

/-- the regions with an operation that is not uniform, and the forest after the searches -/
def heteroRegions (ops : List Op) : List ℕ × List Bool :=
  ops.zipIdx.foldl (fun st p =>
    let (uf, r) := find ops.length st.1 p.2
    (uf, st.2.set r (st.2.getD r false || hetero p.1)))
    (unite ops, List.replicate ops.length false)

/-- the dependency as it is kept: fine if the region is not uniform or the knob asks for it -/
def granular (ops : List Op) (fineForce keep : Bool) : Dep → Dep
  | .coarse c => .coarse c
  | .fine p map =>
    let sparse := map.any (·.length < (ops[p]?.map fun op => op.cus.length).getD 0)
    if keep || (fineForce && sparse) then .fine p map else .coarse p

def granularStep (ops : List Op) (fineForce : Bool) (het : List Bool) (st : List ℕ × List Op)
    (p : Op × ℕ) : List ℕ × List Op :=
  let r := find ops.length st.1 p.2
  let deps := p.1.deps.map (granular ops fineForce (het.getD r.2 false))
  (r.1, st.2 ++ [{ p.1 with deps := deps }])

def selectGranularity (fineForce : Bool) (ops : List Op) : List Op :=
  let h := heteroRegions ops
  (ops.zipIdx.foldl (granularStep ops fineForce h.2) (h.1, [])).2

/-! ### Transitive reduction -/

def coarseEdges (ops : List Op) : Finset (ℕ × ℕ) :=
  (ops.zipIdx.flatMap fun p => p.1.deps.filterMap fun d =>
    match d with
    | .coarse c => some (c, p.2)
    | .fine _ _ => none).toFinset

/-- drops what is not kept and what is repeated; the first part is what has been seen -/
def retainStep (keep : Finset (ℕ × ℕ)) (i : ℕ) (st : List ℕ × List Dep) : Dep → List ℕ × List Dep
  | .coarse c => if (c, i) ∉ keep ∨ c ∈ st.1 then st else (st.1 ++ [c], st.2 ++ [.coarse c])
  | .fine p map => (st.1, st.2 ++ [.fine p map])

def retain (keep : Finset (ℕ × ℕ)) (i : ℕ) (deps : List Dep) : List Dep :=
  (deps.foldl (retainStep keep i) ([], [])).2

def reduceDeps (ops : List Op) : List Op :=
  let keep := Lib.transitiveReduction ops.length (coarseEdges ops)
  ops.zipIdx.map fun p => { p.1 with deps := retain keep p.2 p.1.deps }

/-! ### More slices -/

def fineProd (ops : List Op) (i : ℕ) : Bool :=
  ops.any fun op => op.deps.any fun d => d.isFine && d.producer = i

/-- `times` slices on every compute unit -/
def Op.widen (op : Op) (times : ℕ) : Op :=
  let cus := (List.replicate times op.cus).flatten
  { op with
    inst := { op.inst with blocks := cus.length % 65536 }
    work := List.replicate cus.length 1
    cus }

def reslice (nCu times : ℕ) (which : ℕ → Op → Bool) (ops : List Op) : List Op :=
  ops.zipIdx.map fun p =>
    if which p.2 p.1 && (decide (p.1.cus.length = nCu) && !p.1.deps.any Dep.isFine &&
        !fineProd ops p.2) then
      p.1.widen times
    else p.1

/-- `PLOW_SEG_CLASS_SLICE` -/
def resliceClass (nCu sliceMode : ℕ) (segSliceAll : Bool) (waveClass : ℕ → ℕ) (ops : List Op) :
    List Op :=
  reslice nCu 2 (fun i op =>
    ((sliceMode = 1 && waveClass i = 8) || (segSliceAll && waveClass i = 4)) && !op.keepSingleGrid)
    ops

def wideGemv (op : ℕ) : Bool := op = opGemv || op = opGemvGlu || op = opGemvQkv

/-- `PLOW_GEMV_SPLIT` -/
def resliceGemv (nCu gemvSplit : ℕ) (ops : List Op) : List Op :=
  if 1 < gemvSplit then reslice nCu gemvSplit (fun _ op => wideGemv op.inst.op) ops else ops

end Plow.Devbuild
