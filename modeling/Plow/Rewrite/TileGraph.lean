import Mathlib

/-!
# The tile graph and its constraints

The data that the scheduler gets of a layer: the tile graph, and the constraints that were recorded
while it was assembled.  A map is a function into `Option`; where the code runs over a map's entries
(`locality`) it is the list of them.
-/

namespace Plow.Rewrite

/-! ### Operators -/

structure GemmShape where
  m : Int
  n : Int
  k : Int
  deriving DecidableEq, Repr

structure AttnShape where
  heads : Int
  kvHeads : Int
  seqQ : Int
  seqKv : Int
  headDim : Int
  causal : Bool
  slidingWindow : Nat
  deriving DecidableEq, Repr

structure RowShape where
  rows : Int
  feat : Int
  operands : Int
  reduce : Bool
  deriving DecidableEq, Repr

inductive ModelOpKind where
  | embedding
  | rmsNormZeroCentered
  | rope
  | silu
  | sigmoid
  | add
  | sub
  | mul
  | div
  | causalDepthwiseConv1d
  | qwenGatedDelta
  | rmsNorm
  | scale
  | tanh
  | moeRouter
  | moeExperts
  | dsaIndexer
  | dsaAttention
  deriving DecidableEq, Repr

structure ModelOp where
  kind : ModelOpKind
  rows : Int
  feat : Int
  operands : Int
  args : List Nat
  inputBytes : List Nat
  inputRowAligned : List Bool
  deriving DecidableEq, Repr

/-- A strided block copy. -/
structure LayoutSpec where
  bytes : Nat
  kind : Nat
  rank : Nat
  elemSize : Nat
  shape : List Nat
  inStride : List Nat
  outStride : List Nat
  inBase : Nat
  outBase : Nat
  «alias» : Bool
  deriving DecidableEq, Repr

inductive OpKind where
  | gemm (g : GemmShape)
  | flash (a : AttnShape)
  | row (r : RowShape)
  | model (m : ModelOp)
  | layout (s : LayoutSpec)
  deriving DecidableEq, Repr

structure OpDesc where
  kind : OpKind
  inputs : List String
  output : String
  activationElem : Nat
  weightElem : Nat
  deriving DecidableEq, Repr

/-! ### Tiles -/

structure TileShape where
  bm : Int
  bn : Int
  bk : Int
  splitK : Int
  deriving DecidableEq, Repr

inductive Compute where
  | gemm (t : TileShape)
  | flash (bq bkv : Int)
  | row (br : Int)
  | join
  | layout
  deriving DecidableEq, Repr

/-- The grid of tile coordinates of an op. -/
inductive TileDomain where
  | row (rows br : Int)
  | gemm (m n bm bn : Int)
  | flash (heads seqQ bq : Int)
  | layout
  deriving DecidableEq, Repr

def TileDomain.rowAxis : TileDomain → Option (Nat × Int)
  | .row _ br => some (0, br)
  | .gemm _ _ bm _ => some (0, bm)
  | .flash _ _ bq => some (1, bq)
  | .layout => none

/-! ### The graph -/

inductive TileNode where
  | dmaIn (tensor : String) (resident : Bool)
  | compute (op : String) (kind : Compute) (passes sramPages : Nat) (inlineIn : List String)
      (inlineOut : Bool)
  | dmaOut (tensor : String) (resident : Bool)
  deriving DecidableEq, Repr

structure TileGraph where
  nodes : List TileNode
  edges : List (Nat × Nat)

inductive HandoffKind where
  | hbm
  | sramSameSm
  | dsm
  | l2Local
  | barrier
  | p2p
  | rdma
  deriving DecidableEq, Repr

structure Handoff where
  producerDmaOut : Nat
  consumerDmaIn : Nat
  crossUnit : Bool
  kind : HandoffKind
  deriving DecidableEq, Repr

inductive LocalityReq where
  | mustColocate
  | sameDomain
  | sameL2Partition
  | sameNode
  | noConstraint
  deriving DecidableEq, Repr

structure AxisCouple where
  consumerAxis : Nat
  producerAxis : Nat
  consumerBlock : Int
  producerBlock : Int
  deriving DecidableEq, Repr

structure TileDependency where
  tensor : String
  couple : List AxisCouple
  deriving DecidableEq, Repr

structure TileDep where
  producer : Nat
  consumer : Nat
  dep : TileDependency
  deriving DecidableEq, Repr

/-- A concat whose output is its parts laid end to end. -/
structure ConcatGroup where
  output : String
  parts : List String
  deriving DecidableEq, Repr

structure ConstraintSet where
  colocationGroups : List (List Nat)
  placement : Nat → Option Nat
  handoffs : List Handoff
  tileDeps : List TileDep
  domains : Nat → Option TileDomain
  locality : List ((Nat × Nat) × LocalityReq)
  opIo : Nat → Option OpDesc
  concatGroups : List ConcatGroup

/-- `ConstraintSet::default()` -/
def ConstraintSet.empty : ConstraintSet := ⟨[], fun _ => none, [], [], fun _ => none, [], fun _ => none, []⟩

end Plow.Rewrite

/-!
# Tile grids and footprints

The coordinates of an op's tiles, the slices of the tensors that a tile reads and writes, and the
tile edges of a coupling of two grids.  A slice without ranges is the whole tensor.  `none` is a
panic: an index that is not there.
-/

namespace Plow.Rewrite

structure TensorSlice where
  tensor : String
  ranges : List (Int × Int)
  deriving DecidableEq, Repr

structure Footprint where
  write : TensorSlice
  reads : List TensorSlice
  deriving DecidableEq, Repr

/-! ### Grids -/

def nTiles (extent block : Int) : Int := if block ≤ 0 then 1 else (max extent 0 + block - 1) / block

/-- `0..n` -/
def intRange (n : Int) : List Int := (List.range n.toNat).map Int.ofNat

/-- the coordinates of the grid, the last axis runs first -/
def TileDomain.coords : TileDomain → List (List Int)
  | .row rows br => (intRange (nTiles rows br)).map fun r => [r]
  | .gemm m n bm bn =>
    (intRange (nTiles m bm)).flatMap fun i => (intRange (nTiles n bn)).map fun j => [i, j]
  | .flash heads seqQ bq =>
    (intRange heads).flatMap fun h => (intRange (nTiles seqQ bq)).map fun q => [h, q]
  | .layout => [[0]]

def TileDomain.rowExtent : TileDomain → Int
  | .row rows _ => rows
  | .gemm m _ _ _ => m
  | .flash _ seqQ _ => seqQ
  | .layout => 0

/-! ### Footprints -/

def ModelOpKind.rowAligned : ModelOpKind → Bool
  | .silu | .sigmoid | .add | .sub | .mul | .div | .scale | .tanh => true
  | _ => false

def ModelOpKind.isRmsNorm : ModelOpKind → Bool
  | .rmsNorm | .rmsNormZeroCentered => true
  | _ => false

/-- the slice that a model op's tile reads of one input -/
def ModelOp.readSlice (m : ModelOp) (rows : Int × Int) (e : String × Nat) : TensorSlice :=
  let full := (m.inputRowAligned[e.2]?).getD false
  if (m.kind.rowAligned && full) || (e.2 == 0 && m.kind.isRmsNorm) then
    ⟨e.1, [rows, (0, m.feat)]⟩
  else ⟨e.1, []⟩

/-- what the tile `coord` of an op reads and writes -/
def footprints (kind : OpKind) (tile : Compute) (inputs : List String) (output : String)
    (coord : List Int) : Option Footprint :=
  match kind, tile with
  | .gemm g, .gemm t => do
    let i ← coord[0]?
    let j ← coord[1]?
    let in0 ← inputs[0]?
    let in1 ← inputs[1]?
    let m := (i * t.bm, min (i * t.bm + t.bm) g.m)
    let n := (j * t.bn, min (j * t.bn + t.bn) g.n)
    some ⟨⟨output, [m, n]⟩, [⟨in0, [m, (0, g.k)]⟩, ⟨in1, [n, (0, g.k)]⟩]⟩
  | .row r, .row br => do
    let c ← coord[0]?
    let rows := (c * br, min (c * br + br) r.rows)
    some ⟨⟨output, [rows, (0, r.feat)]⟩, inputs.map fun n => ⟨n, [rows, (0, r.feat)]⟩⟩
  | .model m, .row br => do
    let c ← coord[0]?
    let rows := (c * br, min (c * br + br) m.rows)
    let write := ⟨output, [rows, (0, m.feat)]⟩
    if m.kind = .embedding then do
      let in0 ← inputs[0]?
      let in1 ← inputs[1]?
      some ⟨write, [⟨in0, [rows]⟩, ⟨in1, [rows, (0, m.feat)]⟩]⟩
    else some ⟨write, inputs.zipIdx.map (m.readSlice rows)⟩
  | .flash a, .flash bq _ => do
    let q ← coord[1]?
    let in0 ← inputs[0]?
    let rows := (q * bq, min (q * bq + bq) a.seqQ)
    some ⟨⟨output, [rows, (0, a.headDim)]⟩,
      ⟨in0, [rows, (0, a.headDim)]⟩ ::
        (inputs.drop 1).map fun kv => ⟨kv, [(0, a.seqKv), (0, a.headDim)]⟩⟩
  | _, _ => some ⟨⟨output, []⟩, inputs.map fun n => ⟨n, []⟩⟩

/-! ### Tile edges -/

/-- a consumer tile and the producer tiles whose rows meet its rows -/
def AxisCouple.edges (c : AxisCouple) (producers : List (List Int)) (cc : List Int) :
    Option (List (List Int × List Int)) := do
  let ci ← cc[c.consumerAxis]?
  let c0 := ci * c.consumerBlock
  let ps ← producers.mapM fun pc => (pc[c.producerAxis]?).map fun pi => (pc, pi * c.producerBlock)
  some <| ps.filterMap fun (pc, p0) =>
    if p0 < c0 + c.consumerBlock ∧ c0 < p0 + c.producerBlock then some (pc, cc) else none

/-- the producer tile and the consumer tile of every edge -/
def materializeTileDeps (producer consumer : TileDomain) (dep : TileDependency) :
    Option (List (List Int × List Int)) :=
  match dep.couple.head? with
  | none => some []
  | some c => (consumer.coords.mapM (c.edges producer.coords)).map List.flatten

end Plow.Rewrite
