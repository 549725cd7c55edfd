import Plow.Lib.Results

/-!
# The program builder

A `Builder` collects operations.  An operation runs on a list of compute units, one slice on each,
and depends on earlier operations: on all their slices (`Dep.coarse`) or, slice by slice, on the
ones a map names (`Dep.fine`).  `Builder.finish` turns them into a `Program` whose slices wait on
counters.

Fields of fixed width are natural numbers, an `f32` is its bits.  A failed assertion, an index out
of bounds and an overflow are `none`.  The closure of `emitDep` includes what
`apply_gemm_small_splitk` does to the instruction.

What `finish` reads off opcodes, immediates and knobs to choose a launch (the wave class of an
operation, which operations are isolated or raw, the marks of an entry) is a parameter, `Launch`.
Left out: the tensor table, the rewriting of expert-parallel boundaries, `PLOW_CHAIN_BYPASS` and
the reports.
-/

namespace Plow.Devbuild

def tensorNone : ℕ := 0xffffffff
def tensorNoneI : ℕ := 0xffff

def opResidual : ℕ := 4
def opGemv : ℕ := 10
def opFlashPrefill : ℕ := 11
def opGemmSmall : ℕ := 14
def opGemvGlu : ℕ := 19
def opGemvQkv : ℕ := 22
def opXReduceTwoShot : ℕ := 29
def opFlashPrefillFp8 : ℕ := 39
def opAttnRes : ℕ := 104
def opQwenGdnPrefill : ℕ := 146
def opGemmF32 : ℕ := 180

def routerRawMark : ℕ := 0x52545241
def routerRawSignal : ℕ := 2

structure DevInst where
  op : ℕ
  blocks : ℕ
  waitLen : ℕ
  succLen : ℕ
  waitOfs : ℕ
  succOfs : ℕ
  t : Fin 8 → ℕ
  i : Fin 8 → ℕ
  f : Fin 2 → ℕ
  j : Fin 2 → ℕ
  deriving DecidableEq

inductive Dep where
  | coarse (c : ℕ)
  | fine (producer : ℕ) (map : List (List ℕ))
  deriving DecidableEq, Repr

namespace Dep

def producer : Dep → ℕ
  | coarse c => c
  | fine p _ => p

def isFine : Dep → Bool
  | coarse _ => false
  | fine _ _ => true

def Fits (slices : ℕ) : Dep → Prop
  | coarse _ => True
  | fine _ map => map.length = slices

instance (slices : ℕ) : DecidablePred (Fits slices)
  | coarse _ => inferInstanceAs (Decidable True)
  | fine _ map => inferInstanceAs (Decidable (map.length = slices))

end Dep

structure Op where
  inst : DevInst
  isolated : Bool
  keepSingleGrid : Bool
  gqHoist : Bool
  join : ℕ
  cus : List ℕ
  deps : List Dep
  counter : ℕ
  work : List ℕ
  deriving DecidableEq

inductive L2Map where
  | block
  | roundRobin
  deriving DecidableEq, Repr

structure L2Layout where
  sms : ℕ
  domains : ℕ
  map : L2Map
  deriving DecidableEq, Repr

def L2Layout.domainOf (l : L2Layout) (cu : ℕ) : ℕ :=
  match l.map with
  | .block => cu / max l.sms 1
  | .roundRobin => cu % max l.domains 1

/-- what the option setters set -/
structure Options where
  placeL2 : Option L2Layout
  unisegDenied : Bool
  unisegForced : Bool
  gqOrderAsap : Bool
  gqOrderSeg : Bool
  fuseMaterializedResidualInputs : Bool
  gemvSplit : ℕ
  cuCap : Option ℕ
  deriving DecidableEq

structure Builder where
  nCu : ℕ
  ops : List Op
  curJoin : ℕ
  opts : Options
  deriving DecidableEq

structure Wait where
  id : ℕ
  threshold : ℕ
  deriving DecidableEq, Repr

structure StreamEnt where
  inst : ℕ
  slice : ℕ
  waitOfs : ℕ
  succOfs : ℕ
  waitLen : ℕ
  succLen : ℕ
  flags : ℕ
  seg : ℕ
  deriving DecidableEq, Repr

def seFine : ℕ := 1
def seXrWaveRs : ℕ := 4
def seKda : ℕ := 8
def seNperShift : ℕ := 4
def seDomainShift : ℕ := 13
def seDomainMask : ℕ := 0xe000

def StreamEnt.domain (e : StreamEnt) : ℕ := (e.flags &&& seDomainMask) >>> seDomainShift

structure Program where
  nCu : ℕ
  nCounter : ℕ
  hierBase : ℕ
  insts : List DevInst
  stream : List StreamEnt
  streamOfs : List ℕ
  streamLen : List ℕ
  waits : List Wait
  succs : List ℕ
  gqStream : List StreamEnt
  gqSegOfs : List ℕ
  l2Sms : ℕ
  l2Domains : ℕ
  deriving DecidableEq

/-! ### Building -/

namespace Builder

def new (nCu : ℕ) (opts : Options) : Builder := ⟨nCu, [], 0, opts⟩

def all (b : Builder) : List ℕ := List.range b.nCu

def hostJoin (b : Builder) : Builder := { b with curJoin := b.curJoin + 1 }

def setOptions (b : Builder) (opts : Options) : Builder := { b with opts := opts }

def modifyOp (b : Builder) (counter : ℕ) (f : Op → Op) : Option Builder :=
  if counter < b.ops.length then some { b with ops := b.ops.modify counter f } else none

def isolate (b : Builder) (counter : ℕ) : Option Builder :=
  b.modifyOp counter fun op => { op with isolated := true }

def gqHoist (b : Builder) (counter : ℕ) : Option Builder :=
  b.modifyOp counter fun op => { op with gqHoist := true }

def keepSingleGrid (b : Builder) (counter : ℕ) : Option Builder := do
  let op ← b.ops[counter]?
  guard (op.cus.length = b.nCu)
  b.modifyOp counter fun op => { op with keepSingleGrid := true }

def patch (b : Builder) (counter : ℕ) (f : DevInst → DevInst) : Option Builder :=
  b.modifyOp counter fun op => { op with inst := f op.inst }

def truncateOps (b : Builder) (n : ℕ) : Builder := { b with ops := b.ops.take n }

def wrapped (b : Builder) (cus : List ℕ) : List ℕ :=
  if cus.any (b.nCu ≤ ·) then cus.map (· % b.nCu) else cus

/-- the compute units `emit_dep` runs the operation on -/
def placed (b : Builder) (cus : List ℕ) (deps : List Dep) : List ℕ :=
  let cus := b.wrapped cus
  match b.opts.cuCap with
  | some k =>
    -- `set_cu_cap` keeps at least 64
    let k := max k 64
    if k < cus.length ∧ cus = List.range cus.length ∧ deps.any Dep.isFine = false then
      cus.take k
    else cus
  | none => cus

def push (b : Builder) (inst : DevInst) (cus : List ℕ) (deps : List Dep) : Builder :=
  { b with ops := b.ops ++
    [{ inst, isolated := false, keepSingleGrid := false, gqHoist := false, join := b.curJoin, cus,
       deps, counter := b.ops.length, work := List.replicate cus.length 1 }] }

def blank (op slices : ℕ) : DevInst :=
  { op, blocks := slices, waitLen := 0, succLen := 0, waitOfs := 0, succOfs := 0
    t := fun _ => tensorNone, i := fun _ => 0, f := fun _ => 0, j := fun _ => 0 }

def emitDep (b : Builder) (op : ℕ) (cus : List ℕ) (deps : List Dep) (f : DevInst → DevInst) :
    Option (Builder × ℕ) := do
  guard (cus ≠ [])
  guard (cus.any (b.nCu ≤ ·) → b.nCu ≠ 0)
  let cus := b.placed cus deps
  guard (∀ d ∈ deps, d.Fits cus.length)
  guard (cus.length < 65536)
  let inst := f (blank op cus.length)
  let b' := b.push inst cus deps
  -- split-K as two packets: the partial sums, then the reduction behind them
  if op = opGemmSmall ∧ inst.i 7 = 1 then
    let r := { inst with i := Function.update inst.i 7 2 }
    return (b'.push r cus [.coarse b.ops.length], b'.ops.length)
  return (b', b.ops.length)

def emit (b : Builder) (op : ℕ) (cus deps : List ℕ) (f : DevInst → DevInst) :
    Option (Builder × ℕ) :=
  b.emitDep op cus (deps.map .coarse) f

def emitDepWork (b : Builder) (op : ℕ) (cus : List ℕ) (deps : List Dep) (work : List ℕ)
    (f : DevInst → DevInst) : Option (Builder × ℕ) := do
  guard (work.length = cus.length)
  let (b, c) ← b.emitDep op cus deps f
  let b ← b.modifyOp c fun op => { op with work := work }
  return (b, c)

def «repeat» (b : Builder) (counter : ℕ) (deps : List Dep) (f : DevInst → DevInst) :
    Option (Builder × ℕ) := do
  let src ← b.ops[counter]?
  let (b, c) ← b.emitDep src.inst.op src.cus deps fun _ => f src.inst
  let b ← b.modifyOp c fun op => { op with work := src.work, isolated := src.isolated }
  return (b, c)

end Builder

end Plow.Devbuild
