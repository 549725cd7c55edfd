import Plow.Lib.Pod
import Plow.Lib.Results

/-!
# The packet stream

An instruction stream is a 20-byte stream header, one record for each instruction and the counter
table.  A record is a `Header`, the body of the opcode's family and the wait and successor ids.
The records below are the `#[repr(C)]` structs, pads included, so that their `Pod` instances give
their bytes; `Body`, `Inst` and `Program` are the builder side.  `Program.toBytes` always writes
the current version, `Program.decode` reads every version from 2 on.

A read is `tryPod`, which checks its range, or `readPod`, which does not: there a range that is
not in the stream is the outcome `Stop.outOfRange`.  Offsets are natural numbers.  The length of
a slice is below `2^64`, so a checked sum that overflows in the source is here a sum past the end,
and both are refused with the same text.

Left out: `Body::layout_copy` for other arguments than the decoder's, the named opcodes that
neither direction uses, and the disassembler.
-/

namespace Plow.Packet
open Plow.Lib

/-! ### Opcodes -/

/-- `[backend:4][family:4][variant:8]` -/
structure Opcode where
  bits : UInt16
  deriving DecidableEq, Repr

namespace Opcode

def new (backend family variant : UInt8) : Opcode :=
  ⟨((backend.toUInt16 &&& 0xF) <<< 12) ||| ((family.toUInt16 &&& 0xF) <<< 8) |||
    variant.toUInt16⟩

def backend (op : Opcode) : UInt8 := (op.bits >>> 12).toUInt8
def family (op : Opcode) : UInt8 := ((op.bits >>> 8) &&& 0xF).toUInt8
def variant (op : Opcode) : UInt8 := (op.bits &&& 0xFF).toUInt8

def familyDma : UInt8 := 1
def familyRdma : UInt8 := 2
def familyGemm : UInt8 := 3
def familyFlash : UInt8 := 4
def familyRow : UInt8 := 5
def familyLayout : UInt8 := 6
def familyToken : UInt8 := 7

def hostCoord : Opcode := new 0 0 1
def tmaLoad : Opcode := new 0 familyDma 0
def tmaStore : Opcode := new 0 familyDma 1
def rdma : Opcode := new 0 familyRdma 0
def layout : Opcode := new 0 familyLayout 0

def variantGolden : UInt8 := 0x00
def variantRowRmsBf16 : UInt8 := 0x04
def variantModelRmsnormZeroCentered : UInt8 := 0x82
def variantModelRmsnorm : UInt8 := 0x8c
def variantFlashSlidingBf16 : UInt8 := 0x02
def variantFlashCausalGqaBase : UInt8 := 0xc0

def flashGqaKvHeads (variant : UInt8) : Option UInt8 :=
  if variant &&& variantFlashCausalGqaBase = variantFlashCausalGqaBase then
    some (variant &&& 0x3f)
  else none

def variantIsReduce (variant : UInt8) : Bool :=
  variant == variantGolden || variant == variantRowRmsBf16 || variant == variantModelRmsnorm ||
    variant == variantModelRmsnormZeroCentered

end Opcode

/-- The resource class a record runs on. -/
inductive ResourceKind where
  | sm
  | dma
  | dpu
  | host
  deriving DecidableEq, Repr

namespace ResourceKind

def toU8 : ResourceKind → UInt8
  | sm => 0
  | dma => 1
  | dpu => 2
  | host => 3

def fromU8 (v : UInt8) : ResourceKind :=
  if v = 1 then dma else if v = 2 then dpu else if v = 3 then host else sm

end ResourceKind

def slotNone : UInt16 := 0xFFFF

/-! ### The record structs -/

abbrev Words (n : Nat) := List.Vector UInt32 n

structure Header where
  opcode : UInt16
  resource : UInt8
  unit : UInt8
  index : UInt16
  waitLen : UInt16
  succLen : UInt16
  pad : UInt16
  deriving DecidableEq

instance : Pod Header := Pod.ofEquiv
  (fun h => (h.opcode, h.resource, h.unit, h.index, h.waitLen, h.succLen, h.pad))
  (fun ⟨a, b, c, d, e, f, g⟩ => ⟨a, b, c, d, e, f, g⟩) (fun _ => rfl) (fun _ => rfl)

structure DmaBody where
  bytes : UInt32
  tensor : UInt32
  slot : UInt16
  kind : UInt8
  access : UInt8
  deriving DecidableEq

instance : Pod DmaBody := Pod.ofEquiv
  (fun r => (r.bytes, r.tensor, r.slot, r.kind, r.access))
  (fun ⟨a, b, c, d, e⟩ => ⟨a, b, c, d, e⟩) (fun _ => rfl) (fun _ => rfl)

structure RdmaBody where
  bytes : UInt32
  srcUnit : UInt8
  dstUnit : UInt8
  pad : UInt16
  deriving DecidableEq

instance : Pod RdmaBody := Pod.ofEquiv
  (fun r => (r.bytes, r.srcUnit, r.dstUnit, r.pad))
  (fun ⟨a, b, c, d⟩ => ⟨a, b, c, d⟩) (fun _ => rfl) (fun _ => rfl)

structure GemmBody where
  coord0 : UInt32
  coord1 : UInt32
  m : UInt32
  n : UInt32
  k : UInt32
  bm : UInt16
  bn : UInt16
  bk : UInt16
  out : UInt16
  tmem : UInt16
  pad : UInt16
  deriving DecidableEq

instance : Pod GemmBody := Pod.ofEquiv
  (fun r => (r.coord0, r.coord1, r.m, r.n, r.k, r.bm, r.bn, r.bk, r.out, r.tmem, r.pad))
  (fun ⟨a, b, c, d, e, f, g, h, i, j, k⟩ => ⟨a, b, c, d, e, f, g, h, i, j, k⟩)
  (fun _ => rfl) (fun _ => rfl)

/-- The FLASH body of streams at version ≤ 6. -/
structure FlashBodyLegacy where
  coord0 : UInt32
  coord1 : UInt32
  seqQ : UInt32
  seqKv : UInt32
  headDim : UInt16
  bq : UInt16
  bkv : UInt16
  heads : UInt16
  out : UInt16
  tmem : UInt16
  deriving DecidableEq

instance : Pod FlashBodyLegacy := Pod.ofEquiv
  (fun r => (r.coord0, r.coord1, r.seqQ, r.seqKv, r.headDim, r.bq, r.bkv, r.heads, r.out, r.tmem))
  (fun ⟨a, b, c, d, e, f, g, h, i, j⟩ => ⟨a, b, c, d, e, f, g, h, i, j⟩)
  (fun _ => rfl) (fun _ => rfl)

structure FlashBody extends FlashBodyLegacy where
  window : UInt32
  kvHeads : UInt16
  pad : UInt16
  deriving DecidableEq

instance : Pod FlashBody := Pod.ofEquiv
  (fun r => (r.toFlashBodyLegacy, r.window, r.kvHeads, r.pad))
  (fun ⟨a, b, c, d⟩ => ⟨a, b, c, d⟩) (fun _ => rfl) (fun _ => rfl)

structure RowBody where
  coord : UInt32
  rows : UInt32
  feat : UInt32
  args : Words 4
  br : UInt16
  out : UInt16
  operands : UInt8
  pad : List.Vector UInt8 3
  deriving DecidableEq

instance : Pod RowBody := Pod.ofEquiv
  (fun r => (r.coord, r.rows, r.feat, r.args, r.br, r.out, r.operands, r.pad))
  (fun ⟨a, b, c, d, e, f, g, h⟩ => ⟨a, b, c, d, e, f, g, h⟩) (fun _ => rfl) (fun _ => rfl)

/-- The ROW body of streams at version ≤ 5. -/
structure RowBodyLegacy where
  coord : UInt32
  rows : UInt32
  feat : UInt32
  br : UInt16
  out : UInt16
  operands : UInt8
  pad : List.Vector UInt8 3
  deriving DecidableEq

instance : Pod RowBodyLegacy := Pod.ofEquiv
  (fun r => (r.coord, r.rows, r.feat, r.br, r.out, r.operands, r.pad))
  (fun ⟨a, b, c, d, e, f, g⟩ => ⟨a, b, c, d, e, f, g⟩) (fun _ => rfl) (fun _ => rfl)

structure TokenBody where
  inSlot : UInt16
  outSlot : UInt16
  kind : UInt8
  pad0 : UInt8
  pad1 : UInt16
  vocab : UInt32
  arg : UInt32
  deriving DecidableEq

instance : Pod TokenBody := Pod.ofEquiv
  (fun r => (r.inSlot, r.outSlot, r.kind, r.pad0, r.pad1, r.vocab, r.arg))
  (fun ⟨a, b, c, d, e, f, g⟩ => ⟨a, b, c, d, e, f, g⟩) (fun _ => rfl) (fun _ => rfl)

abbrev layoutMaxRank : Nat := 6

structure LayoutBody where
  kind : UInt8
  rank : UInt8
  elemSize : UInt8
  pad0 : UInt8
  out : UInt16
  pad1 : UInt16
  shape : Words layoutMaxRank
  inStride : Words layoutMaxRank
  outStride : Words layoutMaxRank
  inBase : UInt32
  outBase : UInt32
  deriving DecidableEq

instance : Pod LayoutBody := Pod.ofEquiv
  (fun r => (r.kind, r.rank, r.elemSize, r.pad0, r.out, r.pad1, r.shape, r.inStride, r.outStride,
    r.inBase, r.outBase))
  (fun ⟨a, b, c, d, e, f, g, h, i, j, k⟩ => ⟨a, b, c, d, e, f, g, h, i, j, k⟩)
  (fun _ => rfl) (fun _ => rfl)

/-- The LAYOUT body of streams at version ≤ 3: a bare tile coordinate. -/
structure LayoutBodyLegacy where
  coord : UInt32
  deriving DecidableEq

instance : Pod LayoutBodyLegacy := Pod.ofEquiv (fun r => r.coord) (fun a => ⟨a⟩)
  (fun _ => rfl) (fun _ => rfl)

/-- A clustered dependency counter. -/
structure Counter where
  id : UInt32
  threshold : UInt32
  scope : UInt8
  pad : List.Vector UInt8 3
  deriving DecidableEq

instance : Pod Counter := Pod.ofEquiv
  (fun c => (c.id, c.threshold, c.scope, c.pad))
  (fun ⟨a, b, c, d⟩ => ⟨a, b, c, d⟩) (fun _ => rfl) (fun _ => rfl)

/-! ### The builder side -/

/-- The payload of an instruction: only the fields its family needs. -/
inductive Body where
  | dma (load : Bool) (bytes : UInt32) (slot : UInt16) (tensor : UInt32) (kind access : UInt8)
  | rdma (bytes : UInt32) (srcUnit dstUnit : UInt8)
  | gemm (coord : UInt32 × UInt32) (m n k : UInt32) (bm bn bk out tmem : UInt16)
      (variant : UInt8)
  | flash (coord : UInt32 × UInt32) (seqQ seqKv : UInt32) (headDim bq bkv heads kvHeads : UInt16)
      (window : UInt32) (out tmem : UInt16) (variant : UInt8)
  | row (reduce : Bool) (coord rows feat : UInt32) (operands : UInt8) (br out : UInt16)
      (variant : UInt8) (args : Words 4)
  | layout (kind rank elemSize : UInt8) (out : UInt16)
      (shape inStride outStride : Words layoutMaxRank) (inBase outBase : UInt32)
  | token (inSlot outSlot : UInt16) (kind : UInt8) (vocab arg : UInt32)
  | host
  deriving DecidableEq

structure Inst where
  resource : ResourceKind
  unit : UInt8
  index : UInt16
  body : Body
  wait : List UInt32
  succ : List UInt32
  deriving DecidableEq

structure Program where
  insts : List Inst
  counters : List Counter
  bucketId : UInt16
  planGen : UInt16
  flags : UInt16
  deriving DecidableEq

def magic : UInt32 := 0x494E5650
def version : UInt16 := 7
def minVersion : UInt16 := 2
def streamHeaderSize : Nat := 20
def headerV2Size : Nat := 8

/-! ### Writing -/

def Body.opcode : Body → Opcode
  | .dma load .. => if load then Opcode.tmaLoad else Opcode.tmaStore
  | .rdma .. => Opcode.rdma
  | .gemm _ _ _ _ _ _ _ _ _ variant => Opcode.new 0 Opcode.familyGemm variant
  | .flash _ _ _ _ _ _ _ _ _ _ _ variant => Opcode.new 0 Opcode.familyFlash variant
  | .row _ _ _ _ _ _ _ variant _ => Opcode.new 0 Opcode.familyRow variant
  | .layout .. => Opcode.layout
  | .token _ _ kind _ _ => Opcode.new 0 Opcode.familyToken kind
  | .host => Opcode.hostCoord

theorem pad_length : ([0, 0, 0] : List UInt8).length = 3 := rfl

/-- the bytes that `Body::push` appends -/
def Body.push : Body → List UInt8
  | .dma _ bytes slot tensor kind access => Pod.put (DmaBody.mk bytes tensor slot kind access)
  | .rdma bytes srcUnit dstUnit => Pod.put (RdmaBody.mk bytes srcUnit dstUnit 0)
  | .gemm coord m n k bm bn bk out tmem _ =>
    Pod.put (GemmBody.mk coord.1 coord.2 m n k bm bn bk out tmem 0)
  | .flash coord seqQ seqKv headDim bq bkv heads kvHeads window out tmem _ =>
    Pod.put (FlashBody.mk ⟨coord.1, coord.2, seqQ, seqKv, headDim, bq, bkv, heads, out, tmem⟩
      window kvHeads 0)
  | .row _ coord rows feat operands br out _ args =>
    Pod.put (RowBody.mk coord rows feat args br out operands ⟨[0, 0, 0], pad_length⟩)
  | .layout kind rank elemSize out shape inStride outStride inBase outBase =>
    Pod.put (LayoutBody.mk kind rank elemSize 0 out 0 shape inStride outStride inBase outBase)
  | .token inSlot outSlot kind vocab arg =>
    Pod.put (TokenBody.mk inSlot outSlot kind 0 0 vocab arg)
  | .host => []

def Inst.header (ins : Inst) : Header :=
  ⟨ins.body.opcode.bits, ins.resource.toU8, ins.unit, ins.index, UInt16.ofNat ins.wait.length,
    UInt16.ofNat ins.succ.length, 0⟩

/-- The record of an instruction; `error` is a failed assertion. -/
def Inst.record (ins : Inst) : Except String (List UInt8) :=
  if ins.wait.length > 65535 then .error s!"wait_len overflow: {ins.wait.length} > 65535"
  else if ins.succ.length > 65535 then .error s!"succ_len overflow: {ins.succ.length} > 65535"
  else .ok (Pod.put ins.header ++ ins.body.push ++ Pod.puts ins.wait ++
    Pod.puts ins.succ)

def Program.streamHeader (p : Program) : List UInt8 :=
  Pod.put magic ++ Pod.put version ++ Pod.put p.bucketId ++
    Pod.put (UInt32.ofNat p.insts.length) ++ Pod.put (UInt32.ofNat p.counters.length) ++
    Pod.put p.planGen ++ Pod.put p.flags

def Program.toBytes (p : Program) : Except String (List UInt8) := do
  let records ← p.insts.mapM Inst.record
  pure (p.streamHeader ++ records.flatten ++ Pod.puts p.counters)

/-! ### Reading -/

/-- How a read of the stream ends without a value: `Err`, or a read outside the slice. -/
inductive Stop where
  | refused (why : String)
  | outOfRange
  deriving DecidableEq, Repr

abbrev Res := Except Stop

def refuse {α : Type} (why : String) : Res α := .error (.refused why)

def okOr {α : Type} : Option α → String → Res α
  | some a, _ => .ok a
  | none, why => refuse why

def readPod (α : Type) [Pod α] (b : List UInt8) (i : Nat) : Res α :=
  if i + Pod.size α ≤ b.length then .ok (Pod.get (b.drop i)) else .error .outOfRange

def tryPod (α : Type) [Pod α] (b : List UInt8) (i : Nat) : Option α :=
  if i + Pod.size α > b.length then none else some (Pod.get (b.drop i))

/-- `usize::checked_mul` -/
def checkedMul (a b : Nat) : Option Nat := if a * b < 2 ^ 64 then some (a * b) else none

/-- The body of the family at `i`, and its size. -/
def Body.tryRead (op : Opcode) (b : List UInt8) (i : Nat) (version : UInt16) : Res (Body × Nat) :=
  if op.family = Opcode.familyDma then do
    let r ← okOr (tryPod DmaBody b i) "truncated DMA body"
    let load := op.variant == 0
    pure (.dma load r.bytes r.slot r.tensor r.kind r.access, Pod.size DmaBody)
  else if op.family = Opcode.familyRdma then do
    let r ← okOr (tryPod RdmaBody b i) "truncated RDMA body"
    pure (.rdma r.bytes r.srcUnit r.dstUnit, Pod.size RdmaBody)
  else if op.family = Opcode.familyGemm then do
    let r ← okOr (tryPod GemmBody b i) "truncated GEMM body"
    pure (.gemm (r.coord0, r.coord1) r.m r.n r.k r.bm r.bn r.bk r.out r.tmem op.variant,
      Pod.size GemmBody)
  else if op.family = Opcode.familyFlash then
    if version ≥ 7 then do
      let r ← okOr (tryPod FlashBody b i) "truncated FLASH body"
      pure (.flash (r.coord0, r.coord1) r.seqQ r.seqKv r.headDim r.bq r.bkv r.heads r.kvHeads
        r.window r.out r.tmem op.variant, Pod.size FlashBody)
    else do
      let r ← okOr (tryPod FlashBodyLegacy b i) "truncated legacy FLASH body"
      if op.variant = Opcode.variantFlashSlidingBf16 then
        refuse "legacy FLASH sliding-window records do not encode a window"
      else
        let kvHeads := ((Opcode.flashGqaKvHeads op.variant).map UInt8.toUInt16).getD r.heads
        pure (.flash (r.coord0, r.coord1) r.seqQ r.seqKv r.headDim r.bq r.bkv r.heads kvHeads
          0 r.out r.tmem op.variant, Pod.size FlashBodyLegacy)
  else if op.family = Opcode.familyRow then
    let reduce := Opcode.variantIsReduce op.variant
    if version ≥ 6 then do
      let r ← okOr (tryPod RowBody b i) "truncated ROW body"
      pure (.row reduce r.coord r.rows r.feat r.operands r.br r.out op.variant r.args,
        Pod.size RowBody)
    else do
      let r ← okOr (tryPod RowBodyLegacy b i) "truncated ROW body"
      pure (.row reduce r.coord r.rows r.feat r.operands r.br r.out op.variant
        (List.Vector.replicate 4 0), Pod.size RowBodyLegacy)
  else if op.family = Opcode.familyLayout then
    if version ≥ 4 then do
      let r ← okOr (tryPod LayoutBody b i) "truncated LAYOUT body"
      pure (.layout r.kind r.rank r.elemSize r.out r.shape r.inStride r.outStride r.inBase
        r.outBase, Pod.size LayoutBody)
    else do
      let _ ← okOr (tryPod LayoutBodyLegacy b i) "truncated LAYOUT body"
      -- `Body::layout_copy(SLOT_NONE, 0)`: an empty copy descriptor
      pure (.layout 0 1 1 slotNone (List.Vector.replicate 6 0) ⟨[1, 0, 0, 0, 0, 0], rfl⟩
        ⟨[1, 0, 0, 0, 0, 0], rfl⟩ 0 0, Pod.size LayoutBodyLegacy)
  else if op.family = Opcode.familyToken then do
    let r ← okOr (tryPod TokenBody b i) "truncated TOKEN body"
    pure (.token r.inSlot r.outSlot r.kind r.vocab r.arg, Pod.size TokenBody)
  else pure (.host, 0)

/-- `len` counter ids at `i`, and the offset behind them -/
def readIds (b : List UInt8) (i len : Nat) (what : String) : Res (List UInt32 × Nat) := do
  let nbytes ← okOr (checkedMul len 4) "counter-id array overflow"
  let stop := i + nbytes
  if stop > b.length then refuse what
  else
    let ids ← (List.range len).mapM fun j => readPod UInt32 b (i + j * 4)
    pure (ids, stop)

/-- The record header at `i` with its lengths widened to 16 bits, and the offset behind it. -/
def readHeader (b : List UInt8) (i : Nat) (version : UInt16) : Res (Header × Nat) :=
  if version ≥ 3 then do
    let h ← okOr (tryPod Header b i) "truncated record header"
    pure (h, i + Pod.size Header)
  else if i + headerV2Size > b.length then refuse "truncated record header"
  else do
    let opcode ← readPod UInt16 b i
    let resource ← readPod UInt8 b (i + 2)
    let unit ← readPod UInt8 b (i + 3)
    let index ← readPod UInt16 b (i + 4)
    let waitLen ← readPod UInt8 b (i + 6)
    let succLen ← readPod UInt8 b (i + 7)
    pure (⟨opcode, resource, unit, index, waitLen.toUInt16, succLen.toUInt16, 0⟩,
      i + headerV2Size)

/-- one turn of the record loop -/
def readInst (b : List UInt8) (i : Nat) (version : UInt16) : Res (Inst × Nat) := do
  let (h, i) ← readHeader b i version
  let (body, bsz) ← Body.tryRead ⟨h.opcode⟩ b i version
  let (wait, i) ← readIds b (i + bsz) h.waitLen.toNat "truncated wait array"
  let (succ, i) ← readIds b i h.succLen.toNat "truncated succ array"
  pure (⟨ResourceKind.fromU8 h.resource, h.unit, h.index, body, wait, succ⟩, i)

/-- the record loop: `n` records from `i` on -/
def readInsts (b : List UInt8) (version : UInt16) : Nat → Nat → Res (List Inst × Nat)
  | 0, i => pure ([], i)
  | n + 1, i => do
    let (ins, i) ← readInst b i version
    let (rest, i) ← readInsts b version n i
    pure (ins :: rest, i)

def readCounters (b : List UInt8) (i n : Nat) : Res (List Counter) := do
  let ctBytes ← okOr (checkedMul n (Pod.size Counter)) "counter table overflow"
  if i + ctBytes > b.length then refuse "truncated counter table"
  else (List.range n).mapM fun j => readPod Counter b (i + j * Pod.size Counter)

def idBound (counters : List Counter) : Nat :=
  (counters.map fun c => c.id.toNat + 1).max?.getD 0

def Program.decode (b : List UInt8) : Res Program :=
  if b.length < streamHeaderSize then refuse "stream too short"
  else do
    let m ← readPod UInt32 b 0
    if m ≠ magic then refuse "bad magic"
    else
      let v ← readPod UInt16 b 4
      if ¬ (minVersion ≤ v ∧ v ≤ version) then refuse "bad version"
      else
        let bucketId ← readPod UInt16 b 6
        let nInsts ← readPod UInt32 b 8
        let nCounters ← readPod UInt32 b 12
        let planGen ← readPod UInt16 b 16
        let flags ← readPod UInt16 b 18
        let (insts, i) ← readInsts b v nInsts.toNat streamHeaderSize
        let counters ← readCounters b i nCounters.toNat
        if insts.any (fun ins => (ins.wait ++ ins.succ).any
            (fun id => id.toNat ≥ idBound counters)) then
          refuse "counter id out of range"
        else pure ⟨insts, counters, bucketId, planGen, flags⟩

end Plow.Packet
