import Plow.Lib.Results

/-!
# Split-K programs

The checks a packet with split-K projections passes before it is run (`validate`), and the
canonical form that the checked programs are compared in (`canonical`).  A projection is a triple
of adjacent instructions: `zeroF32` clears a plane of partial sums, `gemmSplitK` adds to it and
`castF32Bf16` rounds it into the output.  An instruction is spread over slices; the entries of a
stream say which slice waits on which counters.

Fields of fixed width are natural numbers.  A `BTreeSet` of instructions is its ascending list, a
set that is only searched is a list.  A read outside a slice is the outcome `Stop.panic`.

`fromU16` tells apart the opcodes that the checks and the interpreter's operand tables name; of the
interpreter's arms `stores` keeps the tensors written, `foldHandles` and `carried` the tensors
reached through an immediate.

Left out: `capability` (the check of the device object), and the parts of a packet no check reads.
-/

namespace Plow.Splitk

/-- The opcodes that the checks tell apart. -/
inductive DevOp where
  | nop | rmsNorm | headNormRope | residual | glu | embed | softCap | gemm | gemv | flashDecode
  | flashMerge | normResidual | argmax | argmaxFin | gemvGlu | addNorm | gemvQkv | normResidualNorm
  | gemmFp8 | flashDecodeFp8 | zeroF32 | gemmSplitK | castF32Bf16
  | other (code : Nat)
  deriving DecidableEq, Repr

/-- `DevOp::from_u16` -/
def DevOp.fromU16 : Nat → Option DevOp
  | 0 => some .nop
  | 1 => some .rmsNorm
  | 3 => some .headNormRope
  | 4 => some .residual
  | 5 => some .glu
  | 6 => some .embed
  | 7 => some .softCap
  | 8 => some .gemm
  | 10 => some .gemv
  | 12 => some .flashDecode
  | 13 => some .flashMerge
  | 16 => some .normResidual
  | 17 => some .argmax
  | 18 => some .argmaxFin
  | 19 => some .gemvGlu
  | 21 => some .addNorm
  | 22 => some .gemvQkv
  | 23 => some .normResidualNorm
  | 33 => some .gemmFp8
  | 38 => some .flashDecodeFp8
  | 147 => some .zeroF32
  | 148 => some .gemmSplitK
  | 149 => some .castF32Bf16
  | op => if op ≤ 230 then some (.other op) else none

def opGemv : Nat := 10
def opHeadNormRope : Nat := 3
def opZ : Nat := 147
def opG : Nat := 148
def opF : Nat := 149

def tensorNone16 : Nat := 0xffff

@[ext] structure DevInst64 where
  op : Nat
  blocks : Nat
  fj : Fin 3 → Nat
  t : Fin 8 → Nat
  i : Fin 8 → Nat
  deriving DecidableEq

structure StreamEnt where
  inst : Nat
  slice : Nat
  waitOfs : Nat
  succOfs : Nat
  waitLen : Nat
  succLen : Nat
  flags : Nat
  seg : Nat
  deriving DecidableEq, Repr

structure Wait where
  id : Nat
  threshold : Nat
  deriving DecidableEq, Repr

structure Tensor where
  name : List Char
  bytes : Nat
  initialized : Bool
  deriving DecidableEq, Repr

structure Program where
  rows : Nat
  packedSibling : Bool
  nCounter : Nat
  insts : List DevInst64
  stream : List StreamEnt
  streamOfs : List Nat
  streamLen : List Nat
  waits : List Wait
  succs : List Nat
  gqStream : List StreamEnt
  gqSegOfs : List Nat
  l2Domains : Nat

structure GenTensor where
  tensor : Nat
  kind : Nat
  aux : Nat
  scale : Nat
  deriving DecidableEq, Repr

def genTmapBf16 : Nat := 4
def genTmapE4m3 : Nat := 5
def genTmapKvPair : Nat := 6

structure Packet where
  nCu : Nat
  tp : Bool
  prefillCount : Nat
  tensors : List Tensor
  programs : List Program
  generated : List GenTensor
  kvRowInsts : List Nat

inductive Stop where
  | refused (text : String)
  | panic
  deriving DecidableEq, Repr

abbrev Res := Except Stop

def refuse {α : Type} (text : String) : Res α := .error (.refused text)

def check (ok : Prop) [Decidable ok] (why : String) : Res Unit :=
  if ok then .ok () else refuse ("splitK packet: " ++ why)

/-- `Option::ok_or` -/
def okOr {α : Type} (o : Option α) (text : String) : Res α :=
  match o with
  | some a => .ok a
  | none => refuse text

/-- `xs[i]` and `unwrap` -/
def must {α : Type} (o : Option α) : Res α :=
  match o with
  | some a => .ok a
  | none => .error .panic

/-- `if !c { x? }` -/
def unless' (c : Prop) [Decidable c] (x : Res Unit) : Res Unit := if c then .ok () else x

/-- `slice.get(from..from + len)` -/
def range? {α : Type} (xs : List α) (from_ len : Nat) : Option (List α) :=
  if from_ + len ≤ xs.length then some ((xs.drop from_).take len) else none

/-- `usize::checked_add` -/
def checkedAdd (a b : Nat) : Option Nat := if a + b < 2 ^ 64 then some (a + b) else none

/-- `u64::checked_mul` -/
def checkedMul (a b : Nat) : Option Nat := if a * b < 2 ^ 64 then some (a * b) else none

/-! ### The wait sets -/

def partition (g : Program) (stop : Nat) (part : Nat × Nat) : Res Nat := do
  check (part.1 = stop) "noncontiguous static stream partition"
  let stop ← okOr (checkedAdd stop part.2) "static partition overflow"
  check (stop ≤ g.stream.length) "static partition out of range"
  pure stop

/-- one wait of an entry of instruction `pc` -/
def waitOne (g : Program) (pc : Nat) (set : List Nat) (w : Wait) : Res (List Nat) := do
  check (w.id < pc ∧ (g.insts[w.id]?.map (·.blocks)) = some w.threshold)
    "missing full producer threshold"
  check (w.id ∉ set) "duplicate dependency"
  pure (set.orderedInsert (· ≤ ·) w.id)

structure Static where
  lists : List (Option (List Nat))
  seen : List (Nat × Nat)

def staticEntry (g : Program) (acc : Static) (e : StreamEnt) : Res Static := do
  let pc := e.inst
  check (pc < g.insts.length) "bad instruction"
  let d ← must g.insts[pc]?
  check (e.flags = 0 ∧ e.seg = 0 ∧ e.slice < d.blocks) "noncoarse or invalid slice"
  check ((pc, e.slice) ∉ acc.seen) "duplicate static slice"
  let seen := (pc, e.slice) :: acc.seen
  let succ ← okOr (range? g.succs e.succOfs e.succLen) "splitK bad successor range"
  check (succ = [pc]) "coarse own counter required"
  let waits ← okOr (range? g.waits e.waitOfs e.waitLen) "splitK bad wait range"
  let set ← waits.foldlM (waitOne g pc) []
  let entry ← must acc.lists[pc]?
  match entry with
  | some prior =>
    check (prior = set) "slice dependencies differ"
    pure ⟨acc.lists, seen⟩
  | none => pure ⟨acc.lists.set pc (some set), seen⟩

structure Queued where
  last : List Nat
  seen : List (Nat × Nat)

def queueEntry (seen : List (Nat × Nat)) (acc : Queued) (eq : StreamEnt × Nat) : Res Queued := do
  let (e, q) := eq
  check ((e.inst, e.slice) ∈ seen ∧ (e.inst, e.slice) ∉ acc.seen) "bad GQ coverage"
  pure ⟨acc.last.set e.inst q, (e.inst, e.slice) :: acc.seen⟩

/-- `entries[&(pc, slice)]` -/
def entryOf (g : Program) (pc slice : Nat) : Option StreamEnt :=
  g.stream.find? fun e => e.inst = pc ∧ e.slice = slice

def queueGate (g : Program) (lists : List (List Nat)) (last : List Nat) (eq : StreamEnt × Nat) :
    Res Unit := do
  let (e, q) := eq
  let original ← must (entryOf g e.inst e.slice)
  check (e.waitOfs = original.waitOfs ∧ e.waitLen = original.waitLen ∧
    e.succOfs = original.succOfs ∧ e.succLen = original.succLen ∧ e.flags = 0 ∧ e.seg = 0)
    "GQ gates differ"
  let list ← must lists[e.inst]?
  let lasts ← list.mapM fun id => must last[id]?
  check (∀ l ∈ lasts, l < q) "GQ producer queued after consumer"

def dependencies (g : Program) : Res (List (List Nat)) := do
  check (g.nCounter = g.insts.length) "only ordinary coarse counters supported"
  check (g.gqSegOfs = [0, g.gqStream.length % 2 ^ 32] ∧ g.l2Domains = 0)
    "requires one ordinary GQ window"
  check (g.insts ≠ [] ∧ g.streamOfs.length = g.streamLen.length) "invalid static stream tables"
  let stop ← (g.streamOfs.zip g.streamLen).foldlM (partition g) 0
  check (stop = g.stream.length) "missing static partition"
  let static ← g.stream.foldlM (staticEntry g) ⟨List.replicate g.insts.length none, []⟩
  g.insts.zipIdx.forM fun (d, pc) =>
    check (0 < d.blocks ∧ ∀ s < d.blocks, (pc, s) ∈ static.seen) "missing slice"
  let lists ← static.lists.mapM must
  let queued ← g.gqStream.zipIdx.foldlM (queueEntry static.seen)
    ⟨List.replicate g.insts.length 0, []⟩
  check ((∀ k ∈ queued.seen, k ∈ static.seen) ∧ ∀ k ∈ static.seen, k ∈ queued.seen)
    "missing GQ entries"
  g.gqStream.zipIdx.forM (queueGate g lists queued.last)
  pure lists

/-! ### The triples -/

def writeSlots (op : Nat) : Res (List (Fin 8)) :=
  match DevOp.fromU16 op with
  | none => refuse "unknown opcode in splitK program"
  | some op =>
    match op with
    | .nop => .ok []
    | .rmsNorm => .ok [0, 3, 4]
    | .addNorm | .normResidualNorm | .flashDecode => .ok [0, 1]
    | .gemvQkv => .ok [0, 3, 5]
    | .gemv | .gemvGlu | .headNormRope | .flashMerge | .normResidual | .embed | .residual | .glu
    | .softCap | .argmax | .argmaxFin | .zeroF32 | .gemmSplitK | .castF32Bf16 => .ok [0]
    | _ => refuse "unaudited writer in splitK program"

/-- `ordered`: a depth-first search from `later` down the wait sets -/
def orderedLoop (dep : List (List Nat)) (earlier : Nat) : Nat → List Nat → List Nat → Res Bool
  | _, [], _ => .ok false
  | 0, _ :: _, _ => .error .panic
  | fuel + 1, next :: stack, visited =>
    if next = earlier then .ok true
    else if next > earlier ∧ next ∉ visited then do
      let ids ← must dep[next]?
      orderedLoop dep earlier fuel (ids.reverse ++ stack) (next :: visited)
    else orderedLoop dep earlier fuel stack visited

def ordered (dep : List (List Nat)) (later earlier : Nat) : Res Bool :=
  orderedLoop dep earlier (1 + dep.length * (dep.map List.length).sum) [later] []

def isSplit (op : Nat) : Bool := op = opZ || op = opG || op = opF

/-! ### Tensor names -/

def startsWith (p name : List Char) : Bool := p.isPrefixOf name

def actPrefix : List Char := ['a', 'c', 't', '.']

def isRuntimeTensor (name : List Char) : Bool :=
  [actPrefix, ['i', 'n', '.'], ['k', 'v', '.'], ['m', 'o', 'e', '.'], ['t', 'm', 'a', 'p', '.'],
    ['s', 't', 'a', 't', 'e', '.'], ['s', 'c', 'r', 'a', 't', 'c', 'h', '.']].any
    fun p => startsWith p name

def component (name : List Char) : List Char := (name.reverse.takeWhile (· ≠ '.')).reverse

def isHostFilledTable (name : List Char) : Bool :=
  let table := component name
  ["expert_weight_table", "expert_scale_table", "expert_weight_table_moe2",
    "expert_scale_table_moe2", "dense_weight_table", "dense_scale_table", "expert_weight_table_sf",
    "expert_scale_table_sf", "expert_weight_table_pf", "expert_weight_table_ep",
    "expert_scale_table_ep", "expert_weight_table_ai", "expert_weight_table_sf_ai"].any
    fun s => s.toList = table

def isCheckpointWeight (name : List Char) : Bool :=
  !isRuntimeTensor name && !isHostFilledTable name

/-! ### The checks of a program -/

structure Scan where
  /-- the last finalizer of each partial tensor, newest first -/
  previous : List (Nat × Nat)
  used : List Nat

/-- `x * y * e` bytes -/
def bytes (x y e : Nat) : Res Nat :=
  okOr ((checkedMul x y).bind (checkedMul · e)) "splitK size overflow"

def tensor (blob : Packet) (h : Nat) : Res Tensor :=
  okOr blob.tensors[h]? "splitK bad tensor handle"

/-- the slots of `t` from `k` on are absent -/
def absentFrom (d : DevInst64) (k : Nat) : Prop := ∀ s : Fin 8, k ≤ s.val → d.t s = tensorNone16

instance (d : DevInst64) (k : Nat) : Decidable (absentFrom d k) :=
  inferInstanceAs (Decidable (∀ s : Fin 8, k ≤ s.val → d.t s = tensorNone16))

/-- the immediates from `k` on are zero -/
def zeroFrom (d : DevInst64) (k : Nat) : Prop := ∀ s : Fin 8, k ≤ s.val → d.i s = 0

instance (d : DevInst64) (k : Nat) : Decidable (zeroFrom d k) :=
  inferInstanceAs (Decidable (∀ s : Fin 8, k ≤ s.val → d.i s = 0))

/-- geometry, reserved fields and operands of a triple -/
def tripleShape (blob : Packet) (g : Program) (z c f : DevInst64) : Res Unit := do
  check (z.op = opZ ∧ c.op = opG ∧ f.op = opF) "requires adjacent zero/compute/cast"
  let (m, n, k, s) := (c.i 0, c.i 1, c.i 2, c.i 3)
  check ((m = 4 ∨ m = 8 ∨ m = 16) ∧ g.rows = m ∧ 0 < n ∧ 0 < k ∧ k % 8 = 0 ∧
    (s = 1 ∨ s = 2 ∨ s = 4 ∨ s = 8 ∨ s = 16)) "unsupported geometry or S"
  check (n ≤ 2 ^ 31 - 1 - 127 ∧ k ≤ 2 ^ 31 - 1 - 63 ∧ (n + 127) / 128 * s ≤ 2 ^ 31 - 1)
    "device integer overflow"
  check (z.i 0 = m ∧ z.i 1 = n ∧ f.i 0 = m ∧ f.i 1 = n ∧ zeroFrom z 2 ∧ zeroFrom f 2 ∧
    zeroFrom c 4) "reserved immediates"
  check (∀ d ∈ [z, c, f], d.blocks = blob.nCu ∧ ∀ w, d.fj w = 0) "blocks or reserved float words"
  check (absentFrom z 1 ∧ absentFrom c 3 ∧ absentFrom f 2) "unused tensor operands"
  let (part, a, w, out) := (c.t 0, c.t 1, c.t 2, f.t 0)
  check ([part, a, w, out].Nodup ∧ tensorNone16 ∉ [part, a, w, out]) "aliases or absent operands"
  check (z.t 0 = part ∧ f.t 1 = part) "partial identity mismatch"
  let partT ← tensor blob part
  let plane ← bytes m n 4
  check (plane ≤ partT.bytes ∧ startsWith actPrefix partT.name ∧ partT.initialized = false)
    "partial allocation must contain runtime FP32 plane"
  let aT ← tensor blob a
  let aBytes ← bytes m k 2
  check (aBytes ≤ aT.bytes) "tensor extent"
  let outT ← tensor blob out
  let outBytes ← bytes m n 2
  check (outBytes ≤ outT.bytes) "tensor extent"
  let wT ← tensor blob w
  let wBytes ← bytes n k 2
  check (wT.bytes = wBytes) "tensor extent"
  check (isCheckpointWeight wT.name ∧ startsWith actPrefix aT.name ∧ startsWith actPrefix outT.name)
    "BF16 activation/weight namespaces"

/-- the edges of the triple at `pc` -/
def tripleEdges (dep : List (List Nat)) (scan : Scan) (pc part : Nat) : Res Unit := do
  let depZ ← must dep[pc]?
  let depG ← must dep[pc + 1]?
  let depF ← must dep[pc + 2]?
  check (pc ∈ depG ∧ depF = [pc + 1]) "missing zero/producer edge"
  check (depZ = (scan.previous.lookup part).toList) "zero must wait exactly on prior scratch finalizer"

/-- the search between the triple at `pc` and another instruction; `last` is the instruction of the
triple that a later one has to wait for -/
def orderedBeside (dep : List (List Nat)) (pc last other : Nat) (why : String) : Res Unit :=
  (if other < pc then ordered dep (pc + 1) other else ordered dep other last) >>=
    fun o => check (o = true) why

/-- another instruction's accesses of the weight, the input and the output of the triple at `pc` -/
def tripleAccess (dep : List (List Nat)) (pc a w out : Nat) (di : DevInst64 × Nat) : Res Unit := do
  let (d, other) := di
  let writes ← writeSlots d.op
  check (∀ s ∈ writes, d.t s ≠ w) "checkpoint weight is written by a packet"
  unless' (¬ ∃ s ∈ writes, d.t s = a)
    (orderedBeside dep pc (pc + 1) other "activation writer is unordered with splitK read")
  unless' ((∀ s, d.t s ≠ out) ∨ (pc ≤ other ∧ other < pc + 3))
    (orderedBeside dep pc (pc + 2) other "output storage access is unordered with finalizer")

/-- nothing else waits on the zero or on the compute instruction of the triple at `pc` -/
def tripleEscapes (pc : Nat) (di : List Nat × Nat) : Res Unit := do
  let (d, consumer) := di
  check (pc ∉ d ∨ consumer = pc + 1) "zero counter escapes triple"
  check (pc + 1 ∉ d ∨ consumer = pc + 2) "partial producer counter escapes triple"

def validateTriple (blob : Packet) (g : Program) (dep : List (List Nat)) (scan : Scan) (pc : Nat) :
    Res Scan := do
  check (pc + 2 < g.insts.length) "incomplete triple"
  let z ← must g.insts[pc]?
  let c ← must g.insts[pc + 1]?
  let f ← must g.insts[pc + 2]?
  tripleShape blob g z c f
  tripleEdges dep scan pc (c.t 0)
  g.insts.zipIdx.forM (tripleAccess dep pc (c.t 1) (c.t 2) (f.t 0))
  dep.zipIdx.forM (tripleEscapes pc)
  pure ⟨(c.t 0, pc + 2) :: scan.previous, c.t 0 :: scan.used⟩

/-- the loop over the instructions; the first argument bounds the turns left -/
def validateLoop (blob : Packet) (g : Program) (dep : List (List Nat)) : Nat → Scan → Nat → Res Scan
  | 0, scan, _ => .ok scan
  | fuel + 1, scan, pc =>
    match g.insts[pc]? with
    | none => .ok scan
    | some d =>
      if isSplit d.op then do
        let scan ← validateTriple blob g dep scan pc
        validateLoop blob g dep fuel scan (pc + 3)
      else validateLoop blob g dep fuel scan (pc + 1)

def validateProgram (blob : Packet) (g : Program) (used : List Nat) : Res (List Nat) := do
  let dep ← dependencies g
  let scan ← validateLoop blob g dep g.insts.length ⟨[], used⟩ 0
  pure scan.used

/-! ### The canonical form -/

structure Canonical where
  instructions : List DevInst64
  dependencies : List (List Nat)

structure Layout where
  insts : List DevInst64
  logical : List (Option Nat)
  /-- the instruction whose waits are kept, and the zero instruction they leave out -/
  origins : List (Nat × Option Nat)

/-- the instruction that stands for a triple -/
def fused (c f : DevInst64) : DevInst64 where
  op := opGemv
  blocks := c.blocks
  fj := c.fj
  t := fun s => if s = 0 then f.t 0 else if s = 1 then c.t 1 else if s = 2 then c.t 2
    else tensorNone16
  i := fun s => if s = 3 then 0 else c.i s

/-- an instruction outside the triples; a plain `gemv` has no use for its first float word -/
def plain (d : DevInst64) : DevInst64 :=
  if d.op = opGemv ∧ d.i 3 = 0 then { d with fj := fun w => if w = 0 then 0 else d.fj w } else d

def canonicalOne (g : Program) (acc : Layout) (pc : Nat) (d : DevInst64) : Res (Layout × Nat) := do
  let index := acc.insts.length
  if d.op = opZ then
    check (pc + 2 < g.insts.length ∧ (g.insts[pc + 1]?.map (·.op)) = some opG ∧
      (g.insts[pc + 2]?.map (·.op)) = some opF) "unvalidated canonical triple"
    let c ← must g.insts[pc + 1]?
    let f ← must g.insts[pc + 2]?
    pure (⟨acc.insts ++ [fused c f],
      (acc.logical.set (pc + 1) (some index)).set (pc + 2) (some index),
      acc.origins ++ [(pc + 1, some pc)]⟩, pc + 3)
  else
    check (d.op ≠ opG ∧ d.op ≠ opF) "orphan canonical compute/cast"
    pure (⟨acc.insts ++ [plain d], acc.logical.set pc (some index), acc.origins ++ [(pc, none)]⟩,
      pc + 1)

def canonicalLoop (g : Program) : Nat → Layout → Nat → Res Layout
  | 0, acc, _ => .ok acc
  | fuel + 1, acc, pc =>
    match g.insts[pc]? with
    | none => .ok acc
    | some d => do
      let (acc, pc) ← canonicalOne g acc pc d
      canonicalLoop g fuel acc pc

/-- one kept wait of an origin -/
def canonicalWait (logical : List (Option Nat)) (zero : Option Nat) (set : List Nat) (id : Nat) :
    Res (List Nat) :=
  if some id = zero then .ok set
  else do
    let entry ← must logical[id]?
    let index ← okOr entry "splitK dependency on internal zero"
    pure (if index ∈ set then set else set.orderedInsert (· ≤ ·) index)

def canonicalWaits (dep : List (List Nat)) (logical : List (Option Nat))
    (origin : Nat × Option Nat) : Res (List Nat) := do
  let ids ← must dep[origin.1]?
  ids.foldlM (canonicalWait logical origin.2) []

def canonical (g : Program) : Res Canonical := do
  let dep ← dependencies g
  let layout ← canonicalLoop g g.insts.length ⟨[], List.replicate g.insts.length none, []⟩ 0
  let graph ← layout.origins.mapM (canonicalWaits dep layout.logical)
  pure ⟨layout.insts, graph⟩

/-! ### The checks of a packet -/

structure ProjectionAccess where
  program : Nat
  zeroPc : Nat
  part : Nat
  input : Nat
  weight : Nat
  output : Nat
  rows : Nat
  n : Nat
  k : Nat
  split : Nat

structure Validated where
  canonical : List Canonical
  access : List ProjectionAccess

/-- an operand of an instruction of program `pi` -/
def scratchSlot (lo pi : Nat) (used : List Nat) (d : DevInst64) (slot : Fin 8) : Res Unit :=
  if d.t slot ∈ used then
    check (lo ≤ pi ∧ (((d.op = opZ ∨ d.op = opG) ∧ slot = 0) ∨ (d.op = opF ∧ slot = 1)))
      "scratch used outside partial operands"
  else .ok ()

def accessOf (program : Nat) (p : Program) (dp : DevInst64 × Nat) : Res ProjectionAccess := do
  let (d, pc) := dp
  let zeroPc ← must (if 0 < pc then some (pc - 1) else none)
  let f ← must p.insts[pc + 1]?
  pure ⟨program, zeroPc, d.t 0, d.t 1, d.t 2, f.t 0, d.i 0, d.i 1, d.i 2, d.i 3⟩

def rowPatch (widest : Program) (operands used : List Nat) (index : Nat) : Res Unit := do
  let d ← okOr widest.insts[index]? "KV row patch out of range"
  check (d.op = opHeadNormRope ∧ d.t 0 ∉ operands ∧ ∀ s, d.t s ∉ used)
    "KV row patch touches splitK storage or unsupported opcode"

def generatedOne (operands used : List Nat) (gen : GenTensor) : Res Unit := do
  check (gen.tensor ∉ operands) "generated target aliases splitK operand"
  let handles := gen.tensor ::
    (if gen.kind = genTmapBf16 ∨ gen.kind = genTmapE4m3 then [gen.aux]
      else if gen.kind = genTmapKvPair then [gen.aux, gen.scale] else [])
  check (∀ h ∈ used, h ∉ handles) "scratch used by generated tensor"

def decodeOne (blob : Packet) (used : List Nat) (g : Program) : Res (List Nat) := do
  check (g.packedSibling = false ∧ 0 < g.rows) "packed or empty decode program"
  check (g.streamOfs.length = blob.nCu) "static grid differs from packet"
  validateProgram blob g used

def validate (blob : Packet) : Res (Option Validated) :=
  if ¬ ∃ p ∈ blob.programs, ∃ d ∈ p.insts, isSplit d.op then .ok none
  else do
    check (0 < blob.nCu ∧ blob.nCu ≤ 2 ^ 16 - 1 ∧ blob.tp = false)
      "requires a positive single-GPU grid"
    let lo := blob.prefillCount
    check (lo < blob.programs.length) "missing decode programs"
    check (∀ p ∈ blob.programs.take lo, ∀ d ∈ p.insts, isSplit d.op = false)
      "prefill splitK unsupported"
    let used ← (blob.programs.drop lo).foldlM (decodeOne blob) []
    blob.programs.zipIdx.forM fun (p, pi) => p.insts.forM fun d =>
      (List.finRange 8).forM (scratchSlot lo pi used d)
    let access ← (blob.programs.zipIdx.drop lo).mapM fun (p, program) =>
      (p.insts.zipIdx.filter fun (d, _) => d.op = opG).mapM (accessOf program p)
    let access := access.flatten
    let operands := access.flatMap fun a => [a.part, a.input, a.weight, a.output]
    let widest ← okOr blob.programs.getLast? "missing widest decode program"
    blob.kvRowInsts.forM (rowPatch widest operands used)
    blob.generated.forM (generatedOne operands used)
    let canonical ← (blob.programs.drop lo).mapM canonical
    pure (some ⟨canonical, access⟩)

/-! ### The operands of the interpreter -/

/-- `live_kv::fold_handles` -/
def foldHandles (d : DevInst64) : List Nat :=
  let handles (a : Nat) := [a, d.i 7] ++ if d.i 6 ≠ 0 then [d.i 6] else []
  match DevOp.fromU16 d.op with
  | some .gemv => if d.i 3 = 4 then handles (d.i 5) else []
  | some .gemvGlu => if d.i 3 = 4 then handles (d.i 4) else []
  | _ => []

/-- the tensors an instruction reaches through its immediates and float words -/
def carried (d : DevInst64) : List Nat :=
  match DevOp.fromU16 d.op with
  | some .flashDecode => if d.fj 2 = 0 then [] else [d.fj 2 % 2 ^ 16, d.fj 2 / 2 ^ 16]
  | some .flashDecodeFp8 => if d.fj 2 = 0 then [] else [d.fj 2]
  | some .gemm | some .gemmFp8 => [d.i 6, d.i 7].filter (· ≠ 0)
  | _ => foldHandles d

/-- the tensors that the interpreter's arm of an audited opcode writes -/
def stores (d : DevInst64) : List Nat :=
  match DevOp.fromU16 d.op with
  | none | some .nop => []
  | some .rmsNorm => [d.t 0, d.t 3, d.t 4]
  | some .addNorm | some .normResidualNorm => [d.t 0, d.t 1]
  | some .flashDecode =>
    -- the merge fold writes the output and its counter, the rope fold writes the caches
    [d.t 0, d.t 1] ++ (if d.fj 2 = 0 then [] else [d.fj 2 % 2 ^ 16, d.fj 2 / 2 ^ 16]) ++
      (if d.t 7 = tensorNone16 then [] else [d.t 3, d.t 4])
  | some .gemvQkv => [d.t 0, d.t 3, d.t 5]
  | some .gemv =>
    if d.i 3 = 0 then [d.t 0]
    else if d.i 3 = 4 then [d.t 0, d.t 1, d.t 3]
    else if d.i 3 = 8 then [d.t 0, d.t 3, d.t 5]
    else [d.t 0, d.t 3]
  | some .gemvGlu =>
    if d.fj 2 ≠ 0 then d.t 0 :: [d.i 3].filter (· ≠ 0)
    else if d.i 3 = 4 then [d.t 0, d.t 1, d.t 3]
    else [d.t 0]
  | some .headNormRope => if d.i 7 = 0 then [d.t 0] else [d.t 0, d.t 6]
  | _ => [d.t 0]

end Plow.Splitk
