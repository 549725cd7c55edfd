import Plow.Devbuild.Prepare

/-!
# Flattening

`Builder.finish`: the operations are cut into segments (`segAt`), a dependency is gated by counters
unless the segments order it (`Ctx.sameSegmentDep`), and every slice becomes an entry of its
compute unit's stream and of the global queue, with the counters it waits on and those it bumps
(`Ctx.opStep`, `Ctx.sliceStep`).  The queue is sorted into windows, one for each segment and
locality domain, whose bounds are `gqSegOfs`.
-/

namespace Plow.Devbuild

/-- what the opcodes, the immediates and the knobs decide about a list of operations -/
structure Launch where
  uniseg : Bool
  fuseXrAttnres : Bool
  fineForce : Bool
  segPerOp : Bool
  sliceMode : ℕ
  segSliceAll : Bool
  /-- the operations `native_gemma4_glu` isolates -/
  native : List Op → ℕ → Bool
  waveClass : List Op → ℕ → ℕ
  /-- `raw_segmented`, apart from the pairs below -/
  raw : List Op → Bool
  decodeGroupedMoe : List Op → Bool
  decodeW8a8Moe : List Op → Bool
  decodeMlaBf16 : List Op → Bool
  xrWaveRs : List Op → ℕ → Bool
  kda : List Op → ℕ → Bool
  kdaKeyfeed : List Op → ℕ → Bool

/-! ### Segments -/

def isFlash (op : ℕ) : Bool := op = opFlashPrefill || op = opFlashPrefillFp8

def isGdn (op : ℕ) : Bool := op = opQwenGdnPrefill

/-- a segment starts between `prev` and `next` -/
def cuts (uniseg : Bool) (prev next : Op) (prevClass nextClass : ℕ) : Bool :=
  nextClass ≠ prevClass || isGdn next.inst.op || isGdn prev.inst.op ||
    (!uniseg && (isFlash next.inst.op || isFlash prev.inst.op)) ||
    next.isolated || prev.isolated || next.join ≠ prev.join

/-- `seg_of` -/
def segAt (uniseg segPerOp : Bool) (waveClass : ℕ → ℕ) (ops : List Op) : ℕ → ℕ
  | 0 => 0
  | i + 1 =>
    if segPerOp then i + 1
    else
      match ops[i]?, ops[i + 1]? with
      | some prev, some next =>
        if cuts uniseg prev next (waveClass i) (waveClass (i + 1)) then
          segAt uniseg segPerOp waveClass ops i + 1
        else segAt uniseg segPerOp waveClass ops i
      | _, _ => segAt uniseg segPerOp waveClass ops i

/-- The counters of a fine producer start at its `fine_base`; the second part is the next free
counter. -/
def fineBases (ops : List Op) : (ℕ → Option ℕ) × ℕ :=
  (ops.flatMap fun op => op.deps.filter Dep.isFine).foldl (fun st d =>
    match st.1 d.producer with
    | some _ => st
    | none =>
      (Function.update st.1 d.producer (some st.2),
        st.2 + (ops[d.producer]?.map fun op => op.cus.length).getD 0))
    (fun _ => none, ops.length)

/-! ### Entries -/

/-- what the flattening of the operations reads -/
structure Ctx where
  ops : List Op
  seg : ℕ → ℕ
  waveClass : ℕ → ℕ
  rawSegmented : Bool
  decodeGroupedMoe : Bool
  decodeW8a8Moe : Bool
  decodeMlaBf16 : Bool
  xrWaveRs : ℕ → Bool
  kda : ℕ → Bool
  kdaKeyfeed : ℕ → Bool
  fineBase : ℕ → Option ℕ
  l2 : Option L2Layout
  unisegDenied : Bool

structure Emitted where
  waits : List Wait
  succs : List ℕ
  insts : List DevInst
  streams : List (List StreamEnt)
  gqStream : List StreamEnt

def routerSignal (op : Op) : Bool :=
  op.inst.op = opGemmF32 && op.inst.i 7 = routerRawMark && op.inst.i 5 &&& routerRawSignal ≠ 0

namespace Ctx
variable (cx : Ctx)

def slices (p : ℕ) : ℕ := (cx.ops[p]?.map fun op => op.cus.length).getD 0

def signals (p : ℕ) : Bool := (cx.ops[p]?.map routerSignal).getD false

/-- the pairs that raw launches run in order -/
def rawPairEdge (consumer producer : ℕ) : Bool :=
  (cx.decodeGroupedMoe && cx.waveClass consumer = 20 && cx.waveClass producer = 20) ||
  (cx.decodeW8a8Moe && cx.waveClass consumer = 30 && cx.waveClass producer = 30) ||
  (cx.decodeMlaBf16 && cx.waveClass consumer = 27 && cx.waveClass producer = 27)

def sameSegmentDep (consumer : ℕ) (d : Dep) : Bool :=
  let producer := d.producer
  (cx.rawSegmented && cx.signals producer && cx.seg consumer = cx.seg producer + 1) ||
  (!cx.rawPairEdge consumer producer && (!cx.rawSegmented || cx.seg consumer = cx.seg producer))

def sameSegmentConsumer (p : ℕ) : Bool :=
  cx.ops.zipIdx.any fun c => c.1.deps.any fun d => d.producer = p && cx.sameSegmentDep c.2 d

def sameSegmentFineConsumer (p : ℕ) : Bool :=
  cx.ops.zipIdx.any fun c =>
    c.1.deps.any fun d => d.producer = p && d.isFine && cx.sameSegmentDep c.2 d

def coarseWaits (idx : ℕ) (op : Op) : List Wait :=
  (op.deps.filter (cx.sameSegmentDep idx)).flatMap fun d =>
    match d with
    | .coarse c => [⟨c, cx.slices c⟩]
    | .fine _ _ => []

/-- the wait list of a slice -/
def fineWaits (idx : ℕ) (op : Op) (slice : ℕ) : List Wait :=
  (op.deps.filter (cx.sameSegmentDep idx)).flatMap fun d =>
    match d with
    | .coarse c => [⟨c, cx.slices c⟩]
    | .fine p map => (map.getD slice []).map fun ps => ⟨(cx.fineBase p).getD 0 + ps, 1⟩

def hasFineDep (idx : ℕ) (op : Op) : Bool :=
  op.deps.any fun d => cx.sameSegmentDep idx d && d.isFine

def isFineProducer (idx : ℕ) : Bool :=
  (cx.fineBase idx).isSome && (!cx.rawSegmented || cx.sameSegmentFineConsumer idx)

def entSeg (idx : ℕ) : ℕ := if cx.l2.isSome && !cx.unisegDenied then 0 else cx.seg idx

def domains : ℕ := (cx.l2.map fun l => l.domains).getD 1

def domainOf (cu : ℕ) : ℕ := (cx.l2.map fun l => l.domainOf cu).getD 0

def marks (idx cu fine : ℕ) : ℕ :=
  fine ||| (cx.domainOf cu <<< seDomainShift) |||
    (if cx.xrWaveRs idx then seXrWaveRs else 0) ||| (if cx.kda idx then seKda else 0)

def sliceStep (idx : ℕ) (op : Op) (inst : DevInst) (out : Emitted) (slice cu : ℕ) : Emitted :=
  let hasFineDep := cx.hasFineDep idx op
  let isFineProducer := cx.isFineProducer idx
  let e : StreamEnt × List Wait × List ℕ :=
    if hasFineDep || isFineProducer then
      let ws := if hasFineDep then cx.fineWaits idx op slice else []
      let ss := op.counter :: if isFineProducer then [(cx.fineBase idx).getD 0 + slice] else []
      ({ inst := idx, slice
         waitOfs := if hasFineDep then out.waits.length else inst.waitOfs
         waitLen := if hasFineDep then ws.length % 65536 else inst.waitLen
         succOfs := out.succs.length, succLen := ss.length
         flags := cx.marks idx cu seFine, seg := cx.entSeg idx }, ws, ss)
    else
      ({ inst := idx, slice, waitOfs := inst.waitOfs, waitLen := inst.waitLen
         succOfs := inst.succOfs, succLen := inst.succLen
         flags := cx.marks idx cu 0, seg := cx.entSeg idx }, [], [])
  { out with
    waits := out.waits ++ e.2.1
    succs := out.succs ++ e.2.2
    streams := out.streams.modify cu (· ++ [e.1])
    gqStream := out.gqStream ++ [e.1] }

/-- the instruction with its own lists, and the lists -/
def instLists (idx : ℕ) (op : Op) (out : Emitted) : DevInst × List Wait × List ℕ :=
  let i5 := if routerSignal op then
    op.inst.i 5 ||| (op.cus.length <<< 2) ||| (op.counter <<< 12) else op.inst.i 5
  let i5 := if cx.kdaKeyfeed idx then 1 else i5
  let ws := cx.coarseWaits idx op
  let ss := if !cx.rawSegmented || cx.sameSegmentConsumer idx then [op.counter] else []
  ({ op.inst with
     i := Function.update op.inst.i 5 i5
     waitOfs := out.waits.length, waitLen := ws.length % 65536
     succOfs := out.succs.length, succLen := ss.length }, ws, ss)

def opStep (out : Emitted) (idx : ℕ) (op : Op) : Emitted :=
  let l := cx.instLists idx op out
  let out := { out with waits := out.waits ++ l.2.1, succs := out.succs ++ l.2.2 }
  let out := op.cus.zipIdx.foldl (fun out s => cx.sliceStep idx op l.1 out s.2 s.1) out
  { out with insts := out.insts ++ [l.1] }

def emitted (nCu : ℕ) : Emitted :=
  cx.ops.zipIdx.foldl (fun out p => cx.opStep out p.2 p.1)
    ⟨[], [], [], List.replicate nCu [], []⟩

end Ctx

/-! ### Windows -/

/-- the start of operation `i` as far as dependency `d` asks, from the starts of those before it -/
def startStep (ops : List Op) (segOf : Option (ℕ → ℕ)) (start : List ℕ) (op : Op) (i s : ℕ)
    (d : Dep) : ℕ :=
  if d.producer < i && (segOf.all fun seg => seg d.producer = seg i) then
    let cost :=
      if op.gqHoist then 0
      else if (ops[d.producer]?.map fun op => op.inst.blocks).getD 0 ≤ 1 then 3 else 1
    max s (start.getD d.producer 0 + cost)
  else s

def startOf (ops : List Op) (segOf : Option (ℕ → ℕ)) (start : List ℕ) (p : Op × ℕ) : ℕ :=
  p.1.deps.foldl (startStep ops segOf start p.1 p.2) 0

/-- `gq_asap_ranks`, in the order of the operations -/
def asapRanks (ops : List Op) (segOf : Option (ℕ → ℕ)) : List ℕ :=
  ops.zipIdx.foldl (fun start p => start ++ [startOf ops segOf start p]) []

def sortByKey {K : Type} [LE K] [DecidableLE K] (key : StreamEnt → K) (l : List StreamEnt) :
    List StreamEnt :=
  l.insertionSort fun a b => key a ≤ key b

def windowOf (l2 : Option L2Layout) (e : StreamEnt) : ℕ :=
  match l2 with
  | some l => e.seg * l.domains + e.domain
  | none => e.seg

def gqSort (l2 : Option L2Layout) (asap : Option (List ℕ)) (gq : List StreamEnt) : List StreamEnt :=
  let rank := fun e : StreamEnt => (asap.map fun a => a.getD e.inst 0).getD 0
  if l2.isSome || asap.isSome then sortByKey (fun e => toLex (windowOf l2 e, rank e)) gq else gq

def nper (gq : List StreamEnt) (e : StreamEnt) : ℕ :=
  gq.countP fun e' => e'.flags &&& seFine = 0 && e'.inst = e.inst && e'.domain = e.domain

def packNper (gq : List StreamEnt) : List StreamEnt :=
  gq.map fun e =>
    if e.flags &&& seFine ≠ 0 ∨ nper gq e ≤ 1 then e
    else { e with flags := e.flags ||| (nper gq e <<< seNperShift) }

def nperFits (gq : List StreamEnt) : Bool :=
  gq.all fun e => e.flags &&& seFine ≠ 0 || nper gq e ≤ 511

/-- the loop `while key > s`: bounds are entered up to the window of the entry -/
def closeUpTo (key i : ℕ) : ℕ → ℕ × List ℕ → ℕ × List ℕ
  | 0, st => st
  | fuel + 1, (s, ofs) =>
    if s < key then closeUpTo key i fuel (s + 1, ofs.set (s + 1) i) else (s, ofs)

def windowBounds (nSeg : ℕ) (keys : List ℕ) : List ℕ :=
  let (_, ofs) := keys.zipIdx.foldl (fun st k => closeUpTo k.1 k.2 k.1 st)
    (0, List.replicate (nSeg + 1) 0)
  ofs.set nSeg keys.length

/-! ### The whole -/

namespace Builder

/-- `l2_place` -/
def l2Place (b : Builder) : Option L2Layout := do
  let l ← b.opts.placeL2
  if l.sms = 0 ∨ l.domains = 0 then none
  else if l.map = .block ∧ l.domains * l.sms < b.nCu then none
  else some l

def uniseg (b : Builder) (k : Launch) : Bool :=
  b.opts.unisegForced || (!b.opts.unisegDenied && k.uniseg)

/-- the operations after the whole-graph fusions -/
def fused (b : Builder) (k : Launch) : Option (List Op) :=
  let first := if b.opts.fuseMaterializedResidualInputs then fuseMaterializedResidualInputs b.ops
    else some b.ops
  first.bind fun ops => if k.fuseXrAttnres then fuseXreduceAttnres ops else some ops

def isolateNative (native : ℕ → Bool) (ops : List Op) : List Op :=
  ops.zipIdx.map fun p => { p.1 with isolated := p.1.isolated || native p.2 }

def reduced (k : Launch) (ops : List Op) : List Op :=
  reduceDeps (selectGranularity k.fineForce (isolateNative (k.native ops) ops))

def resliced (b : Builder) (k : Launch) (ops : List Op) : List Op :=
  let segClassSlice := !b.uniseg k && k.sliceMode ≠ 0 && ops.any fun op => isFlash op.inst.op
  let ops := if segClassSlice then
    resliceClass b.nCu k.sliceMode k.segSliceAll (k.waveClass ops) ops else ops
  resliceGemv b.nCu b.opts.gemvSplit ops

/-- what flattening reads, of the operations after the reduction -/
def ctx (b : Builder) (k : Launch) (ops : List Op) : Ctx where
  ops := b.resliced k ops
  seg := segAt (b.uniseg k) k.segPerOp (k.waveClass ops) ops
  waveClass := k.waveClass ops
  rawSegmented := k.raw ops || k.decodeGroupedMoe ops || k.decodeW8a8Moe ops || k.decodeMlaBf16 ops
  decodeGroupedMoe := k.decodeGroupedMoe ops
  decodeW8a8Moe := k.decodeW8a8Moe ops
  decodeMlaBf16 := k.decodeMlaBf16 ops
  xrWaveRs := k.xrWaveRs ops
  kda := k.kda ops
  kdaKeyfeed := k.kdaKeyfeed ops
  fineBase := (fineBases ops).1
  l2 := b.l2Place
  unisegDenied := b.opts.unisegDenied

def orderedSegments (b : Builder) (cx : Ctx) : ℕ :=
  if cx.l2.isSome && !b.opts.unisegDenied then 1 else cx.seg (cx.ops.length - 1) + 1

def asap (b : Builder) (cx : Ctx) : Option (List ℕ) :=
  if b.opts.gqOrderAsap then
    some (asapRanks cx.ops (if b.opts.gqOrderSeg then some cx.seg else none))
  else none

def program (b : Builder) (cx : Ctx) (nCounter : ℕ) : Option Program := do
  guard (cx.seg (cx.ops.length - 1) < 65536)
  guard (∀ op ∈ cx.ops, routerSignal op → op.cus.length < 1024 ∧ op.counter < 1048576)
  guard (cx.ops = [] ∨ cx.l2.all (·.domains ≤ 8))
  let out := cx.emitted b.nCu
  let gq := gqSort cx.l2 (b.asap cx) out.gqStream
  guard (cx.l2.isNone ∨ nperFits gq)
  let gq := if cx.l2.isSome then packNper gq else gq
  let nSeg := b.orderedSegments cx * cx.domains
  return {
    nCu := b.nCu
    nCounter := nCounter + (cx.l2.map fun l => 3 * cx.ops.length * l.domains).getD 0
    hierBase := if cx.l2.isSome then nCounter else 0
    insts := out.insts
    stream := out.streams.flatten
    streamOfs := (List.range b.nCu).map fun cu => (out.streams.take cu).flatten.length
    streamLen := out.streams.map List.length
    waits := out.waits
    succs := out.succs
    gqStream := gq
    gqSegOfs := windowBounds nSeg (gq.map (windowOf cx.l2))
    l2Sms := (cx.l2.map fun l => l.sms).getD 0
    l2Domains := (cx.l2.map fun l => l.domains).getD 0 }

def finish (b : Builder) (k : Launch) : Option Program := do
  let ops ← b.fused k
  guard (∀ op ∈ ops, ∀ d ∈ op.deps, d.producer < ops.length)
  let ops := reduced k ops
  b.program (b.ctx k ops) (fineBases ops).2

end Builder

end Plow.Devbuild
