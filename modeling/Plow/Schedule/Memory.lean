import Plow.Lib.FirstFit
import Plow.Rewrite.TileGraph
import Plow.Schedule.Machine

/-!
# The memory plan

Every buffer gets an offset in one arena: `place` packs the buffers of a device by their class,
scratch buffers first fit by their live intervals, `allocate` follows the aliases to the buffers
that have bytes of their own and places those, and `planFromSchedule` derives the buffers from a
scheduled task graph.

A `HashMap` is a function into `Option`.  Sums of bytes and cycles are natural numbers: that they
stay below `2 ^ 64` is not modelled.
-/

namespace Plow.Schedule
open Plow.Lib Plow.Rewrite

inductive BufClass where
  | persistent
  | static
  | requestIo
  | scratch
  | growable
  deriving DecidableEq, Repr

def memAlign : Nat := 256

/-- `Cycle::MAX` -/
def cycleMax : Nat := 2 ^ 64 - 1

/-- A buffer to place. -/
structure BufReq where
  name : String
  size : Nat
  cls : BufClass
  live : Option (Nat × Nat)
  growthReserve : Nat
  device : Nat
  replicas : List Nat
  aliasOf : Option String
  aliasOff : Nat
  deriving DecidableEq, Repr

namespace BufReq

def new (name : String) (size : Nat) (cls : BufClass) : BufReq where
  name := name
  size := size
  cls := cls
  live := none
  growthReserve := 0
  device := 0
  replicas := []
  aliasOf := none
  aliasOff := 0

def onDevice (r : BufReq) (device : Nat) : BufReq := { r with device := device }

def withLive (r : BufReq) (start stop : Nat) : BufReq := { r with live := some (start, stop) }

def aliasAt (r : BufReq) (target : String) (off : Nat) : BufReq :=
  { r with aliasOf := some target, aliasOff := off }

def window (r : BufReq) : Nat × Nat := r.live.getD (0, cycleMax)

end BufReq

/-- One placed buffer. -/
structure AddrEntry where
  slot : Nat
  name : String
  cls : BufClass
  offset : Nat
  reserved : Nat
  growable : Bool
  device : Nat
  deriving DecidableEq, Repr

structure Segment where
  device : Nat
  globalBase : Nat
  size : Nat
  growableBase : Nat
  deriving DecidableEq, Repr

structure AddressMap where
  entries : List AddrEntry
  arenaBytes : Nat
  growableBase : Nat
  segments : List Segment
  deriving DecidableEq, Repr

def alignUp (x a : Nat) : Nat := (x + a - 1) / a * a

/-! ### One device -/

abbrev Offsets := Nat → Option Nat

/-- `HashMap::insert` -/
def Offsets.insert (offsets : Offsets) (i o : Nat) : Offsets := fun j => if j = i then some o else offsets j

/-- `HashMap::extend` -/
def Offsets.extend (offsets more : Offsets) : Offsets := fun j => (more j).or (offsets j)

structure Scratch where
  placed : List Hold
  offsets : Offsets
  peak : Nat

/-- one turn of the scratch planner -/
def scratchOne (base : Nat) (s : Scratch) (e : BufReq × Nat) : Scratch :=
  let (start, stop) := e.1.window
  let size := alignUp e.1.size memAlign
  let off := freeAt (alignUp · memAlign) base s.placed size start stop
  ⟨s.placed ++ [⟨off, size, start, stop⟩], s.offsets.insert e.2 off, max s.peak (off + size)⟩

def scratchOrder (reqs : List BufReq) : List (BufReq × Nat) :=
  (reqs.zipIdx.filter fun e => e.1.cls = .scratch).insertionSort fun a b =>
    (a.1.live.map (·.1)).getD 0 ≤ (b.1.live.map (·.1)).getD 0

def planScratch (reqs : List BufReq) (base : Nat) : Scratch :=
  (scratchOrder reqs).foldl (scratchOne base) ⟨[], fun _ => none, base⟩

/-- the buffers of one class, one behind the other -/
def packClass (cls : BufClass) (len : BufReq → Nat) :
    List (BufReq × Nat) → Offsets × Nat → Offsets × Nat
  | [], state => state
  | (r, i) :: rs, (offsets, cursor) =>
    if r.cls = cls then
      let cursor := alignUp cursor memAlign
      packClass cls len rs (offsets.insert i cursor, cursor + len r)
    else packClass cls len rs (offsets, cursor)

/-- the offsets, the size of the arena and the growable base -/
def place (reqs : List BufReq) : Offsets × Nat × Nat :=
  let (offsets, cursor) := packClass .persistent (·.size) reqs.zipIdx (fun _ => none, 0)
  let (offsets, cursor) := packClass .static (·.size) reqs.zipIdx (offsets, cursor)
  let (offsets, cursor) := packClass .requestIo (·.size) reqs.zipIdx (offsets, cursor)
  let scratch := planScratch reqs (alignUp cursor memAlign)
  let growableBase := alignUp scratch.peak memAlign
  let (offsets, cursor) := packClass .growable (fun r => r.size + r.growthReserve) reqs.zipIdx
    (offsets.extend scratch.offsets, growableBase)
  (offsets, cursor, growableBase)

/-! ### Aliases -/

def unionLive : Option (Nat × Nat) → Option (Nat × Nat) → Option (Nat × Nat)
  | some (s1, e1), some (s2, e2) => some (min s1 s2, max e1 e2)
  | x, none => x
  | none, x => x

def expandReplicas (reqs : List BufReq) : List BufReq :=
  reqs.flatMap fun r =>
    if r.replicas = [] then [r] else r.replicas.map fun d => { r with device := d, replicas := [] }

def bufIdx (reqs : List BufReq) (name : String) (device : Nat) : Option Nat :=
  reqs.zipIdx.reverse.findSome? fun (r, i) =>
    if r.name = name ∧ r.device = device then some i else none

def aliasTarget (reqs : List BufReq) (cur : Nat) : Option Nat := do
  let r ← reqs[cur]?
  let target ← r.aliasOf
  let n ← bufIdx reqs target r.device
  if n ≠ cur then some n else none

def aliasOff (reqs : List BufReq) (cur : Nat) : Nat := (reqs[cur]?.map (·.aliasOff)).getD 0

/-- `k` steps along the aliases, with the offsets added up -/
def followAlias (reqs : List BufReq) : Nat → Nat → Nat → Nat × Nat
  | 0, cur, off => (cur, off)
  | k + 1, cur, off =>
    match aliasTarget reqs cur with
    | some n => followAlias reqs k n (off + aliasOff reqs cur)
    | none => (cur, off)

def rootAndOff (reqs : List BufReq) (start : Nat) : Nat × Nat :=
  followAlias reqs reqs.length start 0

/-- The buffers with bytes of their own, and where each root is among them. -/
structure Merge where
  merged : List BufReq
  rootPos : Offsets

def Merge.entry (s : Merge) (root : Nat) (r : BufReq) : Merge × Nat :=
  match s.rootPos root with
  | some pos => (s, pos)
  | none => (⟨s.merged ++ [r], s.rootPos.insert root s.merged.length⟩, s.merged.length)

def foldMember (root i off : Nat) (member m : BufReq) : BufReq :=
  let m := { m with size := max m.size (off + member.size) }
  if i ≠ root then { m with live := unionLive m.live member.live } else m

def mergeOne (reqs : List BufReq) (s : Merge) (i : Nat) : Merge :=
  let (root, off) := rootAndOff reqs i
  match reqs[root]?, reqs[i]? with
  | some r, some member =>
    let (s, pos) := s.entry root r
    { s with merged := s.merged.modify pos (foldMember root i off member) }
  | _, _ => s

def mergeRoots (reqs : List BufReq) : Merge :=
  (List.range reqs.length).foldl (mergeOne reqs) ⟨[], fun _ => none⟩

/-! ### All devices -/

structure Arena where
  offsets : Offsets
  segments : List Segment
  globalBase : Nat
  growableBase : Nat

def ofDevice (merged : List BufReq) (device : Nat) : List (BufReq × Nat) :=
  merged.zipIdx.filter fun e => e.1.device = device

def shiftOffsets (sub : List (BufReq × Nat)) (base : Nat) (offsets loc : Offsets) : Offsets :=
  sub.zipIdx.foldl (fun offsets (e, li) => offsets.insert e.2 (base + (loc li).getD 0)) offsets

def placeDevice (merged : List BufReq) (a : Arena) (device : Nat) : Arena :=
  let sub := ofDevice merged device
  let (loc, size, growableBase) := place (sub.map (·.1))
  let segment := ⟨device, a.globalBase, size, a.globalBase + growableBase⟩
  ⟨shiftOffsets sub a.globalBase a.offsets loc, a.segments ++ [segment],
    a.globalBase + alignUp size memAlign,
    if a.segments = [] then segment.growableBase else a.growableBase⟩

def devices (merged : List BufReq) : List Nat :=
  (merged.map (·.device)).dedup.insertionSort (· ≤ ·)

def placeDevices (merged : List BufReq) : Arena :=
  (devices merged).foldl (placeDevice merged) ⟨fun _ => none, [], 0, 0⟩

def addrEntry (reqs : List BufReq) (m : Merge) (offsets : Offsets) (e : BufReq × Nat) :
    Option AddrEntry := do
  let (root, off) := rootAndOff reqs e.2
  let pos ← m.rootPos root
  let buf ← m.merged[pos]?
  let base ← offsets pos
  some {
    slot := e.2
    name := e.1.name
    cls := buf.cls
    offset := base + off
    reserved := if e.1.cls = .growable then e.1.size + e.1.growthReserve else e.1.size
    growable := buf.cls = .growable
    device := buf.device }

/-- `none` where the code panics on a missing key -/
def allocate (reqs : List BufReq) : Option AddressMap := do
  let reqs := expandReplicas reqs
  let m := mergeRoots reqs
  let a := placeDevices m.merged
  let entries ← reqs.zipIdx.mapM (addrEntry reqs m a.offsets)
  some ⟨entries, a.globalBase, a.growableBase, a.segments⟩

/-! ### From a schedule -/

/-- What the planner gathers of a tensor. -/
structure Acc where
  size : Nat
  hasWriter : Bool
  firstWrite : Nat
  lastRead : Nat
  device : Nat
  deriving DecidableEq, Repr

def Acc.init (t : Task) : Acc := ⟨0, false, cycleMax, 0, t.unit % 256⟩

/-- a task that names the tensor; it starts at `start` -/
def Acc.touch (a : Acc) (t : Task) (start : Nat) : Acc :=
  let a := { a with size := max a.size (max t.bytes t.tensorBytes) }
  match t.kind with
  | .compute | .dmaOut =>
    { a with hasWriter := true, firstWrite := min a.firstWrite start, device := t.unit % 256 }
  | .dmaIn => { a with lastRead := max a.lastRead (start + 1) }
  | .host => a

/-- `sched.starts`, 0 where there is none -/
def startOf (starts : List Nat) (t : Nat) : Nat := starts.getD t 0

/-- the tasks up to here, for the tensor `name` -/
def accOne (starts : List Nat) (name : String) (a : Option Acc) (e : Task × Nat) : Option Acc :=
  if e.1.tensor = some name then
    some ((a.getD (.init e.1)).touch e.1 (startOf starts e.2))
  else a

def accOf (tg : TaskGraph) (starts : List Nat) (name : String) : Option Acc :=
  tg.tasks.zipIdx.foldl (accOne starts name) none

abbrev Aliases := String → Option (String × Nat)

def Aliases.insert (aliases : Aliases) (name target : String) (off : Nat) : Aliases :=
  fun n => if n = name then some (target, off) else aliases n

/-- a reshape's output is its first input -/
def reshapeAlias (cons : ConstraintSet) (aliases : Aliases) (t : Task) : Aliases :=
  if t.kind = .compute then
    match cons.opIo t.node with
    | some ⟨.layout s, in0 :: _, output, _, _⟩ =>
      if s.«alias» then aliases.insert output in0 0 else aliases
    | _ => aliases
  else aliases

/-- the parts of a concat behind its first one, end to end -/
def concatParts (acc : String → Option Acc) (root : String) : List String → Aliases × Nat → Aliases × Nat
  | [], state => state
  | p :: ps, (aliases, off) =>
    let aliases := if (acc p).isSome then aliases.insert p root off else aliases
    concatParts acc root ps (aliases, off + ((acc p).map (·.size)).getD 0)

def concatAlias (acc : String → Option Acc) (aliases : Aliases) (grp : ConcatGroup) : Aliases :=
  match grp.parts with
  | root :: p :: ps =>
    match acc root with
    | some a =>
      let (aliases, _) := concatParts acc root (p :: ps) (aliases, a.size)
      if (acc grp.output).isSome then aliases.insert grp.output root 0 else aliases
    | none => aliases
  | _ => aliases

def aliasesOf (tg : TaskGraph) (starts : List Nat) (cons : ConstraintSet) : Aliases :=
  cons.concatGroups.foldl (concatAlias (accOf tg starts))
    (tg.tasks.foldl (reshapeAlias cons) fun _ => none)

def Acc.interval (a : Acc) : Nat × Nat :=
  let s := if a.firstWrite = cycleMax then 0 else a.firstWrite
  (s, max a.lastRead (s + 1))

def Acc.req (a : Acc) (name : String) : BufReq :=
  (if a.hasWriter then (BufReq.new name a.size .scratch).withLive a.interval.1 a.interval.2
    else BufReq.new name a.size .persistent).onDevice a.device

def tensorReq (acc : String → Option Acc) (aliases : Aliases) (name : String) (a : Acc) : BufReq :=
  match aliases name with
  | some (target, off) => if (acc target).isSome then (a.req name).aliasAt target off else a.req name
  | none => a.req name

def tensorNames (tg : TaskGraph) : List String :=
  (tg.tasks.filterMap (·.tensor)).dedup.insertionSort (· ≤ ·)

def planReqs (tg : TaskGraph) (starts : List Nat) (cons : ConstraintSet) : List BufReq :=
  (tensorNames tg).filterMap fun name =>
    (accOf tg starts name).map (tensorReq (accOf tg starts) (aliasesOf tg starts cons) name)

/-- `starts` are the schedule's starts -/
def planFromSchedule (tg : TaskGraph) (starts : List Nat) (cons : ConstraintSet) : Option AddressMap :=
  allocate (planReqs tg starts cons)

end Plow.Schedule
