import Plow.KvStore.Slab

/-!
# The KV block store under its lock

`Inner` is the state behind the store's mutex and the functions below are the store's methods as
they change it, one lock hold at a time.  What a method asks of the backend while it holds the lock
(a chunk allocation, a copy, a fence query, the free memory) is an argument.  An operation that
drops its lock in the middle is several functions: `spill` takes the lock once per block
(`spillOne`), `shrink` is `shrinkBegin` and `shrinkEnd` with the copies between them,
`host_grow_step` is `growPick` and `growLand`.

`leaked` and `trace` are not in the source and no function reads them: the slots that `leak` took
out of use, and what the store did that its state does not tell (a reclaim, a last release, a seal,
the copies it asked for).

Left out: the counters of `StoreStats` that no method reads, the worker queue of released chunks
(`frees`, `free_step`), and the read-only queries.
-/

namespace Plow.KvStore

def u64Max : Nat := 18446744073709551615

def satAdd (a b : Nat) : Nat := min (a + b) u64Max
def satMul (a b : Nat) : Nat := min (a * b) u64Max

/-- Host chunks allocated between two `MemAvailable` reads of the host-reserve check. -/
def hostFloorEvery : Nat := 16
def deviceFloorEvery : Nat := 8
/-- Most bytes one `shrink` call releases. -/
def shrinkStepBytes : Nat := 128 * 2^20
def growHold : Nat := 10 * 10^9
def hostSpareBytes : Nat := 2^30

/-- One row class: what a row is made of and how many rows one block holds. -/
structure ClassSpec where
  rowBytes : Nat
  rowsPerBlock : Nat
  deriving DecidableEq, Repr

def ClassSpec.blockBytes (c : ClassSpec) : Nat := c.rowBytes * c.rowsPerBlock

structure BlockKey where
  ns : Nat
  chain : Nat
  check : Nat
  deriving DecidableEq, Repr

inductive State where
  | filling
  | ready
  | failed
  deriving DecidableEq, Repr

/-- Where a block's bytes are. -/
inductive Where where
  | device (dev : Slot .dev)
  | spilling (dev : Slot .dev) (host : Slot .host) (fence : Nat)
  | host (host : Slot .host)
  | restoring (dev : Slot .dev) (host : Slot .host) (fence : Nat)
  deriving DecidableEq, Repr

namespace Where

def dev? : Where → Option (Slot .dev)
  | .device d => some d
  | .spilling d _ _ => some d
  | .host _ => none
  | .restoring d _ _ => some d

def host? : Where → Option (Slot .host)
  | .device _ => none
  | .spilling _ h _ => some h
  | .host h => some h
  | .restoring _ h _ => some h

end Where

structure Block where
  cls : Nat
  key : BlockKey
  state : State
  place : Where
  dependents : Nat
  holds : Nat
  tick : Nat
  deriving DecidableEq, Repr

/-- One block-table entry: the generation its current or next block carries. -/
structure Entry where
  gen : Nat
  block : Option Block
  deriving DecidableEq, Repr

/-- What `trace` records. -/
inductive Event where
  /-- `device_slot` drops the block for its slot -/
  | reclaim (cls : Nat) (id : BlockId)
  /-- the last dependent of the block leaves -/
  | idle (id : BlockId)
  /-- a fill ends well, and the block is `Ready` -/
  | seal (cls : Nat) (key : BlockKey) (place : Where)
  /-- a copy back that is complete on return (`ok`: it succeeded) -/
  | htod (cls : Nat) (host : Slot .host) (dev : Slot .dev) (ok : Bool)
  /-- a queued copy to the host -/
  | spill (cls : Nat) (dev : Slot .dev) (host : Slot .host) (fence : Nat)
  /-- a queued copy to the device -/
  | restore (cls : Nat) (host : Slot .host) (dev : Slot .dev) (fence : Nat)
  deriving DecidableEq, Repr

structure Inner where
  nClasses : Nat
  spec : Nat → ClassSpec
  device : Nat → Slab .dev
  host : Nat → Slab .host
  deviceCap : Nat
  deviceFloor : Nat
  growHoldUntil : Option Nat
  hostCap : Nat
  hostReserve : Nat
  nBlocks : Nat
  blocks : Nat → Entry
  freeEntries : List Nat
  index : Nat × BlockKey → Option BlockId
  /-- Zero-dependent device blocks per class in release order (oldest first); an entry may be
  stale. -/
  reclaim : Nat → List BlockId
  hostReclaim : Nat → List BlockId
  spilling : List (BlockId × Nat)
  spillingBytes : Nat
  restoring : List BlockId
  /-- Host slots of blocks being refilled on the device, kept until the fill seals. -/
  refilling : BlockId → Option (Slot .host)
  quarantined : Nat
  hostSpare : Nat → List (Chunk .host)
  tick : Nat
  deviceGrows : Nat
  hostGrows : Nat
  /-- device slots that were leaked -/
  leaked : List (Nat × Slot .dev)
  /-- what happened, the newest first -/
  trace : List Event

/-- A compaction in flight: `moves` are `(block, from, to)`. -/
structure CompactionPlan where
  cls : Nat
  moves : List (BlockId × Slot .dev × Slot .dev)
  copies : List (Nat × Nat × Nat)

/-- Where a gather reads a block. -/
structure Src where
  va : Nat
  fromHost : Bool
  fence : Option Nat
  deriving DecidableEq, Repr

/-- What the backend answers while `device_slot` runs: the clock, the free device bytes and the
chunk allocation. -/
structure DevEnv where
  now : Nat
  freeBytes : Option Nat
  alloc : Except Err Nat

namespace Inner

def new (specs : List ClassSpec) (chunkBytes deviceCap hostCap : Nat) : Inner where
  nClasses := specs.length
  spec := fun c => specs.getD c ⟨0, 0⟩
  device := fun c => Slab.new .dev (specs.getD c ⟨0, 0⟩).blockBytes chunkBytes
  host := fun c => Slab.new .host (specs.getD c ⟨0, 0⟩).blockBytes chunkBytes
  deviceCap := deviceCap
  deviceFloor := 0
  growHoldUntil := none
  hostCap := hostCap
  hostReserve := 0
  nBlocks := 0
  blocks := fun _ => ⟨0, none⟩
  freeEntries := []
  index := fun _ => none
  reclaim := fun _ => []
  hostReclaim := fun _ => []
  spilling := []
  spillingBytes := 0
  restoring := []
  refilling := fun _ => none
  quarantined := 0
  hostSpare := fun _ => []
  tick := 0
  deviceGrows := 0
  hostGrows := 0
  leaked := []
  trace := []

/-! ## updates -/

/-- The block `id` names in a table; `none` once it was dropped, whatever its entry holds now. -/
def lookup (blocks : Nat → Entry) (id : BlockId) : Option Block :=
  if (blocks id.index).gen = id.gen then (blocks id.index).block else none

def block (I : Inner) (id : BlockId) : Option Block := lookup I.blocks id

/-- write through `block_mut` -/
def setBlock (I : Inner) (id : BlockId) (b : Block) : Inner :=
  { I with blocks := Function.update I.blocks id.index ⟨id.gen, some b⟩ }

def setDevice (I : Inner) (c : Nat) (sl : Slab .dev) : Inner :=
  { I with device := Function.update I.device c sl }

def setHost (I : Inner) (c : Nat) (sl : Slab .host) : Inner :=
  { I with host := Function.update I.host c sl }

def putDevice (I : Inner) (c : Nat) (s : Slot .dev) : Inner := I.setDevice c ((I.device c).put s)

def putHost (I : Inner) (c : Nat) (s : Slot .host) : Inner := I.setHost c ((I.host c).put s)

def setDeviceCap (I : Inner) (bytes : Nat) : Inner := { I with deviceCap := bytes }

def setDeviceFloor (I : Inner) (bytes : Nat) : Inner := { I with deviceFloor := bytes }

def setHostReserve (I : Inner) (bytes : Nat) : Inner := { I with hostReserve := bytes }

def leakDevice (I : Inner) (c : Nat) (s : Slot .dev) : Inner :=
  { I.setDevice c ((I.device c).leak s) with leaked := (c, s) :: I.leaked }

def setReclaim (I : Inner) (c : Nat) (q : List BlockId) : Inner :=
  { I with reclaim := Function.update I.reclaim c q }

def setHostReclaim (I : Inner) (c : Nat) (q : List BlockId) : Inner :=
  { I with hostReclaim := Function.update I.hostReclaim c q }

def setRefilling (I : Inner) (id : BlockId) (h : Option (Slot .host)) : Inner :=
  { I with refilling := Function.update I.refilling id h }

/-- `reclaim[c].push_back(id)` -/
def pushReclaim (I : Inner) (c : Nat) (id : BlockId) : Inner :=
  I.setReclaim c (I.reclaim c ++ [id])

/-- `host_reclaim[c].push_back(id)` -/
def pushHostReclaim (I : Inner) (c : Nat) (id : BlockId) : Inner :=
  I.setHostReclaim c (I.hostReclaim c ++ [id])

def nextTick (I : Inner) : Inner := { I with tick := I.tick + 1 }

def log (I : Inner) (e : Event) : Inner := { I with trace := e :: I.trace }

/-- the entry of `id` loses its block; an exhausted generation retires the entry -/
def clearEntry (I : Inner) (id : BlockId) : Inner :=
  { I with
    blocks := Function.update I.blocks id.index
      ⟨if id.gen < u32Max then id.gen + 1 else id.gen, none⟩
    freeEntries := if id.gen < u32Max then id.index :: I.freeEntries else I.freeEntries }

def clearIndex (I : Inner) (c : Nat) (key : BlockKey) : Inner :=
  { I with index := Function.update I.index (c, key) none }

/-! ## slots -/

/-- Forget a block entirely (its slots go back to their slabs). -/
def dropBlock (I : Inner) (id : BlockId) : Inner :=
  match I.block id with
  | none => I
  | some b =>
    let I := (I.clearEntry id).clearIndex b.cls b.key
    let I := match I.refilling id with
      | some h => (I.setRefilling id none).putHost b.cls h
      | none => I
    match b.place with
    | .device s => I.putDevice b.cls s
    | .spilling _ _ _ => I
    | .restoring _ _ _ => I
    | .host h => I.putHost b.cls h

/-- Pop the class's reclaim queue up to the first block that may be reclaimed.  What comes back is
the queue left (skipped entries that still matter are put back in front) and the block. -/
def reclaimScan (I : Inner) : List BlockId → List BlockId × Option BlockId
  | [] => ([], none)
  | id :: rest =>
    match I.block id with
    | none => reclaimScan I rest
    | some b =>
      if 0 < b.dependents then reclaimScan I rest
      else if 0 < b.holds ∨ b.state = .filling then
        let (q, found) := reclaimScan I rest
        (id :: q, found)
      else match b.place with
        | .device _ => (rest, some id)
        | .spilling _ _ _ =>
          let (q, found) := reclaimScan I rest
          (id :: q, found)
        | .restoring _ _ _ =>
          let (q, found) := reclaimScan I rest
          (id :: q, found)
        | .host _ => reclaimScan I rest

/-- `take(0, no growth)` -/
def takeNoGrow {t : Tier} (sl : Slab t) : Except Err (Option (Slot t × Slab t)) :=
  sl.take 0 (fun _ => .error .oom)

/-- The slot of the oldest reclaimable block of the class, dropped for it. -/
def reclaimSlot (I : Inner) (c : Nat) : Inner × Except Err (Option (Slot .dev)) :=
  let (q, found) := I.reclaimScan (I.reclaim c)
  let I := I.setReclaim c q
  match found with
  | none => (I, .ok none)
  | some id =>
    let I := (I.log (.reclaim c id)).dropBlock id
    match takeNoGrow (I.device c) with
    | .ok (some (s, sl)) => (I.setDevice c sl, .ok (some s))
    | _ => (I, .error .panic)

def deviceReserved (I : Inner) : Nat :=
  ((List.range I.nClasses).map (fun c => (I.device c).reservedBytes)).sum

def hostReserved (I : Inner) : Nat :=
  ((List.range I.nClasses).map (fun c => (I.host c).reservedBytes)).sum

/-- the bytes `device_slot` may grow by -/
def growBudget (I : Inner) (c : Nat) (freeBytes : Option Nat) : Nat :=
  let budget := I.deviceCap - I.deviceReserved
  if 0 < budget ∧ 0 < I.deviceFloor ∧ I.deviceGrows % deviceFloorEvery = 0 then
    match freeBytes with
    | some free =>
      if free < satAdd (satMul (I.device c).chunkBytes deviceFloorEvery) I.deviceFloor then 0
      else budget
    | none => budget
  else budget

/-- `device_slot` after its `take` with growth -/
def takenSlot (I : Inner) (c : Nat) (hold : Bool) :
    Except Err (Option (Slot .dev × Slab .dev)) → Inner × Except Err (Slot .dev)
  | .error er => (I, .error er)
  | .ok (some (s, sl)) => (I.setDevice c sl, .ok s)
  | .ok none =>
    if hold then (I, .error .oom)
    else match I.reclaimSlot c with
      | (I, .ok (some s)) => (I, .ok s)
      | (I, .ok none) => (I, .error .oom)
      | (I, .error er) => (I, .error er)

/-- the part of `device_slot` after the free list and the reclaim under a growth hold -/
def growSlot (I : Inner) (c : Nat) (hold : Bool) (e : DevEnv) : Inner × Except Err (Slot .dev) :=
  let budget := I.growBudget c e.freeBytes
  let sl := I.device c
  let taken := sl.take budget (fun bytes => e.alloc.map (fun va => ⟨va, bytes⟩))
  let I := if sl.grows budget then { I with deviceGrows := I.deviceGrows + 1 } else I
  I.takenSlot c hold taken

def growHeld (I : Inner) (now : Nat) : Bool :=
  match I.growHoldUntil with
  | some t => decide (now < t)
  | none => false

/-- A free device slot: from the free list, by growing the slab, or by reclaiming the oldest
zero-dependent, unheld, settled block of the class.  Under a growth hold the reclaim goes first. -/
def deviceSlot (I : Inner) (c : Nat) (e : DevEnv) : Inner × Except Err (Slot .dev) :=
  match takeNoGrow (I.device c) with
  | .error er => (I, .error er)
  | .ok (some (s, sl)) => (I.setDevice c sl, .ok s)
  | .ok none =>
    if I.growHeld e.now then
      match I.reclaimSlot c with
      | (I, .ok (some s)) => (I, .ok s)
      | (I, .ok none) => I.growSlot c true e
      | (I, .error er) => (I, .error er)
    else I.growSlot c false e

/-- the same search over the host queue: the first unheld zero-dependent host block -/
def hostScan (I : Inner) : List BlockId → List BlockId × Option BlockId
  | [] => ([], none)
  | id :: rest =>
    match I.block id with
    | none => hostScan I rest
    | some b =>
      match b.place with
      | .host _ =>
        if 0 < b.dependents then hostScan I rest
        else if 0 < b.holds then
          let (q, found) := hostScan I rest
          (id :: q, found)
        else (rest, some id)
      | _ => hostScan I rest

def spareChunk (spare : List (Chunk .host)) : Except Err (Chunk .host) :=
  match spare with
  | [] => .error .oom
  | ch :: _ => .ok ch

/-- the oldest zero-dependent host block of the class gives up its slot -/
def hostVictim (I : Inner) (c : Nat) : Inner × Option (Slot .host) :=
  let (q, victim) := I.hostScan (I.hostReclaim c)
  let I := I.setHostReclaim c q
  match victim with
  | none => (I, none)
  | some id =>
    let I := I.dropBlock id
    match takeNoGrow (I.host c) with
    | .ok (some (s, sl)) => (I.setHost c sl, some s)
    | _ => (I, none)

def hostSlot (I : Inner) (c : Nat) : Inner × Option (Slot .host) :=
  let budget := I.hostCap - I.hostReserved
  let sl := I.host c
  let taken := sl.take budget (fun _ => spareChunk (I.hostSpare c))
  let I := if sl.grows budget then
      { I with hostSpare := Function.update I.hostSpare c (I.hostSpare c).tail } else I
  match taken with
  | .ok (some (s, sl)) => (I.setHost c sl, some s)
  | _ => I.hostVictim c

/-! ## publishes -/

/-- The device address of the block; a host-resident one is copied back first (`htod`: the copy
succeeds). -/
def ensureDeviceLocked (I : Inner) (id : BlockId) (e : DevEnv) (htod : Except Err Unit) :
    Inner × Except Err Nat :=
  match I.block id with
  | none => (I, .error .rejected)
  | some b =>
    match b.place with
    | .device s => (I, .ok ((I.device b.cls).va s))
    | .spilling s _ _ => (I, .ok ((I.device b.cls).va s))
    | .restoring s _ _ => (I, .ok ((I.device b.cls).va s))
    | .host h =>
      match I.deviceSlot b.cls e with
      | (I, .error er) => (I, .error er)
      | (I, .ok slot) =>
        let va := (I.device b.cls).va slot
        let I := if b.state = .ready then I.log (.htod b.cls h slot htod.isOk) else I
        match b.state, htod with
        | .ready, .error er => (I.putDevice b.cls slot, .error er)
        | _, _ =>
          let I := I.setDevice b.cls ((I.device b.cls).assign slot id)
          let I := I.putHost b.cls h
          (I.setBlock id { b with place := .device slot }, .ok va)

/-- the end of `acquire` on a present block: one more dependent, and a fill token for a refill or
a failed block -/
def acquirePresent (I : Inner) (id : BlockId) (va : Nat) (refill : Bool) :
    Inner × Except Err (BlockId × Nat × Bool) :=
  match I.block id with
  | none => (I, .error .panic)
  | some b =>
    let b := { b with dependents := b.dependents + 1, tick := I.tick }
    if b.state = .filling ∧ refill then (I.setBlock id b, .ok (id, va, true))
    else if b.state = .failed then
      (I.setBlock id { b with state := .filling }, .ok (id, va, true))
    else (I.setBlock id b, .ok (id, va, false))

/-- `acquire` of an unheld host block: it is refilled from the rows being published, its host slot
kept until the fill seals -/
def acquireRefill (I : Inner) (c : Nat) (id : BlockId) (h : Slot .host) (e : DevEnv) :
    Inner × Except Err (BlockId × Nat × Bool) :=
  match I.deviceSlot c e with
  | (I, .error er) => (I, .error er)
  | (I, .ok slot) =>
    let I := I.setDevice c ((I.device c).assign slot id)
    let I := I.setRefilling id (some h)
    match I.block id with
    | none => (I, .error .panic)
    | some b =>
      let I := I.setBlock id { b with place := .device slot, state := .filling }
      I.acquirePresent id ((I.device c).va slot) true

def entryIx (I : Inner) : Nat := I.freeEntries.headD I.nBlocks

/-- the table with a new `Filling` block on `slot` -/
def addBlock (I : Inner) (c : Nat) (key : BlockKey) (slot : Slot .dev) : BlockId × Inner :=
  let id : BlockId := ⟨I.entryIx, (I.blocks I.entryIx).gen⟩
  let I := { I with
    nBlocks := if I.freeEntries = [] then I.nBlocks + 1 else I.nBlocks
    freeEntries := I.freeEntries.tail }
  let I := I.setBlock id ⟨c, key, .filling, .device slot, 1, 0, I.tick⟩
  let I := { I with index := Function.update I.index (c, key) (some id) }
  (id, I.setDevice c ((I.device c).assign slot id))

/-- `acquire` of an absent block -/
def acquireNew (I : Inner) (c : Nat) (key : BlockKey) (e : DevEnv) :
    Inner × Except Err (BlockId × Nat × Bool) :=
  match I.deviceSlot c e with
  | (I, .error er) => (I, .error er)
  | (I, .ok slot) =>
    let va := (I.device c).va slot
    ((I.addBlock c key slot).2, .ok ((I.addBlock c key slot).1, va, true))

/-- Take a dependency on the block `(c, key)`, creating it when absent.  The last component says
that the caller got a fill token. -/
def acquire (I : Inner) (c : Nat) (key : BlockKey) (e : DevEnv) (htod : Except Err Unit) :
    Inner × Except Err (BlockId × Nat × Bool) :=
  let I := I.nextTick
  if I.nClasses ≤ c then (I, .error .panic)
  else match I.index (c, key) with
    | none => I.acquireNew c key e
    | some id =>
      match I.block id with
      | some { place := .host h, holds := 0, .. } => I.acquireRefill c id h e
      | some { place := .host h, .. } => I.acquirePresent id ((I.host c).va h) false
      | _ =>
        match I.ensureDeviceLocked id e htod with
        | (I, .error er) => (I, .error er)
        | (I, .ok va) => I.acquirePresent id va false

/-! ## fills -/

def sealId (I : Inner) (id : BlockId) : Inner :=
  let I := match I.block id with
    | some b =>
      if b.state = .filling then
        (I.log (.seal b.cls b.key b.place)).setBlock id { b with state := .ready }
      else I
    | none => I
  match I.refilling id with
  | none => I
  | some h =>
    let I := I.setRefilling id none
    match I.block id with
    | some b => I.putHost b.cls h
    | none => I

/-- A failed refill is back on the host, `Ready`.  Any other failed block is `Failed`. -/
def failId (I : Inner) (id : BlockId) : Inner :=
  let refill := I.refilling id
  let I := I.setRefilling id none
  match I.block id with
  | none => I
  | some b =>
    match refill, b.place with
    | some h, .device slot =>
      let I := I.setBlock id { b with place := .host h, state := .ready }
      let I := if b.dependents = 0 then I.pushHostReclaim b.cls id else I
      I.putDevice b.cls slot
    | _, _ => I.setBlock id { b with state := .failed }

/-- A fill whose copy may still be writing its slot: never served, and the slot is never reused.
A refill goes back to its host bytes; any other block is forgotten. -/
def quarantineId (I : Inner) (id : BlockId) : Inner :=
  match I.block id with
  | none => I
  | some b =>
    match b.place with
    | .device slot =>
      let I := { I with quarantined := I.quarantined + 1 }
      let I := I.leakDevice b.cls slot
      let refill := I.refilling id
      let I := I.setRefilling id none
      match refill with
      | some h =>
        let I := I.setBlock id { b with place := .host h, state := .ready }
        if b.dependents = 0 then I.pushHostReclaim b.cls id else I
      | none => (I.clearEntry id).clearIndex b.cls b.key
    | _ => I.setBlock id { b with state := .failed }

def quarantineIds (I : Inner) (ids : List BlockId) : Inner := ids.foldl quarantineId I

/-! ## dependencies and holds -/

def releaseId (I : Inner) (id : BlockId) : Inner :=
  match I.block id with
  | none => I
  | some b =>
    let I := if b.dependents = 1 then I.log (.idle id) else I
    let b := { b with dependents := b.dependents - 1 }
    let I := I.setBlock id b
    if b.dependents = 0 then
      match b.place with
      | .host _ => I.pushHostReclaim b.cls id
      | _ => I.pushReclaim b.cls id
    else I

def release (I : Inner) (ids : List BlockId) : Inner := ids.foldl releaseId I

def holdId (I : Inner) (id : BlockId) : Inner :=
  match I.block id with
  | none => I
  | some b => I.setBlock id { b with holds := b.holds + 1 }

def hold (I : Inner) (ids : List BlockId) : Inner := ids.foldl holdId I

def unholdId (I : Inner) (id : BlockId) : Inner :=
  match I.block id with
  | none => I
  | some b => I.setBlock id { b with holds := b.holds - 1 }

def unhold (I : Inner) (ids : List BlockId) : Inner := ids.foldl unholdId I

/-- where the bytes of a block in `place` are read -/
def srcOf (I : Inner) (c : Nat) : Where → Src
  | .device s => ⟨(I.device c).va s, false, none⟩
  | .spilling s _ _ => ⟨(I.device c).va s, false, none⟩
  | .restoring s _ fence => ⟨(I.device c).va s, false, some fence⟩
  | .host h => ⟨(I.host c).va h, true, none⟩

def holdSource (I : Inner) (id : BlockId) : Inner × Option Src :=
  match I.block id with
  | none => (I, none)
  | some b =>
    (I.setBlock id { b with holds := b.holds + 1, tick := I.tick }, some (I.srcOf b.cls b.place))

def holdSourcesLoop (I : Inner) : List BlockId → Inner × List Src
  | [] => (I, [])
  | id :: rest =>
    let (I, src) := I.holdSource id
    let (I, srcs) := holdSourcesLoop I rest
    (I, src.toList ++ srcs)

/-- `hold` plus `gather_src` of every block.  `error` (a block is gone or failed) takes no hold. -/
def holdSources (I : Inner) (ids : List BlockId) : Inner × Except Err (List Src) :=
  if ids.any (fun id => (I.block id).isNone) then (I, .error .rejected)
  else if ids.any (fun id => (I.block id).any (fun b => b.state = .failed)) then
    (I, .error .rejected)
  else
    let (I, srcs) := I.nextTick.holdSourcesLoop ids
    (I, .ok srcs)

/-- Where a gather reads the block. -/
def gatherSrc (I : Inner) (id : BlockId) : Inner × Except Err Src :=
  let I := I.nextTick
  match I.block id with
  | none => (I, .error .rejected)
  | some b => (I.setBlock id { b with tick := I.tick }, .ok (I.srcOf b.cls b.place))

/-! ## tiers -/

/-- Start bringing a host-resident block back to a device slot (`fence`: the queued copy's). -/
def restoreAsync (I : Inner) (id : BlockId) (e : DevEnv) (htod : Except Err Unit)
    (fence : Except Err Nat) : Inner × Except Err Bool :=
  let I := I.nextTick
  match I.block id with
  | none => (I, .error .rejected)
  | some b =>
    let I := I.setBlock id { b with tick := I.tick }
    match b.place with
    | .host h =>
      if b.state ≠ .ready then
        let (I, r) := I.ensureDeviceLocked id e htod
        (I, r.map (fun _ => false))
      else match I.deviceSlot b.cls e with
        | (I, .error er) => (I, .error er)
        | (I, .ok slot) =>
          match fence with
          | .error er => (I.putDevice b.cls slot, .error er)
          | .ok f =>
            let I := (I.log (.restore b.cls h slot f)).setDevice b.cls
              ((I.device b.cls).assign slot id)
            match I.block id with
            | none => (I, .error .panic)
            | some b =>
              let I := I.setBlock id { b with place := .restoring slot h f }
              ({ I with restoring := I.restoring ++ [id] }, .ok true)
    | _ => (I, .ok false)

def ensureDevice (I : Inner) (id : BlockId) (e : DevEnv) (htod : Except Err Unit) :
    Inner × Except Err Nat :=
  let I := I.nextTick
  let tick := I.tick
  match I.ensureDeviceLocked id e htod with
  | (I, .error er) => (I, .error er)
  | (I, .ok va) =>
    match I.block id with
    | some b => (I.setBlock id { b with tick := tick }, .ok va)
    | none => (I, .ok va)

/-- one block of `evict` -/
def evictId (I : Inner) (id : BlockId) : Inner :=
  match I.block id with
  | none => I
  | some b =>
    if b.dependents = 0 ∧ b.holds = 0 ∧ b.state ≠ .filling then
      match b.place with
      | .spilling _ _ _ => I
      | .restoring _ _ _ => I
      | _ => I.dropBlock id
    else I

def evict (I : Inner) (ids : List BlockId) : Inner := ids.foldl evictId I

/-- One block of `spill`, under its own lock hold (`fence`: the queued copy's). -/
def spillOne (I : Inner) (id : BlockId) (fence : Except Err Nat) : Inner :=
  match I.block id with
  | none => I
  | some b =>
    match b.place with
    | .device dev =>
      if b.state ≠ .ready ∨ 0 < b.holds then I
      else match I.hostSlot b.cls with
        | (I, none) => I
        | (I, some h) =>
          match fence with
          | .error _ => I.putHost b.cls h
          | .ok f =>
            match I.block id with
            | none => I
            | some b =>
              let I := (I.log (.spill b.cls dev h f)).setBlock id { b with place := .spilling dev h f }
              { I with
                spilling := I.spilling ++ [(id, (I.spec b.cls).blockBytes)]
                spillingBytes := I.spillingBytes + (I.spec b.cls).blockBytes }
    | _ => I

/-- a completed restore: the host slot frees, the block is on the device -/
def landRestore (I : Inner) (id : BlockId) (b : Block) (dev : Slot .dev) (host : Slot .host) :
    Inner :=
  let I := I.putHost b.cls host
  let I := I.setBlock id { b with place := .device dev }
  if b.dependents = 0 then I.pushReclaim b.cls id else I

def reapRestoresLoop (done : Nat → Except Err Bool) : Nat → Inner → Inner
  | 0, I => I
  | k + 1, I =>
    match I.restoring with
    | [] => I
    | id :: rest =>
      let J := { I with restoring := rest }
      match J.block id with
      | some b =>
        match b.place with
        | .restoring dev host fence =>
          -- a gather may still read the host copy: the fence is not queried until the hold drops
          if 0 < b.holds then reapRestoresLoop done k { J with restoring := rest ++ [id] }
          else match done fence with
            | .ok true => reapRestoresLoop done k (J.landRestore id b dev host)
            | .ok false => I
            | .error _ => reapRestoresLoop done k J
        | _ => reapRestoresLoop done k J
      | none => reapRestoresLoop done k J

def reapRestores (I : Inner) (done : Nat → Except Err Bool) : Inner :=
  reapRestoresLoop done I.restoring.length I

/-- a completed spill: the device slot frees, the block is host-resident -/
def landSpill (I : Inner) (id : BlockId) (b : Block) (dev : Slot .dev) (host : Slot .host) :
    Inner :=
  let I := I.putDevice b.cls dev
  let I := I.setBlock id { b with place := .host host }
  if b.dependents = 0 then I.pushHostReclaim b.cls id else I

def reapLoop (done : Nat → Except Err Bool) : Nat → Inner → Inner
  | 0, I => I
  | k + 1, I =>
    match I.spilling with
    | [] => I
    | (id, queued) :: rest =>
      let J := { I with spilling := rest }
      let K := { J with spillingBytes := J.spillingBytes - queued }
      match J.block id with
      | some b =>
        match b.place with
        | .spilling dev host fence =>
          if 0 < b.holds then reapLoop done k { J with spilling := rest ++ [(id, queued)] }
          else match done fence with
            | .ok true => reapLoop done k (K.landSpill id b dev host)
            | .ok false => I
            -- completion unproven: both slots stay as they are, never reused
            | .error _ => reapLoop done k K
        | _ => reapLoop done k K
      | none => reapLoop done k K

/-- Retire completed spills and restores in order (`done`: the fence queries). -/
def reap (I : Inner) (done : Nat → Except Err Bool) : Inner :=
  let I := I.reapRestores done
  reapLoop done I.spilling.length I

/-! ## shrink -/

def reclaimable (I : Inner) (id : BlockId) : Bool :=
  match I.block id with
  | some { dependents := 0, holds := 0, state := st, place := .device _, .. } => st ≠ .filling
  | some _ => false
  | none => true

def dropAll (I : Inner) (ids : List BlockId) : Inner := ids.foldl dropBlock I

def releaseClassEmpty (I : Inner) (c : Nat) : Inner × List (Chunk .dev) :=
  let (sl, freed) := (I.device c).releaseEmptyChunks
  (I.setDevice c sl, freed)

/-- the chunks of one class, in `release_candidates` order -/
def releaseReclaimableClass (c bytes : Nat) :
    List Nat → Inner → List (Chunk .dev) → Inner × List (Chunk .dev)
  | [], I, freed => (I, freed)
  | chunk :: rest, I, freed =>
    if bytes ≤ (freed.map Chunk.bytes).sum then (I, freed)
    else
      let ids := (I.device c).occupants chunk
      if ids.all I.reclaimable then
        let (J, more) := (I.dropAll ids).releaseClassEmpty c
        releaseReclaimableClass c bytes rest J (freed ++ more)
      else releaseReclaimableClass c bytes rest I freed

def releaseReclaimableLoop (bytes : Nat) :
    List Nat → Inner → List (Chunk .dev) → Inner × List (Chunk .dev)
  | [], I, freed => (I, freed)
  | c :: rest, I, freed =>
    let (I, freed) := releaseReclaimableClass c bytes (I.device c).releaseCandidates I freed
    releaseReclaimableLoop bytes rest I freed

def releaseReclaimableChunks (I : Inner) (bytes : Nat) : Inner × List (Chunk .dev) :=
  releaseReclaimableLoop bytes (List.range I.nClasses) I []

/-- the live blocks of a chunk, or `none`: the chunk is left alone -/
def chunkLive (I : Inner) : List BlockId → Option Nat
  | [] => some 0
  | id :: rest =>
    match I.block id with
    | none => chunkLive I rest
    | some b =>
      if 0 < b.holds ∨ b.state = .filling then none
      else match b.place with
        | .device _ =>
          if b.state = .failed ∧ 0 < b.dependents then none
          else if 0 < b.dependents then (chunkLive I rest).map (· + 1)
          else chunkLive I rest
        | _ => none

/-- Make `deficit` holes outside `chunk` from the oldest blocks nothing references.  What comes
back is the state, the holes still missing and the queue left. -/
def makeHoles (c chunk : Nat) : List BlockId → Nat → Inner → Inner × Nat × List BlockId
  | q, 0, I => (I, 0, q)
  | [], d + 1, I => (I, d + 1, [])
  | id :: rest, d + 1, I =>
    match I.block id with
    | none => makeHoles c chunk rest (d + 1) I
    | some b =>
      if 0 < b.dependents then makeHoles c chunk rest (d + 1) I
      else match b.place with
        | .device slot =>
          if 0 < b.holds ∨ b.state = .filling ∨ (I.device c).chunkOf slot = chunk then
            let (I, d, q) := makeHoles c chunk rest (d + 1) I
            (I, d, id :: q)
          else makeHoles c chunk rest d (I.dropBlock id)
        | _ =>
          let (I, d, q) := makeHoles c chunk rest (d + 1) I
          (I, d, id :: q)

/-- the moves of a plan: the chunk's idle blocks are dropped, each of the others gets a hold and
a slot in another chunk -/
def planMoves (c chunk : Nat) : List BlockId → Inner → CompactionPlan → Inner × CompactionPlan
  | [], I, p => (I, p)
  | id :: rest, I, p =>
    match I.block id with
    | none => planMoves c chunk rest I p
    | some b =>
      if b.dependents = 0 then planMoves c chunk rest (I.dropBlock id) p
      else match b.place with
        | .device src =>
          match (I.device c).takeOutside chunk with
          | none => (I, p)
          | some (dst, sl) =>
            let I := I.setDevice c sl
            let d := I.device c
            planMoves c chunk rest (I.setBlock id { b with holds := b.holds + 1 })
              { p with
                moves := p.moves ++ [(id, src, dst)]
                copies := p.copies ++ [(d.va dst, d.va src, (I.spec c).blockBytes)] }
        | _ => planMoves c chunk rest I p

/-- one chunk of `compaction_plan`: `none` = continue with the next -/
def planChunk (I : Inner) (c chunk : Nat) : Inner × Option CompactionPlan :=
  let ids := (I.device c).occupants chunk
  match I.chunkLive ids with
  | none => (I, none)
  | some live =>
    let deficit := live - (I.device c).holesOutside chunk
    if deficit = 0 then
      let (I, p) := planMoves c chunk ids I ⟨c, [], []⟩
      (I, some p)
    else
      let (I, left, q) := makeHoles c chunk (I.reclaim c) deficit I
      let I := I.setReclaim c q
      if 0 < left then (I, none)
      else
        let (I, p) := planMoves c chunk ids I ⟨c, [], []⟩
        (I, some p)

def planClass (c : Nat) : List Nat → Inner → Inner × Option CompactionPlan
  | [], I => (I, none)
  | chunk :: rest, I =>
    match I.planChunk c chunk with
    | (I, some p) => (I, some p)
    | (I, none) => planClass c rest I

def planLoop : List Nat → Inner → Inner × Option CompactionPlan
  | [], I => (I, none)
  | c :: rest, I =>
    match planClass c (I.device c).releaseCandidates I with
    | (I, some p) => (I, some p)
    | (I, none) => planLoop rest I

def compactionPlan (I : Inner) : Inner × Option CompactionPlan :=
  planLoop (List.range I.nClasses) I

/-- one move lands, or its destination goes back -/
def commitMove (c : Nat) (copied : Bool) (I : Inner) (m : BlockId × Slot .dev × Slot .dev) :
    Inner :=
  match I.block m.1 with
  | none => I.putDevice c m.2.2
  | some b =>
    if copied ∧ b.holds = 1 ∧ b.place = .device m.2.1 then
      let I := I.setDevice c (((I.device c).assign m.2.2 m.1).put m.2.1)
      I.setBlock m.1 { b with place := .device m.2.2, holds := b.holds - 1 }
    else
      (I.putDevice c m.2.2).setBlock m.1 { b with holds := b.holds - 1 }

def releaseEmptyLoop : List Nat → Inner → List (Chunk .dev) → Inner × List (Chunk .dev)
  | [], I, freed => (I, freed)
  | c :: rest, I, freed =>
    let (I, more) := I.releaseClassEmpty c
    releaseEmptyLoop rest I (freed ++ more)

def compactionCommit (I : Inner) (plan : CompactionPlan) (copied : Bool) :
    Inner × List (Chunk .dev) :=
  let I := plan.moves.foldl (commitMove plan.cls copied) I
  releaseEmptyLoop (List.range I.nClasses) I []

/-- `shrink` up to the point where the lock is dropped.  What comes back beside the state is the
chunks released and the plan. -/
def shrinkBegin (I : Inner) (bytes : Nat) : Inner × List (Chunk .dev) × Option CompactionPlan :=
  let want := min bytes shrinkStepBytes
  let (I, freed) := I.releaseReclaimableChunks want
  if (freed.map Chunk.bytes).sum < want then
    let (I, plan) := I.compactionPlan
    (I, freed, plan)
  else (I, freed, none)

/-- `shrink` after its copies (`copied`: they all succeeded), the lock taken again -/
def shrinkEnd (I : Inner) (released : Nat) (plan : Option CompactionPlan) (copied : Bool)
    (now : Nat) : Inner × List (Chunk .dev) :=
  let (I, freed) := match plan with
    | some p => I.compactionCommit p copied
    | none => (I, [])
  let I := if 0 < released + (freed.map Chunk.bytes).sum then
      { I with growHoldUntil := some (now + growHold) } else I
  (I, freed)

/-! ## the host grower -/

def hostBudget (I : Inner) : Nat :=
  I.hostCap - (I.hostReserved +
    ((List.range I.nClasses).map (fun c => (I.hostSpare c).length * (I.host c).chunkBytes)).sum)

/-- the class with the fewest spare bytes, of those under `hostSpareBytes` that the budget
covers -/
def growClass (I : Inner) : Option Nat :=
  ((List.range I.nClasses).filter (fun c =>
    (I.hostSpare c).length * (I.host c).chunkBytes < max hostSpareBytes (I.host c).chunkBytes
      ∧ (I.host c).chunkBytes ≤ I.hostBudget)).argmin
    (fun c => (I.hostSpare c).length * (I.host c).chunkBytes)

/-- `host_grow_step` before its allocation (`avail`: the machine's available host bytes).  What
comes back is the class and the bytes to allocate. -/
def growPick (I : Inner) (avail : Option Nat) : Inner × Option (Nat × Nat) :=
  if I.hostCap = 0 then (I, none)
  else match I.growClass with
    | none => (I, none)
    | some c =>
      let chunk := (I.host c).chunkBytes
      let frozen := decide (0 < I.hostReserve ∧ I.hostGrows % hostFloorEvery = 0) &&
        avail.any (fun a => a < satAdd (satMul chunk hostFloorEvery) I.hostReserve)
      if frozen then ({ I with hostCap := I.hostCap - I.hostBudget }, none)
      else ({ I with hostGrows := I.hostGrows + 1 }, some (c, chunk))

/-- `host_grow_step` after its allocation -/
def growLand (I : Inner) (c chunk : Nat) (ptr : Except Err Nat) : Inner :=
  match ptr with
  | .ok va => { I with hostSpare := Function.update I.hostSpare c (⟨va, chunk⟩ :: I.hostSpare c) }
  | .error _ => { I with hostCap := I.hostCap - I.hostBudget }

end Inner
end Plow.KvStore
