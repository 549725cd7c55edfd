import Plow.Lib.Results
import Plow.Lib.SwapRemove

/-!
# Live rings

`VmmRings` backs the ring tensors of a batch slot by slot.  A window is a tensor's address range,
cut into mapping units of `mapBytes`; a slot uses the units that its bytes meet (`slotUnits`).  A
unit has a physical handle of its own while a slot refers to it, and in idle-backed rings a shared
one otherwise.  Released slots may stay parked and their handles spare, for the next slot.

The vectors of a window are functions of the unit, kept for all windows together.  A driver call may
fail: `ok` tells the `n`-th of `create`, `map` and `set_access`.  Handles are told apart by when
they were made, a handle that was released is never given again.  A panic is `none`.  Sizes are
natural numbers; `new` refuses those that do not fit 64 bits.

Left out: the addresses of the driver calls, the log, and `tensor_va`, `stats` and the other queries.
-/

namespace Plow.Rings

open Lib

def u64Max : ℕ := 18446744073709551615

/-! ### The driver -/

structure Driver where
  calls : ℕ
  /-- handles below were given -/
  made : ℕ
  /-- the newest first -/
  released : List ℕ
  deriving DecidableEq, Repr

namespace Driver

def create (ok : ℕ → Bool) (d : Driver) : Driver × Option ℕ :=
  if ok d.calls then ({ d with calls := d.calls + 1, made := d.made + 1 }, some d.made)
  else ({ d with calls := d.calls + 1 }, none)

/-- `map`, then `set_access` -/
def map (ok : ℕ → Bool) (d : Driver) : Driver × Bool :=
  if ok d.calls then ({ d with calls := d.calls + 2 }, ok (d.calls + 1))
  else ({ d with calls := d.calls + 1 }, false)

def release (d : Driver) (h : ℕ) : Driver := { d with released := h :: d.released }

def releaseTaken (d : Driver) : Option ℕ → Driver
  | some h => d.release h
  | none => d

end Driver

/-! ### The rings -/

structure LiveRingTensor where
  tensor : ℕ
  slotBytes : ℕ
  deriving DecidableEq, Repr

structure RingWindow where
  tensor : ℕ
  va : ℕ
  bytes : ℕ
  slotBytes : ℕ
  mapBytes : ℕ
  /-- committed whole at construction -/
  pinned : Bool
  deriving DecidableEq, Repr

def RingWindow.units (w : RingWindow) : ℕ := w.bytes / w.mapBytes

structure VmmRings where
  windows : List RingWindow
  handles : ℕ × ℕ → Option ℕ
  refs : ℕ × ℕ → ℕ
  /-- units mapped to the shared idle handle -/
  idleUnits : ℕ × ℕ → Bool
  batch : ℕ
  mapped : ℕ → Bool
  /-- the slots before it are mapped -/
  mappedPrefix : ℕ
  launchRows : ℕ
  reservedBytes : ℕ
  residentBytes : ℕ
  mappedSlots : ℕ
  /-- unit bytes and handle -/
  idle : List (ℕ × ℕ)
  spare : List (ℕ × ℕ)
  spareCap : ℕ
  recycle : Bool
  bounded : Bool
  parked : ℕ → Bool
  driver : Driver

/-- `f` on one element after the other, up to the first that fails -/
def tryEach {S A : Type} (f : S → A → S × Bool) : S → List A → S × Bool
  | s, [] => (s, true)
  | s, a :: l =>
    match f s a with
    | (s, true) => tryEach f s l
    | (s, false) => (s, false)

namespace VmmRings
variable (ok : ℕ → Bool) (r : VmmRings)

def window (i : ℕ) : RingWindow := r.windows.getD i ⟨0, 0, 0, 0, 0, false⟩

def unitsOf (p : RingWindow × ℕ) : List (ℕ × ℕ) := (List.range p.1.units).map fun u => (p.2, u)

def units : List (ℕ × ℕ) := r.windows.zipIdx.flatMap unitsOf

/-- the units of a window that a slot uses -/
def windowUnits (slot : ℕ) (p : RingWindow × ℕ) : List (ℕ × ℕ) :=
  if p.1.pinned then []
  else
    let first := slot * p.1.slotBytes / p.1.mapBytes
    let last := ((slot + 1) * p.1.slotBytes + p.1.mapBytes - 1) / p.1.mapBytes
    (List.range' first (last - first)).map fun u => (p.2, u)

/-- the units a slot uses, in the order of `for_slot_units` -/
def slotUnits (slot : ℕ) : List (ℕ × ℕ) := r.windows.zipIdx.flatMap (windowUnits slot)

def slotCharge : ℕ := ((r.windows.filter fun w => !w.pinned).map fun w => w.slotBytes).sum

def parkedCount : ℕ := (List.range r.batch).countP r.parked

def spareBytes : ℕ := (r.spare.map Prod.fst).sum + r.parkedCount * r.slotCharge

def lastParked : Option ℕ := (List.range r.batch).reverse.find? r.parked

/-! ### Units -/

def backIdle (x : ℕ × ℕ) : VmmRings × Bool :=
  match r.idle.find? fun p => p.1 = (r.window x.1).mapBytes with
  | none => (r, true)
  | some _ =>
    match r.driver.map ok with
    | (d, true) =>
      ({ r with driver := d, idleUnits := Function.update r.idleUnits x true }, true)
    | (d, false) => ({ r with driver := d }, false)

def unmapIdle (x : ℕ × ℕ) : VmmRings := { r with idleUnits := Function.update r.idleUnits x false }

/-- a spare handle of the size, or a new one -/
def takeHandle (mapBytes : ℕ) : VmmRings × Option ℕ :=
  match r.spare.findIdx? fun p => p.1 = mapBytes with
  | some i => ({ r with spare := swapRemove r.spare i }, r.spare[i]?.map Prod.snd)
  | none =>
    let (d, h) := r.driver.create ok
    ({ r with driver := d }, h)

/-- the handle under the unit, given back if that fails -/
def mapUnit (x : ℕ × ℕ) (h : ℕ) : VmmRings × Bool :=
  match r.driver.map ok with
  | (d, true) =>
    ({ r with
      driver := d
      handles := Function.update r.handles x (some h)
      residentBytes := r.residentBytes + (r.window x.1).mapBytes }, true)
  | (d, false) => ({ r with driver := d.release h }, false)

def commitUnit (x : ℕ × ℕ) : VmmRings × Bool :=
  let wasIdle := r.idleUnits x
  let r := if wasIdle then r.unmapIdle x else r
  let result : VmmRings × Bool :=
    match r.takeHandle ok (r.window x.1).mapBytes with
    | (r, some h) => r.mapUnit ok x h
    | (r, none) => (r, false)
  match result with
  | (r, true) => (r, true)
  | (r, false) => (if wasIdle then (r.backIdle ok x).1 else r, false)

def addRef (x : ℕ × ℕ) : VmmRings := { r with refs := Function.update r.refs x (r.refs x + 1) }

/-- the handle of a unit that nothing refers to -/
def keepHandle (x : ℕ × ℕ) (h : ℕ) : VmmRings :=
  let r := { r with
    handles := Function.update r.handles x none
    residentBytes := r.residentBytes - (r.window x.1).mapBytes }
  if r.recycle then { r with spare := r.spare ++ [((r.window x.1).mapBytes, h)] }
  else { r with driver := r.driver.release h }

def releaseUnit (x : ℕ × ℕ) : Option VmmRings :=
  if r.refs x = 0 then none
  else
    let r := { r with refs := Function.update r.refs x (r.refs x - 1) }
    if r.refs x ≠ 0 then some r
    else (r.handles x).map fun h => ((r.keepHandle x h).backIdle ok x).1

def releaseUnits (l : List (ℕ × ℕ)) : Option VmmRings := l.foldlM (fun r x => r.releaseUnit ok x) r

/-! ### What is kept -/

def unpark (slot : ℕ) : Option VmmRings :=
  { r with parked := Function.update r.parked slot false }.releaseUnits ok (r.slotUnits slot)

/-- `trim_spare`; the source keeps `spare_bytes` in a variable -/
def trimLoop : ℕ → VmmRings → Option VmmRings
  | 0, _ => none
  | n + 1, r =>
    if r.spareBytes ≤ r.spareCap then some r
    else
      match r.spare.getLast? with
      | some (_, h) => trimLoop n { r with spare := r.spare.dropLast, driver := r.driver.release h }
      | none =>
        match r.lastParked with
        | some p => (r.unpark ok p).bind (trimLoop n)
        | none => some r

def trimFuel : ℕ :=
  r.spare.length +
    (((List.range r.batch).filter r.parked).map fun p => (r.slotUnits p).length + 1).sum + 1

def trimSpare : Option VmmRings := r.trimLoop ok r.trimFuel

def enableHandleRecycling (cap : ℕ) : VmmRings := { r with recycle := true, spareCap := cap }

def enableBoundedPark (cap : ℕ) : VmmRings := { r.enableHandleRecycling cap with bounded := true }

def setRetention (recycle bounded : Bool) (cap : ℕ) : Option VmmRings :=
  { r with recycle, bounded, spareCap := cap }.trimSpare ok

def setParkCap (cap : ℕ) : Option VmmRings :=
  if r.bounded then { r with spareCap := cap }.trimSpare ok else some r

def trimTo (cap : ℕ) : Option (VmmRings × Bool) :=
  (({ r with spareCap := cap } : VmmRings).trimSpare ok).map fun r' =>
    ({ r' with spareCap := r.spareCap }, decide (r'.spareBytes < r.spareBytes))

def releaseParked : Option (VmmRings × Bool) := if r.bounded then r.trimTo ok 0 else some (r, false)

def releaseParkedUpto (maxSlots : ℕ) : Option (VmmRings × Bool) :=
  if r.bounded then r.trimTo ok (min (r.spareBytes - maxSlots * r.slotCharge) r.spareCap)
  else some (r, false)

/-! ### Slots -/

def prefixFrom (batch : ℕ) (mapped : ℕ → Bool) : ℕ → ℕ → ℕ
  | 0, p => p
  | n + 1, p => if p < batch ∧ mapped p then prefixFrom batch mapped n (p + 1) else p

def markMapped (slot : ℕ) : VmmRings :=
  let mapped := Function.update r.mapped slot true
  { r with
    mapped
    mappedPrefix := prefixFrom r.batch mapped (r.batch - r.mappedPrefix) r.mappedPrefix
    mappedSlots := r.mappedSlots + 1 }

/-- commits the units of a slot; what comes back are the units it refers to, the last first, and
whether that is all -/
def ensureUnits : VmmRings → List (ℕ × ℕ) → List (ℕ × ℕ) → VmmRings × List (ℕ × ℕ) × Bool
  | r, [], touched => (r, touched, true)
  | r, x :: l, touched =>
    if r.refs x = 0 then
      match r.commitUnit ok x with
      | (r, true) => ensureUnits (r.addRef x) l (x :: touched)
      | (r, false) => (r, touched, false)
    else ensureUnits (r.addRef x) l (x :: touched)

def makeRoom : Option VmmRings :=
  match r.spare, r.lastParked with
  | [], some p => r.unpark ok p
  | _, _ => some r

/-- the units of a slot that is neither mapped nor parked -/
def ensureFresh (slot : ℕ) : Option (VmmRings × Bool) :=
  (r.makeRoom ok).bind fun r =>
    match r.ensureUnits ok (r.slotUnits slot) [] with
    | (r, _, true) => some (r.markMapped slot, true)
    | (r, touched, false) =>
      (r.releaseUnits ok touched).bind fun r =>
        (if r.bounded then r.trimSpare ok else some r).map (·, false)

/-- the flag says that the slot is mapped -/
def ensureSlot (slot : ℕ) : Option (VmmRings × Bool) :=
  if r.batch ≤ slot then some (r, false)
  else if r.mapped slot then some (r, true)
  else if r.parked slot then
    some ({ r with parked := Function.update r.parked slot false }.markMapped slot, true)
  else r.ensureFresh ok slot

def unparkAll : Option VmmRings :=
  (List.range r.batch).foldlM (fun r p => if r.parked p then r.unpark ok p else some r) r

def unmapSlot (slot : ℕ) : VmmRings :=
  { r with
    mapped := Function.update r.mapped slot false
    mappedPrefix := min r.mappedPrefix slot
    mappedSlots := r.mappedSlots - 1 }

def releaseSlot (slot : ℕ) : Option VmmRings :=
  if r.batch ≤ slot ∨ r.mapped slot = false then some r
  else
    (if r.recycle then some { r with parked := Function.update r.parked slot true }
      else r.releaseUnits ok (r.slotUnits slot)).bind fun r =>
        let r := r.unmapSlot slot
        if r.bounded then r.trimSpare ok
        else if r.mappedSlots = 0 then (r.unparkAll ok).bind fun r => r.trimSpare ok
        else some r

def releaseIdle (slot : ℕ) : Option VmmRings :=
  if r.launchRows ≤ slot then r.releaseSlot ok slot else some r

/-- the loop of `ensure_prefix` -/
def ensureLoop (rows : ℕ) : ℕ → VmmRings → Option (VmmRings × Bool)
  | 0, r => some (r, true)
  | n + 1, r =>
    if r.mappedPrefix < rows then
      match r.ensureSlot ok r.mappedPrefix with
      | some (r, true) => ensureLoop rows n r
      | some (r, false) => some (r, false)
      | none => none
    else some (r, true)

def ensurePrefix (rows : ℕ) : Option (VmmRings × Bool) :=
  if r.batch < rows then some (r, false)
  else if r.idle ≠ [] then some (r, true)
  else ensureLoop ok rows (rows - r.mappedPrefix) { r with launchRows := rows }

/-! ### Construction -/

/-- the checks on the tensors; what comes back is the sum of their windows -/
def checkTensors (g batch : ℕ) : List ℕ → ℕ → List LiveRingTensor → Option ℕ
  | _, reserved, [] => some reserved
  | seen, reserved, t :: l =>
    if t.slotBytes = 0 ∨ t.tensor ∈ seen then none
    else if u64Max < t.slotBytes * batch then none
    else if u64Max < t.slotBytes * batch + (g - 1) then none
    else
      let bytes := (t.slotBytes * batch + (g - 1)) / g * g
      if u64Max < reserved + bytes then none
      else checkTensors g batch (seen ++ [t.tensor]) (reserved + bytes) l

/-- the window of a tensor at the address that the driver gives -/
def ringWindow (g batch : ℕ) (va : Option ℕ) (t : LiveRingTensor) : Option RingWindow := do
  let bytes := (t.slotBytes * batch + g - 1) / g * g
  let va ← va
  if va = 0 ∨ va % g ≠ 0 ∨ u64Max < va + bytes then none
  else return {
    tensor := t.tensor
    va, bytes
    slotBytes := t.slotBytes
    mapBytes := if t.slotBytes % g = 0 then t.slotBytes else g
    pinned := false }

/-- rings that serve no slot -/
def empty (windows : List RingWindow) (batch reservedBytes : ℕ) : VmmRings where
  windows := windows
  handles := fun _ => none
  refs := fun _ => 0
  idleUnits := fun _ => false
  batch := batch
  mapped := fun _ => false
  mappedPrefix := 0
  launchRows := 0
  reservedBytes := reservedBytes
  residentBytes := 0
  mappedSlots := 0
  idle := []
  spare := []
  spareCap := 0
  recycle := false
  bounded := false
  parked := fun _ => false
  driver := ⟨0, 0, []⟩

/-- `granularity` and `reserve` are the answers of the driver, `reserve` window by window -/
def new (granularity : Option ℕ) (reserve : ℕ → Option ℕ) (tensors : List LiveRingTensor)
    (batch : ℕ) : Option VmmRings :=
  if batch = 0 then none
  else
    granularity.bind fun g =>
      if g = 0 then none
      else
        (checkTensors g batch [] 0 tensors).bind fun reservedBytes =>
          (tensors.zipIdx.mapM fun p => ringWindow g batch (reserve p.2) p.1).map fun windows =>
            empty windows batch reservedBytes

def pin (i : ℕ) : VmmRings :=
  { r with windows := r.windows.modify i fun w => { w with pinned := true } }

def pinUnit (x : ℕ × ℕ) : VmmRings × Bool :=
  match r.commitUnit ok x with
  | (r, true) => ({ r with refs := Function.update r.refs x 1 }, true)
  | (r, false) => (r, false)

/-- the idle unit of the size, made if there is none -/
def idleHandle (mapBytes : ℕ) : VmmRings × Bool :=
  if r.idle.any fun p => p.1 = mapBytes then (r, true)
  else
    match r.driver.create ok with
    | (d, some h) => ({ r with driver := d, idle := r.idle ++ [(mapBytes, h)] }, true)
    | (d, none) => ({ r with driver := d }, false)

def backWindow (p : RingWindow × ℕ) : VmmRings × Bool :=
  if p.1.slotBytes ≠ p.1.mapBytes then tryEach (pinUnit ok) (r.pin p.2) (unitsOf p)
  else
    match r.idleHandle ok p.1.mapBytes with
    | (r, true) => tryEach (backIdle ok) r (unitsOf p)
    | (r, false) => (r, false)

/-- what `new_idle_backed` does to new rings; where it fails they are dropped -/
def idleBacked : VmmRings × Bool := tryEach (backWindow ok) r r.windows.zipIdx

def drop : Driver :=
  let d := r.units.foldl (fun d x => d.releaseTaken (r.handles x)) r.driver
  (r.idle ++ r.spare).foldl (fun d p => d.release p.2) d

end VmmRings

/-! ### Runs -/

inductive Op where
  | enableHandleRecycling (cap : ℕ)
  | enableBoundedPark (cap : ℕ)
  | setRetention (recycle bounded : Bool) (cap : ℕ)
  | setParkCap (cap : ℕ)
  | ensureSlot (slot : ℕ)
  | ensurePrefix (rows : ℕ)
  | releaseSlot (slot : ℕ)
  | releaseIdle (slot : ℕ)
  | releaseParked
  | releaseParkedUpto (maxSlots : ℕ)
  deriving DecidableEq, Repr

/-- the rings after an operation, and what it returns (`true` where it returns nothing) -/
def VmmRings.step (ok : ℕ → Bool) (r : VmmRings) : Op → Option (VmmRings × Bool)
  | .enableHandleRecycling cap => some (r.enableHandleRecycling cap, true)
  | .enableBoundedPark cap => some (r.enableBoundedPark cap, true)
  | .setRetention recycle bounded cap => (r.setRetention ok recycle bounded cap).map (·, true)
  | .setParkCap cap => (r.setParkCap ok cap).map (·, true)
  | .ensureSlot slot => r.ensureSlot ok slot
  | .ensurePrefix rows => r.ensurePrefix ok rows
  | .releaseSlot slot => (r.releaseSlot ok slot).map (·, true)
  | .releaseIdle slot => (r.releaseIdle ok slot).map (·, true)
  | .releaseParked => r.releaseParked ok
  | .releaseParkedUpto maxSlots => r.releaseParkedUpto ok maxSlots

/-- The rings that a constructor and operations lead to; `none` is the end of them. -/
inductive Reach (ok : ℕ → Bool) : VmmRings → Prop where
  | new {granularity : Option ℕ} {reserve : ℕ → Option ℕ} {tensors : List LiveRingTensor}
      {batch : ℕ} {r : VmmRings} (h : VmmRings.new granularity reserve tensors batch = some r) :
      Reach ok r
  | idleBacked {granularity : Option ℕ} {reserve : ℕ → Option ℕ} {tensors : List LiveRingTensor}
      {batch : ℕ} {r r' : VmmRings}
      (h : VmmRings.new granularity reserve tensors batch = some r)
      (hb : r.idleBacked ok = (r', true)) : Reach ok r'
  | step {r r' : VmmRings} {o : Op} {res : Bool} (h : Reach ok r)
      (hs : r.step ok o = some (r', res)) : Reach ok r'

end Plow.Rings
