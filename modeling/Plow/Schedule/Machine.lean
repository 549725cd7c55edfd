import Mathlib

/-!
# Tasks

The scheduler's unit of work and its dependency graph.  A `Cycle` is a natural number.
-/

namespace Plow.Schedule

inductive TaskKind where
  | dmaIn
  | compute
  | dmaOut
  | host
  deriving DecidableEq, Repr

/-- One schedulable unit of work. -/
structure Task where
  node : Nat
  op : String
  unit : Nat
  kind : TaskKind
  coord : List Int
  dur : Nat
  bytes : Nat
  tensorBytes : Nat
  sramPages : Nat
  outPages : Nat
  tmemCols : Nat
  tensor : Option String
  crossUnit : Bool
  deriving DecidableEq, Repr

structure TaskGraph where
  tasks : List Task
  edges : List (Nat × Nat)
  pagesPerSm : List Nat
  tmemColsPerSm : List Nat
  deriving DecidableEq, Repr

/-- One schedulable resource: an SM or a DMA engine of a unit, a DPU, a host thread. -/
inductive ResourceId where
  | sm (unit sm : Nat)
  | dma (unit engine : Nat)
  | dpu (i : Nat)
  | host (i : Nat)
  deriving DecidableEq, Repr

end Plow.Schedule

/-!
# Resource timelines

An `IntervalSet` holds the exclusive reservations of one resource, sorted and apart.  A
`BandwidthSet` is the profile of the summed load of a shared one: `(t, load)` holds until the next
entry, and the last entry for ever.  Rates are exact.
-/

namespace Plow.Schedule

structure IntervalSet where
  res : List (Nat × Nat)
  deriving DecidableEq, Repr

namespace IntervalSet

def empty : IntervalSet := ⟨[]⟩

/-- past every reservation that is in the way of `t .. t + dur` -/
def slide (dur : Nat) : List (Nat × Nat) → Nat → Nat
  | [], t => t
  | (s, e) :: rest, t => if t + dur ≤ s then t else slide dur rest (max t e)

/-- the earliest cycle from `after` on at which an interval of length `dur` is free -/
def earliestFree (s : IntervalSet) (after dur : Nat) : Nat :=
  if dur = 0 then after else slide dur (s.res.dropWhile fun e => e.2 ≤ after) after

def reserve (s : IntervalSet) (start dur : Nat) : IntervalSet :=
  ⟨(s.res.takeWhile fun e => e.1 < start) ++ (start, start + dur) ::
    (s.res.dropWhile fun e => e.1 < start)⟩

end IntervalSet

structure BandwidthSet where
  levels : List (Nat × ℚ)
  deriving DecidableEq, Repr

namespace BandwidthSet

def empty : BandwidthSet := ⟨[(0, 0)]⟩

def slack : ℚ := 1 / 10 ^ 9

/-- the pieces from the one that contains `t` on -/
def piecesFrom (b : BandwidthSet) (t : Nat) : List (Nat × ℚ) :=
  b.levels.drop ((b.levels.takeWhile fun e => e.1 ≤ t).length - 1)

/-- the window at `t`, moved behind every piece that has no room for it -/
def nextIn (dur : Nat) (w limit : ℚ) : List (Nat × ℚ) → Nat → Nat
  | [], t => t
  | [_], t => t
  | (s, load) :: (s', load') :: rest, t =>
    if t + dur ≤ s then t
    else if limit + slack < load + w then nextIn dur w limit ((s', load') :: rest) s'
    else nextIn dur w limit ((s', load') :: rest) t

/-- the earliest cycle from `after` on at which `w` over `dur` cycles stays under the limit -/
def nextFeasible (b : BandwidthSet) (after dur : Nat) (w limit : ℚ) : Nat :=
  nextIn (max dur 1) w limit (b.piecesFrom after) after

/-- an entry at `t`, with the load that holds there -/
def ensureBreakpoint (b : BandwidthSet) (t : Nat) : BandwidthSet :=
  let front := b.levels.takeWhile fun e => e.1 < t
  let behind := b.levels.dropWhile fun e => e.1 < t
  if behind.head?.map (·.1) = some t then b
  else ⟨front ++ (t, (front.getLast?.map (·.2)).getD 0) :: behind⟩

def reserve (b : BandwidthSet) (start stop : Nat) (w : ℚ) : BandwidthSet :=
  if stop ≤ start then b
  else
    let b := (b.ensureBreakpoint start).ensureBreakpoint stop
    ⟨b.levels.map fun e => if start ≤ e.1 ∧ e.1 < stop then (e.1, e.2 + w) else e⟩

end BandwidthSet
end Plow.Schedule

/-!
# The machine

The units of the node with their SMs and DMA engines, the DPUs and the host threads, and the
timelines of all of them.  A locality domain is a chiplet of a unit, or else a GPC.

Rates are rational: the infinite rate of a spec without a clock is left out.
-/

namespace Plow.Schedule

structure UnitHw where
  smCount : Nat
  pagesPerSm : Nat
  tmemColsPerSm : Nat
  dsmDomains : Nat
  smsPerDomain : Nat
  chipletCount : Nat
  smsPerChiplet : Nat
  dmaEngines : Nat
  hbmBytesPerCycle : ℚ
  deriving Repr

structure Machine where
  units : List UnitHw
  dpuEngines : Nat
  hostThreads : Nat
  linkBytesPerCycle : ℚ
  deriving Repr

namespace UnitHw

def smsPerLocalityDomain (u : UnitHw) : Nat :=
  if 1 < u.chipletCount then max u.smsPerChiplet 1
  else if 1 < u.dsmDomains then max u.smsPerDomain 1
  else max u.smCount 1

def localityDomainOf (u : UnitHw) (sm : Nat) : Nat :=
  if 1 < u.chipletCount then sm / max u.smsPerChiplet 1
  else if 1 < u.dsmDomains then sm / max u.smsPerDomain 1
  else 0

def localityDomainSms (u : UnitHw) (domain : Nat) : List Nat :=
  let start := min (domain * u.smsPerLocalityDomain) u.smCount
  let stop := min (start + u.smsPerLocalityDomain) u.smCount
  List.range' start (stop - start)

def localityDomainCount (u : UnitHw) : Nat :=
  if 1 < u.chipletCount then u.chipletCount
  else if 1 < u.dsmDomains then u.dsmDomains
  else 1

end UnitHw

/-- the resource is one of the machine's -/
def Machine.has (m : Machine) : ResourceId → Bool
  | .sm u s => (m.units[u]?).any fun hw => decide (s < hw.smCount)
  | .dma u e => (m.units[u]?).any fun hw => decide (e < hw.dmaEngines)
  | .dpu i => decide (i < m.dpuEngines)
  | .host i => decide (i < m.hostThreads)

/-! ### Occupancy -/

/-- The timelines: one for each resource, the HBM of each unit, the interconnect. -/
structure ResourceState where
  exclusive : ResourceId → IntervalSet
  hbm : Nat → BandwidthSet
  link : BandwidthSet

namespace ResourceState

def new : ResourceState := ⟨fun _ => .empty, fun _ => .empty, .empty⟩

def reserve (res : ResourceState) (r : ResourceId) (start dur : Nat) : ResourceState :=
  { res with exclusive := fun q =>
      if q = r then (res.exclusive r).reserve start dur else res.exclusive q }

def reserveHbm (res : ResourceState) (unit start stop : Nat) (w : ℚ) : ResourceState :=
  { res with hbm := fun v => if v = unit then (res.hbm unit).reserve start stop w else res.hbm v }

def reserveLink (res : ResourceState) (start stop : Nat) (w : ℚ) : ResourceState :=
  { res with link := res.link.reserve start stop w }

end ResourceState
end Plow.Schedule
