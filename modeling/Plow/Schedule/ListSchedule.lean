import Plow.Lib.Climb
import Plow.Lib.Results
import Plow.Schedule.Machine

/-!
# The list scheduler

A ready task is placed on the resource of its class that can start it first, tasks with a longer
path to a sink first.  `none` is a panic: an edge or a unit that does not exist, no candidate, or a
candidate that the machine does not have.

A `HashMap` that is only read is a function; `placement` and `streams` are lists of entries in
the order in which they were made.  The page slots and the tensor memory of the tiles are left out.
-/

namespace Plow.Schedule
open Plow.Lib

/-! ### The task graph -/

def TaskGraph.dur (tg : TaskGraph) (t : Nat) : Nat := ((tg.tasks[t]?).map (·.dur)).getD 0

def TaskGraph.succ (tg : TaskGraph) (t : Nat) : List Nat :=
  tg.edges.filterMap fun e => if e.1 = t then some e.2 else none

def TaskGraph.preds (tg : TaskGraph) (t : Nat) : List Nat :=
  tg.edges.filterMap fun e => if e.2 = t then some e.1 else none

theorem mem_preds {tg : TaskGraph} {a b : Nat} : a ∈ tg.preds b ↔ (a, b) ∈ tg.edges := by
  unfold TaskGraph.preds
  rw [List.mem_filterMap]
  constructor
  · rintro ⟨e, he, h⟩
    split at h
    · next hb =>
      rw [← Option.some.inj h, ← hb]
      exact he
    · cases h
  · intro h
    exact ⟨(a, b), h, if_pos rfl⟩

def TaskGraph.inRange (tg : TaskGraph) : Bool :=
  tg.edges.all fun e => decide (e.1 < tg.tasks.length) && decide (e.2 < tg.tasks.length)

def update {α : Type} (f : Nat → α) (i : Nat) (v : α) : Nat → α := fun j => if j = i then v else f j

/-- one parent of the tasks has come: those without another join the queue -/
def release (indeg : Nat → Nat) (queue : List Nat) : List Nat → (Nat → Nat) × List Nat
  | [] => (indeg, queue)
  | c :: cs =>
    let indeg := update indeg c (indeg c - 1)
    release indeg (if indeg c = 0 then c :: queue else queue) cs

def sources (tg : TaskGraph) : List Nat :=
  (List.range tg.tasks.length).filter fun t => (tg.preds t).length = 0

/-- Kahn's order; the stack's top is in front -/
def topoLoop (tg : TaskGraph) : Nat → (Nat → Nat) → List Nat → List Nat
  | 0, _, _ => []
  | _, _, [] => []
  | fuel + 1, indeg, t :: stack =>
    let (indeg, stack) := release indeg stack (tg.succ t)
    t :: topoLoop tg fuel indeg stack

def topo (tg : TaskGraph) : List Nat :=
  topoLoop tg tg.tasks.length (fun t => (tg.preds t).length) (sources tg).reverse

def criticalPath (tg : TaskGraph) : Nat → Nat :=
  (topo tg).reverse.foldl
    (fun cp t => update cp t (tg.dur t + ((tg.succ t).map cp).foldl max 0)) fun _ => 0

/-- An entry of the ready queue. -/
structure Prioritized where
  cp : Nat
  succ : Nat
  dur : Nat
  task : Nat

/-- the entry comes behind the other one: a shorter path, fewer successors, a longer duration, a
higher task -/
def Prioritized.lt (a b : Prioritized) : Bool :=
  decide (a.cp < b.cp) || (decide (a.cp = b.cp) && (decide (a.succ < b.succ) ||
    (decide (a.succ = b.succ) && (decide (b.dur < a.dur) ||
      (decide (b.dur = a.dur) && decide (b.task < a.task))))))

/-- the greatest entry of the queue, and the rest -/
def pop (entry : Nat → Prioritized) : List Nat → Option (Nat × List Nat)
  | [] => none
  | t :: ts =>
    let best := ts.foldl (fun b u => if (entry b).lt (entry u) then u else b) t
    some (best, (t :: ts).erase best)

/-! ### Candidates -/

/-- How a colocated tile pins within its unit. -/
structure ColoPin where
  axis : Nat
  block : Int
  band : Int
  deriving DecidableEq, Repr

structure Pins where
  colocated : List Nat
  colo : Nat → Option ColoPin
  domain : Nat → Option Nat

def i64Max : Int := 2 ^ 63 - 1

/-- the SM of a colocated tile: by the band of its rows, without a pin by its first coordinate -/
def colocatedSm (task : Task) (smCount : Nat) (pin : Option ColoPin) : Nat :=
  let smc := max smCount 1
  match pin with
  | some p =>
    let idx := max ((task.coord[p.axis]?).getD 0) 0
    let absRow := min (idx * max p.block 1) i64Max
    (absRow / max p.band 1).toNat % smc
  | none => (max (task.coord.head?.getD 0) 0).toNat % smc

def candidates (m : Machine) (pins : Pins) (task : Task) : Option (List ResourceId) :=
  match task.kind with
  | .compute => (m.units[task.unit]?).map fun hw =>
    let smc := max hw.smCount 1
    if task.node ∈ pins.colocated then
      [.sm task.unit (colocatedSm task smc (pins.colo task.node))]
    else
      match pins.domain task.node with
      | some d => (hw.localityDomainSms d).map (.sm task.unit)
      | none => (List.range smc).map (.sm task.unit)
  | .dmaIn | .dmaOut =>
    if task.crossUnit then some ((List.range m.dpuEngines).map .dpu)
    else (m.units[task.unit]?).map fun hw => (List.range hw.dmaEngines).map (.dma task.unit)
  | .host => some ((List.range m.hostThreads).map .host)

def localitySlack : Nat := 50

/-- the entry of `ds` with the greatest count, the last one of several -/
def majority (count : Nat → Nat) (ds : List Nat) : Nat :=
  ds.foldl (fun best d => if count best ≤ count d then d else best) 0

/-- the locality domain that most parents of a compute task are on -/
def predLocalityHint (m : Machine) (preds : List Nat) (domain : Nat → Option Nat) (task : Task) :
    Option Nat :=
  if task.kind ≠ .compute then none else
  match m.units[task.unit]? with
  | none => none
  | some hw =>
    if hw.localityDomainCount ≤ 1 then none else
    let maxDomain := min hw.localityDomainCount 64
    let on := (preds.filterMap domain).filter (· < maxDomain)
    if on = [] then none else some (majority on.count (List.range maxDomain))

/-! ### Placing one task -/

/-- the profile that a transfer on the resource draws on, and its limit -/
def capacityOf (m : Machine) (res : ResourceState) : ResourceId → Option (BandwidthSet × ℚ)
  | .sm u _ | .dma u _ => (m.units[u]?).map fun hw => (res.hbm u, hw.hbmBytesPerCycle)
  | .dpu _ => some (res.link, m.linkBytesPerCycle)
  | .host _ => none

/-- the earliest start from `after` on at which the resource is free and the capacity suffices; a
task that alone exceeds the capacity takes the first gap -/
def feasibleStart (m : Machine) (res : ResourceState) (r : ResourceId) (task : Task) (after : Nat) :
    Option Nat :=
  let dur := max task.dur 1
  let s := (res.exclusive r).earliestFree after dur
  if task.bytes = 0 then some s else
  match capacityOf m res r with
  | none => some s
  | some (bw, limit) =>
    let w : ℚ := task.bytes / dur
    if limit + BandwidthSet.slack < w then some s
    else
      climb (fun s => (res.exclusive r).earliestFree (bw.nextFeasible s dur w limit) dur)
        ((res.exclusive r).res.length + bw.levels.length + 1) s

def resourceOrder : ResourceId → List Nat
  | .sm u s => [0, u, s]
  | .dma u e => [1, u, e]
  | .dpu i => [2, 0, i]
  | .host i => [3, 0, i]

def scoreLt (rank : ResourceId → Nat) (a b : ResourceId × Nat) : Bool :=
  decide (rank a.1 :: a.2 :: resourceOrder a.1 < rank b.1 :: b.2 :: resourceOrder b.1)

def lowest (lt : ResourceId × Nat → ResourceId × Nat → Bool) :
    List (ResourceId × Nat) → Option (ResourceId × Nat)
  | [] => none
  | e :: es => some (es.foldl (fun b x => if lt x b then x else b) e)

def offDomain (m : Machine) (pref : Nat) : ResourceId → Nat
  | .sm u s => if (m.units[u]?).any fun hw => hw.localityDomainOf s = pref then 0 else 1
  | _ => 1

def chooseResource (m : Machine) (res : ResourceState) (pins : Pins) (task : Task) (after : Nat)
    (preferred : Option Nat) : Option (ResourceId × Nat) := do
  let rs ← candidates m pins task
  if rs.all m.has then
    let scored ← rs.mapM fun r => (feasibleStart m res r task after).map fun s => (r, s)
    let best ← lowest (scoreLt fun _ => 0) scored
    match preferred with
    | none => some best
    | some pref =>
      lowest (scoreLt (offDomain m pref)) (scored.filter fun e => e.2 ≤ best.2 + localitySlack)
  else none

def reserveTask (res : ResourceState) (r : ResourceId) (task : Task) (s : Nat) : ResourceState :=
  let dur := max task.dur 1
  let res := res.reserve r s dur
  if task.bytes = 0 then res else
  match r with
  | .sm u _ | .dma u _ => res.reserveHbm u s (s + dur) (task.bytes / dur)
  | .dpu _ => res.reserveLink s (s + dur) (task.bytes / dur)
  | .host _ => res

/-! ### The loop -/

structure ListState where
  res : ResourceState
  indeg : Nat → Nat
  ready : List Nat
  start : Nat → Nat
  placement : List (Nat × ResourceId)
  streams : List (ResourceId × List (Nat × Nat))
  domain : Nat → Option Nat

/-- `streams.entry(r).or_default().push(e)` -/
def pushStream (r : ResourceId) (e : Nat × Nat) :
    List (ResourceId × List (Nat × Nat)) → List (ResourceId × List (Nat × Nat))
  | [] => [(r, [e])]
  | (q, es) :: rest => if q = r then (q, es ++ [e]) :: rest else (q, es) :: pushStream r e rest

def ListState.init (tg : TaskGraph) : ListState where
  res := .new
  indeg t := (tg.preds t).length
  ready := sources tg
  start _ := 0
  placement := []
  streams := []
  domain _ := none

def domainOf (m : Machine) : ResourceId → Option Nat
  | .sm u s => (m.units[u]?).map fun hw => hw.localityDomainOf s
  | _ => none

def depReady (tg : TaskGraph) (start : Nat → Nat) (t : Nat) : Nat :=
  ((tg.preds t).map fun p => start p + tg.dur p).foldl max 0

/-- the task `t`, taken from the queue, is placed -/
def placeTask (m : Machine) (tg : TaskGraph) (pins : Pins) (st : ListState) (t : Nat)
    (ready : List Nat) : Option ListState := do
  let task ← tg.tasks[t]?
  let pref := predLocalityHint m (tg.preds t) st.domain task
  let (r, s) ← chooseResource m st.res pins task (depReady tg st.start t) pref
  let (indeg, ready) := release st.indeg ready (tg.succ t)
  some {
    res := reserveTask st.res r task s
    indeg := indeg
    ready := ready
    start := update st.start t s
    placement := st.placement ++ [(t, r)]
    streams := pushStream r (t, s) st.streams
    domain := update st.domain t (domainOf m r) }

def listLoop (m : Machine) (tg : TaskGraph) (pins : Pins) (entry : Nat → Prioritized) :
    Nat → ListState → Option ListState
  | 0, st => some st
  | fuel + 1, st =>
    match pop entry st.ready with
    | none => some st
    | some (t, ready) => (placeTask m tg pins st t ready).bind (listLoop m tg pins entry fuel)

def entryOf (tg : TaskGraph) (cp : Nat → Nat) (t : Nat) : Prioritized :=
  ⟨cp t, (tg.succ t).length, tg.dur t, t⟩

def listSchedule (m : Machine) (tg : TaskGraph) (pins : Pins) : Option ListState :=
  if tg.inRange then
    listLoop m tg pins (entryOf tg (criticalPath tg)) tg.tasks.length (.init tg)
  else none

end Plow.Schedule

/-!
# Runs of the list scheduler

Every task is placed on a candidate of its own, behind its parents.
-/

namespace Plow.Schedule
open Plow.Lib

variable {m : Machine} {tg : TaskGraph} {pins : Pins} {st st' : ListState} {t : Nat}
  {r : ResourceId} {s : Nat}

theorem lowest_mem {lt : ResourceId × Nat → ResourceId × Nat → Bool} {es : List (ResourceId × Nat)}
    {e : ResourceId × Nat} (h : lowest lt es = some e) : e ∈ es := by
  cases es with
  | nil => cases h
  | cons a es =>
    cases h
    have hfold : ∀ (l : List (ResourceId × Nat)) b,
        l.foldl (fun b x => if lt x b then x else b) b ∈ b :: l := by
      intro l
      induction l with
      | nil => exact fun b => List.mem_cons_self
      | cons x l ih =>
        intro b
        rw [List.foldl_cons]
        split
        · exact List.mem_cons_of_mem _ (ih x)
        · rcases List.mem_cons.mp (ih b) with h | h
          · rw [h]
            exact List.mem_cons_self
          · exact List.mem_cons_of_mem _ (List.mem_cons_of_mem _ h)
    exact hfold es a

/-- What a chosen resource is. -/
structure Chosen (m : Machine) (res : ResourceState) (pins : Pins) (task : Task) (after : Nat)
    (r : ResourceId) (s : Nat) : Prop where
  candidate : ∃ rs, candidates m pins task = some rs ∧ r ∈ rs
  has : m.has r
  start : feasibleStart m res r task after = some s

theorem chooseResource_some {res : ResourceState} {task : Task} {after : Nat} {pref : Option Nat}
    (h : chooseResource m res pins task after pref = some (r, s)) :
    Chosen m res pins task after r s := by
  unfold chooseResource at h
  obtain ⟨rs, hrs, h⟩ := Option.bind_eq_some_iff.mp h
  split at h
  · next hhas =>
    obtain ⟨scored, hscored, h⟩ := Option.bind_eq_some_iff.mp h
    obtain ⟨best, hbest, h⟩ := Option.bind_eq_some_iff.mp h
    have hmem : (r, s) ∈ scored := by
      cases pref with
      | none =>
        cases h
        exact lowest_mem hbest
      | some pref => exact (List.mem_filter.mp (lowest_mem h)).1
    obtain ⟨q, hq, hs⟩ := mem_of_optionMapM hscored hmem
    obtain ⟨s', hs', he⟩ := Option.map_eq_some_iff.mp hs
    cases he
    exact ⟨⟨rs, hrs, hq⟩, List.all_eq_true.mp hhas r hq, hs'⟩
  · cases h

/-- What placing a task does. -/
structure Placing (m : Machine) (tg : TaskGraph) (pins : Pins) (st : ListState) (t : Nat)
    (ready : List Nat) (st' : ListState) (task : Task) (r : ResourceId) (s : Nat) : Prop where
  found : tg.tasks[t]? = some task
  chosen : Chosen m st.res pins task (depReady tg st.start t) r s
  res : st'.res = reserveTask st.res r task s
  indeg : st'.indeg = (release st.indeg ready (tg.succ t)).1
  ready : st'.ready = (release st.indeg ready (tg.succ t)).2
  start : st'.start = update st.start t s
  placement : st'.placement = st.placement ++ [(t, r)]
  streams : st'.streams = pushStream r (t, s) st.streams

theorem placeTask_some {ready : List Nat} (h : placeTask m tg pins st t ready = some st') :
    ∃ task r s, Placing m tg pins st t ready st' task r s := by
  unfold placeTask at h
  obtain ⟨task, htask, h⟩ := Option.bind_eq_some_iff.mp h
  obtain ⟨⟨r, s⟩, hrs, h⟩ := Option.bind_eq_some_iff.mp h
  cases h
  exact ⟨task, r, s, htask, chooseResource_some hrs, rfl, rfl, rfl, rfl, rfl, rfl⟩

theorem listLoop_ind {entry : Nat → Prioritized} {P : ListState → Prop} {fuel : Nat}
    (hstep : ∀ st st' t ready, P st → pop entry st.ready = some (t, ready) →
      placeTask m tg pins st t ready = some st' → P st')
    (h0 : P st) (h : listLoop m tg pins entry fuel st = some st') : P st' := by
  induction fuel generalizing st with
  | zero =>
    cases h
    exact h0
  | succ fuel ih =>
    unfold listLoop at h
    split at h
    · cases h
      exact h0
    · next t ready hpop =>
      obtain ⟨st1, hst1, h⟩ := Option.bind_eq_some_iff.mp h
      exact ih (hstep _ _ _ _ h0 hpop hst1) h

theorem listSchedule_loop (h : listSchedule m tg pins = some st) : tg.inRange ∧
    listLoop m tg pins (entryOf tg (criticalPath tg)) tg.tasks.length (.init tg) = some st := by
  unfold listSchedule at h
  split at h
  · next hr => exact ⟨hr, h⟩
  · cases h

end Plow.Schedule
