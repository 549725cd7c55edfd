import Plow.Lib.Sweep
import Plow.Schedule.ListSchedule
import Plow.Schedule.Occupancy

/-!
# Page slots and accumulator columns

Every SM has a pool of page slots, a timeline each, and the tasks placed on it take slots in the order
of their starts: output pages until the last consumer ends, working pages while the task computes.  A
task for which there are too few free slots is spilled.

A placement is a list of entries without a task twice.  The slots of a pool hold just the bookings of
the tasks that were assigned (`PagePool.Shows`), and these are apart.
-/

namespace Plow.Schedule
open Plow.Lib List

/-! ### The pool -/

structure PagePool where
  slots : List IntervalSet
  deriving DecidableEq, Repr

namespace PagePool

def new (pages : Nat) : PagePool := ⟨List.replicate pages .empty⟩

def timeline (p : PagePool) (i : Nat) : IntervalSet := p.slots.getD i .empty

/-- the first `need` slots that are free over the window and not in use; `none` if there are fewer -/
def choose (p : PagePool) (used : List Nat) (start stop need : Nat) : Option (List Nat) :=
  let chosen := ((List.range p.slots.length).filter fun i =>
    decide (i ∉ used) && !(p.timeline i).overlaps start stop).take need
  if chosen.length < need then none else some chosen

def reserve (p : PagePool) (chosen : List Nat) (start dur : Nat) : PagePool :=
  chosen.foldl (fun p i => ⟨p.slots.modify i (·.reserve start dur)⟩) p

/-- slots for a window of at least a cycle; `none` is a spill -/
def allocate (p : PagePool) (start stop need : Nat) : PagePool × Option (List Nat) :=
  if need = 0 then (p, some []) else
  let stop := max stop (start + 1)
  match p.choose [] start stop need with
  | none => (p, none)
  | some chosen => (p.reserve chosen start (stop - start), some chosen)

/-- output slots over `start .. endLive` and other slots, which are not returned, over
`start .. endCompute` -/
def allocateWithWorkingSet (p : PagePool) (start endCompute workingPages endLive outPages : Nat) :
    PagePool × Option (List Nat) :=
  if outPages = 0 ∧ workingPages = 0 then (p, some []) else
  let endLive := max endLive (start + 1)
  let endCompute := max endCompute (start + 1)
  match p.choose [] start endLive outPages with
  | none => (p, none)
  | some outSlots =>
    match p.choose outSlots start endCompute workingPages with
    | none => (p, none)
    | some wsSlots =>
      ((p.reserve outSlots start (endLive - start)).reserve wsSlots start (endCompute - start), some outSlots)

end PagePool

/-! ### The tasks of the SMs -/

/-- Where the tasks are. -/
structure Placement where
  entries : List (Nat × ResourceId)
  nodup : (entries.map (·.1)).Nodup

def Placement.onSms (pl : Placement) (wanted : Nat → Bool) : List ((Nat × Nat) × Nat) :=
  pl.entries.filterMap fun e => match e.2 with
    | .sm u sm => if wanted e.1 then some ((u, sm), e.1) else none
    | _ => none

/-- the tasks on an SM, in the order of their starts -/
def Placement.tasksOn (pl : Placement) (wanted : Nat → Bool) (start : Nat → Nat) (k : Nat × Nat) : List Nat :=
  (((pl.onSms wanted).filter (·.1 = k)).map (·.2)).insertionSort fun a b =>
    start a < start b ∨ (start a = start b ∧ a ≤ b)

def Placement.bySm (pl : Placement) (wanted : Nat → Bool) (start : Nat → Nat) :
    List ((Nat × Nat) × List Nat) :=
  ((pl.onSms wanted).map (·.1)).dedup.map fun k => (k, pl.tasksOn wanted start k)

/-- the tasks of one SM, one after the other: the slots of the assigned ones, the number of spills -/
def placeLoop (alloc : PagePool → Nat → PagePool × Option (List Nat)) :
    PagePool → List Nat → List (Nat × List Nat) × Nat
  | _, [] => ([], 0)
  | p, t :: ts =>
    match alloc p t with
    | (p, some sl) => ((t, sl) :: (placeLoop alloc p ts).1, (placeLoop alloc p ts).2)
    | (p, none) => ((placeLoop alloc p ts).1, (placeLoop alloc p ts).2 + 1)

def placeAll (alloc : PagePool → Nat → PagePool × Option (List Nat)) (capacity : List Nat)
    (groups : List ((Nat × Nat) × List Nat)) : List (Nat × List Nat) × Nat :=
  let runs := groups.map fun g => placeLoop alloc (.new (capacity.getD g.1.1 0)) g.2
  (runs.flatMap (·.1), (runs.map (·.2)).sum)

/-- the tasks on SMs are tasks of the graph, and those that ask for something have a start and more -/
def Placement.inRange (pl : Placement) (tg : TaskGraph) (wanted ranged : Nat → Bool) : Bool :=
  pl.entries.all fun e => match e.2 with
    | .sm _ _ => decide (e.1 < tg.tasks.length) && (!wanted e.1 || ranged e.1)
    | _ => true

/-! ### The two passes -/

section
variable (tg : TaskGraph) (succ : List (List Nat)) (start : List Nat)

def wantsTmem (t : Nat) : Bool := (tg.tasks[t]?).any fun task => decide (task.tmemCols > 0)

/-- `none` is a panic: a task or a start out of range -/
def allocateTmem (pl : Placement) : Option (List (Nat × List Nat) × Nat) :=
  if pl.inRange tg (wantsTmem tg) fun t => decide (t < start.length) then
    some (placeAll (fun p t => p.allocate (start.getD t 0) (start.getD t 0 + max (tg.dur t) 1)
      (((tg.tasks[t]?).map (·.tmemCols)).getD 0)) tg.tmemColsPerSm (pl.bySm (wantsTmem tg) (start.getD · 0)))
  else none

def wantsPages (t : Nat) : Bool :=
  (tg.tasks[t]?).any fun task => decide (task.kind = .compute) && (decide (task.outPages > 0) || decide (task.sramPages > 0))

def endCompute (t : Nat) : Nat := start.getD t 0 + tg.dur t

def endLive (t : Nat) : Nat :=
  max (((succ.getD t []).map fun c => start.getD c 0 + tg.dur c).foldl max 0) (endCompute tg start t)

def outPages (t : Nat) : Nat := ((tg.tasks[t]?).map (·.outPages)).getD 0

def sramPages (t : Nat) : Nat := ((tg.tasks[t]?).map (·.sramPages)).getD 0

def consumersInRange (t : Nat) : Bool :=
  decide (t < start.length) && (succ[t]?).any fun cs =>
    cs.all fun c => decide (c < start.length) && decide (c < tg.tasks.length)

/-- `none` is a panic: a task, a start or the consumers out of range -/
def allocateSram (pl : Placement) : Option (List (Nat × List Nat) × Nat) :=
  if pl.inRange tg (wantsPages tg) (consumersInRange tg succ start) then
    some (placeAll (fun p t => p.allocateWithWorkingSet (start.getD t 0) (endCompute tg start t) (sramPages tg t)
      (endLive tg succ start t) (outPages tg t)) tg.pagesPerSm (pl.bySm (wantsPages tg) (start.getD · 0)))
  else none

end
/-! ### What a pool shows -/

namespace PagePool

variable {p : PagePool} {log : List (Booking Nat Nat)} {l used sl : List Nat} {i start stop dur need : Nat}
  {e : Nat × Nat}

theorem timeline_new (pages i : Nat) : (new pages).timeline i = .empty := by
  unfold new timeline
  rw [getD_eq_getElem?_getD, getElem?_replicate]
  split <;> rfl

theorem length_reserve (p : PagePool) (l : List Nat) (start dur : Nat) :
    (p.reserve l start dur).slots.length = p.slots.length := by
  unfold reserve
  induction l generalizing p with
  | nil => rfl
  | cons i l ih => rw [foldl_cons, ih, length_modify]

theorem mem_timeline_reserve (hl : ∀ i ∈ l, i < p.slots.length) :
    e ∈ ((p.reserve l start dur).timeline i).res ↔
      (i ∈ l ∧ e = (start, start + dur)) ∨ e ∈ (p.timeline i).res := by
  unfold reserve
  induction l generalizing p with
  | nil => simp
  | cons j l ih =>
    have hj := hl j mem_cons_self
    rw [foldl_cons, ih fun i hi => by
      rw [length_modify]
      exact hl i (mem_cons_of_mem _ hi)]
    have hone : e ∈ ((⟨p.slots.modify j (·.reserve start dur)⟩ : PagePool).timeline i).res ↔
        (i = j ∧ e = (start, start + dur)) ∨ e ∈ (p.timeline i).res := by
      unfold timeline
      rw [getD_eq_getElem?_getD, getD_eq_getElem?_getD]
      dsimp only
      by_cases hij : j = i
      · subst hij
        rw [getElem?_modify_eq, getElem?_eq_getElem hj]
        exact IntervalSet.mem_reserve.trans (by simp)
      · rw [getElem?_modify_ne _ _ hij]
        have : i ≠ j := fun h => hij h.symm
        simp [this]
    rw [hone, mem_cons]
    tauto

/-- The pool has `n` slots, which hold the bookings and nothing else, and the bookings are apart. -/
structure Shows (p : PagePool) (n : Nat) (log : List (Booking Nat Nat)) : Prop where
  length : p.slots.length = n
  slots : ∀ b ∈ log, b.slot < n
  res : ∀ i, ∀ e ∈ (p.timeline i).res, (⟨i, e.1, e.2⟩ : Booking Nat Nat) ∈ log
  held : ∀ b ∈ log, (b.start, b.stop) ∈ (p.timeline b.slot).res
  apart : log.Pairwise Booking.Apart

theorem shows_new (n : Nat) : (new n).Shows n [] where
  length := length_replicate
  slots := fun _ => nofun
  res := fun i e he => by
    rw [timeline_new] at he
    cases he
  held := fun _ => nofun
  apart := .nil

theorem choose_spec (h : p.choose used start stop need = some sl) : sl.length = need ∧ sl.Nodup ∧
      ∀ i ∈ sl, i < p.slots.length ∧ i ∉ used ∧ (p.timeline i).overlaps start stop = false := by
  unfold choose at h
  dsimp only at h
  split at h
  · cases h
  · next hlen =>
    cases h
    refine ⟨Nat.le_antisymm (length_take_le _ _) (Nat.le_of_not_lt hlen), ?_, fun i hi => ?_⟩
    · exact (nodup_range.filter _).sublist (take_sublist _ _)
    · obtain ⟨hr, hf⟩ := mem_filter.mp ((take_sublist _ _).subset hi)
      rw [Bool.and_eq_true, decide_eq_true_iff, Bool.not_eq_true'] at hf
      exact ⟨mem_range.mp hr, hf⟩

/-- slots that are free over the window are booked for it -/
theorem Shows.reserve {n : Nat} (h : p.Shows n log) (hl : l.Nodup) (hn : ∀ i ∈ l, i < n)
    (hfree : ∀ i ∈ l, (p.timeline i).overlaps start stop = false) (hlt : start < stop) :
    (p.reserve l start (stop - start)).Shows n (log ++ l.map fun i => ⟨i, start, stop⟩) := by
  have hin : ∀ i ∈ l, i < p.slots.length := fun i hi => h.length.symm ▸ hn i hi
  have hstop : start + (stop - start) = stop := by omega
  refine ⟨(length_reserve ..).trans h.length, fun b hb => ?_, fun i e he => ?_, fun b hb => ?_, ?_⟩
  · rcases mem_append.mp hb with hb | hb
    · exact h.slots b hb
    · obtain ⟨i, hi, rfl⟩ := mem_map.mp hb
      exact hn i hi
  · rw [mem_timeline_reserve hin, hstop] at he
    rcases he with ⟨hi, rfl⟩ | he
    · exact mem_append_right _ (mem_map_of_mem hi)
    · exact mem_append_left _ (h.res i e he)
  · rw [mem_timeline_reserve hin, hstop]
    rcases mem_append.mp hb with hb | hb
    · exact .inr (h.held b hb)
    · obtain ⟨i, hi, rfl⟩ := mem_map.mp hb
      exact .inl ⟨hi, rfl⟩
  · refine pairwise_append.mpr ⟨h.apart, ?_, fun a ha b hb => ?_⟩
    · exact pairwise_map.mpr (hl.imp fun hne hs => absurd hs hne)
    · -- the slot was free
      obtain ⟨i, hi, rfl⟩ := mem_map.mp hb
      intro hs
      have hres := h.held a ha
      rw [hs] at hres
      exact IntervalSet.overlaps_false.mp (hfree i hi) _ hres

end PagePool

open PagePool

/-! ### What a task holds -/

/-- `out` slots over one window and `work` other slots over another, from the same start. -/
structure PageRequest where
  start : Nat
  outStop : Nat
  out : Nat
  workStop : Nat
  work : Nat
  deriving DecidableEq, Repr

def PageRequest.bookings (r : PageRequest) (out work : List Nat) : List (Booking Nat Nat) :=
  (out.map fun i => ⟨i, r.start, r.outStop⟩) ++ work.map fun i => ⟨i, r.start, r.workStop⟩

def PageRequest.live (r : PageRequest) (c : Nat) : Nat :=
  (if r.start ≤ c ∧ c < r.outStop then r.out else 0) + if r.start ≤ c ∧ c < r.workStop then r.work else 0

/-- The slots are as many as asked for, and no slot is there twice. -/
structure Granted (r : PageRequest) (out work : List Nat) : Prop where
  outLength : out.length = r.out
  workLength : work.length = r.work
  nodup : (out ++ work).Nodup

theorem Granted.live_eq {r : PageRequest} {out work : List Nat} (h : Granted r out work) (c : Nat) :
    ((r.bookings out work).filter fun b => b.Covers c).length = r.live c := by
  have part : ∀ (l : List Nat) (stop : Nat),
      ((l.map fun i => (⟨i, r.start, stop⟩ : Booking Nat Nat)).filter fun b => b.Covers c).length =
        if r.start ≤ c ∧ c < stop then l.length else 0 := by
    intro l stop
    rw [filter_map, length_map]
    split
    · next hc =>
      rw [filter_eq_self.mpr]
      exact fun i _ => decide_eq_true hc
    · next hc =>
      rw [filter_eq_nil_iff.mpr]
      · rfl
      · exact fun i _ h => hc (of_decide_eq_true h)
  unfold PageRequest.bookings PageRequest.live
  rw [filter_append, length_append, part, part, h.outLength, h.workLength]

/-- A spill leaves the pool as it is, and another task is booked for what it asks for. -/
structure Serves (alloc : PagePool → Nat → PagePool × Option (List Nat)) (request : Nat → PageRequest) :
    Prop where
  spill : ∀ p t, (alloc p t).2 = none → (alloc p t).1 = p
  books : ∀ p t n log sl, p.Shows n log → (alloc p t).2 = some sl →
    ∃ work, Granted (request t) sl work ∧ (alloc p t).1.Shows n (log ++ (request t).bookings sl work)

variable {p : PagePool}

theorem allocate_spill {start stop need : Nat} (h : (p.allocate start stop need).2 = none) :
    (p.allocate start stop need).1 = p := by
  unfold PagePool.allocate at h ⊢
  dsimp only at h ⊢
  split
  · rfl
  · next hne =>
    rw [if_neg hne] at h
    split at h
    · rfl
    · cases h

variable {log : List (Booking Nat Nat)}

theorem allocate_books {start stop need n : Nat} {sl : List Nat}
    (h : p.Shows n log) (ha : (p.allocate start stop need).2 = some sl) :
    Granted ⟨start, max stop (start + 1), need, start, 0⟩ sl [] ∧ (p.allocate start stop need).1.Shows n
      (log ++ (⟨start, max stop (start + 1), need, start, 0⟩ : PageRequest).bookings sl []) := by
  unfold PagePool.allocate at ha ⊢
  dsimp only at ha ⊢
  split
  · next h0 =>
    rw [if_pos h0] at ha
    cases ha
    refine ⟨⟨h0.symm, rfl, nodup_nil⟩, ?_⟩
    show p.Shows n (log ++ [])
    rwa [append_nil]
  · next hne =>
    rw [if_neg hne] at ha
    split at ha
    · cases ha
    · next chosen hc =>
      cases ha
      obtain ⟨hlen, hnd, hall⟩ := choose_spec hc
      refine ⟨⟨hlen, rfl, by rwa [append_nil]⟩, ?_⟩
      unfold PageRequest.bookings
      rw [map_nil, append_nil]
      exact h.reserve hnd (fun i hi => h.length ▸ (hall i hi).1) (fun i hi => (hall i hi).2.2) (by omega)

theorem allocateWithWorkingSet_spill {start endCompute working endLive out : Nat}
    (h : (p.allocateWithWorkingSet start endCompute working endLive out).2 = none) :
    (p.allocateWithWorkingSet start endCompute working endLive out).1 = p := by
  unfold allocateWithWorkingSet at h ⊢
  dsimp only at h ⊢
  split
  · rfl
  · next hne =>
    rw [if_neg hne] at h
    split at h
    · rfl
    · split at h
      · rfl
      · cases h

theorem allocateWithWorkingSet_books {start endCompute working endLive out n : Nat}
    {sl : List Nat} (h : p.Shows n log)
    (ha : (p.allocateWithWorkingSet start endCompute working endLive out).2 = some sl) :
    ∃ work, Granted ⟨start, max endLive (start + 1), out, max endCompute (start + 1), working⟩ sl work ∧
      (p.allocateWithWorkingSet start endCompute working endLive out).1.Shows n (log ++
        (⟨start, max endLive (start + 1), out, max endCompute (start + 1), working⟩ : PageRequest).bookings sl work) := by
  unfold allocateWithWorkingSet at ha ⊢
  dsimp only at ha ⊢
  split
  · next h0 =>
    rw [if_pos h0] at ha
    cases ha
    refine ⟨[], ⟨h0.1.symm, h0.2.symm, nodup_nil⟩, ?_⟩
    show p.Shows n (log ++ [])
    rwa [append_nil]
  · next hne =>
    rw [if_neg hne] at ha
    split at ha
    · cases ha
    · next outSlots hout =>
      split at ha
      · cases ha
      · next wsSlots hws =>
        cases ha
        obtain ⟨hol, hon, hoall⟩ := choose_spec hout
        obtain ⟨hwl, hwn, hwall⟩ := choose_spec hws
        refine ⟨wsSlots, ⟨hol, hwl, nodup_append.mpr ⟨hon, hwn, ?_⟩⟩, ?_⟩
        · exact fun i hi j hj hij => (hwall j hj).2.1 (hij ▸ hi)
        have h₁ := h.reserve hon (fun i hi => h.length ▸ (hoall i hi).1) (fun i hi => (hoall i hi).2.2)
          (show start < max endLive (start + 1) by omega)
        unfold PageRequest.bookings
        rw [← append_assoc]
        refine h₁.reserve hwn (fun i hi => h.length ▸ (hwall i hi).1) (fun i hi => ?_) (by omega)
        -- the output slots are other slots
        refine IntervalSet.overlaps_false.mpr fun e he => ?_
        rw [mem_timeline_reserve fun i hi => (hoall i hi).1] at he
        rcases he with ⟨hmem, -⟩ | he
        · exact absurd hmem (hwall i hi).2.1
        · exact IntervalSet.overlaps_false.mp (hwall i hi).2.2 e he

/-! ### The tasks of one SM -/

theorem placeLoop_books {alloc : PagePool → Nat → PagePool × Option (List Nat)} {request : Nat → PageRequest}
    (ha : Serves alloc request) {n : Nat} {ts : List Nat}
    (hp : p.Shows n log) (ht : ts.Nodup) : ((placeLoop alloc p ts).1.map (·.1)).Sublist ts ∧
      (placeLoop alloc p ts).1.length + (placeLoop alloc p ts).2 = ts.length ∧
      ∃ working : Nat → List Nat, (∀ e ∈ (placeLoop alloc p ts).1, Granted (request e.1) e.2 (working e.1)) ∧
        ∃ q : PagePool, q.Shows n (log ++ (placeLoop alloc p ts).1.flatMap fun e =>
          (request e.1).bookings e.2 (working e.1)) := by
  induction ts generalizing p log with
  | nil =>
    refine ⟨.refl _, rfl, fun _ => [], fun _ => nofun, p, ?_⟩
    show p.Shows n (log ++ [])
    rwa [append_nil]
  | cons t ts ih =>
    obtain ⟨htn, hts⟩ := nodup_cons.mp ht
    have hspill := ha.spill p t
    have hbooks := ha.books p t n log
    unfold placeLoop
    split
    · next q sl heq =>
      rw [heq] at hbooks
      obtain ⟨work, hfit, hshows⟩ := hbooks sl hp rfl
      obtain ⟨hsub, hcount, working, hfits, q', hq'⟩ := ih (p := q) hshows hts
      have hne : ∀ e ∈ (placeLoop alloc q ts).1, e.1 ≠ t := fun e he h0 =>
        htn (h0 ▸ hsub.subset (mem_map_of_mem he))
      have hlater : ∀ e ∈ (placeLoop alloc q ts).1, update working t work e.1 = working e.1 := fun e he =>
        if_neg (hne e he)
      have hhere : update working t work t = work := if_pos rfl
      refine ⟨hsub.cons_cons t, ?_, update working t work, fun e he => ?_, q', ?_⟩
      · show (placeLoop alloc q ts).1.length + 1 + (placeLoop alloc q ts).2 = ts.length + 1
        omega
      · rcases mem_cons.mp he with rfl | he
        · dsimp only
          rw [hhere]
          exact hfit
        · rw [hlater e he]
          exact hfits e he
      · rw [flatMap_cons, hhere, ← append_assoc, flatMap_congr fun e he => by rw [hlater e he]]
        exact hq'
    · next q heq =>
      rw [heq] at hspill
      obtain rfl : q = p := hspill rfl
      obtain ⟨hsub, hcount, hrest⟩ := ih hp hts
      refine ⟨hsub.cons t, ?_, hrest⟩
      show (placeLoop alloc q ts).1.length + ((placeLoop alloc q ts).2 + 1) = ts.length + 1
      omega

/-! ### All SMs -/

namespace Placement

variable {pl : Placement} {wanted : Nat → Bool} {start : Nat → Nat} {t : Nat} {r r' : ResourceId} {k : Nat × Nat}

theorem unique (h : (t, r) ∈ pl.entries) (h' : (t, r') ∈ pl.entries) : r = r' := by
  have := inj_on_of_nodup_map pl.nodup h h' rfl
  exact (Prod.mk.inj this).2

theorem mem_onSms : (k, t) ∈ pl.onSms wanted ↔ (t, ResourceId.sm k.1 k.2) ∈ pl.entries ∧ wanted t = true := by
  unfold onSms
  rw [mem_filterMap]
  constructor
  · rintro ⟨⟨t', r⟩, he, h⟩
    cases r with
    | sm u sm =>
      dsimp only at h
      split at h
      · next hw =>
        cases h
        exact ⟨he, hw⟩
      · cases h
    | dma u e => cases h
    | dpu i => cases h
    | host i => cases h
  · rintro ⟨he, hw⟩
    exact ⟨_, he, if_pos hw⟩

theorem mem_tasksOn : t ∈ pl.tasksOn wanted start k ↔
    (t, ResourceId.sm k.1 k.2) ∈ pl.entries ∧ wanted t = true := by
  unfold tasksOn
  rw [mem_insertionSort, mem_map]
  constructor
  · rintro ⟨⟨k', t'⟩, h, rfl⟩
    obtain ⟨hmem, hk⟩ := mem_filter.mp h
    obtain rfl : k' = k := of_decide_eq_true hk
    exact mem_onSms.mp hmem
  · exact fun h => ⟨(k, t), mem_filter.mpr ⟨mem_onSms.mpr h, decide_eq_true rfl⟩, rfl⟩

theorem onSms_nodup (pl : Placement) (wanted : Nat → Bool) : ((pl.onSms wanted).map (·.2)).Nodup := by
  refine pl.nodup.sublist ?_
  unfold onSms
  induction pl.entries with
  | nil => exact .refl _
  | cons e es ih =>
    rw [filterMap_cons, map_cons]
    cases he : e.2 with
    | sm u sm =>
      dsimp only
      split
      · next h =>
        split at h
        · cases h
        · exact ih.cons _
      · next x h =>
        split at h
        · cases h
          exact ih.cons_cons _
        · cases h
    | dma u e => exact ih.cons _
    | dpu i => exact ih.cons _
    | host i => exact ih.cons _

theorem tasksOn_nodup (pl : Placement) (wanted : Nat → Bool) (start : Nat → Nat) (k : Nat × Nat) :
    (pl.tasksOn wanted start k).Nodup := by
  unfold tasksOn
  exact ((perm_insertionSort _ _).nodup_iff).mpr
    ((pl.onSms_nodup wanted).sublist (filter_sublist.map _))

end Placement

theorem flatMap_only {α β : Type} [DecidableEq α] {ks : List α} {f : α → List β} {a : α} (hk : ks.Nodup)
    (h : ∀ k ∈ ks, k ≠ a → f k = []) : ks.flatMap f = if a ∈ ks then f a else [] := by
  induction ks with
  | nil => rfl
  | cons k ks ih =>
    obtain ⟨hkn, hks⟩ := nodup_cons.mp hk
    rw [flatMap_cons, ih hks fun j hj => h j (mem_cons_of_mem _ hj)]
    by_cases hka : k = a
    · subst hka
      rw [if_neg hkn, append_nil, if_pos mem_cons_self]
    · have hmem : a ∈ k :: ks ↔ a ∈ ks := by
        rw [mem_cons]
        exact or_iff_right fun hak => hka hak.symm
      rw [h k mem_cons_self hka, nil_append]
      simp only [hmem]

/-- Every task has the slots that it asks for, those of two tasks on one SM are apart where their windows
overlap, and at no cycle are more of them live than the SM has. -/
structure Exclusive (capacity : List Nat) (request : Nat → PageRequest) (pl : Placement)
    (slots : List (Nat × List Nat)) (working : Nat → List Nat) : Prop where
  granted : ∀ e ∈ slots, Granted (request e.1) e.2 (working e.1)
  inPool : ∀ e ∈ slots, ∃ u sm, (e.1, ResourceId.sm u sm) ∈ pl.entries ∧
    ∀ i ∈ e.2 ++ working e.1, i < capacity.getD u 0
  apart : ∀ e ∈ slots, ∀ e' ∈ slots, e.1 ≠ e'.1 → ∀ u sm, (e.1, ResourceId.sm u sm) ∈ pl.entries →
    (e'.1, ResourceId.sm u sm) ∈ pl.entries → ∀ b ∈ (request e.1).bookings e.2 (working e.1),
      ∀ b' ∈ (request e'.1).bookings e'.2 (working e'.1), b.Apart b'
  live : ∀ u sm c, ((slots.filter fun e => (e.1, ResourceId.sm u sm) ∈ pl.entries).map fun e =>
    (request e.1).live c).sum ≤ capacity.getD u 0

section
variable {alloc : PagePool → Nat → PagePool × Option (List Nat)} {request : Nat → PageRequest}
  {capacity : List Nat} {pl : Placement} {wanted : Nat → Bool} {start : Nat → Nat}

theorem placeAll_slots : (placeAll alloc capacity (pl.bySm wanted start)).1 =
    (((pl.onSms wanted).map (·.1)).dedup).flatMap fun k =>
      (placeLoop alloc (.new (capacity.getD k.1 0)) (pl.tasksOn wanted start k)).1 := by
  unfold placeAll Placement.bySm
  dsimp only
  rw [map_map, flatMap_map]
  rfl

section

variable (ha : Serves alloc request)
include ha

theorem placeAll_count :
    (placeAll alloc capacity (pl.bySm wanted start)).1.length + (placeAll alloc capacity (pl.bySm wanted start)).2 =
      (pl.onSms wanted).length := by
  have hcount : ∀ k, (pl.tasksOn wanted start k).length =
      @count _ instBEqOfDecidableEq k ((pl.onSms wanted).map (·.1)) := by
    intro k
    unfold Placement.tasksOn
    rw [length_insertionSort, length_map]
    show _ = countP (fun x => decide (x = k)) ((pl.onSms wanted).map (·.1))
    rw [countP_map, countP_eq_length_filter]
    rfl
  have hall := sum_map_count_dedup_eq_length ((pl.onSms wanted).map (·.1))
  rw [length_map] at hall
  rw [placeAll_slots, ← hall]
  unfold placeAll Placement.bySm
  dsimp only
  rw [map_map, map_map, length_flatMap, ← sum_map_add]
  refine congrArg sum (map_congr_left fun k _ => ?_)
  obtain ⟨-, hlen, -⟩ := placeLoop_books ha (shows_new (capacity.getD k.1 0)) (pl.tasksOn_nodup wanted start k)
  rw [← hcount]
  exact hlen

theorem placeAll_filter (u sm : Nat) :
    ((placeAll alloc capacity (pl.bySm wanted start)).1.filter fun e => (e.1, ResourceId.sm u sm) ∈ pl.entries) =
      if (u, sm) ∈ (pl.onSms wanted).map (·.1) then
        (placeLoop alloc (.new (capacity.getD u 0)) (pl.tasksOn wanted start (u, sm))).1
      else [] := by
  rw [placeAll_slots, filter_flatMap, flatMap_only (a := (u, sm)) (nodup_dedup _)]
  · simp only [mem_dedup]
    split
    · refine filter_eq_self.mpr fun e he => decide_eq_true ?_
      obtain ⟨hsub, -⟩ := placeLoop_books ha (shows_new (capacity.getD u 0)) (pl.tasksOn_nodup wanted start (u, sm))
      exact (Placement.mem_tasksOn.mp (hsub.subset (mem_map_of_mem he))).1
    · rfl
  · -- a task is on one SM
    intro k _ hk
    refine filter_eq_nil_iff.mpr fun e he hon => hk ?_
    obtain ⟨hsub, -⟩ := placeLoop_books ha (shows_new (capacity.getD k.1 0)) (pl.tasksOn_nodup wanted start k)
    have hk' := (Placement.mem_tasksOn.mp (hsub.subset (mem_map_of_mem he))).1
    have heq := Placement.unique hk' (of_decide_eq_true hon)
    injection heq with hu hsm
    exact Prod.ext hu hsm

theorem placeAll_exclusive :
    ∃ working, Exclusive capacity request pl (placeAll alloc capacity (pl.bySm wanted start)).1 working := by
  choose W hfits q hq using fun k : Nat × Nat =>
    (placeLoop_books ha (shows_new (capacity.getD k.1 0)) (pl.tasksOn_nodup wanted start k)).2.2
  have hsub := fun k : Nat × Nat =>
    (placeLoop_books ha (shows_new (capacity.getD k.1 0)) (pl.tasksOn_nodup wanted start k)).1
  -- the working pages of a task are those of its SM's run
  let working := fun t => W (Classical.epsilon fun k => (t, ResourceId.sm k.1 k.2) ∈ pl.entries) t
  have hworking : ∀ t k, (t, ResourceId.sm k.1 k.2) ∈ pl.entries → working t = W k t := by
    intro t k hk
    have hε := Classical.epsilon_spec (p := fun k : Nat × Nat => (t, ResourceId.sm k.1 k.2) ∈ pl.entries) ⟨k, hk⟩
    have heq := Placement.unique hε hk
    injection heq with hu hsm
    exact congrFun (congrArg W (Prod.ext hu hsm)) t
  have hon : ∀ k, ∀ e ∈ (placeLoop alloc (.new (capacity.getD k.1 0)) (pl.tasksOn wanted start k)).1,
      (e.1, ResourceId.sm k.1 k.2) ∈ pl.entries := fun k e he =>
    (Placement.mem_tasksOn.mp ((hsub k).subset (mem_map_of_mem he))).1
  have hof : ∀ e ∈ (placeAll alloc capacity (pl.bySm wanted start)).1, ∃ k : Nat × Nat,
      e ∈ (placeLoop alloc (.new (capacity.getD k.1 0)) (pl.tasksOn wanted start k)).1 := by
    intro e he
    rw [placeAll_slots, mem_flatMap] at he
    obtain ⟨k, -, hk⟩ := he
    exact ⟨k, hk⟩
  have hbooks : ∀ k, (placeLoop alloc (.new (capacity.getD k.1 0)) (pl.tasksOn wanted start k)).1.flatMap (fun e =>
      (request e.1).bookings e.2 (W k e.1)) =
        (placeLoop alloc (.new (capacity.getD k.1 0)) (pl.tasksOn wanted start k)).1.flatMap fun e =>
          (request e.1).bookings e.2 (working e.1) := fun k =>
    flatMap_congr fun e he => by rw [hworking e.1 k (hon k e he)]
  simp only [nil_append, hbooks] at hq
  refine ⟨working, fun e he => ?_, fun e he => ?_, fun e he e' he' hne u sm hu hu' => ?_, fun u sm c => ?_⟩
  · obtain ⟨k, hk⟩ := hof e he
    rw [hworking e.1 k (hon k e hk)]
    exact hfits k e hk
  · obtain ⟨k, hk⟩ := hof e he
    refine ⟨k.1, k.2, hon k e hk, fun i hi => ?_⟩
    have hmem : ∀ b ∈ (request e.1).bookings e.2 (working e.1), b.slot < capacity.getD k.1 0 := fun b hb =>
      (hq k).slots b (mem_flatMap.mpr ⟨e, hk, hb⟩)
    rcases mem_append.mp hi with hi | hi
    · exact hmem _ (mem_append_left _ (mem_map_of_mem hi))
    · exact hmem _ (mem_append_right _ (mem_map_of_mem hi))
  · have hrun : ∀ x ∈ (placeAll alloc capacity (pl.bySm wanted start)).1, (x.1, ResourceId.sm u sm) ∈ pl.entries →
        x ∈ (placeLoop alloc (.new (capacity.getD u 0)) (pl.tasksOn wanted start (u, sm))).1 := by
      intro x hx hxu
      obtain ⟨k, hk⟩ := hof x hx
      have heq := Placement.unique (hon k x hk) hxu
      injection heq with hku hksm
      obtain rfl : k = (u, sm) := Prod.ext hku hksm
      exact hk
    have hpair := (pairwise_flatMap.mp (hq (u, sm)).apart).2
    have : Std.Symm fun x y : Nat × List Nat => ∀ b ∈ (request x.1).bookings x.2 (working x.1),
        ∀ b' ∈ (request y.1).bookings y.2 (working y.1), b.Apart b' :=
      ⟨fun x y h b hb b' hb' => (h b' hb' b hb).symm⟩
    exact hpair.forall (hrun e he hu) (hrun e' he' hu') fun heq => hne (congrArg Prod.fst heq)
  · rw [placeAll_filter ha]
    split
    · have hlive := Booking.live_le (hq (u, sm)).apart
        (fun b hb => mem_range.mpr ((hq (u, sm)).slots b hb)) c
      rw [length_range, filter_flatMap, length_flatMap] at hlive
      refine le_of_eq_of_le (congrArg sum (map_congr_left fun e he => ?_)) hlive
      refine (Granted.live_eq ?_ c).symm
      rw [hworking e.1 (u, sm) (hon (u, sm) e he)]
      exact hfits (u, sm) e he
    · exact Nat.zero_le _

theorem placeAll_nodup :
    ((placeAll alloc capacity (pl.bySm wanted start)).1.map (·.1)).Nodup := by
  have hsub := fun k : Nat × Nat =>
    (placeLoop_books ha (shows_new (capacity.getD k.1 0)) (pl.tasksOn_nodup wanted start k)).1
  rw [placeAll_slots, map_flatMap, nodup_flatMap]
  refine ⟨fun k _ => (pl.tasksOn_nodup wanted start k).sublist (hsub k), (nodup_dedup _).imp fun {k k'} hne => ?_⟩
  intro t ht ht'
  have heq := Placement.unique (Placement.mem_tasksOn.mp ((hsub k).subset ht)).1
    (Placement.mem_tasksOn.mp ((hsub k').subset ht')).1
  injection heq with hu hsm
  exact hne (Prod.ext hu hsm)

end

end

/-! ### The two passes -/

section
variable (tg : TaskGraph) (succ : List (List Nat)) (start : List Nat) (pl : Placement)

def sramRequest (t : Nat) : PageRequest :=
  ⟨start.getD t 0, max (endLive tg succ start t) (start.getD t 0 + 1), outPages tg t,
    max (endCompute tg start t) (start.getD t 0 + 1), sramPages tg t⟩

def tmemRequest (t : Nat) : PageRequest :=
  ⟨start.getD t 0, start.getD t 0 + max (tg.dur t) 1, ((tg.tasks[t]?).map (·.tmemCols)).getD 0, start.getD t 0, 0⟩

theorem serves_sram : Serves (fun p t => p.allocateWithWorkingSet (start.getD t 0) (endCompute tg start t)
    (sramPages tg t) (endLive tg succ start t) (outPages tg t)) (sramRequest tg succ start) where
  spill := fun _ _ => allocateWithWorkingSet_spill
  books := fun _ _ _ _ _ hp ha => allocateWithWorkingSet_books hp ha

theorem serves_tmem : Serves (fun p t => p.allocate (start.getD t 0) (start.getD t 0 + max (tg.dur t) 1)
    (((tg.tasks[t]?).map (·.tmemCols)).getD 0)) (tmemRequest tg start) where
  spill := fun _ _ => allocate_spill
  books := fun p t n log sl hp ha => by
    have hstop : max (start.getD t 0 + max (tg.dur t) 1) (start.getD t 0 + 1) = start.getD t 0 + max (tg.dur t) 1 := by
      omega
    have h := allocate_books hp ha
    rw [hstop] at h
    exact ⟨[], h⟩

/-- The page slots and the accumulator columns are never booked twice: a task that is assigned has just
the slots that it asks for, a task that is spilled takes none, and no SM holds more than it has. -/
theorem allocations_exclusive :
    (∀ slots spills, allocateSram tg succ start pl = some (slots, spills) →
      (∃ working, Exclusive tg.pagesPerSm (sramRequest tg succ start) pl slots working) ∧
        (slots.map (·.1)).Nodup ∧ slots.length + spills = (pl.onSms (wantsPages tg)).length) ∧
    (∀ slots spills, allocateTmem tg start pl = some (slots, spills) →
      (∃ working, Exclusive tg.tmemColsPerSm (tmemRequest tg start) pl slots working) ∧
        (slots.map (·.1)).Nodup ∧ slots.length + spills = (pl.onSms (wantsTmem tg)).length) ∧
    (∀ (p : PagePool) start endCompute working endLive out,
      (p.allocateWithWorkingSet start endCompute working endLive out).2 = none →
        (p.allocateWithWorkingSet start endCompute working endLive out).1 = p) ∧
    ∀ (p : PagePool) start stop need, (p.allocate start stop need).2 = none → (p.allocate start stop need).1 = p := by
  refine ⟨fun slots spills h => ?_, fun slots spills h => ?_, fun _ _ _ _ _ _ => allocateWithWorkingSet_spill,
    fun _ _ _ _ => allocate_spill⟩
  · unfold allocateSram at h
    split at h
    · cases h
      have hs := serves_sram tg succ start
      exact ⟨placeAll_exclusive hs, placeAll_nodup hs, placeAll_count hs⟩
    · cases h
  · unfold allocateTmem at h
    split at h
    · cases h
      have hs := serves_tmem tg start
      exact ⟨placeAll_exclusive hs, placeAll_nodup hs, placeAll_count hs⟩
    · cases h

/-- a tile of `out` output and `work` working pages -/
def tile (dur out work : Nat) : Task :=
  ⟨0, "gemm", 0, .compute, [0], dur, 0, 0, work, out, 0, none, false⟩

def tiles : TaskGraph := ⟨[tile 10 2 1, tile 10 1 1, tile 5 2 1], [(0, 1)], [4], [0]⟩

def tilesAt : Placement := ⟨[(2, .sm 0 0), (0, .sm 0 0), (1, .sm 0 0)], by decide⟩

theorem allocations_exclusive_tiles : ∃ working, Exclusive tiles.pagesPerSm
    (sramRequest tiles [[1], [], []] [0, 10, 12]) tilesAt [(0, [0, 1]), (1, [2])] working :=
  ((allocations_exclusive tiles [[1], [], []] [0, 10, 12] tilesAt).1 [(0, [0, 1]), (1, [2])] 1 (by decide)).1

end
end Plow.Schedule
