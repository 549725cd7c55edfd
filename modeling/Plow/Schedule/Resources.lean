import Plow.Schedule.ListOrder
import Plow.Schedule.Occupancy

/-!
# What the list scheduler keeps

`feasibleStart` is the least cycle from which its resource is free and the capacity suffices, up to the
tolerance of the source (`feasibleStart_isLeast`).  In a run the timelines hold exactly what is placed
(`Occupied`), so a schedule respects every edge, every resource and every capacity (`schedule_respects`).
-/

namespace Plow.Schedule
open Plow.Lib List Option

variable {m : Machine} {tg : TaskGraph} {pins : Pins} {st st' : ListState} {res : ResourceState}
  {t p : Nat} {r : ResourceId} {s after d c : Nat} {task : Task} {bw bw' : BandwidthSet} {limit w : ℚ}

/-! ### The earliest start -/

structure ResourceState.Wf (res : ResourceState) : Prop where
  exclusive : ∀ r, (res.exclusive r).Wf
  hbm : ∀ u, (res.hbm u).Wf
  link : res.link.Wf

theorem wf_new : ResourceState.new.Wf :=
  ⟨fun _ => IntervalSet.wf_empty, fun _ => BandwidthSet.wf_empty, BandwidthSet.wf_empty⟩

theorem ResourceState.Wf.capacity (h : res.Wf)
    (hc : capacityOf m res r = some (bw, limit)) : bw.Wf := by
  cases r with
  | sm u i =>
    obtain ⟨hw, -, he⟩ := map_eq_some_iff.mp hc
    cases he
    exact h.hbm u
  | dma u i =>
    obtain ⟨hw, -, he⟩ := map_eq_some_iff.mp hc
    cases he
    exact h.hbm u
  | dpu i =>
    cases hc
    exact h.link
  | host i => cases hc

def Task.span (task : Task) : Nat := max task.dur 1

def Task.rate (task : Task) : ℚ := task.bytes / (task.span : ℚ)

/-- The resource is free from `s` on, and what the task draws fits the capacity, unless the task alone
exceeds it. -/
structure Possible (m : Machine) (res : ResourceState) (r : ResourceId) (task : Task) (s : Nat) : Prop where
  free : (res.exclusive r).Free s task.span
  fits : task.bytes ≠ 0 → ∀ bw limit, capacityOf m res r = some (bw, limit) →
    task.rate ≤ limit + BandwidthSet.slack → bw.Fits task.span task.rate limit s

theorem span_pos (task : Task) : 0 < task.span := Nat.le_max_right _ _

/-- The alternating search ends at the least start. -/
theorem climb_isLeast {is : IntervalSet} (hi : is.Wf) (hb : bw.Wf)
    (hd : 0 < d) (hw : w ≤ limit + BandwidthSet.slack) (after : Nat) :
    ∃ s, climb (fun s => is.earliestFree (bw.nextFeasible s d w limit) d) (is.res.length + bw.levels.length + 1)
        (is.earliestFree after d) = some s ∧
      IsLeast {s | after ≤ s ∧ is.Free s d ∧ bw.Fits d w limit s} s := by
  have hnext := fun s => (BandwidthSet.nextFeasible_spec hb hd hw s).1
  have hfree := fun s => IntervalSet.earliestFree_isLeast hi hd s
  have hle : ∀ s, s ≤ is.earliestFree (bw.nextFeasible s d w limit) d := fun s =>
    (hnext s).1.1.trans (hfree _).1.1
  have hvals : ∀ s, is.earliestFree (bw.nextFeasible s d w limit) d = s ∨
      is.earliestFree (bw.nextFeasible s d w limit) d ∈ is.res.map (·.2) ++ bw.levels.map (·.1) := by
    intro s
    rcases IntervalSet.earliestFree_val hi hd (bw.nextFeasible s d w limit) with he | he
    · rcases (BandwidthSet.nextFeasible_spec hb hd hw s).2 with hs | hs
      · exact .inl (he.trans hs)
      · refine .inr (mem_append_right _ ?_)
        rw [he]
        exact hs
    · exact .inr (mem_append_left _ he)
  have hcount : (is.res.map (·.2) ++ bw.levels.map (·.1)).countP (fun v => is.earliestFree after d < v) <
      is.res.length + bw.levels.length + 1 := by
    refine Nat.lt_succ_of_le (countP_le_length.trans_eq ?_)
    rw [length_append, length_map, length_map]
  obtain ⟨s, hs⟩ := climb_some hle hvals hcount
  refine ⟨s, hs, ⟨(hfree after).1.1.trans (le_climb hle hs), ?_, ?_⟩, fun v hv => ?_⟩
  · have hfix := climb_fixed hs
    have := (hfree (bw.nextFeasible s d w limit)).1.2
    rwa [hfix] at this
  · -- at the fixed point the window does not move
    have hfix := climb_fixed hs
    have hup := (hfree (bw.nextFeasible s d w limit)).1.1
    rw [hfix] at hup
    have hsame : bw.nextFeasible s d w limit = s := Nat.le_antisymm hup (hnext s).1.1
    have := (hnext s).1.2
    rwa [hsame] at this
  · refine climb_le (fun x hx => ?_) ((hfree after).2 ⟨hv.1, hv.2.1⟩) hs
    exact (hfree _).2 ⟨(hnext x).2 ⟨hx, hv.2.2⟩, hv.2.1⟩

/-- `feasible_start` ends, at the least start that is possible. -/
theorem feasibleStart_isLeast (h : res.Wf) (m : Machine) (r : ResourceId) (task : Task) (after : Nat) :
    ∃ s, feasibleStart m res r task after = some s ∧ IsLeast {s | after ≤ s ∧ Possible m res r task s} s := by
  have hfree := IntervalSet.earliestFree_isLeast (h.exclusive r) (span_pos task) after
  -- where the capacity says nothing, the first gap is it
  have hgap : (∀ s, (res.exclusive r).Free s task.span → Possible m res r task s) →
      IsLeast {s | after ≤ s ∧ Possible m res r task s} ((res.exclusive r).earliestFree after task.span) :=
    fun hall => ⟨⟨hfree.1.1, hall _ hfree.1.2⟩, fun v hv => hfree.2 ⟨hv.1, hv.2.free⟩⟩
  unfold feasibleStart
  dsimp only
  split
  · next h0 => exact ⟨_, rfl, hgap fun s hs => ⟨hs, fun hne => absurd h0 hne⟩⟩
  · next hbytes =>
    cases hc : capacityOf m res r with
    | none => exact ⟨_, rfl, hgap fun s hs => ⟨hs, fun _ bw limit he => by rw [hc] at he; cases he⟩⟩
    | some c =>
      obtain ⟨bw, limit⟩ := c
      dsimp only
      split
      · next hover =>
        refine ⟨_, rfl, hgap fun s hs => ⟨hs, fun _ bw' limit' he hw => ?_⟩⟩
        rw [hc] at he
        cases he
        exact absurd hover (not_lt.mpr hw)
      · next hunder =>
        obtain ⟨s, hs, hleast⟩ := climb_isLeast (h.exclusive r) (h.capacity hc) (span_pos task)
          (not_lt.mp hunder) after
        refine ⟨s, hs, ⟨hleast.1.1, hleast.1.2.1, fun _ bw' limit' he _ => ?_⟩, fun v hv => hleast.2 ?_⟩
        · rw [hc] at he
          cases he
          exact hleast.1.2.2
        · exact ⟨hv.1, hv.2.free, hv.2.fits hbytes bw limit hc (not_lt.mp hunder)⟩

/-! ### Reserving a task -/

def drawsHbm (u : Nat) : ResourceId → Bool
  | .sm v _ | .dma v _ => decide (v = u)
  | _ => false

def drawsLink : ResourceId → Bool
  | .dpu _ => true
  | _ => false

theorem reserveTask_exclusive (res : ResourceState) (r q : ResourceId) (task : Task) (s : Nat) :
    (reserveTask res r task s).exclusive q =
      if q = r then (res.exclusive r).reserve s task.span else res.exclusive q := by
  unfold reserveTask
  dsimp only
  split
  · rfl
  · cases r <;> rfl

theorem reserveTask_hbm (res : ResourceState) (r : ResourceId) (task : Task) (s u : Nat) :
    (reserveTask res r task s).hbm u = if drawsHbm u r = true ∧ task.bytes ≠ 0 then
      (res.hbm u).reserve s (s + task.span) task.rate else res.hbm u := by
  unfold reserveTask
  dsimp only
  by_cases h0 : task.bytes = 0
  · rw [if_pos h0, if_neg fun h => h.2 h0]
    rfl
  rw [if_neg h0]
  have hunit : ∀ v, (if u = v then (res.hbm v).reserve s (s + task.span) task.rate else res.hbm u) =
      if decide (v = u) = true ∧ task.bytes ≠ 0 then (res.hbm u).reserve s (s + task.span) task.rate
      else res.hbm u := by
    intro v
    by_cases hv : v = u
    · subst hv
      rw [if_pos rfl, if_pos ⟨decide_eq_true rfl, h0⟩]
    · rw [if_neg (Ne.symm hv), if_neg fun h => hv (of_decide_eq_true h.1)]
  cases r with
  | sm v i => exact hunit v
  | dma v i => exact hunit v
  | dpu i => exact (if_neg fun h => nomatch h.1).symm
  | host i => exact (if_neg fun h => nomatch h.1).symm

theorem reserveTask_link (res : ResourceState) (r : ResourceId) (task : Task) (s : Nat) :
    (reserveTask res r task s).link = if drawsLink r = true ∧ task.bytes ≠ 0 then
      res.link.reserve s (s + task.span) task.rate else res.link := by
  unfold reserveTask
  dsimp only
  by_cases h0 : task.bytes = 0
  · rw [if_pos h0, if_neg fun h => h.2 h0]
    rfl
  rw [if_neg h0]
  cases r with
  | sm v i => exact (if_neg fun h => nomatch h.1).symm
  | dma v i => exact (if_neg fun h => nomatch h.1).symm
  | dpu i => exact (if_pos ⟨rfl, h0⟩).symm
  | host i => exact (if_neg fun h => nomatch h.1).symm

theorem ResourceState.Wf.reserveTask (h : res.Wf) (hp : Possible m res r task s) :
    (reserveTask res r task s).Wf := by
  have hlt : s < s + task.span := Nat.lt_add_of_pos_right (span_pos task)
  refine ⟨fun q => ?_, fun u => ?_, ?_⟩
  · rw [reserveTask_exclusive]
    split
    · exact (h.exclusive r).reserve hp.free (span_pos task)
    · exact h.exclusive q
  · rw [reserveTask_hbm]
    split
    · exact (BandwidthSet.reserve_spec (h.hbm u) hlt _).1
    · exact h.hbm u
  · rw [reserveTask_link]
    split
    · exact (BandwidthSet.reserve_spec h.link hlt _).1
    · exact h.link

/-! ### What is placed -/

def TaskGraph.rate (tg : TaskGraph) (t : Nat) : ℚ := ((tg.tasks[t]?).map fun task => (task.bytes / task.dur : ℚ)).getD 0

/-- what the tasks placed on some resources draw at a cycle -/
def drawn (tg : TaskGraph) (start : Nat → Nat) (on : ResourceId → Bool) (c : Nat)
    (placement : List (Nat × ResourceId)) : ℚ :=
  (placement.map fun e => if on e.2 = true ∧ start e.1 ≤ c ∧ c < start e.1 + tg.dur e.1 then tg.rate e.1 else 0).sum

def TaskGraph.Timed (tg : TaskGraph) : Prop := ∀ task ∈ tg.tasks, 1 ≤ task.dur

/-- The timelines hold what is placed: one interval for each task, and its rate. -/
structure Occupied (m : Machine) (tg : TaskGraph) (st : ListState) : Prop where
  wf : st.res.Wf
  on : ∀ e ∈ st.placement, (st.start e.1, st.start e.1 + tg.dur e.1) ∈ (st.res.exclusive e.2).res
  apart : ∀ e ∈ st.placement, ∀ e' ∈ st.placement, e.2 = e'.2 → e.1 ≠ e'.1 →
    st.start e.1 + tg.dur e.1 ≤ st.start e'.1 ∨ st.start e'.1 + tg.dur e'.1 ≤ st.start e.1
  hbm : ∀ u c, (st.res.hbm u).load c = drawn tg st.start (drawsHbm u) c st.placement
  link : ∀ c, st.res.link.load c = drawn tg st.start drawsLink c st.placement
  hbmFits : ∀ u hw, m.units[u]? = some hw →
    (∀ e ∈ st.placement, drawsHbm u e.2 = true → tg.rate e.1 ≤ hw.hbmBytesPerCycle + BandwidthSet.slack) →
    ∀ c, (st.res.hbm u).load c = 0 ∨ (st.res.hbm u).load c ≤ hw.hbmBytesPerCycle + BandwidthSet.slack
  linkFits : (∀ e ∈ st.placement, drawsLink e.2 = true → tg.rate e.1 ≤ m.linkBytesPerCycle + BandwidthSet.slack) →
    ∀ c, st.res.link.load c = 0 ∨ st.res.link.load c ≤ m.linkBytesPerCycle + BandwidthSet.slack

theorem occupied_init (m : Machine) (tg : TaskGraph) : Occupied m tg (.init tg) where
  wf := wf_new
  on _ := nofun
  apart _ := nofun
  hbm _ _ := rfl
  link _ := rfl
  hbmFits _ _ _ _ _ := .inl rfl
  linkFits _ _ := .inl rfl

theorem dur_of (h : tg.tasks[t]? = some task) : tg.dur t = task.dur := by
  unfold TaskGraph.dur
  rw [h]
  rfl

theorem rate_of (h : tg.tasks[t]? = some task) : tg.rate t = task.bytes / task.dur := by
  unfold TaskGraph.rate
  rw [h]
  rfl

theorem span_of (ht : tg.Timed) (h : tg.tasks[t]? = some task) : task.span = tg.dur t := by
  rw [dur_of h]
  exact Nat.max_eq_left (ht task (mem_of_getElem? h))

theorem taskRate_of (ht : tg.Timed) (h : tg.tasks[t]? = some task) : task.rate = tg.rate t := by
  unfold Task.rate
  rw [rate_of h, span_of ht h, dur_of h]

theorem drawn_place {start : Nat → Nat} {on : ResourceId → Bool} {placement : List (Nat × ResourceId)}
    (hnew : t ∉ placement.map (·.1)) : drawn tg (update start t s) on c (placement ++ [(t, r)]) =
      drawn tg start on c placement + if on r = true ∧ s ≤ c ∧ c < s + tg.dur t then tg.rate t else 0 := by
  unfold drawn
  rw [map_append, sum_append, map_singleton, sum_singleton]
  congr 1
  · refine congrArg List.sum (map_congr_left fun e he => ?_)
    have hne : e.1 ≠ t := fun heq => hnew (heq ▸ mem_map_of_mem he)
    rw [update_ne hne]
  · rw [update_self]

theorem load_fits (hold : bw.load c = 0 ∨ bw.load c ≤ limit)
    (hload : bw'.load c = bw.load c + if s ≤ c ∧ c < s + d then w else 0)
    (hfits : s ≤ c → c < s + d → bw.load c + w ≤ limit) : bw'.load c = 0 ∨ bw'.load c ≤ limit := by
  rw [hload]
  by_cases hc : s ≤ c ∧ c < s + d
  · rw [if_pos hc]
    exact .inr (hfits hc.1 hc.2)
  · rw [if_neg hc, add_zero]
    exact hold

theorem Occupied.place (h : Occupied m tg st) (ht : tg.Timed) (hnew : t ∉ st.placement.map (·.1)) {ready : List Nat}
    (H : Placing m tg pins st t ready st' task r s) : Occupied m tg st' := by
  have hspan := span_of ht H.found
  have hrate := taskRate_of ht H.found
  obtain ⟨s', hs', hleast⟩ := feasibleStart_isLeast h.wf m r task (depReady tg st.start t)
  rw [H.chosen.start] at hs'
  cases hs'
  have hp := hleast.1.2
  have hlt : s < s + task.span := Nat.lt_add_of_pos_right (span_pos task)
  have hold : ∀ e ∈ st.placement, update st.start t s e.1 = st.start e.1 := fun e he =>
    update_ne fun heq => hnew (heq ▸ mem_map_of_mem he)
  -- the new task is apart from all that its resource holds
  have hfree : ∀ e ∈ st.placement, e.2 = r → st.start e.1 + tg.dur e.1 ≤ s ∨ s + tg.dur t ≤ st.start e.1 := by
    intro e he hr
    have hin := h.on e he
    rw [hr] at hin
    rw [← hspan]
    exact hp.free _ hin
  have hhbm : ∀ u c, (st'.res.hbm u).load c = (st.res.hbm u).load c +
      if drawsHbm u r = true ∧ s ≤ c ∧ c < s + tg.dur t then tg.rate t else 0 := by
    intro u c
    rw [H.res, reserveTask_hbm]
    by_cases hd : drawsHbm u r = true
    · by_cases h0 : task.bytes = 0
      · have hzero : tg.rate t = 0 := by rw [rate_of H.found, h0]; simp
        rw [if_neg fun h => h.2 h0, hzero, ite_self, add_zero]
      · rw [if_pos ⟨hd, h0⟩, (BandwidthSet.reserve_spec (h.wf.hbm u) hlt _).2, hspan, hrate]
        simp only [hd, true_and]
    · rw [if_neg fun h => hd h.1, if_neg fun h => hd h.1, add_zero]
  have hlink : ∀ c, st'.res.link.load c = st.res.link.load c +
      if drawsLink r = true ∧ s ≤ c ∧ c < s + tg.dur t then tg.rate t else 0 := by
    intro c
    rw [H.res, reserveTask_link]
    by_cases hd : drawsLink r = true
    · by_cases h0 : task.bytes = 0
      · have hzero : tg.rate t = 0 := by rw [rate_of H.found, h0]; simp
        rw [if_neg fun h => h.2 h0, hzero, ite_self, add_zero]
      · rw [if_pos ⟨hd, h0⟩, (BandwidthSet.reserve_spec h.wf.link hlt _).2, hspan, hrate]
        simp only [hd, true_and]
    · rw [if_neg fun h => hd h.1, if_neg fun h => hd h.1, add_zero]
  refine ⟨?_, fun e he => ?_, fun e he e' he' hr hne => ?_, fun u c => ?_, fun c => ?_, fun u hw hu hall c => ?_,
    fun hall c => ?_⟩
  · rw [H.res]
    exact h.wf.reserveTask hp
  · rw [H.placement] at he
    rw [H.start, H.res, reserveTask_exclusive]
    rcases mem_append.mp he with he | he
    · rw [hold e he]
      split
      · next hr => exact IntervalSet.mem_reserve.mpr (.inr (hr ▸ h.on e he))
      · exact h.on e he
    · rw [mem_singleton.mp he, update_self, if_pos rfl, hspan]
      exact IntervalSet.mem_reserve.mpr (.inl rfl)
  · rw [H.placement] at he he'
    rw [H.start]
    rcases mem_append.mp he with he | he <;> rcases mem_append.mp he' with he' | he'
    · rw [hold e he, hold e' he']
      exact h.apart e he e' he' hr hne
    · rw [mem_singleton.mp he'] at hr hne ⊢
      rw [hold e he, update_self]
      exact hfree e he hr
    · rw [mem_singleton.mp he] at hr hne ⊢
      rw [hold e' he', update_self]
      exact (hfree e' he' hr.symm).symm
    · rw [mem_singleton.mp he, mem_singleton.mp he'] at hne
      exact absurd rfl hne
  · rw [hhbm, h.hbm, H.placement, H.start, drawn_place hnew]
  · rw [hlink, h.link, H.placement, H.start, drawn_place hnew]
  · rw [H.placement] at hall
    have hbefore := h.hbmFits u hw hu fun e he => hall e (mem_append_left _ he)
    by_cases hd : drawsHbm u r = true ∧ task.bytes ≠ 0
    · have hone := hall (t, r) (mem_append_right _ (mem_singleton.mpr rfl)) hd.1
      have hcap : capacityOf m st.res r = some (st.res.hbm u, hw.hbmBytesPerCycle) := by
        cases r with
        | sm v i =>
          obtain rfl := of_decide_eq_true hd.1
          show (m.units[v]?).map _ = _
          rw [hu]
          rfl
        | dma v i =>
          obtain rfl := of_decide_eq_true hd.1
          show (m.units[v]?).map _ = _
          rw [hu]
          rfl
        | dpu i => cases hd.1
        | host i => cases hd.1
      have hfits := hp.fits hd.2 _ _ hcap (hrate.trans_le hone)
      refine load_fits (d := tg.dur t) (w := tg.rate t) (s := s) (hbefore c) ?_ fun h1 h2 => ?_
      · rw [hhbm]
        simp only [hd.1, true_and]
      · rw [← hrate]
        exact hfits c h1 (hspan ▸ h2)
    · have hsame : (st'.res.hbm u) = st.res.hbm u := by rw [H.res, reserveTask_hbm, if_neg hd]
      rw [hsame]
      exact hbefore c
  · rw [H.placement] at hall
    have hbefore := h.linkFits fun e he => hall e (mem_append_left _ he)
    by_cases hd : drawsLink r = true ∧ task.bytes ≠ 0
    · have hone := hall (t, r) (mem_append_right _ (mem_singleton.mpr rfl)) hd.1
      have hcap : capacityOf m st.res r = some (st.res.link, m.linkBytesPerCycle) := by
        cases r with
        | dpu i => rfl
        | sm v i => cases hd.1
        | dma v i => cases hd.1
        | host i => cases hd.1
      have hfits := hp.fits hd.2 _ _ hcap (hrate.trans_le hone)
      refine load_fits (d := tg.dur t) (w := tg.rate t) (s := s) (hbefore c) ?_ fun h1 h2 => ?_
      · rw [hlink]
        simp only [hd.1, true_and]
      · rw [← hrate]
        exact hfits c h1 (hspan ▸ h2)
    · have hsame : st'.res.link = st.res.link := by rw [H.res, reserveTask_link, if_neg hd]
      rw [hsame]
      exact hbefore c

/-! ### The run -/

theorem listLoop_occupied {entry : Nat → Prioritized} {fuel : Nat} (hr : tg.inRange) (ht : tg.Timed)
    (h : listLoop m tg pins entry fuel (.init tg) = some st) : Occupied m tg st ∧ Ordered tg st := by
  refine listLoop_ind (P := fun st => Occupied m tg st ∧ Ordered tg st) ?_ ⟨occupied_init m tg, ordered_init tg⟩ h
  rintro st st' t ready ⟨hheld, hord⟩ hpop hplace
  obtain ⟨hin, rfl⟩ := pop_some hpop
  obtain ⟨task, r, s, H⟩ := placeTask_some hplace
  have hnew : t ∉ st.placement.map (·.1) := ((hord.ready t).mp hin).2.1
  obtain ⟨s', hs', hleast⟩ := feasibleStart_isLeast hheld.wf m r task (depReady tg st.start t)
  rw [H.chosen.start] at hs'
  cases hs'
  exact ⟨hheld.place ht hnew H, hord.place hr hin H hleast.1.1⟩

/-- What a schedule respects. -/
structure Respects (m : Machine) (tg : TaskGraph) (st : ListState) : Prop where
  placed : ∀ t < tg.tasks.length, ∃ r, (t, r) ∈ st.placement
  edges : ∀ a b, (a, b) ∈ tg.edges → st.start a + tg.dur a ≤ st.start b
  apart : ∀ t t' r, (t, r) ∈ st.placement → (t', r) ∈ st.placement → t ≠ t' →
    st.start t + tg.dur t ≤ st.start t' ∨ st.start t' + tg.dur t' ≤ st.start t
  hbm : ∀ u hw, m.units[u]? = some hw →
    (∀ e ∈ st.placement, drawsHbm u e.2 = true → tg.rate e.1 ≤ hw.hbmBytesPerCycle + BandwidthSet.slack) →
    ∀ c, drawn tg st.start (drawsHbm u) c st.placement = 0 ∨
      drawn tg st.start (drawsHbm u) c st.placement ≤ hw.hbmBytesPerCycle + BandwidthSet.slack
  link : (∀ e ∈ st.placement, drawsLink e.2 = true → tg.rate e.1 ≤ m.linkBytesPerCycle + BandwidthSet.slack) →
    ∀ c, drawn tg st.start drawsLink c st.placement = 0 ∨
      drawn tg st.start drawsLink c st.placement ≤ m.linkBytesPerCycle + BandwidthSet.slack

/-- A schedule places every task, behind its parents and alone on its resource, and keeps every capacity
up to the tolerance where no task alone exceeds it.  On every state of a run, as on any whose timelines
are in order, `feasible_start` ends at the least start that is possible. -/
theorem schedule_respects (m : Machine) (tg : TaskGraph) (pins : Pins)
    (hac : NoCircle fun a b => (a, b) ∈ tg.edges) (ht : tg.Timed) :
    (∀ st, listSchedule m tg pins = some st → Respects m tg st) ∧
    (∀ fuel st, tg.inRange → listLoop m tg pins (entryOf tg (criticalPath tg)) fuel (.init tg) = some st →
      st.res.Wf) ∧
    ∀ res : ResourceState, res.Wf → ∀ r task after, ∃ s, feasibleStart m res r task after = some s ∧
      IsLeast {s | after ≤ s ∧ Possible m res r task s} s := by
  refine ⟨fun st h => ?_, fun fuel st hr h => (listLoop_occupied hr ht h).1.wf,
    fun res hres r task after => feasibleStart_isLeast hres m r task after⟩
  obtain ⟨hr, hloop⟩ := listSchedule_loop h
  obtain ⟨hheld, hord⟩ := listLoop_occupied hr ht hloop
  have hall : ∀ t < tg.tasks.length, t ∈ st.done := by
    intro t htl
    rcases listLoop_done hloop with hempty | hlen
    · exact hord.all_done hr hac hempty htl
    · -- as many different tasks as there are
      have hsub : st.done ⊆ List.range tg.tasks.length := fun x hx => mem_range.mpr (hord.inRange x hx)
      have hperm := (subperm_of_subset hord.nodup hsub).perm_of_length_le (by
        rw [length_range, hlen]
        exact Nat.le_add_left _ _)
      exact hperm.symm.subset (mem_range.mpr htl)
  refine ⟨fun t htl => ?_, fun a b hab => ?_, fun t t' r hp hp' hne => hheld.apart _ hp _ hp' rfl hne,
    fun u hw hu hone c => ?_, fun hone c => ?_⟩
  · obtain ⟨e, he, rfl⟩ := mem_map.mp (hall t htl)
    exact ⟨e.2, he⟩
  · have hedge := all_eq_true.mp hr _ hab
    rw [Bool.and_eq_true, decide_eq_true_iff, decide_eq_true_iff] at hedge
    exact (hord.edges a b hab (hall b hedge.2)).2
  · rw [← hheld.hbm]
    exact hheld.hbmFits u hw hu hone c
  · rw [← hheld.link]
    exact hheld.linkFits hone c

def narrow : Machine := ⟨[⟨2, 0, 0, 1, 1, 1, 1, 0, 1⟩], 0, 0, 1⟩

/-- two tasks without edges, of a byte a cycle and of a byte in a thousand million -/
def full : TaskGraph where
  tasks := [⟨0, "", 0, .compute, [], 10 ^ 9, 10 ^ 9, 0, 0, 0, 0, none, false⟩,
    ⟨1, "", 0, .compute, [], 10 ^ 9, 1, 0, 0, 0, 0, none, false⟩]
  edges := []
  pagesPerSm := []
  tmemColsPerSm := []

def unpinned : Pins := ⟨[], fun _ => none, fun _ => none⟩

theorem full_timed : full.Timed := by
  intro task h
  rcases mem_cons.mp h with rfl | h
  · exact Nat.one_le_pow _ _ (by decide)
  · rw [mem_singleton.mp h]
    exact Nat.one_le_pow _ _ (by decide)

theorem full_noCircle : NoCircle fun a b => (a, b) ∈ full.edges := by
  intro x hx
  obtain ⟨y, hy, -⟩ := Relation.TransGen.head'_iff.mp hx
  cases hy

theorem schedule_respects_full : ∃ st, listSchedule narrow full unpinned = some st ∧ Respects narrow full st := by
  obtain ⟨st, hst⟩ := isSome_iff_exists.mp (show (listSchedule narrow full unpinned).isSome = true by
    decide +kernel)
  exact ⟨st, hst, (schedule_respects narrow full unpinned full_noCircle full_timed).1 st hst⟩

/-- The tolerance is used: both tasks run at once, though no capacity is left beside the first one. -/
theorem schedule_tolerance : ¬ ∀ (m : Machine) (tg : TaskGraph) (pins : Pins) (st : ListState),
    (NoCircle fun a b => (a, b) ∈ tg.edges) → tg.Timed → listSchedule m tg pins = some st →
    ∀ u hw, m.units[u]? = some hw →
      (∀ e ∈ st.placement, drawsHbm u e.2 = true → tg.rate e.1 ≤ hw.hbmBytesPerCycle) →
      ∀ c, drawn tg st.start (drawsHbm u) c st.placement ≤ hw.hbmBytesPerCycle := by
  intro h
  have hrun : ((listSchedule narrow full unpinned).map fun st => (st.placement.all fun e => decide (full.rate e.1 ≤ 1),
      decide (drawn full st.start (drawsHbm 0) 0 st.placement ≤ 1))) = some (true, false) := by decide +kernel
  obtain ⟨st, hst, hres⟩ := map_eq_some_iff.mp hrun
  obtain ⟨hone, hover⟩ := Prod.mk.inj hres
  have hbound := h narrow full unpinned st full_noCircle full_timed hst 0 _ rfl
    (fun e he _ => of_decide_eq_true (all_eq_true.mp hone e he)) 0
  exact of_decide_eq_false hover hbound

end Plow.Schedule
