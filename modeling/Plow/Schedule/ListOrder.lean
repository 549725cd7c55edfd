import Plow.Lib.Circles
import Plow.Lib.Sweep
import Plow.Schedule.ListSchedule

/-!
# The order of the list scheduler

The ready queue holds the tasks whose parents are placed and that are not (`Ordered`).  So a task is
placed once, behind its parents, and where no task waits for itself all of them are placed
(`listSchedule_all`).
-/

namespace Plow.Schedule
open Plow.Lib List

variable {m : Machine} {tg : TaskGraph} {pins : Pins} {st st' : ListState} {t p : Nat}
  {r : ResourceId} {s : Nat} {task : Task} {entry : Nat → Prioritized} {α : Type}
  {indeg start : Nat → Nat} {queue cs rest : List Nat}

/-! ### The queue -/

theorem foldl_pick_mem (pick : α → α → Bool) (l : List α) (b : α) :
    l.foldl (fun b x => if pick b x then x else b) b ∈ b :: l := by
  induction l generalizing b with
  | nil => exact mem_cons_self
  | cons x l ih =>
    rw [foldl_cons]
    split
    · exact mem_cons_of_mem _ (ih x)
    · rcases mem_cons.mp (ih b) with h | h
      · rw [h]
        exact mem_cons_self
      · exact mem_cons_of_mem _ (mem_cons_of_mem _ h)

theorem pop_some (h : pop entry queue = some (t, rest)) : t ∈ queue ∧ rest = queue.erase t := by
  cases queue with
  | nil => cases h
  | cons x queue =>
    cases h
    exact ⟨foldl_pick_mem (fun b u => (entry b).lt (entry u)) queue x, rfl⟩

theorem pop_none (h : pop entry queue = none) : queue = [] := by
  cases queue with
  | nil => rfl
  | cons x queue => cases h

/-! ### Releasing -/

theorem update_self (f : Nat → α) (i : Nat) (v : α) : update f i v i = v := if_pos rfl

theorem update_ne {f : Nat → α} {i j : Nat} {v : α} (h : j ≠ i) : update f i v j = f j := if_neg h

theorem release_indeg (indeg : Nat → Nat) (queue cs : List Nat) (x : Nat) :
    (release indeg queue cs).1 x = indeg x - cs.count x := by
  induction cs generalizing indeg queue with
  | nil => rfl
  | cons c cs ih =>
    unfold release
    dsimp only
    rw [ih, count_cons]
    by_cases h : x = c
    · subst h
      rw [update_self, beq_self_eq_true, if_pos rfl]
      omega
    · rw [update_ne h, if_neg (fun he => h (LawfulBEq.eq_of_beq he).symm)]
      rfl

/-- The tasks that join are those whose last parents have come. -/
theorem mem_release (hle : ∀ x, cs.count x ≤ indeg x) (x : Nat) :
    x ∈ (release indeg queue cs).2 ↔ x ∈ queue ∨ (0 < cs.count x ∧ cs.count x = indeg x) := by
  induction cs generalizing indeg queue with
  | nil =>
    rw [count_nil]
    exact ⟨.inl, fun h => h.resolve_right fun h => Nat.lt_irrefl 0 h.1⟩
  | cons c cs ih =>
    have hc := hle c
    rw [count_cons_self] at hc
    have hle' : ∀ x, cs.count x ≤ update indeg c (indeg c - 1) x := by
      intro x
      by_cases h : x = c
      · subst h
        rw [update_self]
        omega
      · rw [update_ne h]
        have := hle x
        rw [count_cons_of_ne (Ne.symm h)] at this
        exact this
    unfold release
    dsimp only
    rw [ih hle']
    by_cases h : x = c
    · subst h
      rw [update_self, count_cons_self]
      by_cases h0 : indeg x - 1 = 0
      · rw [if_pos h0]
        exact ⟨fun _ => .inr ⟨by omega, by omega⟩, fun _ => .inl mem_cons_self⟩
      · rw [if_neg h0]
        constructor
        · rintro (hq | ⟨_, he⟩)
          · exact .inl hq
          · exact .inr ⟨by omega, by omega⟩
        · rintro (hq | ⟨_, he⟩)
          · exact .inl hq
          · exact .inr ⟨by omega, by omega⟩
    · rw [update_ne h, count_cons_of_ne (Ne.symm h)]
      split
      · rw [mem_cons, or_iff_right h]
      · rfl

theorem nodup_release (hle : ∀ x, cs.count x ≤ indeg x)
    (hq : queue.Nodup) (hnew : ∀ x ∈ queue, cs.count x = 0) : (release indeg queue cs).2.Nodup := by
  induction cs generalizing indeg queue with
  | nil => exact hq
  | cons c cs ih =>
    have hc := hle c
    rw [count_cons_self] at hc
    have hcq : c ∉ queue := fun hin => by
      have := hnew c hin
      rw [count_cons_self] at this
      omega
    unfold release
    dsimp only
    refine ih (fun x => ?_) ?_ fun x hx => ?_
    · by_cases h : x = c
      · subst h
        rw [update_self]
        omega
      · rw [update_ne h]
        have := hle x
        rw [count_cons_of_ne (Ne.symm h)] at this
        exact this
    · split
      · exact nodup_cons.mpr ⟨hcq, hq⟩
      · exact hq
    · -- a task joins with its last parent
      have hold : ∀ x ∈ queue, cs.count x = 0 := fun x hx => by
        have := hnew x hx
        rw [count_cons] at this
        omega
      split at hx
      · next h0 =>
        rw [update_self] at h0
        rcases mem_cons.mp hx with rfl | hx
        · omega
        · exact hold x hx
      · exact hold x hx

/-! ### The run -/

theorem count_succ (tg : TaskGraph) (a b : Nat) : (tg.succ a).count b = (tg.preds b).count a := by
  unfold TaskGraph.succ TaskGraph.preds
  induction tg.edges with
  | nil => rfl
  | cons e es ih =>
    rw [filterMap_cons, filterMap_cons]
    by_cases ha : e.1 = a <;> by_cases hb : e.2 = b
    · simp only [ha, hb, if_true, count_cons_self, ih]
    · simp only [ha, hb, if_true, if_false, count_cons_of_ne hb, ih]
    · simp only [ha, hb, if_true, if_false, count_cons_of_ne ha, ih]
    · simp only [ha, hb, if_false, ih]

def ListState.done (st : ListState) : List Nat := st.placement.map (·.1)

/-- What holds between two placements. -/
structure Ordered (tg : TaskGraph) (st : ListState) : Prop where
  nodup : st.done.Nodup
  inRange : ∀ t ∈ st.done, t < tg.tasks.length
  queue : st.ready.Nodup
  indeg : ∀ t, st.indeg t = (tg.preds t).countP fun p => p ∉ st.done
  ready : ∀ t, t ∈ st.ready ↔ t < tg.tasks.length ∧ t ∉ st.done ∧ st.indeg t = 0
  edges : ∀ a b, (a, b) ∈ tg.edges → b ∈ st.done → a ∈ st.done ∧ st.start a + tg.dur a ≤ st.start b

theorem ordered_init (tg : TaskGraph) : Ordered tg (.init tg) where
  nodup := nodup_nil
  inRange _ := nofun
  queue := nodup_range.filter _
  indeg t := (countP_eq_length.mpr fun p _ => decide_eq_true not_mem_nil).symm
  ready t := by
    show t ∈ sources tg ↔ _
    unfold sources
    rw [mem_filter, mem_range, decide_eq_true_iff]
    exact ⟨fun h => ⟨h.1, not_mem_nil, h.2⟩, fun h => ⟨h.1, h.2.2⟩⟩
  edges _ _ _ := nofun

theorem Ordered.preds_done (h : Ordered tg st) (ht : st.indeg t = 0) : ∀ p ∈ tg.preds t, p ∈ st.done := by
  intro p hp
  rw [h.indeg, countP_eq_zero] at ht
  have := ht p hp
  rw [decide_eq_true_iff] at this
  exact not_not.mp this

theorem le_depReady (hp : p ∈ tg.preds t) : start p + tg.dur p ≤ depReady tg start t :=
  le_foldl_max (mem_map_of_mem hp)

/-- The task from the queue is placed behind its parents, and those that only waited for it join. -/
theorem Ordered.place (h : Ordered tg st) (hr : tg.inRange) (hin : t ∈ st.ready)
    (H : Placing m tg pins st t (st.ready.erase t) st' task r s) (hs : depReady tg st.start t ≤ s) :
    Ordered tg st' := by
  obtain ⟨htlen, htdone, ht0⟩ := (h.ready t).mp hin
  have hdone : st'.done = st.done ++ [t] := by
    unfold ListState.done
    rw [H.placement, map_append]
    rfl
  have hself : t ∉ tg.preds t := fun hp => htdone (h.preds_done ht0 t hp)
  have hcount : ∀ x, (tg.preds x).countP (fun p => p ∉ st.done) =
      (tg.preds x).countP (fun p => p ∉ st'.done) + (tg.succ t).count x := by
    intro x
    rw [count_succ, hdone]
    induction tg.preds x with
    | nil => rfl
    | cons p ps ih =>
      rw [countP_cons, countP_cons, count_cons, ih]
      by_cases hpt : p = t
      · subst hpt
        simp [htdone]
        omega
      · simp [hpt]
        omega
  have hle : ∀ x, (tg.succ t).count x ≤ st.indeg x := fun x => by
    rw [h.indeg, hcount]
    exact Nat.le_add_left _ _
  have hindeg : ∀ x, st'.indeg x = (tg.preds x).countP fun p => p ∉ st'.done := by
    intro x
    rw [H.indeg, release_indeg, h.indeg, hcount, Nat.add_sub_cancel]
  have hstart : ∀ x ∈ st.done, st'.start x = st.start x := fun x hx => by
    rw [H.start]
    exact update_ne fun he => htdone (he ▸ hx)
  refine ⟨?_, ?_, ?_, hindeg, fun x => ?_, fun a b hab hb => ?_⟩
  · rw [hdone]
    exact nodup_append.mpr ⟨h.nodup, nodup_singleton t, fun a ha b hb he => by
      rw [mem_singleton.mp hb] at he
      exact htdone (he ▸ ha)⟩
  · intro x hx
    rw [hdone] at hx
    rcases mem_append.mp hx with hx | hx
    · exact h.inRange x hx
    · rw [mem_singleton.mp hx]
      exact htlen
  · rw [H.ready]
    refine nodup_release hle (h.queue.erase t) fun x hx => ?_
    -- a task of the queue waits for no one
    have hx0 := ((h.ready x).mp (mem_of_mem_erase hx)).2.2
    have := hle x
    omega
  · rw [H.ready, mem_release hle, h.queue.mem_erase_iff, h.ready, hdone, mem_append, mem_singleton]
    have hx := h.indeg x
    rw [hcount x, ← hindeg x] at hx
    constructor
    · rintro (⟨hne, hlt, hnot, h0⟩ | ⟨hpos, heq⟩)
      · exact ⟨hlt, fun hor => hor.elim hnot hne, by omega⟩
      · have hpred : t ∈ tg.preds x := count_pos_iff.mp (by rw [← count_succ]; exact hpos)
        refine ⟨?_, fun hor => ?_, by omega⟩
        · have hedge := all_eq_true.mp hr _ (mem_preds.mp hpred)
          rw [Bool.and_eq_true, decide_eq_true_iff, decide_eq_true_iff] at hedge
          exact hedge.2
        · rcases hor with hor | rfl
          · exact htdone (h.edges t x (mem_preds.mp hpred) hor).1
          · exact hself hpred
    · rintro ⟨hlt, hnot, h0⟩
      rw [not_or] at hnot
      by_cases hc : (tg.succ t).count x = 0
      · exact .inl ⟨hnot.2, hlt, hnot.1, by omega⟩
      · exact .inr ⟨by omega, by omega⟩
  · rw [hdone] at hb ⊢
    rcases mem_append.mp hb with hb | hb
    · obtain ⟨ha, hle⟩ := h.edges a b hab hb
      rw [hstart a ha, hstart b hb]
      exact ⟨mem_append_left _ ha, hle⟩
    · rw [mem_singleton] at hb
      subst hb
      have ha := h.preds_done ht0 a (mem_preds.mpr hab)
      refine ⟨mem_append_left _ ha, ?_⟩
      rw [hstart a ha, H.start, update_self]
      exact (le_depReady (mem_preds.mpr hab)).trans hs

theorem Ordered.all_done (h : Ordered tg st) (hr : tg.inRange) (hac : NoCircle fun a b => (a, b) ∈ tg.edges)
    (hempty : st.ready = []) (ht : t < tg.tasks.length) : t ∈ st.done := by
  -- by the number of tasks before it
  induction hn : countBefore (fun a b => (a, b) ∈ tg.edges) (List.range tg.tasks.length) t
    using Nat.strong_induction_on generalizing t with
  | _ n ih =>
    by_contra hnot
    have h0 : st.indeg t = 0 := by
      rw [h.indeg, countP_eq_zero]
      intro p hp
      rw [decide_eq_true_iff, not_not]
      have hedge := mem_preds.mp hp
      have hpr := all_eq_true.mp hr _ hedge
      rw [Bool.and_eq_true, decide_eq_true_iff, decide_eq_true_iff] at hpr
      have hlt := countBefore_lt hac (mem_range.mpr hpr.1) hedge
      exact ih _ (hn ▸ hlt) hpr.1 rfl
    have hready := (h.ready t).mpr ⟨ht, hnot, h0⟩
    rw [hempty] at hready
    cases hready

theorem listLoop_done {fuel : Nat} (h : listLoop m tg pins entry fuel st = some st') :
    st'.ready = [] ∨ st'.done.length = st.done.length + fuel := by
  induction fuel generalizing st with
  | zero =>
    cases h
    exact .inr rfl
  | succ fuel ih =>
    unfold listLoop at h
    split at h
    · next hpop =>
      cases h
      exact .inl (pop_none hpop)
    · next t ready hpop =>
      obtain ⟨st1, hst1, h⟩ := Option.bind_eq_some_iff.mp h
      obtain ⟨task, r, s, H⟩ := placeTask_some hst1
      refine (ih h).imp_right fun hlen => ?_
      have hone : st1.done.length = st.done.length + 1 := by
        unfold ListState.done
        rw [H.placement, map_append, length_append]
        rfl
      omega

end Plow.Schedule
