import Plow.Lib.Results
import Plow.Schedule.Expand

/-!
# What expansion makes

The compute tasks of a node are those of its work units, in order, on the node's unit.
-/

namespace Plow.Schedule
open Plow.Lib Plow.Rewrite List Option

variable {costs : Costs} {m : Machine} {g : TileGraph} {cons : ConstraintSet} {cfg : Config}
  {tg : TaskGraph} {st st' st'' : ExpandState} {info : NodeInfo} {wu : WorkUnit} {u : UnitTasks}
  {task : Task} {perOp : Bool}

/-! ### One work unit -/

/-- The tasks of a work unit. -/
structure UnitOk (info : NodeInfo) (wu : WorkUnit) (u : UnitTasks) : Prop where
  kind : u.compute.kind = .compute
  node : u.compute.node = info.nid
  unit : u.compute.unit = info.unit
  coord : u.compute.coord = wu.coord
  dur : 1 ≤ u.compute.dur
  loads : ∀ t ∈ u.dmaIns, t.kind = .dmaIn ∧ t.node = info.nid
  store : ∀ t ∈ u.dmaOut, t.kind = .dmaOut ∧ t.node = info.nid

theorem inputTask_some {fp : Footprint} {e : String × Nat} {t : Task}
    (h : (inputTask costs g cfg info wu perOp fp e).2 = some t) :
    t.kind = .dmaIn ∧ t.node = info.nid := by
  obtain ⟨tname, i⟩ := e
  unfold inputTask at h
  dsimp only at h
  split at h
  · cases h
  · -- the bytes of the whole op, or of the tile
    split at h
    all_goals
      split at h
      · cases h
      · split at h
        · cases h
        · cases h
          exact ⟨rfl, rfl⟩

theorem unitTasks_some (h : unitTasks costs m g cfg info perOp wu = some u) : UnitOk info wu u := by
  unfold unitTasks at h
  obtain ⟨hw, -, h⟩ := bind_eq_some_iff.mp h
  obtain ⟨fp, -, h⟩ := bind_eq_some_iff.mp h
  cases h
  refine ⟨rfl, rfl, rfl, rfl, Nat.le_max_right _ _, fun t ht => ?_, fun t ht => ?_⟩
  · obtain ⟨e, he, ht⟩ := mem_filterMap.mp ht
    obtain ⟨i, -, rfl⟩ := List.mem_map.mp he
    exact inputTask_some ht
  · obtain ⟨-, ht⟩ := ite_none_right_eq_some.mp ht
    cases ht
    exact ⟨rfl, rfl⟩

/-! ### The nodes -/

/-- What holds of the tasks and the work units so far. -/
structure PlacedOk (cons : ConstraintSet) (st : ExpandState) : Prop where
  placed : ∀ p ∈ st.placed, ∃ task, st.tg.tasks[p.task]? = some task ∧ task.kind = .compute ∧
    task.node = p.node ∧ task.coord = p.unit.coord
  compute : ∀ (t : Nat) (task : Task), st.tg.tasks[t]? = some task → task.kind = .compute →
    (∃ p ∈ st.placed, p.task = t) ∧ cons.placement task.node = some task.unit
  sorted : st.placed.Pairwise fun p q => p.task < q.task

theorem PlacedOk.lt (h : PlacedOk cons st) {p : Placed} (hp : p ∈ st.placed) :
    p.task < st.tg.tasks.length := by
  obtain ⟨task, ht, -⟩ := h.placed p hp
  exact (List.getElem?_eq_some_iff.mp ht).1

/-- the tasks of a unit behind the others: an old task, a load, the compute task or the store -/
theorem pushUnit_tasks {n t : Nat} (h : (pushUnit st n wu u).tg.tasks[t]? = some task) :
    st.tg.tasks[t]? = some task ∨ task ∈ u.dmaIns ∨
      (t = st.tg.tasks.length + u.dmaIns.length ∧ task = u.compute) ∨ task ∈ u.dmaOut := by
  change (st.tg.tasks ++ u.dmaIns ++ u.compute :: u.dmaOut.toList)[t]? = some task at h
  by_cases h1 : t < st.tg.tasks.length + u.dmaIns.length
  · rw [getElem?_append_left (by rw [length_append]; exact h1)] at h
    by_cases h2 : t < st.tg.tasks.length
    · rw [getElem?_append_left h2] at h
      exact Or.inl h
    · rw [getElem?_append_right (Nat.not_lt.mp h2)] at h
      exact Or.inr (Or.inl (mem_of_getElem? h))
  · rw [getElem?_append_right (by rw [length_append]; exact Nat.not_lt.mp h1),
      length_append] at h
    right
    right
    by_cases h2 : t = st.tg.tasks.length + u.dmaIns.length
    · subst h2
      rw [Nat.sub_self, getElem?_cons_zero] at h
      exact Or.inl ⟨rfl, (Option.some.inj h).symm⟩
    · right
      obtain ⟨k, hk⟩ : ∃ k, t - (st.tg.tasks.length + u.dmaIns.length) = k + 1 :=
        ⟨t - (st.tg.tasks.length + u.dmaIns.length) - 1, by omega⟩
      rw [hk, getElem?_cons_succ] at h
      exact mem_toList.mp (mem_of_getElem? h)

theorem pushUnit_old {n t : Nat} (h : st.tg.tasks[t]? = some task) :
    (pushUnit st n wu u).tg.tasks[t]? = some task := by
  have hlt := (List.getElem?_eq_some_iff.mp h).1
  show (st.tg.tasks ++ u.dmaIns ++ u.compute :: u.dmaOut.toList)[t]? = some task
  rw [append_assoc, getElem?_append_left hlt, h]

theorem pushUnit_compute {n : Nat} :
    (pushUnit st n wu u).tg.tasks[st.tg.tasks.length + u.dmaIns.length]? = some u.compute := by
  show (st.tg.tasks ++ u.dmaIns ++ u.compute :: u.dmaOut.toList)[_]? = some u.compute
  rw [getElem?_append_right (by rw [length_append]), length_append, Nat.sub_self,
    getElem?_cons_zero]

theorem PlacedOk.pushUnit (h : PlacedOk cons st) (hu : UnitOk info wu u)
    (hunit : cons.placement info.nid = some info.unit) :
    PlacedOk cons (pushUnit st info.nid wu u) := by
  refine ⟨fun p hp => ?_, fun t task ht hk => ?_, ?_⟩
  · rcases mem_append.mp hp with hp | hp
    · obtain ⟨task, ht, h1⟩ := h.placed p hp
      exact ⟨task, pushUnit_old ht, h1⟩
    · rw [mem_singleton.mp hp]
      exact ⟨u.compute, pushUnit_compute, hu.kind, hu.node, hu.coord⟩
  · rcases pushUnit_tasks ht with ht | hm | ⟨rfl, rfl⟩ | hm
    · obtain ⟨⟨p, hp, hpt⟩, h1⟩ := h.compute t task ht hk
      exact ⟨⟨p, mem_append_left _ hp, hpt⟩, h1⟩
    · rw [(hu.loads task hm).1] at hk
      cases hk
    · refine ⟨⟨_, mem_append_right _ (mem_singleton_self _), rfl⟩, ?_⟩
      rw [hu.node, hu.unit]
      exact hunit
    · rw [(hu.store task hm).1] at hk
      cases hk
  · refine pairwise_append.mpr ⟨h.sorted, pairwise_singleton _ _, fun p hp q hq => ?_⟩
    rw [mem_singleton.mp hq]
    exact Nat.lt_of_lt_of_le (h.lt hp) (Nat.le_add_right _ _)

theorem expandNode_some {n : TileNode} {nid : Nat}
    (h : expandNode costs m g cons cfg st (n, nid) = some st') :
    (isCompute (some n) = false ∧ st' = st) ∨
      ∃ info domain, info.nid = nid ∧ isCompute (some n) = true ∧
        cons.placement nid = some info.unit ∧ cons.domains nid = some domain ∧
        cons.opIo nid = some info.desc ∧ (workUnits cfg domain).foldlM (fun st wu =>
          (unitTasks costs m g cfg info (cfg.perOp domain.coords.length) wu).map
            (pushUnit st nid wu)) st = some st' := by
  cases n with
  | dmaIn tensor resident =>
    cases h
    exact Or.inl ⟨rfl, rfl⟩
  | dmaOut tensor resident =>
    cases h
    exact Or.inl ⟨rfl, rfl⟩
  | compute op tile passes sramPages inlineIn inlineOut =>
    right
    obtain ⟨desc, hdesc, h⟩ := bind_eq_some_iff.mp h
    obtain ⟨unit, hunit, h⟩ := bind_eq_some_iff.mp h
    obtain ⟨domain, hdomain, h⟩ := bind_eq_some_iff.mp h
    exact ⟨⟨nid, op, unit, tile, passes, sramPages, desc, inlineIn, inlineOut⟩, domain, rfl, rfl,
      hunit, hdomain, hdesc, h⟩

theorem PlacedOk.expandNode {e : TileNode × Nat} (h : PlacedOk cons st)
    (he : expandNode costs m g cons cfg st e = some st') : PlacedOk cons st' := by
  rcases expandNode_some he with ⟨-, rfl⟩ | ⟨info, domain, hnid, -, hunit, -, -, hfold⟩
  · exact h
  · refine foldlM_ind (P := fun _ st => PlacedOk cons st) hfold h fun done wu s s' _ hs hstep => ?_
    obtain ⟨u, hu, rfl⟩ := map_eq_some_iff.mp hstep
    rw [← hnid] at hunit ⊢
    exact hs.pushUnit (unitTasks_some hu) hunit

/-! ### The hand-offs -/

/-- The tasks and the edges that a hand-off adds. -/
structure Grows (st st' : ExpandState) : Prop where
  placed : st'.placed = st.placed
  tasks : ∃ more : List Task, st'.tg.tasks = st.tg.tasks ++ more ∧ ∀ t ∈ more, t.kind = .dmaIn
  edges : ∃ more, st'.tg.edges = st.tg.edges ++ more

theorem Grows.refl (st : ExpandState) : Grows st st :=
  ⟨rfl, ⟨[], (append_nil _).symm, fun _ h => nomatch h⟩, ⟨[], (append_nil _).symm⟩⟩

theorem Grows.trans (h : Grows st st') (h' : Grows st' st'') : Grows st st'' := by
  obtain ⟨more, h1, h2⟩ := h.tasks
  obtain ⟨more', h1', h2'⟩ := h'.tasks
  obtain ⟨es, he⟩ := h.edges
  obtain ⟨es', he'⟩ := h'.edges
  refine ⟨h'.placed.trans h.placed, ⟨more ++ more', ?_, fun t ht => ?_⟩, ⟨es ++ es', ?_⟩⟩
  · rw [h1', h1, append_assoc]
  · rcases mem_append.mp ht with ht | ht
    · exact h2 t ht
    · exact h2' t ht
  · rw [he', he, append_assoc]

def ExpandState.init (m : Machine) : ExpandState :=
  ⟨⟨[], [], m.units.map (·.pagesPerSm), m.units.map (·.tmemColsPerSm)⟩, []⟩

end Plow.Schedule
