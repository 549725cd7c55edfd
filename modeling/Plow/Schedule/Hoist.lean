import Plow.Schedule.Weave

/-!
# What hoisting keeps

`hoistPrefetches` keeps a schedule executable exactly where no DMA-ins block each other
(`hoist_sound_iff`).  A DMA-in blocks a task when it is put ahead of a task of its stream that the other
task waits for, by data edges and by the orders that stay.  Such a way leads through other streams: in
its own stream a DMA-in stays behind whatever it depends on.  Two DMA-ins of two streams that each
wait for a task which the other one is put ahead of are hoisted to a deadlock
(`hoist_deadlocks`).
-/

namespace Plow.Schedule
open Plow.Lib Relation List

/-- `a` is issued before `b`: by a data edge, or by the order of a stream -/
def Next (tg : TaskGraph) (s : Sched) (a b : Nat) : Prop :=
  Edge tg a b ∨ ∃ e ∈ s.streams, InOrder (streamTasks e.2) a b

/-- `b` is the next task of the stream -/
def Neighbour (l : List Nat) (a b : Nat) : Prop := ∃ j, l[j]? = some a ∧ l[j + 1]? = some b

/-- A schedule that can be executed, with each task in one stream. -/
structure Given (tg : TaskGraph) (s : Sched) : Prop where
  edges : tg.inRange
  streamKeys : (s.streams.map (·.1)).Nodup
  packetKeys : (s.packets.map (·.1)).Nodup
  tasks : (s.streams.flatMap fun e => streamTasks e.2).Perm (List.range tg.tasks.length)
  packets : ∀ r, ((entryAt s.packets r).getD []).map (·.task) = streamTasks ((entryAt s.streams r).getD [])
  executable : NoCircle (Next tg s)

def Agree (s : Sched) : Prop :=
  ∀ r, ((entryAt s.packets r).getD []).map (fun p => (p.task, p.start)) = (entryAt s.streams r).getD [] ∧
    ∀ x ∈ (entryAt s.streams r).getD [], s.starts[x.1]? = some x.2

/-- What hoisting promises. -/
structure Sound (tg : TaskGraph) (s out : Sched) : Prop where
  streams : ∀ r, (streamTasks ((entryAt out.streams r).getD [])).Perm
    (streamTasks ((entryAt s.streams r).getD []))
  executable : NoCircle (Next tg out)
  starts : ∀ a b, Edge tg a b ∨ (∃ e ∈ out.streams, Neighbour (streamTasks e.2) a b) →
    cycleAdd (out.starts.getD a 0) (tg.dur a) ≤ out.starts.getD b 0
  agree : Agree out
  packets : ∀ r, (((entryAt out.packets r).getD []).map fun p => { p with start := 0 }).Perm
    (((entryAt s.packets r).getD []).map fun p => { p with start := 0 })
  counters : out.counters = s.counters
  placement : out.placement = s.placement

/-- `b` waits for `a`: by a data edge, or by an order that stays -/
def Stays (tg : TaskGraph) (s : Sched) (a b : Nat) : Prop :=
  Edge tg a b ∨ ∃ e ∈ s.streams, Kept tg (streamTasks e.2) a b

def Ahead (tg : TaskGraph) (s : Sched) (d y : Nat) : Prop :=
  ∃ e ∈ s.streams, PutAhead tg (streamTasks e.2) d y

/-- The DMA-in `d` is put ahead of a task that `b` waits for. -/
def Blocks (tg : TaskGraph) (s : Sched) : Nat → Nat → Prop := Crosses (Stays tg s) (Ahead tg s)

variable {tg : TaskGraph} {s out : Sched} {a b t : Nat} {r : ResourceId} {done : List ResourceId}
  {l : List Nat} {e : ResourceId × List (Nat × Nat)}
  {streams es : List (ResourceId × List (Nat × Nat))} {ps : List Packet} {P : List Nat → Prop}

/-! ### The resources, one after the other -/

theorem packetOf_some (h : t ∈ ps.map (·.task)) :
    ∃ p ∈ ps, packetOf ps t = some p ∧ p.task = t := by
  obtain ⟨p, hp, rfl⟩ := mem_map.mp h
  have hfound : (ps.reverse.find? fun q => decide (q.task = p.task)).isSome :=
    find?_isSome.mpr ⟨p, mem_reverse.mpr hp, decide_eq_true rfl⟩
  obtain ⟨q, hq⟩ := Option.isSome_iff_exists.mp hfound
  exact ⟨q, mem_reverse.mp (mem_of_find?_eq_some hq), hq, by simpa using find?_some hq⟩

theorem packets_mapM {order : List Nat} (h : ∀ t ∈ order, t ∈ ps.map (·.task)) :
    ∃ qs, order.mapM (packetOf ps) = some qs ∧ qs.map (·.task) = order ∧ ∀ q ∈ qs, q ∈ ps := by
  induction order with
  | nil => exact ⟨[], rfl, rfl, nofun⟩
  | cons t order ih =>
    obtain ⟨p, hp, hpt, rfl⟩ := packetOf_some (h t mem_cons_self)
    obtain ⟨qs, hqs, hmap, hmem⟩ := ih fun t ht => h t (mem_cons_of_mem _ ht)
    refine ⟨p :: qs, ?_, by rw [map_cons, hmap], forall_mem_cons.mpr ⟨hp, hmem⟩⟩
    rw [mapM_cons, hpt, hqs]
    rfl

theorem packets_perm {order : List Nat} (hnd : order.Nodup) (h : order.Perm (ps.map (·.task))) :
    ∃ qs, order.mapM (packetOf ps) = some qs ∧ qs.map (·.task) = order ∧ qs.Perm ps := by
  obtain ⟨qs, hqs, hmap, hmem⟩ := packets_mapM fun t ht => h.mem_iff.mp ht
  refine ⟨qs, hqs, hmap, ?_⟩
  have hqnd : qs.Nodup := Nodup.of_map (·.task) (hmap ▸ hnd)
  have hlen : ps.length ≤ qs.length := by
    rw [← length_map (f := fun p : Packet => p.task), ← h.length_eq, ← hmap, length_map]
  exact (subperm_of_subset hqnd hmem).perm_of_length_le hlen

/-- the schedule with the streams of some resources woven again -/
structure Half (tg : TaskGraph) (s : Sched) (done : List ResourceId) (out : Sched) : Prop where
  streams : out.streams.map (fun e => (e.1, streamTasks e.2)) =
    s.streams.map fun e => (e.1, if e.1 ∈ done then reorder tg (streamTasks e.2) else streamTasks e.2)
  tasks : ∀ r, ((entryAt out.packets r).getD []).map (·.task) = streamTasks ((entryAt out.streams r).getD [])
  packets : ∀ r, ((entryAt out.packets r).getD []).Perm ((entryAt s.packets r).getD [])
  starts : out.starts = s.starts
  counters : out.counters = s.counters
  placement : out.placement = s.placement

theorem Half.entry (h : Half tg s done out) (r : ResourceId) : (entryAt out.streams r).map streamTasks =
    (entryAt s.streams r).map fun l => if r ∈ done then reorder tg (streamTasks l) else streamTasks l := by
  have hout := entryAt_map (l := out.streams) (r := r) (f := fun _ v => streamTasks v)
  have hin := entryAt_map (l := s.streams) (r := r)
    (f := fun r v => if r ∈ done then reorder tg (streamTasks v) else streamTasks v)
  rw [← hout, h.streams, hin]

section

variable (h : Given tg s)
include h

theorem Given.nodup (he : e ∈ s.streams) : (streamTasks e.2).Nodup := by
  have hall : (s.streams.flatMap fun e => streamTasks e.2).Nodup := h.tasks.nodup_iff.mpr nodup_range
  exact (nodup_flatMap.mp hall).1 e he

theorem Given.order (he : e ∈ s.streams) :
    NoCircle fun a b => Edge tg a b ∨ InOrder (streamTasks e.2) a b :=
  h.executable.mono fun _ _ hab => .single (hab.imp id fun hb => ⟨e, he, hb⟩)

theorem Given.acyclic : NoCircle (Edge tg) := h.executable.mono fun _ _ hab => .single (.inl hab)

/-- One more resource is woven. -/
theorem hoistResource_half (hh : Half tg s done out) (he : e ∈ s.streams) :
    ∃ out', hoistResource tg out e = some out' ∧ Half tg s (e.1 :: done) out' := by
  unfold hoistResource
  have hent : (entryAt out.streams e.1).map streamTasks =
      some (if e.1 ∈ done then reorder tg (streamTasks e.2) else streamTasks e.2) := by
    rw [hh.entry, entryAt_of_mem h.streamKeys he, Option.map_some]
  split
  · -- nothing is hoisted: the new order is the old one
    next hno =>
    have hsame := reorder_eq (h.nodup he) (h.order he) hno
    refine ⟨out, rfl, { hh with streams := ?_ }⟩
    rw [hh.streams]
    refine map_congr_left fun f hf => ?_
    by_cases hfe : f.1 = e.1
    · have : f = e := inj_on_of_nodup_map h.streamKeys hf he hfe
      subst this
      rw [hsame, ite_self, ite_self]
    · simp only [mem_cons, hfe, false_or]
  · obtain ⟨v, hv, hvt⟩ := Option.map_eq_some_iff.mp hent
    have hperm : (reorder tg (streamTasks e.2)).Perm (((entryAt out.packets e.1).getD []).map (·.task)) := by
      rw [hh.tasks, hv, Option.getD_some, hvt]
      split
      · exact .refl _
      · exact reorder_perm
    obtain ⟨qs, hqs, hmap, hqp⟩ := packets_perm (reorder_perm.nodup_iff.mpr (h.nodup he)) hperm
    unfold rebuildResource
    rw [hqs]
    have hst : streamTasks (qs.map fun p => (p.task, p.start)) = reorder tg (streamTasks e.2) := by
      rw [← hmap]
      exact map_map
    have hput := entryAt_put (l := out.packets) (r := e.1) (v := qs)
    have hnew : ∀ r, entryAt (out.streams.map fun f =>
        (f.1, if f.1 = e.1 then qs.map fun p => (p.task, p.start) else f.2)) r =
        (entryAt out.streams r).map fun v => if r = e.1 then qs.map fun p => (p.task, p.start) else v :=
      fun r => entryAt_map (f := fun r v => if r = e.1 then qs.map fun p => (p.task, p.start) else v)
    refine ⟨_, rfl, ⟨?_, fun r => ?_, fun r => ?_, hh.starts, hh.counters, hh.placement⟩⟩
    · have hswap : ∀ f : ResourceId × List (Nat × Nat),
          (f.1, streamTasks (if f.1 = e.1 then qs.map fun p => (p.task, p.start) else f.2)) =
          (f.1, if f.1 = e.1 then reorder tg (streamTasks e.2) else streamTasks f.2) := by
        intro f
        split
        · rw [hst]
        · rfl
      have hmid : out.streams.map (fun f =>
            (f.1, if f.1 = e.1 then reorder tg (streamTasks e.2) else streamTasks f.2)) =
          (out.streams.map fun f => (f.1, streamTasks f.2)).map fun f =>
            (f.1, if f.1 = e.1 then reorder tg (streamTasks e.2) else f.2) := by
        rw [List.map_map]
        rfl
      rw [List.map_map]
      refine (map_congr_left fun f _ => hswap f).trans (hmid.trans ?_)
      rw [hh.streams, List.map_map]
      refine map_congr_left fun f hf => ?_
      by_cases hfe : f.1 = e.1
      · have : f = e := inj_on_of_nodup_map h.streamKeys hf he hfe
        subst this
        simp only [Function.comp, if_true, mem_cons_self]
      · simp only [Function.comp, hfe, if_false, mem_cons, false_or]
    · dsimp only
      rw [hput, hnew]
      by_cases hr : r = e.1
      · rw [if_pos hr, hr, hv, Option.map_some, Option.getD_some, Option.getD_some, if_pos rfl, hst, hmap]
      · rw [if_neg hr, hh.tasks]
        simp only [hr, if_false, Option.map_id']
    · dsimp only
      rw [hput]
      by_cases hr : r = e.1
      · rw [if_pos hr, Option.getD_some, hr]
        exact hqp.trans (hh.packets e.1)
      · rw [if_neg hr]
        exact hh.packets r

theorem hoist_loop (hh : Half tg s done out)
    (hes : ∀ e ∈ es, e ∈ s.streams) : ∃ out' done', es.foldlM (hoistResource tg) out = some out' ∧
      Half tg s done' out' ∧ (∀ r ∈ done, r ∈ done') ∧ ∀ e ∈ es, e.1 ∈ done' := by
  induction es generalizing out done with
  | nil => exact ⟨out, done, rfl, hh, fun r hr => hr, nofun⟩
  | cons e es ih =>
    obtain ⟨hmem, hes⟩ := forall_mem_cons.mp hes
    obtain ⟨mid, hmid, hh⟩ := hoistResource_half h hh hmem
    obtain ⟨out', done', hout, hh', hsub, hall⟩ := ih hh hes
    refine ⟨out', done', ?_, hh', fun r hr => hsub r (mem_cons_of_mem _ hr),
      forall_mem_cons.mpr ⟨hsub e.1 mem_cons_self, hall⟩⟩
    rw [foldlM_cons, hmid]
    exact hout

/-- every stream is in its new order -/
structure Woven (tg : TaskGraph) (s out : Sched) : Prop where
  streams : out.streams.map (fun e => (e.1, streamTasks e.2)) =
    s.streams.map fun e => (e.1, reorder tg (streamTasks e.2))
  tasks : ∀ r, ((entryAt out.packets r).getD []).map (·.task) = streamTasks ((entryAt out.streams r).getD [])
  packets : ∀ r, ((entryAt out.packets r).getD []).Perm ((entryAt s.packets r).getD [])
  starts : out.starts = s.starts
  counters : out.counters = s.counters
  placement : out.placement = s.placement

theorem hoist_woven :
    ∃ out, s.streams.foldlM (hoistResource tg) s = some out ∧ Woven tg s out := by
  have h0 : Half tg s [] s := by
    refine ⟨?_, h.packets, fun r => .refl _, rfl, rfl, rfl⟩
    simp only [not_mem_nil, if_false]
  obtain ⟨out, done, hout, hh, -, hall⟩ := hoist_loop h h0 fun e he => he
  refine ⟨out, hout, { hh with streams := ?_ }⟩
  rw [hh.streams]
  exact map_congr_left fun e he => by rw [if_pos (hall e he)]

end

theorem Woven.orders (h : Woven tg s out) :
    (∃ e ∈ out.streams, P (streamTasks e.2)) ↔ ∃ e ∈ s.streams, P (reorder tg (streamTasks e.2)) := by
  have heq : (out.streams.map fun e => (e.1, streamTasks e.2)).map (·.2) =
      (s.streams.map fun e => (e.1, reorder tg (streamTasks e.2))).map (·.2) := by rw [h.streams]
  rw [List.map_map, List.map_map] at heq
  constructor
  · rintro ⟨e, he, hP⟩
    have hmem : streamTasks e.2 ∈ out.streams.map ((·.2) ∘ fun e => (e.1, streamTasks e.2)) :=
      mem_map.mpr ⟨e, he, rfl⟩
    rw [heq] at hmem
    obtain ⟨f, hf, hfe⟩ := mem_map.mp hmem
    exact ⟨f, hf, by rw [show reorder tg (streamTasks f.2) = streamTasks e.2 from hfe]; exact hP⟩
  · rintro ⟨e, he, hP⟩
    have hmem : reorder tg (streamTasks e.2) ∈
        s.streams.map ((·.2) ∘ fun e => (e.1, reorder tg (streamTasks e.2))) := mem_map.mpr ⟨e, he, rfl⟩
    rw [← heq] at hmem
    obtain ⟨f, hf, hfe⟩ := mem_map.mp hmem
    exact ⟨f, hf, by rw [show streamTasks f.2 = reorder tg (streamTasks e.2) from hfe]; exact hP⟩

/-! ### Where the new orders make no circle -/

/-- The new streams are executable exactly where no DMA-ins block each other. -/
theorem Woven.executable_iff (h : Given tg s) (hw : Woven tg s out) :
    NoCircle (Next tg out) ↔ NoCircle (Blocks tg s) := by
  have hg := h.acyclic
  have hstays : NoCircle (Stays tg s) := h.executable.mono fun a b hab =>
    .single (hab.imp id fun ⟨e, he, hk⟩ => ⟨e, he, hk.1⟩)
  unfold Blocks
  rw [← noCircle_or_iff hstays]
  constructor
  · intro hn
    refine hn.mono fun a b hab => .single ?_
    rcases hab with (hab | ⟨e, he, hk⟩) | ⟨e, he, hp⟩
    · exact .inl hab
    · exact .inr (hw.orders.mpr ⟨e, he, (before_reorder (h.nodup he) hk.1.mem.1 hk.1.mem.2).mpr
        (hk.earlier (h.nodup he) hg)⟩)
    · exact .inr (hw.orders.mpr ⟨e, he, (before_reorder (h.nodup he) hp.1.1 hp.2.1.1).mpr
        (hp.earlier (h.nodup he) hg)⟩)
  · intro hn
    refine hn.mono fun a b hab => ?_
    rcases hab with hab | hab
    · exact .single (.inl (.inl hab))
    · obtain ⟨e, he, hb⟩ := hw.orders.mp hab
      have hmem : a ∈ reorder tg (streamTasks e.2) ∧ b ∈ reorder tg (streamTasks e.2) := InOrder.mem hb
      have ha := reorder_perm.mem_iff.mp hmem.1
      have hb' := reorder_perm.mem_iff.mp hmem.2
      exact ((before_reorder (h.nodup he) ha hb').mp hb).reach (fun _ _ h => .inl (.inl h))
        (fun _ _ h => .inl (.inr ⟨e, he, h⟩)) (fun _ _ h => .inr ⟨e, he, h⟩) (h.nodup he) hg ha hb'

/-! ### The starts -/

theorem mem_zip_prev : (b, some a) ∈ l.zip (none :: l.map some) ↔ Neighbour l a b := by
  rw [mem_iff_getElem?]
  unfold Neighbour
  constructor
  · rintro ⟨j, hj⟩
    obtain ⟨hb, ha⟩ := getElem?_zip_eq_some.mp hj
    cases j with
    | zero => cases ha
    | succ j =>
      rw [getElem?_cons_succ, getElem?_map] at ha
      obtain ⟨x, hx, hxa⟩ := Option.map_eq_some_iff.mp ha
      exact ⟨j, by rw [hx, Option.some.inj hxa], hb⟩
  · rintro ⟨j, ha, hb⟩
    refine ⟨j + 1, getElem?_zip_eq_some.mpr ⟨hb, ?_⟩⟩
    rw [getElem?_cons_succ, getElem?_map, ha, Option.map_some]

theorem zip_prev_keys : (l.zip (none :: l.map some)).map (·.1) = l := by
  apply map_fst_zip
  rw [length_cons, length_map]
  exact Nat.le_succ _

theorem Neighbour.before (h : Neighbour l a b) : InOrder l a b := by
  obtain ⟨j, ha, hb⟩ := h
  exact before_of_lt ha hb (Nat.lt_succ_self j)

theorem prevOnStream_some
    (h : prevOnStream streams b = some a) : ∃ e ∈ streams, Neighbour (streamTasks e.2) a b := by
  obtain ⟨p, hp, ha⟩ := Option.bind_eq_some_iff.mp h
  have hb : p.1 = b := by simpa using find?_some hp
  obtain ⟨e, he, hmem⟩ := mem_flatMap.mp (mem_reverse.mp (mem_of_find?_eq_some hp))
  exact ⟨e, he, mem_zip_prev.mp (by rw [← hb, ← ha]; exact hmem)⟩

theorem prevOnStream_eq (hnd : (streams.flatMap fun e => streamTasks e.2).Nodup)
    (he : e ∈ streams) (h : Neighbour (streamTasks e.2) a b) : prevOnStream streams b = some a := by
  have hmem : (b, some a) ∈ streams.flatMap fun e =>
      (streamTasks e.2).zip (none :: (streamTasks e.2).map some) :=
    mem_flatMap.mpr ⟨e, he, mem_zip_prev.mpr h⟩
  have hkeys : ((streams.flatMap fun e =>
      (streamTasks e.2).zip (none :: (streamTasks e.2).map some)).map (·.1)).Nodup := by
    rw [map_flatMap]
    simp only [zip_prev_keys]
    exact hnd
  have hfound : ((streams.flatMap fun e => (streamTasks e.2).zip
      (none :: (streamTasks e.2).map some)).reverse.find? fun p => decide (p.1 = b)).isSome :=
    find?_isSome.mpr ⟨(b, some a), mem_reverse.mpr hmem, decide_eq_true rfl⟩
  obtain ⟨p, hp⟩ := Option.isSome_iff_exists.mp hfound
  have hb : p.1 = b := by simpa using find?_some hp
  have hpe : p = (b, some a) :=
    inj_on_of_nodup_map hkeys (mem_reverse.mp (mem_of_find?_eq_some hp)) hmem hb
  unfold prevOnStream
  rw [hp, hpe]
  rfl

/-- the tasks that `earliest` reads -/
def waitsFor (tg : TaskGraph) (s : Sched) (t : Nat) : List Nat :=
  tg.preds t ++ (prevOnStream s.streams t).toList

theorem mem_waitsFor (h : a ∈ waitsFor tg s b) : Next tg s a b := by
  rcases mem_append.mp h with h | h
  · exact .inl (mem_preds.mp h)
  · obtain ⟨e, he, hn⟩ := prevOnStream_some (Option.mem_toList.mp h)
    exact .inr ⟨e, he, hn.before⟩

theorem inRange_iff : tg.inRange = true ↔ ∀ a b, Edge tg a b → a < tg.tasks.length ∧ b < tg.tasks.length := by
  unfold TaskGraph.inRange
  rw [all_eq_true]
  constructor
  · intro h a b hab
    have := Bool.and_eq_true_iff.mp (h (a, b) hab)
    exact ⟨of_decide_eq_true this.1, of_decide_eq_true this.2⟩
  · rintro h ⟨a, b⟩ hab
    obtain ⟨ha, hb⟩ := h a b hab
    exact Bool.and_eq_true_iff.mpr ⟨decide_eq_true ha, decide_eq_true hb⟩

/-- each task is in one stream, and the edges join tasks -/
structure Tiled (tg : TaskGraph) (s : Sched) : Prop where
  edges : tg.inRange
  tasks : (s.streams.flatMap fun e => streamTasks e.2).Perm (List.range tg.tasks.length)

theorem Tiled.lt (h : Tiled tg s) (hab : Next tg s a b) : a < tg.tasks.length ∧ b < tg.tasks.length := by
  rcases hab with hab | ⟨e, he, hb⟩
  · exact inRange_iff.mp h.edges a b hab
  · have hmem : ∀ x ∈ streamTasks e.2, x < tg.tasks.length := fun x hx =>
      mem_range.mp (h.tasks.mem_iff.mp (mem_flatMap.mpr ⟨e, he, hx⟩))
    have hboth : a ∈ streamTasks e.2 ∧ b ∈ streamTasks e.2 := InOrder.mem hb
    exact ⟨hmem a hboth.1, hmem b hboth.2⟩

theorem executable_of_starts (ht : Tiled tg s) (hdur : ∀ t < tg.tasks.length, 0 < tg.dur t)
    (h : ∀ a b, Next tg s a b → s.starts.getD a 0 + tg.dur a ≤ s.starts.getD b 0) : NoCircle (Next tg s) := by
  have hstep : ∀ a b, Next tg s a b → s.starts.getD a 0 < s.starts.getD b 0 := by
    intro a b hab
    have hle := h a b hab
    have hpos := hdur a (ht.lt hab).1
    omega
  have hlt : ∀ a b, TransGen (Next tg s) a b → s.starts.getD a 0 < s.starts.getD b 0 := by
    intro a b hab
    induction hab with
    | single hab => exact hstep _ _ hab
    | tail _ hbc ih => exact ih.trans (hstep _ _ hbc)
  exact fun x hx => lt_irrefl _ (hlt x x hx)

theorem earliest_ranked (ht : Tiled tg s) (hx : NoCircle (Next tg s)) :
    Ranked (earliest tg s.streams) (countBefore (Next tg s) (range tg.tasks.length)) where
  reads V V' t hlt _ := by
    have hmap : ((waitsFor tg s t).map fun p => cycleAdd (V p) (tg.dur p)) =
        (waitsFor tg s t).map fun p => cycleAdd (V' p) (tg.dur p) := by
      refine map_congr_left fun p hp => ?_
      have hn := mem_waitsFor hp
      rw [hlt p (countBefore_lt hx (mem_range.mpr (ht.lt hn).1) hn)]
    exact congrArg (·.foldl max 0) hmap
  again V t := by
    have hmap : ((waitsFor tg s t).map fun p =>
        cycleAdd (Function.update V t (earliest tg s.streams V t) p) (tg.dur p)) =
        (waitsFor tg s t).map fun p => cycleAdd (V p) (tg.dur p) := by
      refine map_congr_left fun p hp => ?_
      rw [Function.update_of_ne]
      rintro rfl
      exact hx.irrefl (mem_waitsFor hp)
    exact congrArg (·.foldl max 0) hmap

def newStarts (tg : TaskGraph) (s : Sched) : Nat → Nat :=
  settle (earliest tg s.streams) (List.range tg.tasks.length) (tg.tasks.length + 1) fun t => s.starts.getD t 0

theorem newStarts_fit (ht : Tiled tg s) (hx : NoCircle (Next tg s)) (hb : b < tg.tasks.length) :
    earliest tg s.streams (newStarts tg s) b = newStarts tg s b := by
  refine settle_fits (earliest_ranked ht hx) (fun t hmem => ?_) (mem_range.mpr hb)
  have := countBefore_lt_length hx hmem
  rw [length_range] at this
  omega

theorem newStarts_le (ht : Tiled tg s) (hx : NoCircle (Next tg s)) (hab : Edge tg a b ∨
    ∃ e ∈ s.streams, Neighbour (streamTasks e.2) a b) :
    cycleAdd (newStarts tg s a) (tg.dur a) ≤ newStarts tg s b := by
  have hnext : Next tg s a b := hab.imp id fun ⟨e, he, hn⟩ => ⟨e, he, hn.before⟩
  have hnd : (s.streams.flatMap fun e => streamTasks e.2).Nodup := ht.tasks.nodup_iff.mpr nodup_range
  have hmem : a ∈ waitsFor tg s b := by
    rcases hab with hab | ⟨e, he, hn⟩
    · exact mem_append_left _ (mem_preds.mpr hab)
    · exact mem_append_right _ (Option.mem_toList.mpr (prevOnStream_eq hnd he hn))
  rw [← newStarts_fit ht hx (ht.lt hnext).2]
  exact le_foldl_max (mem_map_of_mem (f := fun p => cycleAdd (newStarts tg s p) (tg.dur p)) hmem)

/-! ### The whole pass -/

theorem recompute_orders :
    (∃ e ∈ (recomputeStarts tg s).streams, P (streamTasks e.2)) ↔ ∃ e ∈ s.streams, P (streamTasks e.2) := by
  have hsame : ∀ l : List (Nat × Nat), streamTasks (l.map fun x => (x.1, newStarts tg s x.1)) = streamTasks l :=
    fun l => map_map
  constructor
  · rintro ⟨_, hmem, hP⟩
    obtain ⟨e, he, rfl⟩ := mem_map.mp hmem
    exact ⟨e, he, by rw [← hsame e.2]; exact hP⟩
  · rintro ⟨e, he, hP⟩
    exact ⟨_, mem_map_of_mem he, by rw [← hsame e.2] at hP; exact hP⟩

theorem recompute_next : Next tg (recomputeStarts tg s) a b ↔ Next tg s a b :=
  or_congr_right (recompute_orders (P := fun l => InOrder l a b))

theorem recompute_starts (ht : a < tg.tasks.length) :
    (recomputeStarts tg s).starts[a]? = some (newStarts tg s a) := by
  unfold recomputeStarts
  dsimp only
  rw [getElem?_map, getElem?_range (ht.trans_le (le_max_left _ _)), Option.map_some]
  rfl

theorem recompute_stream (r : ResourceId) : (entryAt (recomputeStarts tg s).streams r).getD [] =
    ((entryAt s.streams r).getD []).map fun x => (x.1, newStarts tg s x.1) := by
  have hrun : (recomputeStarts tg s).streams =
      s.streams.map fun e => (e.1, e.2.map fun x => (x.1, newStarts tg s x.1)) := rfl
  have h := entryAt_map (l := s.streams) (r := r)
    (f := fun _ (v : List (Nat × Nat)) => v.map fun x => (x.1, newStarts tg s x.1))
  rw [hrun, h]
  cases entryAt s.streams r <;> rfl

theorem recompute_packet (r : ResourceId) : (entryAt (recomputeStarts tg s).packets r).getD [] =
    ((entryAt s.packets r).getD []).map fun p => { p with start := newStarts tg s p.task } := by
  have hrun : (recomputeStarts tg s).packets =
      s.packets.map fun e => (e.1, e.2.map fun p => { p with start := newStarts tg s p.task }) := rfl
  have h := entryAt_map (l := s.packets) (r := r)
    (f := fun _ (v : List Packet) => v.map fun p => { p with start := newStarts tg s p.task })
  rw [hrun, h]
  cases entryAt s.packets r <;> rfl

theorem recompute_agree (ht : Tiled tg s)
    (htasks : ∀ r, ((entryAt s.packets r).getD []).map (·.task) = streamTasks ((entryAt s.streams r).getD [])) :
    Agree (recomputeStarts tg s) := by
  intro r
  constructor
  · have hmap : ∀ ps : List Packet, ∀ l : List (Nat × Nat), ps.map (·.task) = streamTasks l →
        (ps.map fun p => { p with start := newStarts tg s p.task }).map (fun p => (p.task, p.start)) =
        l.map fun x => (x.1, newStarts tg s x.1) := by
      intro ps l h
      calc (ps.map fun p => { p with start := newStarts tg s p.task }).map (fun p => (p.task, p.start))
          = (ps.map (·.task)).map fun t => (t, newStarts tg s t) := by rw [List.map_map, List.map_map]; rfl
        _ = (streamTasks l).map fun t => (t, newStarts tg s t) := by rw [h]
        _ = l.map fun x => (x.1, newStarts tg s x.1) := map_map
    rw [recompute_stream, recompute_packet]
    exact hmap _ _ (htasks r)
  · intro x hx
    rw [recompute_stream] at hx
    obtain ⟨y, hy, rfl⟩ := mem_map.mp hx
    refine recompute_starts ?_
    cases hv : entryAt s.streams r with
    | none =>
      rw [hv] at hy
      cases hy
    | some v =>
      rw [hv] at hy
      have hmem : y.1 ∈ streamTasks v := mem_map_of_mem hy
      exact mem_range.mp (ht.tasks.mem_iff.mp (mem_flatMap.mpr ⟨(r, v), mem_of_entryAt hv, hmem⟩))

theorem Woven.tiled (h : Given tg s) (hw : Woven tg s out) : Tiled tg out := by
  refine ⟨h.edges, Perm.trans ?_ h.tasks⟩
  have heq : (out.streams.map fun e => (e.1, streamTasks e.2)).flatMap (·.2) =
      (s.streams.map fun e => (e.1, reorder tg (streamTasks e.2))).flatMap (·.2) := by rw [hw.streams]
  rw [flatMap_map, flatMap_map] at heq
  rw [heq]
  exact Perm.flatMap_left _ fun e _ => reorder_perm

theorem Woven.entry (hw : Woven tg s out) (r : ResourceId) :
    (entryAt out.streams r).map streamTasks = (entryAt s.streams r).map fun l => reorder tg (streamTasks l) := by
  have hout := entryAt_map (l := out.streams) (r := r) (f := fun _ v => streamTasks v)
  have hin := entryAt_map (l := s.streams) (r := r) (f := fun _ v => reorder tg (streamTasks v))
  rw [← hout, hw.streams, hin]

theorem recompute_sound (h : Given tg s) (hw : Woven tg s out) (hx : NoCircle (Next tg out)) :
    Sound tg s (recomputeStarts tg out) := by
  have ht := hw.tiled h
  refine ⟨fun r => ?_, hx.mono fun a b hab => .single (recompute_next.mp hab), fun a b hab => ?_,
    recompute_agree ht hw.tasks, fun r => ?_, hw.counters, hw.placement⟩
  · have htasks : streamTasks ((entryAt (recomputeStarts tg out).streams r).getD []) =
        streamTasks ((entryAt out.streams r).getD []) := by
      rw [recompute_stream]
      exact map_map
    have hent := hw.entry r
    rw [htasks]
    cases hv : entryAt s.streams r with
    | none =>
      rw [hv, Option.map_none] at hent
      rw [Option.map_eq_none_iff.mp hent]
    | some v =>
      rw [hv, Option.map_some] at hent
      obtain ⟨v', hv', heq⟩ := Option.map_eq_some_iff.mp hent
      rw [hv', Option.getD_some, Option.getD_some, heq]
      exact reorder_perm
  · have hab' : Edge tg a b ∨ ∃ e ∈ out.streams, Neighbour (streamTasks e.2) a b :=
      hab.imp id (recompute_orders (P := fun l => Neighbour l a b)).mp
    obtain ⟨ha, hb⟩ := ht.lt (hab'.imp id fun ⟨e, he, hn⟩ => ⟨e, he, hn.before⟩ : Next tg out a b)
    rw [getD_eq_getElem?_getD, getD_eq_getElem?_getD, recompute_starts ha, recompute_starts hb]
    exact newStarts_le ht hx hab'
  · rw [recompute_packet, List.map_map]
    exact (hw.packets r).map _

theorem Given.guard (h : Given tg s) : tg.inRange = true ∧ tasksInRange tg s = true := by
  have hlt : ∀ e ∈ s.streams, ∀ t ∈ streamTasks e.2, t < tg.tasks.length := fun e he t ht =>
    mem_range.mp (h.tasks.mem_iff.mp (mem_flatMap.mpr ⟨e, he, ht⟩))
  refine ⟨h.edges, Bool.and_eq_true_iff.mpr ⟨?_, ?_⟩⟩
  · exact all_eq_true.mpr fun e he => all_eq_true.mpr fun x hx =>
      decide_eq_true (hlt e he x.1 (mem_map_of_mem hx))
  · refine all_eq_true.mpr fun e he => all_eq_true.mpr fun p hp => decide_eq_true ?_
    have htask : p.task ∈ streamTasks ((entryAt s.streams e.1).getD []) := by
      rw [← h.packets, entryAt_of_mem h.packetKeys he]
      exact mem_map_of_mem hp
    cases hv : entryAt s.streams e.1 with
    | none =>
      rw [hv] at htask
      cases htask
    | some v =>
      rw [hv] at htask
      exact (hlt _ (mem_of_entryAt hv) _ htask).trans_le (le_max_left _ _)

/-- Hoisting keeps a schedule executable, and everything else of it, exactly where no DMA-ins block each
other in a circle. -/
theorem hoist_sound_iff (h : Given tg s) :
    (∃ out, hoistPrefetches tg s = some out ∧ Sound tg s out) ↔ NoCircle (Blocks tg s) := by
  obtain ⟨mid, hmid, hw⟩ := hoist_woven h
  have hrun : hoistPrefetches tg s = some (recomputeStarts tg mid) := by
    unfold hoistPrefetches
    rw [if_pos h.guard, hmid, Option.map_some]
  rw [← hw.executable_iff h]
  constructor
  · rintro ⟨out, hout, hs⟩
    rw [hrun] at hout
    cases hout
    exact hs.executable.mono fun a b hab => .single (recompute_next.mpr hab)
  · exact fun hx => ⟨_, hrun, recompute_sound h hw hx⟩

/-! ### Two schedules -/

instance : Decidable (InOrder l a b) := inferInstanceAs (Decidable (List.Sublist _ _))

instance : Decidable (Next tg s a b) := inferInstanceAs (Decidable (_ ∈ _ ∨ ∃ e ∈ s.streams, _))

theorem Given.of_starts (ht : Tiled tg s) (hstreams : (s.streams.map (·.1)).Nodup)
    (hpackets : (s.packets.map (·.1)).Nodup)
    (htasks : s.packets.map (fun e => (e.1, e.2.map (·.task))) = s.streams.map fun e => (e.1, streamTasks e.2))
    (hdur : ∀ t < tg.tasks.length, 0 < tg.dur t)
    (hstarts : ∀ a < tg.tasks.length, ∀ b < tg.tasks.length, Next tg s a b →
      s.starts.getD a 0 + tg.dur a ≤ s.starts.getD b 0) : Given tg s := by
  refine ⟨ht.edges, hstreams, hpackets, ht.tasks, fun r => ?_, executable_of_starts ht hdur fun a b hab =>
    hstarts a (ht.lt hab).1 b (ht.lt hab).2 hab⟩
  have hin := entryAt_map (l := s.packets) (r := r) (f := fun _ v => v.map (·.task))
  have hout := entryAt_map (l := s.streams) (r := r) (f := fun _ v => streamTasks v)
  rw [htasks, hout] at hin
  exact (Option.getD_map _ [] _).symm.trans ((congrArg (·.getD []) hin.symm).trans (Option.getD_map _ [] _))

def oneCycle (kind : TaskKind) : Task :=
  ⟨0, "", 0, kind, [], 1, 0, 0, 0, 0, 0, none, false⟩

/-- a DMA engine writes something back and then loads what the SM needs -/
def loadBehind : TaskGraph × Sched :=
  (⟨[oneCycle .dmaOut, oneCycle .dmaIn, oneCycle .compute], [(1, 2)], [], []⟩,
    { streams := [(.dma 0 0, [(0, 0), (1, 1)]), (.sm 0 0, [(2, 2)])]
      packets := [(.dma 0 0, [⟨0, "", .tmaOut, 0, [], []⟩, ⟨1, "", .tmaIn, 1, [], [0]⟩]),
        (.sm 0 0, [⟨2, "", .compute, 2, [0], []⟩])]
      counters := [⟨0, 1, .intraGpu, 0, 0⟩], placement := [(0, .dma 0 0), (1, .dma 0 0), (2, .sm 0 0)]
      starts := [0, 1, 2] })

theorem hoist_sound_loadBehind :
    ∃ out, hoistPrefetches loadBehind.1 loadBehind.2 = some out ∧ Sound loadBehind.1 loadBehind.2 out := by
  have hgiven : Given loadBehind.1 loadBehind.2 :=
    .of_starts ⟨rfl, by decide⟩ (by decide) (by decide) rfl (by decide) (by decide)
  refine (hoist_sound_iff hgiven).mpr ?_
  have hahead : ∀ d y, Ahead loadBehind.1 loadBehind.2 d y → d = 1 ∧ y = 0 := by
    rintro d y ⟨e, he, ⟨hd, hkd⟩, ⟨hy, hky⟩, -⟩
    have h : ∀ e ∈ loadBehind.2.streams, ∀ d ∈ streamTasks e.2, isDmaIn loadBehind.1 d = true →
        ∀ y ∈ streamTasks e.2, isDmaIn loadBehind.1 y = false → d = 1 ∧ y = 0 := by decide
    exact h e he d hd hkd y hy hky
  have hstays : ∀ b, ¬ Stays loadBehind.1 loadBehind.2 0 b := by
    rintro b (hab | ⟨e, he, hb, hk⟩)
    · exact (by decide : ∀ p ∈ loadBehind.1.edges, p.1 ≠ 0) _ hab rfl
    · have h : ∀ e ∈ loadBehind.2.streams, ∀ b ∈ streamTasks e.2, InOrder (streamTasks e.2) 0 b →
          isDmaIn loadBehind.1 b = true := by decide
      have hb1 := h e he b hb.mem.2 hb
      rcases hk with ⟨-, hk⟩ | ⟨hk, -⟩
      · rw [hb1] at hk
        cases hk
      · cases hk
  have hblocks : ∀ a b, TransGen (Blocks loadBehind.1 loadBehind.2) a b → a = 1 ∧ b = 0 := by
    have hone : ∀ a b, Blocks loadBehind.1 loadBehind.2 a b → a = 1 ∧ b = 0 := by
      rintro a b ⟨y, hy, hyb⟩
      obtain ⟨rfl, rfl⟩ := hahead a y hy
      rcases hyb.cases_head with rfl | ⟨c, hc, -⟩
      · exact ⟨rfl, rfl⟩
      · exact absurd hc (hstays c)
    intro a b h
    induction h with
    | single h => exact hone _ _ h
    | tail _ h ih => exact ⟨ih.1, (hone _ _ h).2⟩
  intro x hx
  obtain ⟨h1, h0⟩ := hblocks x x hx
  omega

/-- a spill and its reload, a tile, and the tile's spill and reload, by two DMA engines -/
def twoReloads : TaskGraph × Sched :=
  (⟨[oneCycle .dmaOut, oneCycle .dmaIn, oneCycle .compute, oneCycle .dmaOut, oneCycle .dmaIn],
      [(0, 1), (1, 2), (2, 3), (3, 4)], [], []⟩,
    { streams := [(.dma 0 0, [(0, 0), (4, 4)]), (.dma 0 1, [(1, 1), (3, 3)]), (.sm 0 0, [(2, 2)])]
      packets := [(.dma 0 0, [⟨0, "", .tmaOut, 0, [], [0]⟩, ⟨4, "", .tmaIn, 4, [3], []⟩]),
        (.dma 0 1, [⟨1, "", .tmaIn, 1, [0], [1]⟩, ⟨3, "", .tmaOut, 3, [2], [3]⟩]),
        (.sm 0 0, [⟨2, "", .compute, 2, [1], [2]⟩])]
      counters := (List.range 4).map fun i => ⟨i, 1, .intraGpu, 0, 0⟩
      placement := [(0, .dma 0 0), (1, .dma 0 1), (2, .sm 0 0), (3, .dma 0 1), (4, .dma 0 0)]
      starts := [0, 1, 2, 3, 4] })

/-- The last reload is put ahead of the first spill, which it waits for through the other engine. -/
theorem hoist_deadlocks : ¬ ∀ tg s, Given tg s →
    (∀ a b, Next tg s a b → s.starts.getD a 0 + tg.dur a ≤ s.starts.getD b 0) →
    ∃ out, hoistPrefetches tg s = some out ∧ Sound tg s out := by
  intro h
  have ht : Tiled twoReloads.1 twoReloads.2 := ⟨rfl, by decide⟩
  have hstarts : ∀ a < 5, ∀ b < 5, Next twoReloads.1 twoReloads.2 a b →
      twoReloads.2.starts.getD a 0 + twoReloads.1.dur a ≤ twoReloads.2.starts.getD b 0 := by decide
  have hgiven : Given twoReloads.1 twoReloads.2 :=
    .of_starts ht (by decide) (by decide) rfl (by decide) hstarts
  obtain ⟨out, hout, hs⟩ := h _ _ hgiven fun a b hab => hstarts a (ht.lt hab).1 b (ht.lt hab).2 hab
  have hrun : (hoistPrefetches twoReloads.1 twoReloads.2).map (fun o => o.streams.map fun e => streamTasks e.2) =
      some [[4, 0], [1, 3], [2]] := by decide
  rw [hout, Option.map_some] at hrun
  have hstreams := Option.some.inj hrun
  have hfront : Next twoReloads.1 out 4 0 := by
    have hmem : [4, 0] ∈ out.streams.map fun e => streamTasks e.2 := by
      rw [hstreams]
      exact mem_cons_self
    obtain ⟨e, he, heq⟩ := mem_map.mp hmem
    exact .inr ⟨e, he, by rw [heq]; exact .refl _⟩
  have hedge : ∀ i < 4, Next twoReloads.1 out i (i + 1) := fun i hi =>
    .inl ((by decide : ∀ i < 4, (i, i + 1) ∈ twoReloads.1.edges) i hi)
  refine hs.executable 4 (.tail (.tail (.tail (.tail (.single hfront) (hedge 0 ?_)) (hedge 1 ?_)) (hedge 2 ?_))
    (hedge 3 ?_)) <;> decide

end Plow.Schedule
