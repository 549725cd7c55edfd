import Plow.Lib.CounterOrder
import Plow.Splitk.Dependencies

/-!
# Executions

An execution of a list of stream entries starts each entry once, when every counter it waits on has
reached the threshold its wait names, and increments the counters in its successor list when it
finishes.  `QueueStep` is the machine whose workers take the entries of the global queue in order.

For an accepted program both are runs of the counter net of the list (`execution_iff`,
`QueueReachable.toNet`), which is coarse over `Waits` (`coarse`).
-/

namespace Plow.Splitk
open Plow.Lib List Relation

def waitsOf (g : Program) (e : StreamEnt) : List Wait := (range? g.waits e.waitOfs e.waitLen).getD []

def succsOf (g : Program) (e : StreamEnt) : List Nat := (range? g.succs e.succOfs e.succLen).getD []

abbrev ExecState := CounterNet.State Nat

inductive Step (g : Program) (es : List StreamEnt) : ExecState → ExecState → Prop where
  | start {s : ExecState} {i : Nat} {e : StreamEnt} (entry : es[i]? = some e)
      (idle : i ∉ s.started) (ready : ∀ w ∈ waitsOf g e, w.threshold ≤ s.val w.id) :
      Step g es s { s with started := insert i s.started }
  | finish {s : ExecState} {i : Nat} {e : StreamEnt} (entry : es[i]? = some e)
      (started : i ∈ s.started) (running : i ∉ s.done) :
      Step g es s { s with
        done := insert i s.done
        val := fun c => s.val c + (succsOf g e).count c }

/-- The states of an execution, newest first. -/
inductive Execution (g : Program) (es : List StreamEnt) : List ExecState → Prop where
  | init : Execution g es [CounterNet.init]
  | step {s s' : ExecState} {l : List ExecState} (h : Execution g es (s :: l))
      (hs : Step g es s s') : Execution g es (s' :: s :: l)

/-- workers that take the entries of the global queue in order -/
inductive QueueStep {n : Nat} (g : Program) :
    CounterNet.Queue Nat n → CounterNet.Queue Nat n → Prop where
  | take {q : CounterNet.Queue Nat n} (k : Fin n) (free : q.slot k = none)
      (left : q.next < g.gqStream.length) :
      QueueStep g q { q with next := q.next + 1, slot := Function.update q.slot k (some q.next) }
  | start {q : CounterNet.Queue Nat n} {i : Nat} {e : StreamEnt} (k : Fin n)
      (has : q.slot k = some i) (entry : g.gqStream[i]? = some e) (idle : i ∉ q.net.started)
      (ready : ∀ w ∈ waitsOf g e, w.threshold ≤ q.net.val w.id) :
      QueueStep g q { q with net := { q.net with started := insert i q.net.started } }
  | finish {q : CounterNet.Queue Nat n} {i : Nat} {e : StreamEnt} (k : Fin n)
      (has : q.slot k = some i) (entry : g.gqStream[i]? = some e) (started : i ∈ q.net.started)
      (running : i ∉ q.net.done) :
      QueueStep g q { q with
        slot := Function.update q.slot k none
        net := { q.net with
          done := insert i q.net.done
          val := fun c => q.net.val c + (succsOf g e).count c } }

def QueueReachable {n : Nat} (g : Program) : CounterNet.Queue Nat n → Prop :=
  Relation.ReflTransGen (QueueStep g) (CounterNet.Queue.start Nat n)

/-! ### The counter net of a list of entries -/

def instOf (es : List StreamEnt) (i : Nat) : Nat := (es[i]?.map (·.inst)).getD 0

def net (g : Program) (es : List StreamEnt) : CounterNet Nat where
  size := es.length
  wait i := ((es[i]?.map (waitsOf g)).getD []).map (·.id)
  succ i := (es[i]?.map (succsOf g)).getD []
  pred _ := none
  threshold c := (g.insts[c]?.map (·.blocks)).getD 0

/-- instruction `a` is complete before instruction `b` starts -/
def Precedes (g : Program) (es : List StreamEnt) (l : List ExecState) (a b : Nat) : Prop :=
  CounterNet.Before (net g es) (instOf es) l a b

variable {g : Program} {dep : List (List Nat)} {es : List StreamEnt} {s s' : ExecState}
  {l : List ExecState} {i a b : Nat} {e : StreamEnt} {n : Nat} {q q' : CounterNet.Queue Nat n}

theorem instOf_eq (h : es[i]? = some e) : instOf es i = e.inst := by
  unfold instOf
  rw [h]
  rfl

theorem net_wait (h : es[i]? = some e) : (net g es).wait i = (waitsOf g e).map (·.id) := by
  show ((es[i]?.map (waitsOf g)).getD []).map (·.id) = _
  rw [h]
  rfl

theorem net_succ (h : es[i]? = some e) : (net g es).succ i = succsOf g e := by
  show (es[i]?.map (succsOf g)).getD [] = _
  rw [h]
  rfl

section

variable (h : Gated g (dep.map some) es)
include h

theorem Gated.threshold (he : e ∈ es) :
    ∀ w ∈ waitsOf g e, (net g es).threshold w.id = w.threshold := by
  obtain ⟨ws, ids, hws, -, hok, -⟩ := (h.entry e he).waits
  intro w hw
  unfold waitsOf at hw
  rw [hws] at hw
  show (g.insts[w.id]?.map (·.blocks)).getD 0 = w.threshold
  rw [(hok w hw).2]
  rfl

theorem ready_iff (hi : es[i]? = some e) :
    (net g es).Ready s.done s.val i ↔ ∀ w ∈ waitsOf g e, w.threshold ≤ s.val w.id := by
  have hth := h.threshold (mem_of_getElem? hi)
  constructor
  · intro hr w hw
    rw [← hth w hw]
    exact hr.1 w.id (net_wait hi ▸ mem_map_of_mem hw)
  · intro hr
    refine ⟨fun c hc => ?_, fun p hp => nomatch hp⟩
    rw [net_wait hi] at hc
    obtain ⟨w, hw, rfl⟩ := mem_map.mp hc
    rw [hth w hw]
    exact hr w hw

theorem Step.toNet (hs : Step g es s s') : (net g es).Step s s' := by
  cases hs with
  | start entry idle ready =>
    have hlt := (List.getElem?_eq_some_iff.mp entry).1
    exact .start hlt idle ((ready_iff h entry).mpr ready)
  | finish entry started running =>
    rw [← net_succ entry]
    exact .finish started running

theorem Step.ofNet (hc : (net g es).Counts s)
    (hs : (net g es).Step s s') : Step g es s s' := by
  cases hs with
  | start lt idle ready =>
    have entry := getElem?_eq_getElem lt
    exact .start entry idle ((ready_iff h entry).mp ready)
  | finish started running =>
    have entry := getElem?_eq_getElem (hc.lt _ started)
    rw [net_succ entry]
    exact .finish entry started running

theorem execution_iff :
    Execution g es l ↔ (net g es).History l := by
  constructor
  · intro he
    induction he with
    | init => exact .init
    | step _ hs ih => exact ih.step (hs.toNet h)
  · intro he
    induction he with
    | init => exact .init
    | step he hs ih =>
      have hc := CounterNet.Reachable.counts (he.reachable _ mem_cons_self)
      exact ih.step (.ofNet h hc hs)

end

theorem QueueStep.toNet (h : Gated g (dep.map some) g.gqStream) (hs : QueueStep g q q') :
    CounterNet.Queue.Step (net g g.gqStream) q q' := by
  cases hs with
  | take k free left => exact .take k free left
  | start k has entry idle ready => exact .start k has idle ((ready_iff h entry).mpr ready)
  | finish k has entry started running =>
    rw [← net_succ entry]
    exact .finish k has started running

theorem QueueStep.ofNet (h : Gated g (dep.map some) g.gqStream)
    (hq : CounterNet.Queue.Held (net g g.gqStream) q)
    (hs : CounterNet.Queue.Step (net g g.gqStream) q q') : QueueStep g q q' := by
  have hlt : ∀ k i, q.slot k = some i → i < g.gqStream.length := fun k i has =>
    Nat.lt_of_lt_of_le (hq.slot_lt k i has).1 hq.next_le
  cases hs with
  | take k free left => exact .take k free left
  | start k has idle ready =>
    have entry := getElem?_eq_getElem (hlt k _ has)
    exact .start k has entry idle ((ready_iff h entry).mp ready)
  | finish k has started running =>
    have entry := getElem?_eq_getElem (hlt k _ has)
    rw [net_succ entry]
    exact .finish k has entry started running

theorem QueueReachable.toNet (h : Gated g (dep.map some) g.gqStream) (hq : QueueReachable g q) :
    CounterNet.Queue.Reachable (net g g.gqStream) q := by
  induction hq with
  | refl => exact .refl
  | tail _ hs ih => exact ih.tail (hs.toNet h)

/-! ### The net is coarse -/

theorem mem_keys {pc sl : Nat} : (pc, sl) ∈ es.map key ↔
    ∃ (i : Nat) (e : StreamEnt), es[i]? = some e ∧ e.inst = pc ∧ e.slice = sl := by
  rw [mem_map]
  constructor
  · rintro ⟨e, he, hk⟩
    obtain ⟨i, hi⟩ := mem_iff_getElem?.mp he
    exact ⟨i, e, hi, Prod.mk.inj hk⟩
  · rintro ⟨i, e, hi, rfl, rfl⟩
    exact ⟨e, mem_of_getElem? hi, rfl⟩

/-- every slice of an instruction has one entry -/
theorem Gated.card (h : Gated g (dep.map some) es) {pc : Nat} {d : DevInst64}
    (hd : g.insts[pc]? = some d) :
    ((Finset.range es.length).filter (instOf es · = pc)).card = d.blocks := by
  rw [← Finset.card_range d.blocks]
  have hget : ∀ i ∈ (Finset.range es.length).filter (instOf es · = pc),
      ∃ e, es[i]? = some e ∧ e.inst = pc := by
    intro i hi
    obtain ⟨hi, hpc⟩ := Finset.mem_filter.mp hi
    have hget := getElem?_eq_getElem (Finset.mem_range.mp hi)
    exact ⟨_, hget, instOf_eq hget ▸ hpc⟩
  apply Finset.card_nbij fun i => (es[i]?.map (·.slice)).getD 0
  · intro i hi
    obtain ⟨e, he, rfl⟩ := hget i hi
    obtain ⟨d', hd', hlt⟩ := (h.entry e (mem_of_getElem? he)).slice
    rw [hd] at hd'
    cases hd'
    show (es[i]?.map (·.slice)).getD 0 ∈ _
    rw [he]
    exact Finset.mem_range.mpr hlt
  · intro i hi j hj hij
    obtain ⟨e, he, hpc⟩ := hget i hi
    obtain ⟨e', he', hpc'⟩ := hget j hj
    have hs : e.slice = e'.slice := by
      have : (es[i]?.map (·.slice)).getD 0 = (es[j]?.map (·.slice)).getD 0 := hij
      rwa [he, he'] at this
    have hk : (es.map key)[i]? = (es.map key)[j]? := by
      rw [getElem?_map, getElem?_map, he, he']
      exact congrArg some (Prod.ext (hpc.trans hpc'.symm) hs)
    have hlt : i < (es.map key).length := by
      rw [length_map]
      exact (List.getElem?_eq_some_iff.mp he).1
    exact (getElem?_inj hlt h.nodup).mp hk
  · intro sl hsl
    obtain ⟨i, e, hi, hpc, hs⟩ := mem_keys.mp (h.covers pc d hd sl (Finset.mem_range.mp hsl))
    refine ⟨i, Finset.mem_coe.mpr (Finset.mem_filter.mpr ⟨?_, ?_⟩), ?_⟩
    · exact Finset.mem_range.mpr (List.getElem?_eq_some_iff.mp hi).1
    · rw [instOf_eq hi, hpc]
    · show (es[i]?.map (·.slice)).getD 0 = sl
      rw [hi]
      exact hs

section

variable (h : Accepted g dep)
include h

section

variable (hg : Gated g (dep.map some) es)
include hg

theorem Accepted.inhabited {pc : Nat}
    (hpc : pc < g.insts.length) : ∃ i < es.length, instOf es i = pc := by
  have hd := getElem?_eq_getElem hpc
  have hpos := h.pos _ (getElem_mem hpc)
  obtain ⟨i, e, hi, hpc', -⟩ := mem_keys.mp (hg.covers pc _ hd 0 hpos)
  exact ⟨i, (List.getElem?_eq_some_iff.mp hi).1, (instOf_eq hi).trans hpc'⟩

theorem coarse :
    CounterNet.Coarse (net g es) (instOf es) (Waits dep) where
  pred _ := rfl
  succ i hi := by
    have he := getElem?_eq_getElem hi
    rw [net_succ he, instOf_eq he]
    unfold succsOf
    rw [(hg.entry _ (getElem_mem hi)).succ]
    rfl
  wait i hi c := by
    have he := getElem?_eq_getElem hi
    obtain ⟨ws, ids, hws, hids, -, hmem⟩ := (hg.entry _ (getElem_mem hi)).waits
    rw [net_wait he, instOf_eq he]
    unfold waitsOf
    rw [hws]
    show c ∈ ws.map (·.id) ↔ _
    rw [← hmem c, getElem?_map] at *
    obtain ⟨ids', hids', heq⟩ := Option.map_eq_some_iff.mp hids
    cases heq
    constructor
    · exact fun hc => ⟨ids, hids', hc⟩
    · rintro ⟨ids'', hids'', hc⟩
      rw [hids'] at hids''
      cases hids''
      exact hc
  threshold i hi := by
    have he := getElem?_eq_getElem hi
    obtain ⟨d, hd, -⟩ := (hg.entry _ (getElem_mem hi)).slice
    show (g.insts[instOf es i]?.map (·.blocks)).getD 0 = _
    rw [instOf_eq he, hd]
    exact (hg.card hd).symm
  inhabited i hi c hc := by
    have he := getElem?_eq_getElem hi
    obtain ⟨d, hd, -⟩ := (hg.entry _ (getElem_mem hi)).slice
    refine h.inhabited hg ?_
    have := h.descends c _ hc
    rw [instOf_eq he] at this
    exact Nat.lt_trans this (List.getElem?_eq_some_iff.mp hd).1

theorem precedes (he : Execution g es l)
    (hab : TransGen (Waits dep) a b) : Precedes g es l a b :=
  (coarse h hg).before ((execution_iff hg).mp he) hab

theorem overlap (ha : a < g.insts.length)
    (hb : b < g.insts.length) (hne : a ≠ b) (hab : ¬ TransGen (Waits dep) a b)
    (hba : ¬ TransGen (Waits dep) b a) :
    ∃ l, Execution g es l ∧ ∀ c < g.insts.length, ¬ TransGen (Waits dep) c a →
      ¬ TransGen (Waits dep) c b → ¬ Precedes g es l c a ∧ ¬ Precedes g es l c b := by
  obtain ⟨i, hi, rfl⟩ := h.inhabited hg ha
  obtain ⟨j, hj, rfl⟩ := h.inhabited hg hb
  obtain ⟨s, hs, hsa, hsb, hc⟩ := (coarse h hg).overlap id
    (fun a b => h.descends a b) hi hj hne hab hba
  obtain ⟨l, hl⟩ := hs.history
  refine ⟨s :: l, (execution_iff hg).mpr hl, fun c hlt hca hcb => ?_⟩
  obtain ⟨k, hk, rfl⟩ := h.inhabited hg hlt
  have hnot : ¬ CounterNet.Complete (net g es) (instOf es) s (instOf es k) := fun hcomp =>
    (hc k hk hcomp).elim hca hcb
  exact ⟨fun hp => hnot (hp s mem_cons_self hsa), fun hp => hnot (hp s mem_cons_self hsb)⟩

end

/-! ### The global queue -/

end

end Plow.Splitk
