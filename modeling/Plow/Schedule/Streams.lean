import Plow.Packet.Model
import Plow.Schedule.ListSchedule

/-!
# Streams and packets

A schedule as the passes behind the list scheduler see it: the stream of each resource, the packets
that its tasks were lowered to, and the dependency counters.  A `HashMap` with keys that are looked up
is a list of entries, one for each key, in some order.  The page slots and the tensor memory of the
tiles are left out, and so is the makespan.
-/

namespace Plow.Schedule

open List Option

inductive PacketKind where
  | compute
  | tmaIn
  | tmaOut
  | rdma
  | hostCoord
  deriving DecidableEq, Repr

/-- A scheduled task lowered for its resource. -/
structure Packet where
  task : Nat
  op : String
  kind : PacketKind
  start : Nat
  wait : List Nat
  successors : List Nat
  deriving DecidableEq, Repr

inductive Scope where
  | intraSm
  | intraGpu
  | crossUnit
  deriving DecidableEq, Repr

/-- A clustered dependency counter. -/
structure Counter where
  id : Nat
  threshold : UInt32
  scope : Scope
  producerNode : Nat
  consumerNode : Nat
  deriving DecidableEq, Repr

structure Sched where
  streams : List (ResourceId × List (Nat × Nat))
  packets : List (ResourceId × List Packet)
  counters : List Counter
  placement : List (Nat × ResourceId)
  starts : List Nat
  deriving DecidableEq, Repr

def entryAt {α : Type} (entries : List (ResourceId × List α)) (r : ResourceId) : Option (List α) :=
  (entries.find? fun e => e.1 = r).map (·.2)

def streamTasks (stream : List (Nat × Nat)) : List Nat := stream.map (·.1)

def packetOf (packets : List Packet) (t : Nat) : Option Packet := packets.reverse.find? fun p => p.task = t

/-! ### Entries -/

section
variable {α β : Type} {l : List (ResourceId × List α)} {r : ResourceId}

variable {e : ResourceId × List α} {v : List α}

theorem find_key (h : l.find? (fun e => decide (e.1 = r)) = some e) : e.1 = r ∧ e ∈ l :=
  ⟨by simpa using find?_some h, mem_of_find?_eq_some h⟩

theorem entryAt_map {f : ResourceId → List α → List β} :
    entryAt (l.map fun e => (e.1, f e.1 e.2)) r = (entryAt l r).map (f r) := by
  unfold entryAt
  rw [find?_map, Option.map_map, Option.map_map]
  cases h : l.find? ((fun e => decide (e.1 = r)) ∘ fun e => (e.1, f e.1 e.2)) with
  | none =>
    have h' : l.find? (fun e => decide (e.1 = r)) = none := h
    rw [h', map_none, map_none]
  | some e =>
    have h' : l.find? (fun e => decide (e.1 = r)) = some e := h
    obtain ⟨he, -⟩ := find_key h'
    rw [h', map_some, map_some, ← he]
    rfl

theorem entryAt_of_mem (hk : (l.map (·.1)).Nodup) (he : e ∈ l) : entryAt l e.1 = some e.2 := by
  have hfound : (l.find? fun x => decide (x.1 = e.1)).isSome :=
    find?_isSome.mpr ⟨e, he, decide_eq_true rfl⟩
  obtain ⟨x, hx⟩ := isSome_iff_exists.mp hfound
  obtain ⟨hkey, hmem⟩ := find_key hx
  have hxe : x = e := inj_on_of_nodup_map hk hmem he hkey
  unfold entryAt
  rw [hx, hxe, map_some]

theorem mem_of_entryAt (h : entryAt l r = some v) : (r, v) ∈ l := by
  obtain ⟨e, he, rfl⟩ := map_eq_some_iff.mp h
  obtain ⟨rfl, hmem⟩ := find_key he
  exact hmem

theorem mem_entry {x : α} (h : x ∈ (entryAt l r).getD []) : ∃ v, (r, v) ∈ l ∧ x ∈ v := by
  cases he : entryAt l r with
  | none =>
    rw [he] at h
    cases h
  | some v =>
    rw [he] at h
    exact ⟨v, mem_of_entryAt he, h⟩

theorem entryAt_put (r' : ResourceId) :
    entryAt ((l.filter fun e => e.1 ≠ r) ++ [(r, v)]) r' = if r' = r then some v else entryAt l r' := by
  unfold entryAt
  rw [find?_append]
  by_cases h : r' = r
  · subst h
    have hnone : (l.filter fun e => e.1 ≠ r').find? (fun e => decide (e.1 = r')) = none := by
      rw [find?_eq_none]
      intro e he
      simpa using (mem_filter.mp he).2
    have hlast : ([(r', v)] : List (ResourceId × List α)).find? (fun e => decide (e.1 = r')) = some (r', v) :=
      find?_cons_of_pos (decide_eq_true rfl)
    rw [hnone, none_or, if_pos rfl, hlast, map_some]
  · have hlast : ([(r, v)] : List (ResourceId × List α)).find? (fun e => decide (e.1 = r')) = none := by
      rw [find?_eq_none]
      intro e he
      rw [mem_singleton.mp he]
      simpa using fun hr : r = r' => h hr.symm
    have hsame : (l.filter fun e => e.1 ≠ r).find? (fun e => decide (e.1 = r')) =
        l.find? fun e => decide (e.1 = r') := by
      rw [find?_filter]
      congr 1
      funext e
      by_cases he : e.1 = r'
      · simp [he, h]
      · simp [he]
    rw [hlast, or_none, if_neg h, hsame]

end

end Plow.Schedule

/-!
# The emitted stream, and counter elimination

`emitProgram` lowers a schedule to the instruction stream.  `none` is a panic: a packet or a placement
of a task that the graph does not have, or a list of counters longer than its `u16` field.  The bodies
of the instructions are a parameter, as `verify` reads none of them: they come from the tile graph, the
slots and the address map, and from no counter.  The debug assertions are left out.

`eliminateRedundantCounters` drops the counters whose producers all come before their consumers on one
stream.  Its report is left out.
-/

namespace Plow.Schedule
open Plow.Packet

/-! ### Emission -/

def placedOn (s : Sched) (t : Nat) : Option ResourceId := (s.placement.find? fun e => e.1 = t).map (·.2)

def issueOrder (s : Sched) : List Nat :=
  (s.placement.map (·.1)).insertionSort fun a b =>
    s.starts.getD a 0 < s.starts.getD b 0 ∨ (s.starts.getD a 0 = s.starts.getD b 0 ∧ a ≤ b)

def encodeResource : ResourceId → ResourceKind × UInt8 × UInt16
  | .sm u i => (.sm, UInt8.ofNat u, UInt16.ofNat i)
  | .dma u e => (.dma, UInt8.ofNat u, UInt16.ofNat e)
  | .dpu i => (.dpu, 0, UInt16.ofNat i)
  | .host i => (.host, 0, UInt16.ofNat i)

def allPackets (s : Sched) : List Packet := s.packets.flatMap (·.2)

def waitIds (s : Sched) (t : Nat) : List UInt32 :=
  (((packetOf (allPackets s) t).map (·.wait)).getD []).map UInt32.ofNat

def succIds (s : Sched) (t : Nat) : List UInt32 :=
  (((packetOf (allPackets s) t).map (·.successors)).getD []).map UInt32.ofNat

/-- the instruction of a task; a task of the issue order is placed -/
def emitInst (bodies : Nat → Body) (s : Sched) (t : Nat) : Inst :=
  let r := encodeResource ((placedOn s t).getD (.host 0))
  { resource := r.1, unit := r.2.1, index := r.2.2, body := bodies t, wait := waitIds s t, succ := succIds s t }

def scopeCode : Scope → UInt8
  | .intraSm => 0
  | .intraGpu => 1
  | .crossUnit => 2

def emitCounter (c : Counter) : Packet.Counter :=
  ⟨UInt32.ofNat c.id, c.threshold, scopeCode c.scope, List.Vector.replicate 3 0⟩

/-- what would panic does not happen -/
def emits (tg : TaskGraph) (s : Sched) : Bool :=
  ((allPackets s).all fun p => p.task < tg.tasks.length) &&
    (s.placement.all fun e => e.1 < tg.tasks.length) &&
    (List.range tg.tasks.length).all fun t => (waitIds s t).length ≤ 65535 && (succIds s t).length ≤ 65535

/-- `emit_program_with_meta` -/
def emitProgram (bodies : Nat → Body) (tg : TaskGraph) (s : Sched) (bucketId planGen : UInt16) :
    Option Program :=
  if emits tg s then
    some ⟨(issueOrder s).map (emitInst bodies s), s.counters.map emitCounter, bucketId, planGen, 0⟩
  else none

/-! ### Counter elimination -/

/-- the stream of a task and its place in it; a task in no stream gets a resource of its own -/
def taskStreamPos (s : Sched) (t : Nat) : ResourceId × Nat :=
  (((s.streams.flatMap fun e => (streamTasks e.2).zipIdx.map fun x => (x.1, e.1, x.2)).reverse.find? fun e =>
    e.1 = t).map (·.2)).getD (.host (2 ^ 64 - 1), 2 ^ 64 - 1)

def producersIn (s : Sched) (c : Nat) : List Nat :=
  ((allPackets s).filter fun p => c ∈ p.successors).map (·.task)

def consumersIn (s : Sched) (c : Nat) : List Nat :=
  ((allPackets s).filter fun p => c ∈ p.wait).map (·.task)

def isRedundant (producers consumers : List Nat) (pos : Nat → ResourceId × Nat) : Bool :=
  if producers = [] ∨ consumers = [] then false
  else
    let resources := ((producers ++ consumers).map fun t => (pos t).1).dedup
    match (producers.map fun t => (pos t).2).max?, (consumers.map fun t => (pos t).2).min? with
    | some mp, some mc => resources.length = 1 && mp < mc
    | _, _ => false

def eliminated (s : Sched) : List Nat :=
  (s.counters.map (·.id)).filter fun c => isRedundant (producersIn s c) (consumersIn s c) (taskStreamPos s)

def eliminateRedundantCounters (s : Sched) : Sched :=
  let dropped := eliminated s
  { s with
    counters := s.counters.filter fun c => c.id ∉ dropped
    packets := s.packets.map fun e => (e.1, e.2.map fun p => { p with
      wait := p.wait.filter fun c => c ∉ dropped
      successors := p.successors.filter fun c => c ∉ dropped }) }

end Plow.Schedule
