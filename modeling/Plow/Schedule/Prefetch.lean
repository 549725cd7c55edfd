import Plow.Lib.Sweep
import Plow.Schedule.Streams

/-!
# Prefetch hoisting

`hoistPrefetches` puts every DMA-in of a stream right behind the last task of the stream that it
depends on, directly or through other DMA-ins of the stream, and computes the starts again.  `none` is a
panic: an edge or a task out of range, or a task of a stream without a packet.

An anchor is one more than in the source, where the front of the stream is -1.  The anchors of the
source are one for each place of the stream; here they are one for each task, as no stream has a task
twice.  The report, the page slots and the tensor memory of the tiles are left out.
-/

namespace Plow.Schedule
open Plow.Lib

/-- `Cycle::saturating_add` -/
def cycleAdd (a b : Nat) : Nat := min (a + b) (2 ^ 64 - 1)

def isDmaIn (tg : TaskGraph) (t : Nat) : Bool := (tg.tasks[t]?).any fun task => task.kind = .dmaIn

def lastIdx (l : List Nat) (t : Nat) : Option Nat := (l.zipIdx.reverse.find? fun e => e.1 = t).map (·.2)

/-! ### One stream -/

def nonDma (tg : TaskGraph) (ids : List Nat) : List Nat := ids.filter fun t => !isDmaIn tg t

def directAnchor (tg : TaskGraph) (ids : List Nat) (t : Nat) : Nat :=
  (((tg.preds t).filter fun p => !isDmaIn tg p).filterMap fun p =>
    (lastIdx (nonDma tg ids) p).map (· + 1)).foldl max 0

def raiseAnchor (tg : TaskGraph) (dmas : List Nat) (anchor : Nat → Nat) (d : Nat) : Nat :=
  (((tg.preds d).filter fun p => p ∈ dmas).map anchor).foldl max (anchor d)

def anchors (tg : TaskGraph) (ids : List Nat) : Nat → Nat :=
  let dmas := ids.filter (isDmaIn tg)
  settle (raiseAnchor tg dmas) dmas (ids.length + 1) (directAnchor tg ids)

/-- A DMA-in with its anchor and its place in the stream. -/
structure Insertion where
  dma : Nat
  anchor : Nat
  originalIdx : Nat
  deriving DecidableEq, Repr

def insertions (tg : TaskGraph) (ids : List Nat) : List Insertion :=
  ((ids.zipIdx.filter fun e => isDmaIn tg e.1).map fun e =>
    ⟨e.1, anchors tg ids e.1, e.2⟩).insertionSort fun a b =>
      a.anchor < b.anchor ∨ (a.anchor = b.anchor ∧ a.originalIdx ≤ b.originalIdx)

/-- the DMA-ins at an anchor, then the next other task; what is left comes behind the last task -/
def weave : Nat → List Nat → List Insertion → List Nat
  | _, [], ins => ins.map (·.dma)
  | k, t :: ts, ins => (ins.takeWhile fun i => i.anchor = k).map (·.dma) ++
      t :: weave (k + 1) ts (ins.dropWhile fun i => i.anchor = k)

/-- `reorder_stream_dma_ins` -/
def reorder (tg : TaskGraph) (ids : List Nat) : List Nat := weave 0 (nonDma tg ids) (insertions tg ids)

def hoisted (tg : TaskGraph) (ids : List Nat) : List Nat :=
  (insertions tg ids).filterMap fun i =>
    if (lastIdx (reorder tg ids) i.dma).getD 0 < (lastIdx ids i.dma).getD 0 then some i.dma else none

/-! ### All streams -/

/-- the stream of a resource and its packets in the new order -/
def rebuildResource (s : Sched) (r : ResourceId) (order : List Nat) : Option Sched :=
  (order.mapM (packetOf ((entryAt s.packets r).getD []))).map fun packets => { s with
    streams := s.streams.map fun e => (e.1, if e.1 = r then packets.map fun p => (p.task, p.start) else e.2)
    packets := (s.packets.filter fun e => e.1 ≠ r) ++ [(r, packets)] }

def hoistResource (tg : TaskGraph) (s : Sched) (e : ResourceId × List (Nat × Nat)) : Option Sched :=
  if hoisted tg (streamTasks e.2) = [] then some s
  else rebuildResource s e.1 (reorder tg (streamTasks e.2))

/-! ### The starts -/

/-- the task before a task on its stream; of the last stream that has it, as in a map -/
def prevOnStream (streams : List (ResourceId × List (Nat × Nat))) (t : Nat) : Option Nat :=
  ((streams.flatMap fun e => (streamTasks e.2).zip (none :: (streamTasks e.2).map some)).reverse.find?
    fun e => e.1 = t).bind (·.2)

/-- the earliest cycle at which the task may start -/
def earliest (tg : TaskGraph) (streams : List (ResourceId × List (Nat × Nat))) (starts : Nat → Nat)
    (t : Nat) : Nat :=
  ((tg.preds t ++ (prevOnStream streams t).toList).map fun p => cycleAdd (starts p) (tg.dur p)).foldl max 0

/-- `recompute_starts` -/
def recomputeStarts (tg : TaskGraph) (s : Sched) : Sched :=
  let n := tg.tasks.length
  let starts := settle (earliest tg s.streams) (List.range n) (n + 1) fun t => s.starts.getD t 0
  { s with
    streams := s.streams.map fun e => (e.1, e.2.map fun x => (x.1, starts x.1))
    packets := s.packets.map fun e => (e.1, e.2.map fun p => { p with start := starts p.task })
    starts := (List.range (max n s.starts.length)).map starts }

def tasksInRange (tg : TaskGraph) (s : Sched) : Bool :=
  (s.streams.all fun e => e.2.all fun x => x.1 < tg.tasks.length) &&
    s.packets.all fun e => e.2.all fun p => p.task < max tg.tasks.length s.starts.length

def hoistPrefetches (tg : TaskGraph) (s : Sched) : Option Sched :=
  if tg.inRange ∧ tasksInRange tg s then
    (s.streams.foldlM (hoistResource tg) s).map (recomputeStarts tg)
  else none

end Plow.Schedule
