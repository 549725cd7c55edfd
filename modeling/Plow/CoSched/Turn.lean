import Plow.Lib.Results
import Plow.Lib.Runs
import Plow.Lib.SwapRemove

/-!
# Waiting models and their order

`Due` says when work must be done and what it costs; `Due.rank` orders it.  `PrioState` is the queue
of the device: a flag and the waiters, of which `tightest` is the next.  An instant is a number of
nanoseconds, a duration a natural number of them; a cast to `i64` keeps the low 64 bits.
-/

namespace Plow.CoSched
open Lib List

abbrev Instant := ℤ
abbrev Duration := ℕ

/-- `as i64` -/
def toI64 (n : ℤ) : ℤ := n.bmod (2 ^ 64)

def millis (n : ℕ) : Duration := n * 1000000

def deadlineQuantum : Duration := millis 20
def yieldMargin : ℤ := toI64 deadlineQuantum
def urgentSlack : Duration := millis 30

/-! ### Due -/

inductive Band where
  | urgent | final | first | stream | bulk
  deriving DecidableEq

def Band.ord : Band → ℕ
  | urgent => 0
  | final => 1
  | first => 2
  | stream => 3
  | bulk => 4

structure Due where
  deadline : Instant
  cost : Duration
  band : Band

namespace Due

def slack (d : Due) (now : Instant) : ℤ :=
  let ahead := if now ≤ d.deadline then toI64 (d.deadline - now)
    else toI64 (-toI64 (now - d.deadline))
  toI64 (ahead - toI64 d.cost)

def urgentAt (d : Due) : ℤ :=
  match d.band with
  | .bulk => -2 ^ 63
  | .final => 0
  | _ => toI64 (max (2 * d.cost) urgentSlack : ℕ)

def rank (d : Due) (now : Instant) : ℕ ×ₗ ℤ :=
  let slack := d.slack now
  toLex ((if slack ≤ d.urgentAt then Band.urgent else d.band).ord, slack)

/-- `saturating_sub` of an `i64` -/
def saturatingSub (a b : ℤ) : ℤ := max (a - b) (-2 ^ 63)

def outranks (d mine : Due) (now : Instant) (marginNs : ℤ) : Bool :=
  let (b, s) := ofLex (d.rank now)
  let (mb, my) := ofLex (mine.rank now)
  decide (b < mb ∨ (b = mb ∧ (s < saturatingSub my marginNs ∨ (s < my ∧ s < toI64 mine.cost))))

end Due

/-! ### The queue -/

/-- `wake` is the channel with the number `seq` -/
structure Waiter where
  due : Due
  since : Instant
  seq : ℕ

namespace Waiter

def Overdue (w : Waiter) (now : Instant) (maxWait : Duration) : Prop := w.since + maxWait ≤ now

instance (w : Waiter) (now : Instant) (maxWait : Duration) : Decidable (w.Overdue now maxWait) :=
  inferInstanceAs (Decidable (_ ≤ _))

/-- `Waiter::due` -/
def dueAt (w : Waiter) (now : Instant) (maxWait : Duration) : Due :=
  if w.Overdue now maxWait then
    { w.due with deadline := min w.due.deadline (w.since + maxWait), band := .urgent }
  else w.due

end Waiter

structure PrioState where
  held : Bool
  seq : ℕ
  maxWait : Duration
  waiters : List Waiter

namespace PrioState

def new (maxWait : Duration) : PrioState := ⟨false, 0, maxWait, []⟩

-- the computable one of the ways to this order
instance : Preorder ((ℕ ×ₗ ℤ) ×ₗ ℕ) :=
  (inferInstance : LinearOrder ((ℕ ×ₗ ℤ) ×ₗ ℕ)).toPreorder

def key (s : PrioState) (now : Instant) (w : Waiter) : (ℕ ×ₗ ℤ) ×ₗ ℕ :=
  toLex ((w.dueAt now s.maxWait).rank now, w.seq)

def tightest (s : PrioState) (now : Instant) : Option (Waiter × ℕ) :=
  s.waiters.zipIdx.argmin fun w => s.key now w.1

def outranks (s : PrioState) (w : Waiter) (mine : Due) (now : Instant) : Bool :=
  (w.dueAt now s.maxWait).outranks mine now yieldMargin

def shouldYield (s : PrioState) (mine : Due) (since now : Instant) : Bool :=
  let quantumSpent := decide ((deadlineQuantum : ℤ) ≤ now - since)
  let (mb, my) := ofLex (mine.rank now)
  s.waiters.any fun w =>
    let (b, slack) := ofLex ((w.dueAt now s.maxWait).rank now)
    s.outranks w mine now || (quantumSpent && decide (b = mb ∧ slack ≤ toI64 (my + yieldMargin)))

end PrioState

/-! ### The best-ranked waiter -/

namespace PrioState
variable {s : PrioState} {now : Instant} {w : Waiter} {i : ℕ}

theorem tightest_get (h : s.tightest now = some (w, i)) : s.waiters[i]? = some w :=
  mem_zipIdx_iff_getElem?.mp (argmin_mem h)

theorem tightest_le (h : s.tightest now = some (w, i)) {u : Waiter} (hu : u ∈ s.waiters) :
    s.key now w ≤ s.key now u := by
  obtain ⟨j, hj⟩ := mem_iff_getElem?.mp hu
  have hmem : (u, j) ∈ s.waiters.zipIdx := mem_zipIdx_iff_getElem?.mpr hj
  have hlt := not_lt_of_mem_argmin (f := fun w : Waiter × ℕ => s.key now w.1) hmem h
  exact not_lt.mp hlt

theorem tightest_none (h : s.tightest now = none) : s.waiters = [] := by
  have := argmin_eq_none.mp h
  exact zipIdx_eq_nil_iff.mp this

theorem key_overdue {u : Waiter} (h : s.key now w ≤ s.key now u) (hu : u.Overdue now s.maxWait) :
    (w.dueAt now s.maxWait).slack now ≤ (u.dueAt now s.maxWait).slack now := by
  have hurgent : (u.dueAt now s.maxWait).rank now =
      toLex (0, (u.dueAt now s.maxWait).slack now) := by
    have hband : (u.dueAt now s.maxWait).band = .urgent := by
      unfold Waiter.dueAt
      rw [if_pos hu]
    unfold Due.rank
    simp only [hband, ite_self]
    rfl
  have hrank : (w.dueAt now s.maxWait).rank now ≤ (u.dueAt now s.maxWait).rank now := by
    rcases Prod.Lex.toLex_le_toLex.mp h with hlt | ⟨heq, -⟩
    · exact le_of_lt hlt
    · exact le_of_eq heq
  rw [hurgent] at hrank
  rcases Prod.Lex.toLex_le_toLex.mp hrank with hlt | ⟨-, hle⟩
  · cases hlt
  · exact hle

end PrioState

end Plow.CoSched

/-!
# The turn of a device

`Sys` is one `DeviceTurn` in deadline mode with the models that share it, each at one point of
`Turn::take_due`, `Turn::finish` or a release (`Pc`).  A step is what runs under one lock, or the
closing of a receiver, or a wake-up.  A wait may be cancelled at any moment: its receiver closes
first (`Act.close`), its `Pending` guard runs later (`Act.guard`).
-/

namespace Plow.CoSched
open Lib

/-- a one-shot channel, as its receiver has it -/
inductive Chan where
  | empty | sent | closed
  deriving DecidableEq

/-- the loop of `hand_off`; the first argument bounds the waiters -/
def handOffLoop (now : Instant) : ℕ → PrioState → (ℕ → Chan) → PrioState × (ℕ → Chan)
  | 0, s, chan => ({ s with held := false }, chan)
  | n + 1, s, chan =>
    match s.tightest now with
    | none => ({ s with held := false }, chan)
    | some (w, i) =>
      let s := { s with waiters := swapRemove s.waiters i }
      if chan w.seq = .empty then (s, Function.update chan w.seq .sent)
      else handOffLoop now n s chan

def handOff (now : Instant) (s : PrioState) (chan : ℕ → Chan) : PrioState × (ℕ → Chan) :=
  handOffLoop now s.waiters.length s chan

/-- where a model is -/
inductive Pc where
  | idle
  | holding (since : Instant)
  /-- has decided to give the device back, and to ask again for `due` -/
  | yielding (due : Option Due)
  | acquiring (due : Due)
  | waiting (seq : ℕ)
  /-- the receiver is closed; the code does not keep whether the device had arrived -/
  | cancelled (seq : ℕ) (handed : Bool)

inductive Act where
  | take (due : Due)
  | finish (due : Due)
  | release
  | acquire
  | wake
  | close
  | guard

structure Op (P : Type) where
  who : P
  act : Act
  now : Instant

structure Sys (P : Type) where
  prio : PrioState
  chan : ℕ → Chan
  task : P → Pc

namespace Sys
variable {P : Type} [DecidableEq P]

def new (maxWait : Duration) : Sys P := ⟨.new maxWait, fun _ => .closed, fun _ => .idle⟩

def goto (s : Sys P) (p : P) (pc : Pc) : Sys P := { s with task := Function.update s.task p pc }

/-- a model hands the device on and goes to `pc` -/
def pass (s : Sys P) (p : P) (now : Instant) (pc : Pc) : Sys P :=
  let (prio, chan) := handOff now s.prio s.chan
  ⟨prio, chan, Function.update s.task p pc⟩

/-- `PrioHold::acquire` up to its wait -/
def acquire (s : Sys P) (p : P) (now : Instant) (due : Due) : Sys P :=
  if s.prio.held = false ∧ s.prio.waiters = [] then
    { s with prio := { s.prio with held := true }, task := Function.update s.task p (.holding now) }
  else
    let seq := s.prio.seq + 1
    { prio := { s.prio with seq := seq, waiters := s.prio.waiters ++ [⟨due, now, seq⟩] }
      chan := Function.update s.chan seq .empty
      task := Function.update s.task p (.waiting seq) }

/-- `Pending::drop` -/
def guard (s : Sys P) (p : P) (now : Instant) (seq : ℕ) : Sys P :=
  match s.prio.waiters.findIdx? (·.seq = seq) with
  | some i => { s with
      prio := { s.prio with waiters := swapRemove s.prio.waiters i }
      task := Function.update s.task p .idle }
  | none => s.pass p now .idle

def check (s : Sys P) (p : P) (due : Due) (since now : Instant) (again : Option Due) : Sys P :=
  if s.prio.shouldYield due since now then s.goto p (.yielding again) else s

def step (s : Sys P) (o : Op P) : Option (Sys P) :=
  match o.act, s.task o.who with
  | .take due, .idle => some (s.goto o.who (.acquiring due))
  | .take due, .holding since => some (s.check o.who due since o.now (some due))
  | .finish _, .idle => some s
  | .finish due, .holding since => some (s.check o.who due since o.now none)
  | .release, .holding _ => some (s.pass o.who o.now .idle)
  | .release, .yielding none => some (s.pass o.who o.now .idle)
  | .release, .yielding (some due) => some (s.pass o.who o.now (.acquiring due))
  | .acquire, .acquiring due => some (s.acquire o.who o.now due)
  | .wake, .waiting seq =>
    if s.chan seq = .sent then
      some { s with
        chan := Function.update s.chan seq .closed
        task := Function.update s.task o.who (.holding o.now) }
    else none
  | .close, .waiting seq => some { s with
      chan := Function.update s.chan seq .closed
      task := Function.update s.task o.who (.cancelled seq (s.chan seq = .sent)) }
  | .guard, .cancelled seq _ => some (s.guard o.who o.now seq)
  | _, _ => none

/-! ### What the models hold -/

def Uses (s : Sys P) (p : P) : Prop :=
  match s.task p with
  | .holding _ => True
  | .yielding _ => True
  | .waiting seq => s.chan seq = .sent
  | .cancelled _ handed => handed = true
  | _ => False

def Live (s : Sys P) (w : Waiter) : Prop := s.chan w.seq = .empty

def Queued (s : Sys P) (seq : ℕ) : Prop := ∃ w ∈ s.prio.waiters, w.seq = seq

def Discarded (s : Sys P) (p : P) : Prop := ∃ seq, s.task p = .cancelled seq false ∧ ¬ s.Queued seq

/-- one model at a time, and no device that is free while a live waiter waits for it -/
structure Sound (s : Sys P) : Prop where
  one : ∀ p q, s.Uses p → s.Uses q → p = q
  free : (∀ p, ¬ s.Uses p) → s.prio.held = false ∧ ∀ w ∈ s.prio.waiters, ¬ s.Live w

/-- the device goes to a live waiter of least rank and arrival, never past an overdue one of less
slack -/
def HandsBest (s s' : Sys P) (now : Instant) : Prop :=
  ∀ seq, s.chan seq ≠ .sent → s'.chan seq = .sent →
    ∃ w ∈ s.prio.waiters, w.seq = seq ∧ s.Live w ∧
      ∀ u ∈ s.prio.waiters, s.Live u → s.prio.key now w ≤ s.prio.key now u ∧
        (u.Overdue now s.prio.maxWait → (w.dueAt now s.prio.maxWait).slack now ≤
          (u.dueAt now s.prio.maxWait).slack now)

end Sys

end Plow.CoSched
