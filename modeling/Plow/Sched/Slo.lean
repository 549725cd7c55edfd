import Plow.Sched.Tick

/-!
# The tick planner under latency targets

Under an inter-token target the prefill of a tick is sized in milliseconds: every request in order gets
the largest chunk that keeps the predicted tick at the target.  When no chunk fits, the progress rule
runs one after so many decode-only ticks; `skipped` counts them from tick to tick.

Costs are rational.  No target binds where `bound` is `none`; the infinite budgets of the source are the
`none` of an `Option`.
-/

namespace Plow.Sched

open Plow.TokenBatch (PrefillSpan)

def maxSkipTicks : ℕ := 8

structure Targets where
  tbtMs : Option ℚ
  ttftMs : Option ℚ
  deriving DecidableEq

def Targets.active (t : Targets) : Bool := t.tbtMs.isSome || t.ttftMs.isSome

/-- The compiled rungs with their rows, the sparse ones marked, ascending. -/
structure Ladder where
  rungs : List (ℕ × Bool)
  tailSparseCtx : Option ℕ
  tailSparseMinPairs : Option ℕ
  deriving DecidableEq

namespace Ladder

/-- the smallest rung that holds the rows, or the widest sparse one behind a long context -/
def bucketFor (l : Ladder) (rows prior : ℕ) : Option ℕ :=
  (l.rungs.find? fun r => rows ≤ r.1).map fun (width, sparse) =>
    let wider := (l.rungs.filter fun r => r.2 && decide (width < r.1)).map (·.1)
    match l.tailSparseCtx, wider.max? with
    | some floor, some sparseW =>
      if !sparse && decide (floor ≤ prior) && l.tailSparseMinPairs.all (fun p => decide (p ≤ prior * rows)) then
        sparseW
      else width
    | _, _ => width

def widest (l : Ladder) : ℕ := (l.rungs.getLast?.map (·.1)).getD 0

def granule (l : Ladder) : ℕ := (l.rungs.head?.map fun r => max r.1 1).getD 1

end Ladder

/-- A tick by its riskiest launch. -/
inductive TickClass where
  | plain
  | completing
  | fresh
  deriving DecidableEq

namespace TickClass

def rank : TickClass → ℕ
  | .plain => 0
  | .completing => 1
  | .fresh => 2

def max (a b : TickClass) : TickClass := if a.rank ≤ b.rank then b else a

end TickClass

structure CostModel where
  /-- bucket, rows, first row, first launch of the request -/
  launchMs : ℕ → ℕ → ℕ → Bool → ℚ
  /-- rows, behind a prefill launch -/
  decodeMs : ℕ → Bool → ℚ
  hostMs : ℚ
  margin : TickClass → ℚ

/-- A request that waits for prefill: the position of its next row, the rows it still has to prefill, the
time since it came. -/
structure SloCandidate where
  base : Candidate
  prior : ℕ
  remaining : ℕ
  ageMs : ℚ
  deriving DecidableEq

namespace SloCandidate

def fresh (c : SloCandidate) : Bool := !c.base.planned

def tickClass (c : SloCandidate) (rows : ℕ) : TickClass :=
  if c.fresh then .fresh else if c.remaining ≤ rows then .completing else .plain

def maxRows (c : SloCandidate) (fullBudget : ℕ) : ℕ :=
  min (if c.base.planned then c.base.span.nRows else c.remaining) fullBudget

end SloCandidate

/-- what `plan_tick` is given, the count of skipped ticks apart -/
structure SloTick where
  targets : Targets
  backend : Backend
  tick : Tick
  decodes : List ℕ
  candidates : List SloCandidate
  ladder : Ladder
  cost : CostModel
  programRows : ℕ → Option ℕ
  programSpanLimit : ℕ → ℕ

structure SloOutcome where
  budgetMs : Option ℚ
  predictedMs : ℚ
  progress : Bool
  k : ℕ
  tickClass : TickClass
  margin : ℚ
  deriving DecidableEq

def SloOutcome.default : SloOutcome := ⟨some 0, 0, false, 0, .plain, 0⟩

def progressK (pMinMs slackMs : ℚ) : ℕ :=
  if slackMs ≤ 0 then maxSkipTicks else min (max ⌈pMinMs / slackMs⌉ 1).toNat maxSkipTicks

def sloLaunch (c : SloCandidate) (rows : ℕ) : Launch := ⟨[place c.base.span 0 rows]⟩

namespace SloTick

variable (i : SloTick)

def launchCost (c : SloCandidate) (rows : ℕ) : ℚ :=
  i.cost.launchMs ((i.ladder.bucketFor rows c.prior).getD rows) rows c.prior c.fresh

/-- the multiples of the granule, from the `n`th down -/
def withinLoop (c : SloCandidate) (budgetMs : ℚ) : ℕ → Option ℕ
  | 0 => none
  | n + 1 =>
    if i.launchCost c ((n + 1) * i.ladder.granule) ≤ budgetMs then some ((n + 1) * i.ladder.granule)
    else withinLoop c budgetMs n

/-- the largest chunk of at most `maxRows` whose launch fits the budget: all of them or a multiple of
the granule -/
def rowsWithin (c : SloCandidate) (maxRows : ℕ) (budgetMs : ℚ) : Option ℕ :=
  if maxRows = 0 then none
  else if i.launchCost c maxRows ≤ budgetMs then some maxRows
  else i.withinLoop c budgetMs ((maxRows - 1) / i.ladder.granule)

/-! ### The order of the candidates -/

def fifo (c : SloCandidate) : ℕ × ℕ × ℕ :=
  let slots := max i.tick.slots 1
  if i.tick.rotate then ((c.base.span.slot + slots - i.tick.turn % slots) % slots, 0, c.base.span.slot)
  else (0, c.base.arrival, c.base.span.slot)

def fullBudget : ℕ := min i.tick.capRows i.backend.stepBudget

/-- with slack and done this tick, with slack, past saving; then the slack -/
def deadlineKey (ttft : ℚ) (c : SloCandidate) : ℕ × ℚ :=
  let widest := max i.ladder.widest 1
  let perRow := i.cost.launchMs ((i.ladder.bucketFor widest c.prior).getD widest) widest c.prior false / widest
  let slack := ttft - c.ageMs - c.remaining * perRow
  if slack < 0 then (2, 0) else if c.remaining ≤ c.maxRows i.fullBudget then (0, slack) else (1, slack)

/-- does the candidate come before the other one? -/
def before (a b : SloCandidate) : Bool :=
  match i.targets.ttftMs with
  | none => keyLt (i.fifo a) (i.fifo b)
  | some ttft =>
    let ka := i.deadlineKey ttft a
    let kb := i.deadlineKey ttft b
    decide (ka.1 < kb.1) || (decide (ka.1 = kb.1) && (decide (ka.2 < kb.2) ||
      (decide (ka.2 = kb.2) && keyLt (i.fifo a) (i.fifo b))))

def order : List SloCandidate :=
  (i.candidates.filter fun c => decide (0 < c.base.span.nRows) && decide (c.base.span.slot < i.tick.slots)).insertionSort
    fun a b => i.before b a = false

/-! ### One tick -/

def fixedMs (afterPrefill : Bool) : ℚ :=
  if i.decodes = [] then i.cost.hostMs else i.cost.decodeMs i.decodes.length afterPrefill + i.cost.hostMs

def bound : Option ℚ := if i.decodes = [] then none else i.targets.tbtMs

def room (target : ℚ) (cls : TickClass) (spent : ℚ) : ℚ := target / i.cost.margin cls - i.fixedMs true - spent

/-- The launches of a tick so far. -/
structure Draft where
  launches : List Launch
  tickClass : TickClass
  leftRows : ℕ
  spentMs : ℚ

/-- the rows that a candidate gets: no more than fit the target, or else all or none -/
def rowsFor (d : Draft) (c : SloCandidate) : Option ℕ :=
  let whole := c.maxRows i.fullBudget
  match i.bound with
  | some target =>
    let maxRows := min whole d.leftRows
    i.rowsWithin c maxRows (i.room target (d.tickClass.max (c.tickClass maxRows)) d.spentMs)
  | none => if whole ≤ d.leftRows ∧ 0 < whole then some whole else none

def addLaunch (d : Draft) (c : SloCandidate) (rows : ℕ) : Draft :=
  ⟨d.launches ++ [sloLaunch c rows], d.tickClass.max (c.tickClass rows), d.leftRows - rows,
    d.spentMs + i.launchCost c rows⟩

def fillLoop : List SloCandidate → Draft → Draft
  | [], d => d
  | c :: cs, d =>
    if d.leftRows = 0 then d
    else
      match i.rowsFor d c with
      | none => fillLoop cs d
      | some rows => fillLoop cs (i.addLaunch d c rows)

def fill : Draft := i.fillLoop i.order ⟨[], .plain, i.fullBudget, 0⟩

def minRows (c : SloCandidate) : ℕ := max (min i.ladder.granule (c.maxRows i.fullBudget)) 1

def slack (target : ℚ) (c : SloCandidate) : ℚ := i.room target (c.tickClass (i.minRows c)) 0

/-- the rule's `K` for the first candidate -/
def progressOf (target : ℚ) (c : SloCandidate) : ℕ :=
  progressK (i.launchCost c (i.minRows c)) (i.slack target c)

def progressRows (target : ℚ) (c : SloCandidate) : ℕ :=
  (i.rowsWithin c (c.maxRows i.fullBudget)
    (max (i.progressOf target c * i.slack target c) (i.launchCost c (i.minRows c)))).getD (i.minRows c)

/-- the launches, whether the progress rule made them, and its `K` -/
def drafted (skipped : ℕ) : Draft × Bool × ℕ :=
  match i.bound, i.fill.launches, i.order with
  | some target, [], c :: _ =>
    let k := i.progressOf target c
    let rows := i.progressRows target c
    if k ≤ skipped + 1 then
      (⟨[sloLaunch c rows], c.tickClass rows, i.fill.leftRows, i.launchCost c rows⟩, true, k)
    else (i.fill, false, k)
  | _, _, _ => (i.fill, false, 0)

def env : Env where
  backend := i.backend
  tick := i.tick
  candidates := i.candidates.map (·.base)
  programRows := i.programRows
  programSpanLimit := i.programSpanLimit

/-- the plan, its outcome and the count of skipped ticks -/
def planTick (skipped : ℕ) : Plan × SloOutcome × ℕ :=
  if i.targets.active then
    let (d, progress, k) := i.drafted skipped
    let skips := d.launches = [] ∧ i.bound.isSome ∧ i.candidates ≠ []
    (⟨i.decodes, d.launches, i.fullBudget - (d.launches.map Launch.rows).sum⟩,
      ⟨i.bound.map fun target => i.room target .plain 0, d.spentMs + i.fixedMs (d.launches ≠ []), progress, k,
        d.tickClass, i.cost.margin d.tickClass⟩,
      if skips then skipped + 1 else 0)
  else (i.env.plan i.decodes, .default, skipped)

end SloTick
end Plow.Sched
