import Plow.Lib.Results

/-!
# The unified token batch on the host

One packed matrix of rows per step: every live row belongs to a span, and a span is what one
request contributes.  `planInto` builds the host plan from the scheduled requests, `validate` is
the full check of a batch, `resolveRow` and `sampleRow` read it.

A 32-bit value is a natural number.  `checkedAdd` and `tryU32` are the checked operations of the
source; its other sums cannot overflow where they stand, the bound is checked before them.  An
index outside an array is the outcome `Halt.panic`; a slot that has just been compared with the
length of the tables is read with `getD`.  The output buffer of `planInto` is its
content, a `Plan`, and the capacities of its vectors, which clearing does not change.

Left out: `descriptor`, which only copies the counts of a plan, and the load-time capability check.
-/

namespace Plow.TokenBatch

/-! ### The row resolver -/

/-- A run of rows of one request (`packet::dev::PrefillSpan`). -/
structure PrefillSpan where
  row0 : Nat
  nRows : Nat
  slot : Nat
  flags : Nat
  kvRow0 : Nat
  kvLen : Nat
  stateSlot : Nat
  program : Nat
  deriving DecidableEq, Repr

def prefillSpanResetState : Nat := 1

/-- The host image of a batch, as the resolver reads it. -/
structure HostBatch where
  rowCapacity : Nat
  realRows : Nat
  sampleRows : Nat
  spans : List PrefillSpan
  positions : List Nat
  active : List Nat
  sampleInputRows : List Nat
  deriving DecidableEq, Repr

inductive Refusal where
  | null
  | version
  | flags
  | capacity
  | spans
  | cover
  | position
  | active
  | kvLen
  | sample
  | row
  deriving DecidableEq, Repr

namespace Refusal

def code : Refusal → Int
  | null => -1
  | version => -2
  | flags => -3
  | capacity => -4
  | spans => -5
  | cover => -6
  | position => -7
  | active => -8
  | kvLen => -9
  | sample => -10
  | row => -11

def text : Refusal → String
  | null => "descriptor or a required array is missing"
  | version => "descriptor version this build does not implement"
  | flags => "reserved flags set"
  | capacity => "real_rows exceeds row_capacity, or capacity is zero"
  | spans => "span count disagrees with the live row count"
  | cover => "spans do not cover [0, M) exactly (gap, overlap or zero length)"
  | position => "positions[] disagrees with the span's arithmetic"
  | active => "park mask disagrees with the span cover"
  | kvLen => "kv_len != kv_row0 + n_rows"
  | sample => "a sample index is not a live row"
  | row => "row index outside row_capacity"

end Refusal

/-- How a resolver function ends without a value. -/
inductive Halt where
  | refused (r : Refusal)
  | panic
  deriving DecidableEq, Repr

abbrev Res := Except Halt

def refuse {α : Type} (r : Refusal) : Res α := .error (.refused r)

def index {α : Type} (xs : List α) (i : Nat) : Res α :=
  match xs[i]? with
  | some x => .ok x
  | none => .error .panic

/-- `u32::checked_add` -/
def checkedAdd (a b : Nat) : Option Nat := if a + b < 2 ^ 32 then some (a + b) else none

def okOr {α : Type} : Option α → Refusal → Res α
  | some a, _ => .ok a
  | none, r => refuse r

/-- Structural checks that touch no row array. -/
def check (b : HostBatch) : Res Unit :=
  if b.rowCapacity = 0 ∨ b.realRows > b.rowCapacity then refuse .capacity
  else if b.positions.length < b.rowCapacity ∨ b.active.length < b.rowCapacity then refuse .null
  else if b.realRows > 0 ∧ b.spans = [] then refuse .spans
  else if b.realRows = 0 ∧ b.spans ≠ [] then refuse .spans
  else if b.spans.length > b.realRows then refuse .cover
  else if b.sampleInputRows.length < b.sampleRows then refuse .null
  else if b.sampleRows > b.realRows then refuse .sample
  else .ok ()

/-- the rows `j, j + 1, …` of a span, `n` of them -/
def checkRows (b : HostBatch) (span : PrefillSpan) : Nat → Nat → Res Unit
  | 0, _ => .ok ()
  | n + 1, j => do
    let row := span.row0 + j
    let active ← index b.active row
    if active = 0 then refuse .active
    else
      let position ← index b.positions row
      if position ≠ span.kvRow0 + j then refuse .position
      else checkRows b span n (j + 1)

/-- the spans behind `next`, and where they end -/
def checkSpans (b : HostBatch) : List PrefillSpan → Nat → Res Nat
  | [], next => .ok next
  | span :: spans, next => do
    let stop ← okOr (checkedAdd span.row0 span.nRows) .cover
    if span.nRows = 0 ∨ stop > b.realRows ∨ span.row0 ≠ next then refuse .cover
    else
      let kvStop ← okOr (checkedAdd span.kvRow0 span.nRows) .kvLen
      if span.kvLen ≠ kvStop then refuse .kvLen
      else
        checkRows b span span.nRows 0
        checkSpans b spans stop

/-- the padding rows from `row` on, `n` of them -/
def checkPadding (b : HostBatch) : Nat → Nat → Res Unit
  | 0, _ => .ok ()
  | n + 1, row => do
    let active ← index b.active row
    if active ≠ 0 then refuse .active else checkPadding b n (row + 1)

def checkSamples (b : HostBatch) : List Nat → Res Unit
  | [] => .ok ()
  | row :: rows => do
    if row ≥ b.realRows then refuse .sample
    else
      let active ← index b.active row
      if active = 0 then refuse .sample else checkSamples b rows

/-- Full `O(M + R)` sweep. -/
def validate (b : HostBatch) : Res Unit := do
  check b
  let next ← checkSpans b b.spans 0
  if next ≠ b.realRows then refuse .cover
  else
    checkPadding b (b.rowCapacity - b.realRows) b.realRows
    checkSamples b (b.sampleInputRows.take b.sampleRows)

/-- One resolved packed row; `span` is `none` for padding. -/
structure ResolvedRow where
  span : Option Nat
  localRow : Nat
  slot : Nat
  stateSlot : Nat
  position : Nat
  active : Bool
  deriving DecidableEq, Repr

def ResolvedRow.padding : ResolvedRow := ⟨none, 0, 0, 0, 0, false⟩

/-- `slice::partition_point` on a slice that is partitioned by `p` -/
def partitionPoint {α : Type} (p : α → Bool) (xs : List α) : Nat := (xs.takeWhile p).length

def resolveRow (b : HostBatch) (row : Nat) : Res ResolvedRow := do
  validate b
  if row ≥ b.rowCapacity then refuse .row
  else if row ≥ b.realRows then .ok .padding
  else
    -- the last span whose `row0 <= row`
    let i := partitionPoint (fun s => s.row0 ≤ row) b.spans
    if i = 0 then refuse .cover
    else
      let span ← index b.spans (i - 1)
      let loc := row - span.row0
      if loc ≥ span.nRows then refuse .cover
      else .ok ⟨some (i - 1), loc, span.slot, span.stateSlot, span.kvRow0 + loc, true⟩

def sampleRow (b : HostBatch) (s : Nat) : Res Nat := do
  validate b
  if s ≥ b.sampleRows then refuse .sample else index b.sampleInputRows s

/-! ### The planner -/

inductive Phase where
  | decode
  | prefill
  | verify
  deriving DecidableEq, Repr

/-- An `f32` by its bits. -/
structure F32 where
  bits : UInt32
  deriving DecidableEq, Repr

namespace F32

/-- `x == 0.0` -/
def isZero (x : F32) : Bool := x.bits == 0 || x.bits == 0x80000000
/-- `x > 0.0` -/
def isPos (x : F32) : Bool := 0 < x.bits && x.bits ≤ 0x7f800000
def isFinite (x : F32) : Bool := x.bits &&& 0x7f800000 != 0x7f800000
/-- `(0.0..=1.0).contains(&x)` -/
def inUnit (x : F32) : Bool := x.bits ≤ 0x3f800000 || x.bits == 0x80000000

end F32

/-- Per-row selection policy, attached to the logical request. -/
structure Selection where
  greedy : Bool
  temperature : F32
  topK : Nat
  topP : F32
  minP : F32
  rng : Nat
  deriving DecidableEq, Repr

/-- the planner's `Result<(), String>` and the like -/
abbrev Plans := Except String

def require (ok : Bool) (reason : String) : Plans Unit :=
  if ok then .ok () else .error ("token batch: " ++ reason)

def Selection.validate (s : Selection) : Plans Unit :=
  if s.greedy then require s.temperature.isZero "greedy selection with a nonzero temperature"
  else require (s.temperature.isPos && s.temperature.isFinite && s.topP.inUnit && s.minP.inUnit)
    "stochastic selection bounds"

/-- One request's contribution to a step. -/
structure Request where
  id : Nat
  slot : Nat
  stateSlot : Nat
  generation : Nat
  phase : Phase
  tokens : List Nat
  promptLen : Nat
  selection : Selection
  deriving DecidableEq, Repr

/-- A hidden row the step owes a next-token distribution for. -/
structure SampleOwner where
  request : Nat
  slot : Nat
  generation : Nat
  selection : Selection
  deriving DecidableEq, Repr

structure PendingCommit where
  request : Nat
  slot : Nat
  generation : Nat
  expectedFrontier : Nat
  newFrontier : Nat
  completesPrompt : Bool
  sampleIndex : Option Nat
  deriving DecidableEq, Repr

structure Plan where
  rowCapacity : Nat
  realRows : Nat
  sampleRows : Nat
  inputIds : List Nat
  positions : List Nat
  active : List Nat
  spans : List PrefillSpan
  phases : List Phase
  sampleInputRows : List Nat
  sampleOwners : List SampleOwner
  pending : List PendingCommit
  deriving DecidableEq, Repr

namespace Plan

def empty : Plan := ⟨0, 0, 0, [], [], [], [], [], [], [], []⟩

def clear (_p : Plan) : Plan := empty

def batch (p : Plan) : HostBatch :=
  ⟨p.rowCapacity, p.realRows, p.sampleRows, p.spans, p.positions, p.active, p.sampleInputRows⟩

end Plan

/-- the capacities of a plan's vectors -/
structure Caps where
  inputIds : Nat
  positions : Nat
  active : Nat
  spans : Nat
  phases : Nat
  sampleInputRows : Nat
  sampleOwners : Nat
  pending : Nat

/-- What the planner is called with. -/
structure Env where
  frontiers : List Nat
  generations : List Nat
  rowCapacity : Nat
  maxCtx : Nat
  program : Nat

/-- `u32::try_from` -/
def tryU32 (n : Nat) (reason : String) : Plans Nat :=
  if n < 2 ^ 32 then .ok n else .error ("token batch: " ++ reason)

/-- `Option::ok_or` -/
def okOrErr {α : Type} : Option α → String → Plans α
  | some a, _ => .ok a
  | none, reason => .error reason

def order (requests : List Request) : List Request :=
  requests.filter (·.phase = .decode) ++ requests.filter (·.phase = .prefill) ++
    requests.filter (·.phase = .verify)

/-- the phase's own check; the result tells whether the prompt is complete after the span -/
def completes (r : Request) (nRows start stop : Nat) : Plans Bool :=
  match r.phase with
  | .decode => do
    require (nRows = 1 ∧ start ≥ r.promptLen ∧ r.promptLen > 0)
      "decode span must be one token at or past the prompt end"
    pure true
  | .prefill => do
    require (stop ≤ r.promptLen) "prefill span overruns the prompt"
    pure (stop == r.promptLen)
  | .verify => do
    require (start ≥ r.promptLen ∧ r.promptLen > 0)
      "verify span must start at or past the prompt end"
    pure true

/-- one turn of the planner's loop; `prior` are the requests of the turns before -/
def planOne (env : Env) (prior : List Request) (r : Request) (out : Plan) : Plans Plan := do
  r.selection.validate
  require (r.slot < env.frontiers.length ∧ r.stateSlot < env.frontiers.length)
    "physical or carried-state slot outside capacity"
  require (!prior.any fun p => p.id = r.id ∨ p.slot = r.slot ∨ p.stateSlot = r.stateSlot)
    "duplicate request id, physical slot or carried-state slot"
  require (env.generations.getD r.slot 0 = r.generation)
    "slot generation does not match the admitted request"
  let nRows ← tryU32 r.tokens.length "row count"
  require (nRows > 0) "span with no scheduled tokens"
  let start := env.frontiers.getD r.slot 0
  let stop ← okOrErr (checkedAdd start nRows) "token batch: span extent overflow"
  require (stop ≤ env.maxCtx) "span exceeds the admitted context limit"
  require (out.inputIds.length + r.tokens.length ≤ env.rowCapacity)
    "scheduled tokens exceed the row capacity"
  let completesPrompt ← completes r nRows start stop
  let row0 ← tryU32 out.inputIds.length "row offset"
  let first := if r.phase = .verify then 0 else nRows - 1
  let rows := if completesPrompt then (List.range (nRows - first)).map (row0 + first + ·) else []
  pure { out with
    spans := out.spans ++ [{
      row0, nRows, slot := r.slot
      flags := if start = 0 then prefillSpanResetState else 0
      kvRow0 := start, kvLen := stop, stateSlot := r.stateSlot, program := env.program }]
    phases := out.phases ++ [r.phase]
    inputIds := out.inputIds ++ r.tokens
    positions := out.positions ++ (List.range r.tokens.length).map (start + ·)
    active := out.active ++ List.replicate r.tokens.length 1
    sampleInputRows := out.sampleInputRows ++ rows
    sampleOwners := out.sampleOwners ++
      rows.map fun _ => ⟨r.id, r.slot, r.generation, r.selection⟩
    pending := out.pending ++ [{
      request := r.id, slot := r.slot, generation := r.generation
      expectedFrontier := start, newFrontier := stop, completesPrompt
      sampleIndex := if completesPrompt then some out.sampleInputRows.length else none }] }

def planLoop (env : Env) : List Request → List Request → Plan → Plans Plan
  | _, [], out => pure out
  | prior, r :: rs, out => do
    let out ← planOne env prior r out
    planLoop env (prior ++ [r]) rs out

/-- `Vec::resize` with zeros -/
def resize (xs : List Nat) (n : Nat) : List Nat := xs.take n ++ List.replicate (n - xs.length) 0

/-- `plan_inner` up to its own check of the finished plan -/
def planFill (env : Env) (requests : List Request) (caps : Caps) (out : Plan) : Plans Plan := do
  require (env.rowCapacity > 0 ∧ env.maxCtx > 0) "zero capacity"
  require (env.frontiers.length = env.generations.length)
    "frontier and generation tables disagree on slot capacity"
  require (caps.inputIds ≥ env.rowCapacity ∧ caps.positions ≥ env.rowCapacity ∧
      caps.active ≥ env.rowCapacity ∧ caps.spans ≥ requests.length ∧
      caps.phases ≥ requests.length ∧ caps.sampleInputRows ≥ requests.length ∧
      caps.sampleOwners ≥ requests.length ∧ caps.pending ≥ requests.length)
    "output buffer capacity"
  let out ← planLoop env [] (order requests) out
  let realRows ← tryU32 out.inputIds.length "real rows"
  pure { out with
    inputIds := resize out.inputIds env.rowCapacity
    positions := resize out.positions env.rowCapacity
    active := resize out.active env.rowCapacity
    rowCapacity := env.rowCapacity
    realRows
    sampleRows := out.sampleInputRows.length }

def planInner (env : Env) (requests : List Request) (caps : Caps) (out : Plan) : Plans Plan := do
  let out ← planFill env requests caps out
  match validate out.batch with
  | .ok () => pure out
  | .error (.refused r) => .error ("token batch: " ++ r.text)
  -- no result of the source: the check does not panic (`validate_planFill`)
  | .error .panic => .error "panic"

/-- The plan in the caller's buffer: the result, and what the buffer holds after the call. -/
def planInto (env : Env) (requests : List Request) (caps : Caps) (out : Plan) : Plans Unit × Plan :=
  match planInner env requests caps out.clear with
  | .ok out => (.ok (), out)
  | .error e => (.error e, out.clear)

/-- `Plan::with_capacity` -/
def Caps.withCapacity (rowCapacity requestCapacity : Nat) : Caps :=
  ⟨rowCapacity, rowCapacity, rowCapacity, requestCapacity, requestCapacity, requestCapacity,
    requestCapacity, requestCapacity⟩

def plan (env : Env) (requests : List Request) : Plans Plan :=
  match planInto env requests (.withCapacity env.rowCapacity requests.length) .empty with
  | (.ok (), out) => .ok out
  | (.error e, _) => .error e

end Plow.TokenBatch
