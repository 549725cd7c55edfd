import Plow.TokenBatch.Resolver

/-!
# The device resolver

`runtime/common/token_batch.h`: the same checks and the same search in C.  A descriptor points to
its arrays, a pointer is `none` when it is null, and `at32` reads through one.  A `uint32_t` is a
natural number below `2^32` and its sums wrap (`wrap`).  A C function ends without a value when it
returns a refusal code early, traps, or reads outside an array (`Exit`).

Left out: the null check of the descriptor pointer itself (`PLOW_TB_E_NULL`), which has no
counterpart on the host, and `plow_token_row_checked`, which is `plow_token_batch_validate` and then
`plow_token_row`.
-/

namespace Plow.TokenBatch
open Plow.Lib

structure PlowTokenBatch where
  version : Nat
  rowCapacity : Nat
  realRows : Nat
  sampleRows : Nat
  nSpans : Nat
  flags : Nat
  pad0 : Nat
  pad1 : Nat
  spans : Option (List PrefillSpan)
  inputIds : Option (List Nat)
  positions : Option (List Nat)
  active : Option (List Nat)
  sampleRowsIdx : Option (List Nat)
  deriving DecidableEq, Repr

def tokenBatchVersion : Nat := 1

def eNull : Int := -1
def eVersion : Int := -2
def eFlags : Int := -3
def eCapacity : Int := -4
def eSpans : Int := -5
def eCover : Int := -6
def ePosition : Int := -7
def eActive : Int := -8
def eKvLen : Int := -9
def eSample : Int := -10
def eRow : Int := -11

inductive Exit where
  | code (rc : Int)
  | trap
  /-- a read through a null pointer or outside an array -/
  | wild
  deriving DecidableEq, Repr

abbrev Dev := Except Exit

def ret {α : Type} (rc : Int) : Dev α := .error (.code rc)

def trap {α : Type} : Dev α := .error .trap

/-- `p[i]` -/
def at32 {α : Type} (p : Option (List α)) (i : Nat) : Dev α :=
  match p with
  | none => .error .wild
  | some xs =>
    match xs[i]? with
    | some x => .ok x
    | none => .error .wild

def wrap (n : Nat) : Nat := n % 2 ^ 32

/-- `plow_token_batch_check` -/
def plowTokenBatchCheck (tb : PlowTokenBatch) : Dev Unit :=
  if tb.version ≠ tokenBatchVersion then ret eVersion
  else if tb.flags ≠ 0 ∨ tb.pad0 ≠ 0 ∨ tb.pad1 ≠ 0 then ret eFlags
  else if tb.rowCapacity = 0 ∨ tb.realRows > tb.rowCapacity then ret eCapacity
  else if tb.inputIds = none ∨ tb.positions = none ∨ tb.active = none then ret eNull
  else if tb.realRows ≠ 0 ∧ (tb.spans = none ∨ tb.nSpans = 0) then ret eSpans
  else if tb.realRows = 0 ∧ tb.nSpans ≠ 0 then ret eSpans
  else if tb.nSpans > tb.realRows then ret eCover
  else if tb.sampleRows ≠ 0 ∧ tb.sampleRowsIdx = none then ret eNull
  else if tb.sampleRows > tb.realRows then ret eSample
  else .ok ()

def orTrap (x : Dev Unit) : Dev Unit :=
  match x with
  | .ok () => .ok ()
  | .error _ => trap

/-- where the predecessor of the span `i` ends -/
def priorEnd (tb : PlowTokenBatch) (i : Nat) : Dev Nat :=
  if i = 0 then pure 0
  else do
    let prior ← at32 tb.spans (i - 1)
    pure (wrap (prior.row0 + prior.nRows))

/-- `plow_token_span`: the span, with its own invariants proven before it is returned -/
def plowTokenSpan (tb : PlowTokenBatch) (i : Nat) : Dev PrefillSpan := do
  orTrap (plowTokenBatchCheck tb)
  if i ≥ tb.nSpans then trap
  else
    let span ← at32 tb.spans i
    let stop := wrap (span.row0 + span.nRows)
    if span.nRows = 0 ∨ stop < span.row0 ∨ stop > tb.realRows then trap
    else
      let before ← priorEnd tb i
      if before ≠ span.row0 then trap
      else if span.kvLen ≠ wrap (span.kvRow0 + span.nRows) ∨ span.kvLen < span.kvRow0 then trap
      else if wrap (i + 1) = tb.nSpans ∧ stop ≠ tb.realRows then trap
      else pure span

/-- the search loop of `plow_token_row` -/
def searchSpans (tb : PlowTokenBatch) (row lo hi : Nat) : Dev Nat :=
  if lo < hi then do
    let mid := lo + (hi - lo) / 2
    let span ← at32 tb.spans mid
    if span.row0 ≤ row then searchSpans tb row (mid + 1) hi else searchSpans tb row lo mid
  else .ok lo
termination_by hi - lo

/-- `PlowTokenRow`; the span is the index of what its pointer points to -/
structure PlowTokenRow where
  span : Option Nat
  localRow : Nat
  slot : Nat
  stateSlot : Nat
  position : Nat
  active : Nat
  deriving DecidableEq, Repr

/-- `plow_token_row` -/
def plowTokenRow (tb : PlowTokenBatch) (row : Nat) : Dev PlowTokenRow := do
  orTrap (plowTokenBatchCheck tb)
  if row ≥ tb.rowCapacity then trap
  else if row ≥ tb.realRows then do
    let active ← at32 tb.active row
    if active ≠ 0 then trap else pure ⟨none, 0, 0, 0, 0, 0⟩
  else
    let active ← at32 tb.active row
    if active = 0 then trap
    else
      let lo ← searchSpans tb row 0 tb.nSpans
      if lo = 0 then trap
      else
        let span ← plowTokenSpan tb (lo - 1)
        let loc := row - span.row0
        if loc ≥ span.nRows then trap
        else
          let position := wrap (span.kvRow0 + loc)
          let there ← at32 tb.positions row
          if position < span.kvRow0 ∨ there ≠ position then trap
          else pure ⟨some (lo - 1), loc, span.slot, span.stateSlot, position, 1⟩

/-- `plow_token_sample_row` -/
def plowTokenSampleRow (tb : PlowTokenBatch) (s : Nat) : Dev Nat := do
  orTrap (plowTokenBatchCheck tb)
  if s ≥ tb.sampleRows then trap
  else
    let row ← at32 tb.sampleRowsIdx s
    if row ≥ tb.realRows then trap
    else
      let active ← at32 tb.active row
      if active = 0 then trap else pure row

/-- the rows `j, j + 1, …` of a span, `n` of them -/
def validateRows (tb : PlowTokenBatch) (span : PrefillSpan) : Nat → Nat → Dev Unit
  | 0, _ => .ok ()
  | n + 1, j => do
    let row := wrap (span.row0 + j)
    let active ← at32 tb.active row
    if active = 0 then ret eActive
    else
      let position ← at32 tb.positions row
      if position ≠ wrap (span.kvRow0 + j) then ret ePosition
      else validateRows tb span n (j + 1)

/-- the spans `i, i + 1, …`, `n` of them, behind `next`; the result is where they end -/
def validateSpans (tb : PlowTokenBatch) : Nat → Nat → Nat → Dev Nat
  | 0, _, next => .ok next
  | n + 1, i, next => do
    let span ← at32 tb.spans i
    let stop := wrap (span.row0 + span.nRows)
    if span.nRows = 0 ∨ stop < span.row0 ∨ stop > tb.realRows then ret eCover
    else if span.row0 ≠ next then ret eCover
    else if span.kvLen ≠ wrap (span.kvRow0 + span.nRows) ∨ span.kvLen < span.kvRow0 then ret eKvLen
    else
      validateRows tb span span.nRows 0
      validateSpans tb n (i + 1) stop

def validatePadding (tb : PlowTokenBatch) : Nat → Nat → Dev Unit
  | 0, _ => .ok ()
  | n + 1, row => do
    let active ← at32 tb.active row
    if active ≠ 0 then ret eActive else validatePadding tb n (row + 1)

/-- the sample indices `s, s + 1, …`, `n` of them -/
def validateSamples (tb : PlowTokenBatch) : Nat → Nat → Dev Unit
  | 0, _ => .ok ()
  | n + 1, s => do
    let row ← at32 tb.sampleRowsIdx s
    if row ≥ tb.realRows then ret eSample
    else
      let active ← at32 tb.active row
      if active = 0 then ret eSample else validateSamples tb n (s + 1)

/-- `plow_token_batch_validate` -/
def plowTokenBatchValidate (tb : PlowTokenBatch) : Dev Unit := do
  plowTokenBatchCheck tb
  let next ← validateSpans tb tb.nSpans 0 0
  if next ≠ tb.realRows then ret eCover
  else
    validatePadding tb (tb.rowCapacity - tb.realRows) tb.realRows
    validateSamples tb tb.sampleRows 0

end Plow.TokenBatch
