import Plow.TokenBatch.Model

/-!
# The mixed-step planner

The planner of one combined dispatch: decode requests and prefill requests in one row matrix,
under an explicit span cover.  `planIntoCover` plans from decode and prefill requests,
`planRequestsIntoCover` from the request contract of the token batch.

Values are modelled as in `Plow.TokenBatch.Model`.  `i32::try_from` is `tryI32`; `decode_slots`
holds integers.

Left out: the section format and the capability checks.
-/

namespace Plow.MixedStep
open Plow.TokenBatch (Plans PrefillSpan prefillSpanResetState checkedAdd okOrErr Request Phase)

def prefillSpanDecode : Nat := 2
def prefillSpanSample : Nat := 4

inductive RowPhase where
  | decode
  | prefill
  | parked
  deriving DecidableEq, Repr

/-- One dense activation row. -/
structure Row where
  token : Nat
  slot : Nat
  stateSlot : Nat
  position : Nat
  kvLen : Nat
  phase : RowPhase
  deriving DecidableEq, Repr

structure DecodeRequest where
  slot : Nat
  stateSlot : Nat
  token : Nat
  deriving DecidableEq, Repr

structure PrefillRequest where
  slot : Nat
  stateSlot : Nat
  start : Nat
  tokens : List Nat
  promptLen : Nat
  deriving DecidableEq, Repr

/-- How the span table covers the packed rows. -/
inductive SpanCover where
  | decodeBand
  | prefixFree
  | slotBand (band : Nat)
  deriving DecidableEq, Repr

structure Commit where
  slot : Nat
  expect : Nat
  after : Nat
  deriving DecidableEq, Repr

structure Plan where
  decodeRows : Nat
  realRows : Nat
  rows : List Row
  decodeSlots : List Int
  sampleInputRows : List Nat
  prefillSpans : List PrefillSpan
  parked : List Nat
  mappedEnds : List (Nat × Nat)
  cover : SpanCover
  commits : List Commit
  deriving DecidableEq, Repr

namespace Plan

def empty : Plan := ⟨0, 0, [], [], [], [], [], [], .decodeBand, []⟩

def clear (_p : Plan) : Plan := empty

end Plan

/-- the capacities of a plan's vectors -/
structure Caps where
  rows : Nat
  decodeSlots : Nat
  sampleInputRows : Nat
  prefillSpans : Nat
  parked : Nat
  mappedEnds : Nat
  commits : Nat

/-- What the planner is called with. -/
structure Env where
  frontiers : List Nat
  rows : Nat
  maxCtx : Nat
  auxiliaryProgram : Nat

def require (ok : Bool) (reason : String) : Plans Unit :=
  if ok then .ok () else .error ("mixed step: " ++ reason)

def tryU32 (n : Nat) (reason : String) : Plans Nat :=
  if n < 2 ^ 32 then .ok n else .error ("mixed step: " ++ reason)

def tryI32 (n : Nat) (reason : String) : Plans Int :=
  if n < 2 ^ 31 then .ok n else .error ("mixed step: " ++ reason)

/-- `as i32` -/
def asI32 (n : Nat) : Int := (n : Int).bmod (2 ^ 32)

def resetFlag (start : Nat) : Nat := if start = 0 then prefillSpanResetState else 0

/-! ### Decode band and prefix-free -/

/-- one turn of the decode loop; `prior` are the requests of the turns before -/
def decodeOne (env : Env) (prefixFree : Bool) (prior : List DecodeRequest) (r : DecodeRequest)
    (out : Plan) : Plans Plan := do
  require (r.slot < env.frontiers.length ∧ r.stateSlot < env.frontiers.length ∧
      (!prior.any fun p => p.slot = r.slot) ∧ !prior.any fun p => p.stateSlot = r.stateSlot)
    "physical/state slot or duplicate"
  let position := env.frontiers.getD r.slot 0
  let kvLen ← okOrErr (checkedAdd position 1) "mixed step: decode position overflow"
  require (kvLen ≤ env.maxCtx ∧ out.rows.length < env.rows) "decode extent"
  let sampled ← tryI32 r.slot "physical slot overflow"
  let row0 ← if prefixFree then tryU32 prior.length "decode row offset" else pure 0
  let span : PrefillSpan := {
    row0, nRows := 1, slot := r.slot
    flags := resetFlag position ||| prefillSpanDecode ||| prefillSpanSample
    kvRow0 := position, kvLen, stateSlot := r.stateSlot, program := env.auxiliaryProgram }
  pure { out with
    rows := out.rows ++ [⟨r.token, r.slot, r.stateSlot, position, kvLen, .decode⟩]
    decodeSlots := out.decodeSlots ++ [sampled]
    sampleInputRows := out.sampleInputRows ++ [prior.length]
    prefillSpans := if prefixFree then out.prefillSpans ++ [span] else out.prefillSpans
    commits := out.commits ++ [⟨r.slot, position, kvLen⟩]
    mappedEnds := out.mappedEnds ++ [(r.slot, kvLen)] }

def decodeLoop (env : Env) (prefixFree : Bool) :
    List DecodeRequest → List DecodeRequest → Plan → Plans Plan
  | _, [], out => pure out
  | prior, r :: rs, out => do
    let out ← decodeOne env prefixFree prior r out
    decodeLoop env prefixFree (prior ++ [r]) rs out

/-- the rows of a chunk, from `start` on -/
def chunkRows (slot stateSlot start : Nat) (tokens : List Nat) : List Row :=
  tokens.zipIdx.map fun (token, offset) =>
    ⟨token, slot, stateSlot, start + offset, start + offset + 1, .prefill⟩

def sampledSlot (completes : Bool) (slot : Nat) : Plans (Option Int) :=
  if completes then (tryI32 slot "physical slot overflow").map some else .ok none

/-- one turn of the prefill loop -/
def prefillOne (env : Env) (prefixFree : Bool) (decode : List DecodeRequest)
    (prior : List PrefillRequest) (r : PrefillRequest) (out : Plan) : Plans Plan := do
  let duplicatePhysical := (decode.any fun p => p.slot = r.slot) || prior.any fun p => p.slot = r.slot
  let duplicateState :=
    (decode.any fun p => p.stateSlot = r.stateSlot) || prior.any fun p => p.stateSlot = r.stateSlot
  require (r.slot < env.frontiers.length ∧ r.stateSlot < env.frontiers.length ∧
      !duplicatePhysical ∧ !duplicateState)
    "physical/state slot or duplicate"
  let nRows ← tryU32 r.tokens.length "prefill row count"
  let stop ← okOrErr (checkedAdd r.start nRows) "mixed step: prefill extent overflow"
  let completes := prefixFree && stop == r.promptLen
  require (nRows > 0 ∧ r.start = env.frontiers.getD r.slot 0 ∧ stop ≤ r.promptLen ∧
      stop ≤ env.maxCtx ∧ out.rows.length + r.tokens.length ≤ env.rows)
    "prefill frontier or extent"
  let row0 ← tryU32 out.rows.length "prefill row offset"
  let span : PrefillSpan := {
    row0, nRows, slot := r.slot
    flags := resetFlag r.start ||| if completes then prefillSpanSample else 0
    kvRow0 := r.start, kvLen := stop, stateSlot := r.stateSlot, program := env.auxiliaryProgram }
  let sampled ← sampledSlot completes r.slot
  pure { out with
    prefillSpans := out.prefillSpans ++ [span]
    rows := out.rows ++ chunkRows r.slot r.stateSlot r.start r.tokens
    decodeSlots := out.decodeSlots ++ sampled.toList
    sampleInputRows := out.sampleInputRows ++ if completes then [row0 + nRows - 1] else []
    commits := out.commits ++ [⟨r.slot, r.start, stop⟩]
    mappedEnds := out.mappedEnds ++ [(r.slot, stop)] }

def prefillLoop (env : Env) (prefixFree : Bool) (decode : List DecodeRequest) :
    List PrefillRequest → List PrefillRequest → Plan → Plans Plan
  | _, [], out => pure out
  | prior, r :: rs, out => do
    let out ← prefillOne env prefixFree decode prior r out
    prefillLoop env prefixFree decode (prior ++ [r]) rs out

/-- the first entry of the slot ends at `stop` -/
def setEnd (slot stop : Nat) : List (Nat × Nat) → Option (List (Nat × Nat))
  | [] => none
  | e :: es => if e.1 = slot then some ((slot, stop) :: es) else (setEnd slot stop es).map (e :: ·)

/-- the padding rows behind a row at `position` -/
def padRows (slot stateSlot position pad : Nat) : List Row :=
  (List.range pad).map fun offset =>
    ⟨0, slot, stateSlot, position + 1 + offset, position + 1 + offset + 1, .parked⟩

def padEnds (slot stop pad : Nat) (ends : List (Nat × Nat)) : Plans (List (Nat × Nat)) :=
  if pad > 0 then okOrErr (setEnd slot stop ends) "mixed step: padding owner mapping" else .ok ends

/-- what follows the two loops: the padding and the counts -/
def finish (env : Env) (out : Plan) : Plans Plan := do
  let realRows ← tryU32 out.rows.length "real rows"
  let owner ← okOrErr out.rows.getLast? "mixed step: padding owner"
  let pad := env.rows - out.rows.length
  let paddedEnd ← okOrErr ((checkedAdd owner.position 1).bind fun stop => checkedAdd stop pad)
    "mixed step: padding extent overflow"
  require (paddedEnd ≤ env.maxCtx) "padding exceeds physical context"
  let mappedEnds ← padEnds owner.slot paddedEnd pad out.mappedEnds
  let decodeRows ← tryU32 out.decodeSlots.length "sampled row count"
  pure { out with
    parked := List.replicate realRows 0 ++ List.replicate (env.rows - realRows) 1
    rows := out.rows ++ padRows owner.slot owner.stateSlot owner.position pad
    mappedEnds, decodeRows, realRows }

/-! ### The slot band -/

/-- a decode request takes its slot's band row -/
def bandDecodeOne (env : Env) (band : Nat) (prior : List DecodeRequest) (r : DecodeRequest)
    (out : Plan) : Plans Plan := do
  require (r.slot < env.frontiers.length ∧ r.slot < band ∧ r.stateSlot = r.slot ∧
      !prior.any fun p => p.slot = r.slot)
    "physical/state slot or duplicate"
  let position := env.frontiers.getD r.slot 0
  let kvLen ← okOrErr (checkedAdd position 1) "mixed step: decode position overflow"
  require (kvLen ≤ env.maxCtx) "decode extent"
  pure { out with
    rows := out.rows.set r.slot ⟨r.token, r.slot, r.stateSlot, position, kvLen, .decode⟩
    parked := out.parked.set r.slot 0
    commits := out.commits ++ [⟨r.slot, position, kvLen⟩]
    mappedEnds := out.mappedEnds ++ [(r.slot, kvLen)] }

def bandDecodeLoop (env : Env) (band : Nat) :
    List DecodeRequest → List DecodeRequest → Plan → Plans Plan
  | _, [], out => pure out
  | prior, r :: rs, out => do
    let out ← bandDecodeOne env band prior r out
    bandDecodeLoop env band (prior ++ [r]) rs out

/-- the rows of a chunk behind the band -/
def bandBody (env : Env) (r : PrefillRequest) (body : List Nat) (out : Plan) : Plans Plan :=
  if body = [] then pure out
  else do
    require (out.rows.length + body.length ≤ env.rows) "prefill extent"
    let row0 ← tryU32 out.rows.length "prefill row offset"
    let bodyRows ← tryU32 body.length "body row count"
    let span : PrefillSpan := {
      row0, nRows := bodyRows, slot := r.slot, flags := resetFlag r.start
      kvRow0 := r.start, kvLen := r.start + bodyRows, stateSlot := r.stateSlot
      program := env.auxiliaryProgram }
    pure { out with
      prefillSpans := out.prefillSpans ++ [span]
      rows := out.rows ++ chunkRows r.slot r.stateSlot r.start body }

/-- a chunk; the last token of a completing prompt takes its slot's band row -/
def bandPrefillOne (env : Env) (band : Nat) (decode : List DecodeRequest)
    (prior : List PrefillRequest) (r : PrefillRequest) (out : Plan) : Plans Plan := do
  let duplicate := (decode.any fun p => p.slot = r.slot) || prior.any fun p => p.slot = r.slot
  require (r.slot < env.frontiers.length ∧ r.stateSlot = r.slot ∧ !duplicate)
    "physical/state slot or duplicate"
  let nRows ← tryU32 r.tokens.length "prefill row count"
  let stop ← okOrErr (checkedAdd r.start nRows) "mixed step: prefill extent overflow"
  require (nRows > 0 ∧ r.start = env.frontiers.getD r.slot 0 ∧ stop ≤ r.promptLen ∧
      stop ≤ env.maxCtx)
    "prefill frontier or extent"
  let completes := stop == r.promptLen
  require (!completes || r.slot < band) "completing prompt's slot is outside the band"
  let body := if completes then r.tokens.dropLast else r.tokens
  let claimed := if completes then { out with
      rows := out.rows.set r.slot
        ⟨r.tokens.getLastD 0, r.slot, r.stateSlot, stop - 1, stop, .decode⟩
      parked := out.parked.set r.slot 0 }
    else out
  let out ← bandBody env r body claimed
  pure { out with
    commits := out.commits ++ [⟨r.slot, r.start, stop⟩]
    mappedEnds := out.mappedEnds ++ [(r.slot, stop)] }

def bandPrefillLoop (env : Env) (band : Nat) (decode : List DecodeRequest) :
    List PrefillRequest → List PrefillRequest → Plan → Plans Plan
  | _, [], out => pure out
  | prior, r :: rs, out => do
    let out ← bandPrefillOne env band decode prior r out
    bandPrefillLoop env band decode (prior ++ [r]) rs out

/-- the padding behind the last span row -/
def bandPad (env : Env) (out : Plan) : Plans Plan :=
  let pad := env.rows - out.rows.length
  if pad = 0 then pure out
  else
    match out.prefillSpans.getLast? with
    | some span => do
      let position := span.kvLen - 1
      let paddedEnd ← okOrErr ((checkedAdd position 1).bind fun stop => checkedAdd stop pad)
        "mixed step: padding extent overflow"
      require (paddedEnd ≤ env.maxCtx) "padding exceeds physical context"
      let mappedEnds ← okOrErr (setEnd span.slot paddedEnd out.mappedEnds)
        "mixed step: padding owner mapping"
      pure { out with
        rows := out.rows ++ padRows span.slot span.stateSlot position pad
        mappedEnds }
    | none => pure { out with rows := out.rows ++ List.replicate pad ⟨0, 0, 0, 0, 1, .parked⟩ }

def bandSampled (out : Plan) (band : Nat) : List Nat :=
  (List.range band).filter fun slot => out.parked.getD slot 1 = 0

def planSlotBandInner (env : Env) (decode : List DecodeRequest) (prefill : List PrefillRequest)
    (band : Nat) (caps : Caps) (out : Plan) : Plans Plan := do
  require (band > 0 ∧ band ≤ env.rows) "slot band width outside the row capacity"
  let active := decode.length + prefill.length
  require (caps.rows ≥ env.rows ∧ caps.prefillSpans ≥ prefill.length ∧
      caps.decodeSlots ≥ min band active ∧ caps.sampleInputRows ≥ min band active ∧
      caps.parked ≥ env.rows ∧ caps.commits ≥ active ∧ caps.mappedEnds ≥ active)
    "output buffer capacity"
  let out := { out with
    parked := List.replicate env.rows 1
    rows := (List.range band).map fun slot => ⟨0, slot, slot, 0, 1, .parked⟩ }
  let out ← bandDecodeLoop env band [] decode out
  let out ← bandPrefillLoop env band decode [] prefill out
  let sampled := bandSampled out band
  let realRows ← tryU32 out.rows.length "real rows"
  let out := { out with
    decodeSlots := sampled.map asI32
    sampleInputRows := sampled
    parked := out.parked.take band ++ List.replicate (realRows - band) 0 ++
      out.parked.drop realRows }
  let out ← bandPad env out
  pure { out with decodeRows := band, realRows }

/-! ### The planners -/

def planIntoInner (env : Env) (decode : List DecodeRequest) (prefill : List PrefillRequest)
    (cover : SpanCover) (caps : Caps) (out : Plan) : Plans Plan := do
  require ((decode ≠ [] ∨ prefill ≠ []) ∧ env.rows > 0 ∧ env.maxCtx > 0) "empty work or capacity"
  require (decode.length + prefill.length ≤ env.frontiers.length) "active request capacity"
  match cover with
  | .slotBand band => planSlotBandInner env decode prefill band caps out
  | _ => do
    let active := decode.length + prefill.length
    let prefixFree : Bool := cover = .prefixFree
    let spanCapacity := if prefixFree then active else prefill.length
    let leadingCapacity := if prefixFree then active else decode.length
    require (caps.rows ≥ env.rows ∧ caps.prefillSpans ≥ spanCapacity ∧
        caps.decodeSlots ≥ leadingCapacity ∧ caps.sampleInputRows ≥ leadingCapacity ∧
        caps.parked ≥ env.rows ∧ caps.commits ≥ active ∧ caps.mappedEnds ≥ active)
      "output buffer capacity"
    let out ← decodeLoop env prefixFree [] decode out
    let out ← prefillLoop env prefixFree decode [] prefill out
    finish env out

/-- The plan in the caller's buffer: the result, and what the buffer holds after the call. -/
def planIntoCover (env : Env) (decode : List DecodeRequest) (prefill : List PrefillRequest)
    (cover : SpanCover) (caps : Caps) (out : Plan) : Plans Unit × Plan :=
  match planIntoInner env decode prefill cover caps { out.clear with cover } with
  | .ok out => (.ok (), out)
  | .error e => (.error e, out.clear)

/-- `plan_into`: mixed step v1's shape -/
def planInto (env : Env) (decode : List DecodeRequest) (prefill : List PrefillRequest)
    (caps : Caps) (out : Plan) : Plans Unit × Plan :=
  planIntoCover env decode prefill .decodeBand caps out

/-- the requests in the planner's two lists -/
structure Split where
  decode : List DecodeRequest
  prefill : List PrefillRequest

/-- one turn of the partition of the requests -/
def splitOne (env : Env) (generations : List Nat) (prior : List Request) (r : Request)
    (lists : Split) : Plans Split := do
  r.selection.validate
  require (r.slot < env.frontiers.length) "physical slot outside capacity"
  require (generations.getD r.slot 0 = r.generation)
    "slot generation does not match the admitted request"
  require (!prior.any fun p => p.id = r.id) "duplicate request id"
  let start := env.frontiers.getD r.slot 0
  match r.phase with
  | .decode => do
    require (r.tokens.length = 1 ∧ start ≥ r.promptLen ∧ r.promptLen > 0)
      "decode span must be one token at or past the prompt end"
    pure { lists with decode := lists.decode ++ [⟨r.slot, r.stateSlot, r.tokens.headD 0⟩] }
  | .prefill => do
    let nRows ← tryU32 r.tokens.length "prefill row count"
    let stop ← okOrErr (checkedAdd start nRows) "mixed step: prefill extent overflow"
    require (stop ≤ r.promptLen) "prefill span overruns the prompt"
    pure { lists with
      prefill := lists.prefill ++ [⟨r.slot, r.stateSlot, start, r.tokens, r.promptLen⟩] }
  | .verify => .error "mixed step: verify spans run only in the unified token batch"

def splitLoop (env : Env) (generations : List Nat) :
    List Request → List Request → Split → Plans Split
  | _, [], lists => pure lists
  | prior, r :: rs, lists => do
    let lists ← splitOne env generations prior r lists
    splitLoop env generations (prior ++ [r]) rs lists

/-- the partition of the requests -/
def partition (env : Env) (generations : List Nat) (requests : List Request) : Plans Split := do
  require (env.frontiers.length = generations.length)
    "frontier and generation tables disagree on slot capacity"
  splitLoop env generations [] requests ⟨[], []⟩

def sampled (env : Env) (r : Request) : Bool :=
  r.phase = .decode || env.frontiers.getD r.slot 0 + r.tokens.length == r.promptLen

/-- the ids of the sampled rows, in the order of the cover -/
def ownersOf (env : Env) (cover : SpanCover) (requests : List Request) : List Nat :=
  match cover with
  | .slotBand _ =>
    ((requests.filter (sampled env)).map fun r => (r.slot, r.id)).mergeSort
      (fun a b => a.1 < b.1 ∨ a.1 = b.1 ∧ a.2 ≤ b.2) |>.map (·.2)
  | _ =>
    (requests.filter (·.phase = .decode)).map (·.id) ++
      (requests.filter fun r => r.phase = .prefill && sampled env r).map (·.id)

/-- the owners agree with the plan's sampled slots -/
def consistent (requests : List Request) (owners : List Nat) (decodeSlots : List Int) : Bool :=
  owners.length = decodeSlots.length && (owners.zip decodeSlots).all fun (id, slot) =>
    requests.any fun r => r.id = id && r.slot < 2 ^ 31 && (r.slot : Int) = slot

/-- The result, the plan's buffer and the owners' buffer after the call. -/
def planRequestsIntoCover (env : Env) (generations : List Nat) (requests : List Request)
    (cover : SpanCover) (caps : Caps) (out : Plan) (owners : List Nat) :
    Plans Unit × Plan × List Nat :=
  if cover = .decodeBand then
    (.error "mixed step: the decode band cannot sample a completing prompt", out, owners)
  else
    match partition env generations requests with
    | .error e => (.error e, out.clear, [])
    | .ok lists =>
      match planIntoCover env lists.decode lists.prefill cover caps out.clear with
      | (.error e, out) => (.error e, out, [])
      | (.ok (), out) =>
        let owners := ownersOf env cover requests
        if consistent requests owners out.decodeSlots then (.ok (), out, owners)
        else (.error "mixed step: leading-row owners disagree with the plan", out.clear, [])

/-- `plan_requests_into`: the prefix-free planner -/
def planRequestsInto (env : Env) (generations : List Nat) (requests : List Request) (caps : Caps)
    (out : Plan) (owners : List Nat) : Plans Unit × Plan × List Nat :=
  planRequestsIntoCover env generations requests .prefixFree caps out owners

end Plow.MixedStep
