import Plow.MixedStep.Admission

/-!
# The validators of a plan

`validateSlotBand` checks a slot-band plan against what a token-batch body program executes,
`Variant.validatePlan` a decode-band plan against the variant of a packet it is to run on.  Both
restate the layout without looking at the requests.

An index outside a table is the error `outOfBounds`, where the source stops.  Of a variant only its
geometry and the index of its program are modelled.
-/

namespace Plow.MixedStep
open Plow.Lib
open Plow.TokenBatch (Plans PrefillSpan prefillSpanResetState checkedAdd okOrErr)

def outOfBounds : String := "index out of bounds"

def checkAll {α : Type} (f : α → Plans Unit) : List α → Plans Unit
  | [] => pure ()
  | a :: as => do
    f a
    checkAll f as

theorem checkAll_ok {α : Type} {f : α → Plans Unit} {as : List α} :
    checkAll f as = .ok () ↔ ∀ a ∈ as, f a = .ok () := by
  induction as with
  | nil => exact ⟨fun _ a ha => absurd ha List.not_mem_nil, fun _ => rfl⟩
  | cons a as ih =>
    show (f a >>= fun _ => checkAll f as) = .ok () ↔ _
    rw [bind_ok, List.forall_mem_cons, ← ih]
    exact ⟨fun ⟨⟨⟩, h1, h2⟩ => ⟨h1, h2⟩, fun ⟨h1, h2⟩ => ⟨(), h1, h2⟩⟩

/-! ### The slot band -/

/-- the check of one band row; its slot, if the row is sampled -/
def validateBandRow (plan : Plan) (maxCtx t : Nat) : Plans (Option Nat) := do
  let row ← okOrErr plan.rows[t]? outOfBounds
  require (row.slot = t ∧ row.stateSlot = t) "band row is not on its own slot"
  match plan.parked[t]?, row.phase with
  | some 1, .parked => pure none
  | some 0, .decode => do
    require (row.kvLen = (row.position + 1) % 2 ^ 32 ∧ row.kvLen ≤ maxCtx) "active band row extent"
    pure (some t)
  | _, _ => .error "mixed step: band row phase disagrees with its parked bit"

def validateBandRows (plan : Plan) (maxCtx : Nat) : List Nat → Plans (List Nat)
  | [] => pure []
  | t :: ts => do
    let s ← validateBandRow plan maxCtx t
    let rest ← validateBandRows plan maxCtx ts
    pure (s.toList ++ rest)

/-- a terminal row in the band and the body span of its slot -/
def validatePair (plan : Plan) (band : Nat) (span : PrefillSpan) : Plans Unit :=
  if span.slot < band ∧ plan.parked[span.slot]? = some 0 then do
    let row ← okOrErr plan.rows[span.slot]? outOfBounds
    require (row.position = span.kvLen)
      "band row and body span on one slot are not a terminal/body pair"
  else pure ()

def validateBodyRow (plan : Plan) (span : PrefillSpan) (i : Nat) : Plans Unit := do
  let r ← okOrErr plan.rows[span.row0 + i]? outOfBounds
  require (r.slot = span.slot ∧ r.position = span.kvRow0 + i ∧ r.phase = .prefill ∧
      plan.parked[span.row0 + i]? = some 0)
    "span row disagrees with its span"

/-- the spans behind `prior`, the first of them from row `row` on; the row they end at -/
def validateBodySpans (plan : Plan) (slotCapacity maxCtx band : Nat) :
    List PrefillSpan → List PrefillSpan → Nat → Plans Nat
  | _, [], row => pure row
  | prior, span :: spans, row => do
    require (span.row0 = row ∧ span.nRows > 0) "span is not dense after the band"
    require (span.flags &&& (2 ^ 32 - 1 - prefillSpanResetState) = 0 ∧
        (span.flags &&& prefillSpanResetState ≠ 0 ↔ span.kvRow0 = 0))
      "span flags"
    let kvEnd ← okOrErr (checkedAdd span.kvRow0 span.nRows) "mixed step: span KV range overflow"
    require (kvEnd = span.kvLen ∧ kvEnd ≤ maxCtx) "span kv_row0 + n_rows != kv_len or past context"
    require (span.slot < slotCapacity ∧ span.slot = span.stateSlot)
      "span slot outside capacity or split from its state slot"
    require (!prior.any fun p => p.slot = span.slot) "slot appears in more than one span"
    validatePair plan band span
    checkAll (validateBodyRow plan span) (List.range span.nRows)
    let row ← okOrErr (checkedAdd row span.nRows) "mixed step: span rows overflow"
    validateBodySpans plan slotCapacity maxCtx band (prior ++ [span]) spans row

def validateSlotBand (plan : Plan) (slotCapacity maxCtx : Nat) : Plans Unit :=
  match plan.cover with
  | .slotBand band => do
    let capacity := plan.rows.length
    require (band > 0 ∧ band ≤ slotCapacity ∧ band ≤ capacity)
      "slot band wider than the slot or row capacity"
    require (plan.parked.length = capacity ∧ plan.parked.all (· ≤ 1))
      "parked mask is not a binary mask over every row"
    require (plan.realRows ≥ band ∧ plan.realRows ≤ capacity ∧ plan.decodeRows = band)
      "real rows or decode_rows disagree with the band"
    let sampled ← validateBandRows plan maxCtx (List.range band)
    require (plan.decodeSlots = sampled.map asI32) "sampled slots disagree with the active band rows"
    require (plan.sampleInputRows = sampled) "sample input rows disagree with the active band rows"
    let row ← validateBodySpans plan slotCapacity maxCtx band [] plan.prefillSpans band
    require (row = plan.realRows) "spans do not end at real_rows"
    require ((plan.parked.drop plan.realRows).all (· = 1) ∧
        (plan.rows.drop plan.realRows).all (·.phase = .parked))
      "padding is not parked"
  | _ => .error "mixed step: plan is not a slot-band plan"

/-! ### The decode band -/

structure Variant where
  rows : Nat
  decodeRows : Nat
  programIndex : Nat

def validateDecodeSlots (slots : List Int) (decodeRows capacity : Nat) : Plans Unit :=
  require (slots.length = decodeRows ∧ slots.all fun slot => 0 ≤ slot ∧ slot.toNat < capacity)
    "decode slot map"

def mappedEnd (parkedEnd : Option Nat) (owner : Row) (slot kvLen : Nat) : Nat :=
  if slot = owner.slot then parkedEnd.getD kvLen else kvLen

/-- the check of a decode row with its index -/
def validateDecodeRow (plan : Plan) (parkedEnd : Option Nat) (owner : Row) (capacity : Nat)
    (q : Row × Nat) : Plans Unit :=
  let prior := plan.rows.take q.2
  require (q.1.slot < capacity ∧ plan.decodeSlots[q.2]? = some (asI32 q.1.slot) ∧
      q.1.stateSlot < capacity ∧ (!prior.any fun p => p.slot = q.1.slot) ∧
      (!prior.any fun p => p.stateSlot = q.1.stateSlot) ∧
      plan.mappedEnds[q.2]? = some (q.1.slot, mappedEnd parkedEnd owner q.1.slot q.1.kvLen))
    "duplicate or out-of-range active slot"

def validatePrefillRow (span : PrefillSpan) (q : Row × Nat) : Plans Unit :=
  let position := span.kvRow0 + q.2
  require (q.1.phase = .prefill ∧ q.1.slot = span.slot ∧ q.1.stateSlot = span.stateSlot ∧
      q.1.position = position ∧ q.1.kvLen = position + 1)
    "prefill row coordinates"

/-- the spans behind `prior`, the first of them from row `next` on; the row they end at -/
def validateSpans (plan : Plan) (parkedEnd : Option Nat) (owner : Row) (capacity : Nat) :
    List PrefillSpan → List PrefillSpan → Nat → Plans Nat
  | _, [], next => pure next
  | prior, span :: spans, next => do
    let stop ← okOrErr (checkedAdd span.row0 span.nRows) "mixed step: prefill row overflow"
    let kvEnd ← okOrErr (checkedAdd span.kvRow0 span.nRows) "mixed step: prefill KV overflow"
    let decode := plan.rows.take plan.decodeRows
    let priorPhysical := (decode.any fun row => row.slot = span.slot) ||
      prior.any fun p => p.slot = span.slot
    let priorState := (decode.any fun row => row.stateSlot = span.stateSlot) ||
      prior.any fun p => p.stateSlot = span.stateSlot
    require (span.row0 = next ∧ span.nRows > 0 ∧ stop ≤ plan.realRows ∧ span.kvLen = kvEnd ∧
        span.flags = resetFlag span.kvRow0 ∧ span.slot < capacity ∧ span.stateSlot < capacity ∧
        !priorPhysical ∧ !priorState ∧
        plan.mappedEnds[plan.decodeRows + prior.length]? =
          some (span.slot, mappedEnd parkedEnd owner span.slot span.kvLen))
      "prefill span coverage"
    checkAll (validatePrefillRow span) ((plan.rows.drop span.row0).take span.nRows).zipIdx
    validateSpans plan parkedEnd owner capacity (prior ++ [span]) spans stop

def validateParkedRow (owner : Row) (q : Row × Nat) : Plans Unit := do
  let position ← okOrErr ((checkedAdd owner.position 1).bind fun p => checkedAdd p q.2)
    "mixed step: parked row overflow"
  let kvLen ← okOrErr (checkedAdd position 1) "mixed step: parked KV overflow"
  require (q.1.phase = .parked ∧ q.1.token = 0 ∧ q.1.slot = owner.slot ∧
      q.1.stateSlot = owner.stateSlot ∧ q.1.position = position ∧ q.1.kvLen = kvLen)
    "parked row coordinates"

def Variant.validatePlan (v : Variant) (plan : Plan) (maxActiveRequests capacity : Nat) :
    Plans Unit := do
  require (plan.rows.length = v.rows ∧ plan.decodeRows = v.decodeRows ∧
      plan.decodeRows ≤ plan.realRows ∧ plan.realRows ≤ v.rows ∧ plan.prefillSpans ≠ [] ∧
      plan.prefillSpans.length + plan.decodeRows ≤ maxActiveRequests ∧
      plan.prefillSpans.all (·.program = v.programIndex))
    "plan does not match variant"
  let owner ← okOrErr (if plan.realRows = 0 then none else plan.rows[plan.realRows - 1]?) outOfBounds
  let parkedEnd := if plan.realRows < plan.rows.length then plan.rows.getLast?.map (·.kvLen) else none
  require (plan.mappedEnds.length = plan.decodeRows + plan.prefillSpans.length) "mapped slot count"
  validateDecodeSlots plan.decodeSlots plan.decodeRows capacity
  let decode := plan.rows.take plan.decodeRows
  require (decode.all fun row => row.phase = .decode ∧
      row.kvLen = (checkedAdd row.position 1).getD 0)
    "decode row coordinates"
  checkAll (validateDecodeRow plan parkedEnd owner capacity) decode.zipIdx
  let next ← validateSpans plan parkedEnd owner capacity [] plan.prefillSpans plan.decodeRows
  require (next = plan.realRows) "real row coverage"
  checkAll (validateParkedRow owner) (plan.rows.drop plan.realRows).zipIdx
  require (plan.parked.length = plan.rows.length ∧ (plan.parked.take plan.realRows).all (· = 0) ∧
      (plan.parked.drop plan.realRows).all (· = 1))
    "parked suffix or mapping"

end Plow.MixedStep

/-!
# The rows of a sound plan

A plan is sound for the requests it was made from when its live rows, those whose parked bit is zero,
are the scheduled tokens, each once, on its own slot and at its own position, and every other row is
parked (`SoundPlan`).  A row that is not live writes no cache row, so no row but a request's own
writes to its slot.

The sampled rows are given as pairs of a slot and a row; the row is the last scheduled one of the
slot's request.
-/

namespace Plow.MixedStep
open Plow.Lib

def Row.key (r : Row) : Nat × Nat × Nat × Nat × Nat :=
  (r.token, r.slot, r.stateSlot, r.position, r.kvLen)

def Row.cell (r : Row) : Nat × Nat := (r.slot, r.position)

def decodeRow (env : Env) (d : DecodeRequest) : Row :=
  ⟨d.token, d.slot, d.stateSlot, env.frontiers.getD d.slot 0, env.frontiers.getD d.slot 0 + 1, .decode⟩

def chunkOf (p : PrefillRequest) : List Row := chunkRows p.slot p.stateSlot p.start p.tokens

def stopOf (p : PrefillRequest) : Nat := p.start + p.tokens.length

def scheduled (env : Env) (ds : List DecodeRequest) (ps : List PrefillRequest) : List Row :=
  ds.map (decodeRow env) ++ ps.flatMap chunkOf

def liveRows : List Row → List Nat → List Row
  | r :: rs, m :: ms => if m = 0 then r :: liveRows rs ms else liveRows rs ms
  | _, _ => []

/-- the row is the last scheduled one of a request that is sampled -/
def IsLast (env : Env) (sampling : Bool) (ds : List DecodeRequest) (ps : List PrefillRequest)
    (r : Row) : Prop :=
  (∃ d ∈ ds, r.key = (decodeRow env d).key) ∨
    ∃ p ∈ ps, sampling = true ∧ stopOf p = p.promptLen ∧ r.slot = p.slot ∧ r.position + 1 = stopOf p

/-- the sampled slots and rows of a plan -/
structure Samples (env : Env) (sampling : Bool) (ds : List DecodeRequest) (ps : List PrefillRequest)
    (p : Plan) (l : List (Nat × Nat)) : Prop where
  slots : p.decodeSlots = l.map fun q => asI32 q.1
  rows : p.sampleInputRows = l.map (·.2)
  small : ∀ q ∈ l, q.1 < 2 ^ 32
  last : ∀ q ∈ l, ∃ r, p.rows[q.2]? = some r ∧ r.slot = q.1 ∧ IsLast env sampling ds ps r
  every : (∀ d ∈ ds, d.slot ∈ l.map (·.1)) ∧
    ∀ q ∈ ps, sampling = true → stopOf q = q.promptLen → q.slot ∈ l.map (·.1)

structure SoundPlan (env : Env) (sampling : Bool) (ds : List DecodeRequest)
    (ps : List PrefillRequest) (p : Plan) : Prop where
  whole : p.rows.length = env.rows ∧ p.parked.length = env.rows
  mask : ∀ (i : Nat) (r : Row), p.rows[i]? = some r →
    (p.parked[i]? = some 0 ∧ r.phase ≠ .parked) ∨ (p.parked[i]? = some 1 ∧ r.phase = .parked)
  rows : ((liveRows p.rows p.parked).map Row.key).Perm ((scheduled env ds ps).map Row.key)
  cells : ((liveRows p.rows p.parked).map Row.cell).Nodup
  requests : (ds.map (·.slot) ++ ps.map (·.slot)).Nodup
  samples : ∃ l, Samples env sampling ds ps p l

variable {env : Env} {ds : List DecodeRequest} {ps : List PrefillRequest} {rs rs' : List Row}
  {ms ms' : List Nat} {slot stateSlot start : Nat} {tokens : List Nat} {r : Row}

/-! ### Live rows -/

theorem liveRows_append (h : rs.length = ms.length) :
    liveRows (rs ++ rs') (ms ++ ms') = liveRows rs ms ++ liveRows rs' ms' := by
  induction rs generalizing ms with
  | nil =>
    obtain rfl := List.length_eq_zero_iff.mp h.symm
    rfl
  | cons r rs ih =>
    obtain ⟨m, ms, rfl⟩ := List.exists_cons_of_length_eq_add_one h.symm
    have := ih (Nat.succ.inj h)
    simp only [List.cons_append, liveRows, this]
    split
    · rfl
    · rfl

theorem liveRows_zero (rs : List Row) : liveRows rs (List.replicate rs.length 0) = rs := by
  induction rs with
  | nil => rfl
  | cons r rs ih =>
    show r :: liveRows rs (List.replicate rs.length 0) = r :: rs
    rw [ih]

theorem liveRows_one (rs : List Row) (n : Nat) : liveRows rs (List.replicate n 1) = [] := by
  induction rs generalizing n with
  | nil => cases n <;> rfl
  | cons r rs ih =>
    cases n with
    | zero => rfl
    | succ n => exact ih n

theorem liveRows_map {α : Type} (as : List α) (f : α → Row) (g : α → Bool) :
    liveRows (as.map f) (as.map fun a => if g a then 0 else 1) = (as.filter g).map f := by
  induction as with
  | nil => rfl
  | cons a as ih =>
    simp only [List.map_cons, liveRows, ih, List.filter_cons]
    by_cases h : g a = true
    · simp only [h, if_true, List.map_cons]
    · simp only [h, if_false, Nat.one_ne_zero, Bool.false_eq_true]

/-! ### Chunks -/

theorem mem_chunkRows (h : r ∈ chunkRows slot stateSlot start tokens) :
    ∃ i x, tokens[i]? = some x ∧ r = ⟨x, slot, stateSlot, start + i, start + i + 1, .prefill⟩ := by
  obtain ⟨⟨x, i⟩, hx, rfl⟩ := List.mem_map.mp h
  exact ⟨i, x, List.mem_zipIdx_iff_getElem?.mp hx, rfl⟩

theorem chunkRows_getElem? (i : Nat) : (chunkRows slot stateSlot start tokens)[i]? =
    tokens[i]?.map fun x => ⟨x, slot, stateSlot, start + i, start + i + 1, .prefill⟩ := by
  unfold chunkRows
  rw [List.getElem?_map, List.getElem?_zipIdx, Option.map_map]
  cases tokens[i]? with
  | none => rfl
  | some x => simp

@[simp] theorem length_chunkRows : (chunkRows slot stateSlot start tokens).length = tokens.length := by
  rw [chunkRows, List.length_map, List.length_zipIdx]

theorem chunkRows_concat (tokens : List Nat) (x : Nat) :
    chunkRows slot stateSlot start (tokens ++ [x]) = chunkRows slot stateSlot start tokens ++
      [⟨x, slot, stateSlot, start + tokens.length, start + tokens.length + 1, .prefill⟩] := by
  unfold chunkRows
  rw [List.zipIdx_append, List.map_append]
  simp

theorem cells_chunkRows : (chunkRows slot stateSlot start tokens).map Row.cell =
    (List.range tokens.length).map fun i => (slot, start + i) := by
  apply List.ext_getElem?
  intro i
  rw [List.getElem?_map, chunkRows_getElem?, List.getElem?_map]
  by_cases hi : i < tokens.length
  · rw [List.getElem?_eq_getElem hi, List.getElem?_range hi]
    rfl
  · rw [List.getElem?_eq_none (Nat.le_of_not_lt hi), List.getElem?_eq_none (by simpa using hi)]
    rfl

theorem cells_chunkOf (p : PrefillRequest) : (chunkOf p).map Row.cell =
    (List.range p.tokens.length).map fun i => (p.slot, p.start + i) :=
  cells_chunkRows

/-- distinct slots: the scheduled tokens go to distinct cache rows -/
theorem cells_scheduled (h : (ds.map (·.slot) ++ ps.map (·.slot)).Nodup) :
    ((scheduled env ds ps).map Row.cell).Nodup := by
  obtain ⟨hd, hp, hdp⟩ := List.nodup_append.mp h
  unfold scheduled
  rw [List.map_append, List.map_map, List.map_flatMap, List.nodup_append]
  refine ⟨?_, ?_, ?_⟩
  · have hcell : (fun d : DecodeRequest => d.slot) = Prod.fst ∘ (Row.cell ∘ decodeRow env) := rfl
    rw [hcell, ← List.map_map] at hd
    exact hd.of_map
  · rw [List.nodup_flatMap]
    constructor
    · intro p _
      rw [cells_chunkOf]
      refine List.nodup_range.map ?_
      intro i j hij
      exact Nat.add_left_cancel (congrArg Prod.snd hij)
    · refine (List.pairwise_map.mp hp).imp (fun {p p'} hne => ?_)
      intro c hc hc'
      beta_reduce at hc hc'
      rw [cells_chunkOf] at hc hc'
      obtain ⟨i, -, rfl⟩ := List.mem_map.mp hc
      obtain ⟨j, -, hj⟩ := List.mem_map.mp hc'
      exact hne (congrArg Prod.fst hj).symm
  · intro a ha b hb hab
    obtain ⟨d, hd, rfl⟩ := List.mem_map.mp ha
    obtain ⟨p, hp, hb⟩ := List.mem_flatMap.mp hb
    rw [cells_chunkOf] at hb
    obtain ⟨i, -, rfl⟩ := List.mem_map.mp hb
    exact hdp _ (List.mem_map_of_mem hd) _ (List.mem_map_of_mem hp) (congrArg Prod.fst hab)

theorem cells_perm (h : (rs.map Row.key).Perm (rs'.map Row.key)) :
    (rs.map Row.cell).Perm (rs'.map Row.cell) := by
  have hcell : Row.cell = (fun k : Nat × Nat × Nat × Nat × Nat => (k.2.1, k.2.2.2.1)) ∘ Row.key := rfl
  rw [hcell, ← List.map_map, ← List.map_map]
  exact h.map _

end Plow.MixedStep
