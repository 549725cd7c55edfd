import Plow.Sched.Pack

/-!
# The step planner

`plan` spends the row budget of one tick: as long as rows are left it makes one launch a turn, a
pack of the requests that may share one, else the oldest (or, rotating, the next) request alone.

`turn` is one pass of the loop and `planLoop` repeats it. The rows of a program and its span limit
are the backend's, given as functions. `arrival` and the slots are read as they are; the order key
of a request (`shortest_first_key`) is the caller's.
-/

namespace Plow.Sched

open Plow.TokenBatch (PrefillSpan)

structure Backend where
  stepBudget : ℕ
  packing : Bool
  splitSpans : Bool
  decodeRowsJoinPrefill : Bool
  spanPolicy : Option SpanPolicy
  stepBudget_le : stepBudget ≤ u32Max

structure Tick where
  capRows : ℕ
  packing : Bool
  rotate : Bool
  turn : ℕ
  slots : ℕ

structure Candidate where
  span : PrefillSpan
  arrival : ℕ
  packable : Bool
  planned : Bool
  deriving DecidableEq

structure Launch where
  spans : List PrefillSpan
  deriving DecidableEq

def Launch.rows (l : Launch) : ℕ := denseRows l.spans

structure Plan where
  decodes : List ℕ
  launches : List Launch
  budgetLeft : ℕ
  deriving DecidableEq

def Plan.prefillRows (p : Plan) : ℕ := (p.launches.map Launch.rows).sum

def slotsOf (launches : List Launch) : List ℕ := launches.flatMap (fun l => l.spans.map PrefillSpan.slot)

def Plan.slotsAdvanced (p : Plan) : List ℕ := slotsOf p.launches

structure PlanState where
  budget : ℕ
  advanced : SlotSet
  launches : List Launch

/-- what `plan` is given, the decode rows apart -/
structure Env where
  backend : Backend
  tick : Tick
  candidates : List Candidate
  programRows : ℕ → Option ℕ
  programSpanLimit : ℕ → ℕ

variable (e : Env)

def Env.policy : SpanPolicy :=
  e.backend.spanPolicy.getD (if e.backend.splitSpans then .fairSplit else .whole)

def Env.minSpans : ℕ := if e.backend.splitSpans then 1 else 2

def Env.maxLaunches : ℕ := if e.backend.stepBudget = u32Max then 1 else 2 ^ 64 - 1

def Env.taken (advanced : SlotSet) (span : PrefillSpan) : Bool :=
  e.tick.slots ≤ span.slot || advanced.contains span.slot

/-- the pack of the requests that may share a launch -/
def Env.pack (st : PlanState) : PrefillPack :=
  let cs := e.candidates.filter (fun c => c.packable && !e.taken st.advanced c.span)
  let pack :=
    if e.tick.rotate then
      admitSpans (cs.map Candidate.span) st.budget e.tick.turn e.tick.slots e.policy e.programRows
    else
      admitOldestFirst (cs.map (fun c => (c.arrival, c.span))) st.budget e.tick.slots e.policy
        e.programRows
  match pack.spans.head? with
  | some span => pack.limitSpans (e.programSpanLimit span.program)
  | none => pack

/-- the request may run alone in a budget of `budget` rows -/
def Env.fits (full budget : ℕ) (c : Candidate) : Bool :=
  if e.backend.splitSpans then true
  else if c.planned then c.span.nRows ≤ budget
  else budget = full

def keyLt (a b : ℕ × ℕ × ℕ) : Bool :=
  a.1 < b.1 || (a.1 = b.1 && (a.2.1 < b.2.1 || (a.2.1 = b.2.1 && a.2.2 < b.2.2)))

/-- `min_by_key`: the first candidate of the least key -/
def minByKey (key : Candidate → ℕ × ℕ × ℕ) : List Candidate → Option Candidate
  | [] => none
  | c :: cs =>
    match minByKey key cs with
    | none => some c
    | some d => if keyLt (key d) (key c) then some d else some c

def Env.key (c : Candidate) : ℕ × ℕ × ℕ :=
  let slots := max e.tick.slots 1
  if e.tick.rotate then
    ((c.span.slot + e.tick.slots - e.tick.turn % slots) % slots, 0, c.span.slot)
  else (0, c.arrival, c.span.slot)

def Env.pick (full : ℕ) (st : PlanState) : Option Candidate :=
  minByKey e.key (e.candidates.filter (fun c =>
    0 < c.span.nRows && !e.taken st.advanced c.span && e.fits full st.budget c))

/-- the state after one more launch -/
def PlanState.launch (st : PlanState) (l : Launch) : PlanState :=
  { budget := st.budget - max l.rows 1,
    advanced := l.spans.foldl (fun q span => (q.insert span.slot).1) st.advanced,
    launches := st.launches ++ [l] }

def Env.packSpans (st : PlanState) : List PrefillSpan :=
  if e.backend.packing && e.tick.packing then (e.pack st).spans else []

/-- one pass of the loop; `none` leaves it -/
def Env.turn (full : ℕ) (st : PlanState) : Option PlanState :=
  if 0 < st.budget && st.launches.length < e.maxLaunches then
    if e.minSpans ≤ (e.packSpans st).length then some (st.launch ⟨e.packSpans st⟩)
    else (e.pick full st).map (fun c =>
      st.launch ⟨[place c.span 0 (min c.span.nRows st.budget)]⟩)
  else none

def Env.planLoop (full : ℕ) : ℕ → PlanState → PlanState
  | 0, st => st
  | fuel + 1, st =>
    match e.turn full st with
    | none => st
    | some st' => planLoop full fuel st'

def Env.budget (decodes : List ℕ) : ℕ :=
  let budget := min e.tick.capRows e.backend.stepBudget
  if e.backend.decodeRowsJoinPrefill then budget - min decodes.length u32Max else budget

def Env.plan (decodes : List ℕ) : Plan :=
  let full := e.budget decodes
  let st := e.planLoop full full ⟨full, .withCapacity e.tick.slots, []⟩
  ⟨decodes, st.launches, st.budget⟩

end Plow.Sched

/-!
# One tick

What every plan of a tick is (`Sound`): no slot runs twice, each launch is a pack within the rung of
its program or one request alone, rows are given out of the budget and nothing else, and when the
number of launches is not limited no request that still fits is left waiting.

`Inv` is kept by every turn of the loop (`turn_inv`); the loop ends by itself, since each turn spends
rows (`planLoop_stops`).
-/

namespace Plow.Sched

open Plow.TokenBatch (PrefillSpan)

/-- what a caller offers: a span within 32 bits; before a chunk is planned its rows are unknown, or it
may not share a launch -/
structure Waiting (c : Candidate) : Prop where
  bound : c.span.kvRow0 + c.span.nRows ≤ u32Max
  fresh : c.planned = false → c.packable = false ∨ c.span.nRows = u32Max

/-- the span runs rows of the candidate's request, from its frontier on -/
structure Serves (c : Candidate) (s : PrefillSpan) : Prop where
  place : s = place c.span s.row0 s.nRows
  pos : 1 ≤ s.nRows
  le : s.nRows ≤ c.span.nRows
  kvLen : s.kvLen = c.span.kvRow0 + s.nRows

variable (e : Env)

/-- several requests of one program in one launch; a backend that runs spans whole packs planned
chunks only, and does not cut them -/
structure Packed (l : Launch) : Prop where
  size : e.minSpans ≤ l.spans.length
  rung : ∃ program rows, e.programRows program = some rows ∧ l.rows ≤ rows ∧
    l.spans.length ≤ e.programSpanLimit program ∧ ∀ s ∈ l.spans, s.program = program
  offers : ∀ s ∈ l.spans, ∃ c ∈ e.candidates, Serves c s ∧ c.packable = true ∧
    (e.policy = .whole → s.nRows = c.span.nRows) ∧
    (c.planned = true ∨ c.span.nRows = u32Max ∧ (e.backend.splitSpans = true ∨ e.policy ≠ .whole))

/-- one request alone: a whole-span backend does not cut its planned chunk, and starts a fresh
request only when no launch came before -/
def Alone (i : ℕ) (l : Launch) : Prop :=
  ∃ c ∈ e.candidates, ∃ s, l.spans = [s] ∧ Serves c s ∧
    (e.backend.splitSpans = false → c.planned = true → s.nRows = c.span.nRows) ∧
    (e.backend.splitSpans = false → c.planned = false → i = 0)

structure LaunchOk (full i : ℕ) (l : Launch) : Prop where
  kind : Packed e l ∨ Alone e i l
  row0 : ∀ k s, l.spans[k]? = some s → s.row0 = denseRows (l.spans.take k)
  room : 1 ≤ l.rows ∧ l.rows ≤ full

structure Sound (decodes : List ℕ) (p : Plan) : Prop where
  decoding : p.decodes = decodes
  slots : p.slotsAdvanced.Nodup ∧ ∀ slot ∈ p.slotsAdvanced, slot < e.tick.slots
  launches : ∀ i l, p.launches[i]? = some l → LaunchOk e (e.budget decodes) i l
  budget : p.prefillRows + p.budgetLeft = e.budget decodes
  once : e.backend.stepBudget = u32Max → p.launches.length ≤ 1
  /-- who still waits does not fit what is left -/
  served : e.backend.stepBudget ≠ u32Max → 0 < p.budgetLeft → ∀ c ∈ e.candidates,
    0 < c.span.nRows → c.span.slot < e.tick.slots → c.span.slot ∉ p.slotsAdvanced →
    e.fits (e.budget decodes) p.budgetLeft c = false

variable {e} {full : ℕ} {st st' : PlanState} {l : Launch} {ss os : List PrefillSpan}
  {key : Candidate → ℕ × ℕ × ℕ} {c : Candidate} {cs : List Candidate} {s : PrefillSpan}

structure Inv (e : Env) (full : ℕ) (st : PlanState) : Prop where
  budget : (st.launches.map Launch.rows).sum + st.budget = full
  count : st.launches.length + st.budget ≤ full
  slots : (slotsOf st.launches).Nodup
  within : ∀ slot ∈ slotsOf st.launches, slot < e.tick.slots
  words : st.advanced.words.length = (e.tick.slots + 63) / 64
  advanced : ∀ slot, st.advanced.contains slot = true ↔ slot ∈ slotsOf st.launches
  launches : ∀ i l, st.launches[i]? = some l → LaunchOk e full i l

/-- a launch that fits the state -/
structure Fresh (e : Env) (full : ℕ) (st : PlanState) (l : Launch) : Prop where
  ok : LaunchOk e full st.launches.length l
  room : l.rows ≤ st.budget
  slots : (l.spans.map PrefillSpan.slot).Nodup
  free : ∀ s ∈ l.spans, e.taken st.advanced s = false

theorem taken_iff {q : SlotSet} :
    e.taken q s = false ↔ s.slot < e.tick.slots ∧ q.contains s.slot = false := by
  unfold Env.taken
  rw [Bool.or_eq_false_iff, decide_eq_false_iff_not, not_le]

/-! ### One turn -/

theorem add32_eq {a b : ℕ} (h : a + b ≤ u32Max) : add32 a b = a + b :=
  Nat.mod_eq_of_lt (lt_of_le_of_lt h (by decide))

theorem serves_place (hc : Waiting c) {r n : ℕ} (h1 : 1 ≤ n)
    (h2 : n ≤ c.span.nRows) : Serves c (place c.span r n) := by
  have := hc.bound
  exact ⟨rfl, h1, h2, add32_eq (by omega)⟩

theorem denseRows_take_le (ss : List PrefillSpan) (k : ℕ) : denseRows (ss.take k) ≤ denseRows ss := by
  induction ss generalizing k with
  | nil => rw [List.take_nil]
  | cons s ss ih =>
    rcases k with _ | k
    · exact Nat.zero_le _
    · rw [List.take_succ_cons, denseRows_cons, denseRows_cons]
      exact Nat.add_le_add_left (ih k) _

theorem IsPack.take {Q : PrefillSpan → ℕ → Prop} {rows : ℕ → Option ℕ} {limit : ℕ}
    (h : IsPack Q rows limit os ss) (k : ℕ) : IsPack Q rows limit os (ss.take k) := by
  obtain ⟨program, r, h1, h2, h3⟩ := h.rung
  exact ⟨h.packs.prefix_take k, ⟨program, r, h1, fun s hs => h2 s (List.mem_of_mem_take hs),
    (denseRows_take_le _ _).trans h3⟩, (denseRows_take_le _ _).trans h.room⟩

/-- the pack of a turn, from the candidates that may share a launch -/
theorem pack_spec (hne : (e.pack st).spans ≠ []) :
    ∃ os, Chosen ((e.candidates.filter (fun c => c.packable && !e.taken st.advanced c.span)).map
        Candidate.span) st.budget e.tick.slots e.policy os ∧
      IsPack (Cut e.policy) e.programRows st.budget os (e.pack st).spans ∧
      ∀ s ∈ (e.pack st).spans, (e.pack st).spans.length ≤ e.programSpanLimit s.program := by
  generalize hcs : e.candidates.filter (fun c => c.packable && !e.taken st.advanced c.span) = cs
  -- both orders pack the same candidates
  have key : ∀ p : PrefillPack, (p.spans ≠ [] → ∃ os, Chosen (cs.map Candidate.span) st.budget
        e.tick.slots e.policy os ∧ IsPack (Cut e.policy) e.programRows st.budget os p.spans) →
      ∀ p' : PrefillPack, p' = (match p.spans.head? with
        | some span => p.limitSpans (e.programSpanLimit span.program)
        | none => p) → p'.spans ≠ [] →
      ∃ os, Chosen (cs.map Candidate.span) st.budget e.tick.slots e.policy os ∧
        IsPack (Cut e.policy) e.programRows st.budget os p'.spans ∧
        ∀ s ∈ p'.spans, p'.spans.length ≤ e.programSpanLimit s.program := by
    rintro p hp p' rfl hne
    cases hh : p.spans.head? with
    | none =>
      rw [hh] at hne
      exact absurd (List.head?_eq_none_iff.mp hh) hne
    | some span =>
      rw [hh] at hne
      obtain ⟨os, h1, h2⟩ := hp (fun h => by rw [h] at hh; cases hh)
      obtain ⟨program, r, -, hprog, -⟩ := h2.rung
      have hspan := hprog span (List.mem_of_head? hh)
      refine ⟨os, h1, h2.take _, fun s hs => ?_⟩
      rw [hprog s (List.mem_of_mem_take hs), ← hspan]
      exact List.length_take_le _ _
  refine key _ (fun hne => ?_) (e.pack st) rfl hne
  rw [hcs]
  split
  · next hr =>
    rw [hcs, if_pos hr] at hne
    exact admit_packs hne
  · next hr =>
    rw [hcs, if_neg hr] at hne
    have h := admitOldestFirst_packs hne
    rw [List.map_map] at h
    exact h

theorem minByKey_mem (h : minByKey key cs = some c) : c ∈ cs := by
  induction cs generalizing c with
  | nil => cases h
  | cons d cs ih =>
    unfold minByKey at h
    cases hm : minByKey key cs with
    | none =>
      rw [hm] at h
      cases h
      exact List.mem_cons_self
    | some b =>
      rw [hm] at h
      simp only at h
      split at h
      · cases h
        exact List.mem_cons_of_mem _ (ih hm)
      · cases h
        exact List.mem_cons_self

theorem minByKey_none (h : minByKey key cs = none) : cs = [] := by
  cases cs with
  | nil => rfl
  | cons d cs =>
    unfold minByKey at h
    cases hm : minByKey key cs with
    | none => rw [hm] at h; cases h
    | some b =>
      rw [hm] at h
      simp only at h
      split at h <;> cases h

theorem denseRows_pos (hne : ss ≠ []) (h : ∀ s ∈ ss, 1 ≤ s.nRows) : 1 ≤ denseRows ss := by
  obtain ⟨s, ss, rfl⟩ := List.exists_cons_of_ne_nil hne
  rw [denseRows_cons]
  have := h s List.mem_cons_self
  omega

theorem length_le_denseRows (h : ∀ s ∈ ss, 1 ≤ s.nRows) : ss.length ≤ denseRows ss := by
  induction ss with
  | nil => exact Nat.zero_le _
  | cons b ss ih =>
    obtain ⟨hb, h⟩ := List.forall_mem_cons.mp h
    have := ih h
    rw [denseRows_cons, List.length_cons]
    omega

theorem le_denseRows (h : ∀ s ∈ ss, 1 ≤ s.nRows)
    (hs : s ∈ ss) : s.nRows + ss.length ≤ denseRows ss + 1 := by
  induction ss with
  | nil => cases hs
  | cons a ss ih =>
    obtain ⟨ha, h⟩ := List.forall_mem_cons.mp h
    rw [denseRows_cons, List.length_cons]
    have hlen := length_le_denseRows h
    rcases List.mem_cons.mp hs with rfl | hs
    · omega
    · have := ih h hs
      omega

section

variable (hw : ∀ c ∈ e.candidates, Waiting c)
include hw

theorem fresh_pack (hfull : full ≤ u32Max) (hi : Inv e full st)
    (hmin : e.minSpans ≤ (e.packSpans st).length) : Fresh e full st ⟨e.packSpans st⟩ := by
  have hne : e.packSpans st ≠ [] := by
    intro h
    rw [h, List.length_nil] at hmin
    unfold Env.minSpans at hmin
    split at hmin <;> omega
  have hpk : e.packSpans st = (e.pack st).spans := by
    unfold Env.packSpans at hne ⊢
    split
    · rfl
    · next h => rw [if_neg h] at hne; exact absurd rfl hne
  rw [hpk] at hmin hne ⊢
  obtain ⟨os, hch, hp, hlim⟩ := pack_spec hne
  have hserve : ∀ s ∈ (e.pack st).spans, ∃ c ∈ e.candidates, Serves c s ∧ c.packable = true ∧
      (e.policy = .whole → s.nRows = c.span.nRows) ∧ e.taken st.advanced s = false := by
    intro s hs
    obtain ⟨o, ho, r, n, ⟨h1, h2, h3⟩, rfl⟩ := hp.packs.serves s hs
    obtain ⟨c, hc, rfl⟩ := List.mem_map.mp (hch.mem o ho).1
    obtain ⟨hc, hf⟩ := List.mem_filter.mp hc
    rw [Bool.and_eq_true, Bool.not_eq_true'] at hf
    exact ⟨c, hc, serves_place (hw c hc) h1 h2, hf.1, h3, hf.2⟩
  obtain ⟨program, rows, hpr, hprog, hrows⟩ := hp.rung
  have hbudget : st.budget ≤ full := by have := hi.count; omega
  have hpos : ∀ s ∈ (e.pack st).spans, 1 ≤ s.nRows := fun s hs =>
    let ⟨_, _, h, _⟩ := hserve s hs
    h.pos
  constructor
  · refine ⟨.inl ⟨hmin, ⟨program, rows, hpr, hrows, ?_, hprog⟩, ?_⟩, ?_, ?_, ?_⟩
    · obtain ⟨s, hs⟩ := List.exists_mem_of_ne_nil _ hne
      rw [← hprog s hs]
      exact hlim s hs
    · intro s hs
      obtain ⟨c, h1, h2, h3, h4, -⟩ := hserve s hs
      refine ⟨c, h1, h2, h3, h4, ?_⟩
      cases hpl : c.planned with
      | true => exact .inl rfl
      | false =>
        refine .inr ?_
        rcases (hw c h1).fresh hpl with hno | hmax
        · rw [hno] at h3
          cases h3
        · refine ⟨hmax, ?_⟩
          -- a whole span of unknown rows leaves no row for a second span
          by_contra hcon
          rw [not_or, Bool.not_eq_true, not_not] at hcon
          have hlen := le_denseRows hpos hs
          rw [Env.minSpans, hcon.1] at hmin
          rw [h4 hcon.2, hmax] at hlen
          have := hp.room
          simp only [Bool.false_eq_true, if_false] at hmin
          omega
    · intro k s hs
      rw [hp.packs.row0_eq k hs, zero_add]
    · exact denseRows_pos hne hpos
    · exact hp.room.trans hbudget
  · exact hp.room
  · exact hp.packs.slots.nodup hch.slots
  · intro s hs
    obtain ⟨c, -, -, -, -, h⟩ := hserve s hs
    exact h

theorem fresh_alone (hi : Inv e full st) (hb : 0 < st.budget)
    (hc : e.pick full st = some c) :
    Fresh e full st ⟨[place c.span 0 (min c.span.nRows st.budget)]⟩ := by
  obtain ⟨hmem, hf⟩ := List.mem_filter.mp (minByKey_mem hc)
  rw [Bool.and_eq_true, Bool.and_eq_true, decide_eq_true_eq, Bool.not_eq_true'] at hf
  obtain ⟨⟨hpos, hfree⟩, hfits⟩ := hf
  have hserves : Serves c (place c.span 0 (min c.span.nRows st.budget)) :=
    serves_place (hw c hmem) (by omega) (min_le_left _ _)
  have hrows : Launch.rows ⟨[place c.span 0 (min c.span.nRows st.budget)]⟩
      = min c.span.nRows st.budget := add_zero _
  have hcount := hi.count
  constructor
  · refine ⟨.inr ⟨c, hmem, _, rfl, hserves, ?_, ?_⟩, ?_, ?_⟩
    · intro hsplit hplan
      simp only [Env.fits, hsplit, hplan, if_true, Bool.false_eq_true, if_false,
        decide_eq_true_eq] at hfits
      exact min_eq_left hfits
    · intro hsplit hplan
      simp only [Env.fits, hsplit, hplan, Bool.false_eq_true, if_false, decide_eq_true_eq] at hfits
      omega
    · rintro (_ | k) s hs
      · cases hs
        rfl
      · cases hs
    · rw [hrows]
      omega
  · rw [hrows]
    exact min_le_right _ _
  · exact List.nodup_singleton _
  · intro s hs
    obtain rfl := List.mem_singleton.mp hs
    exact hfree

theorem turn_cases (hfull : full ≤ u32Max) (hi : Inv e full st)
    (h : e.turn full st = some st') : ∃ l, st' = st.launch l ∧ Fresh e full st l ∧
      0 < st.budget ∧ st.launches.length < e.maxLaunches := by
  unfold Env.turn at h
  split at h
  · next hgo =>
    rw [Bool.and_eq_true, decide_eq_true_eq, decide_eq_true_eq] at hgo
    split at h
    · next hmin => exact ⟨_, (Option.some.inj h).symm, fresh_pack hw hfull hi hmin, hgo⟩
    · obtain ⟨c, hc, rfl⟩ := Option.map_eq_some_iff.mp h
      exact ⟨_, rfl, fresh_alone hw hi hgo.1 hc, hgo⟩
  · cases h

end

theorem turn_none (h : e.turn full st = none) :
    st.budget = 0 ∨ e.maxLaunches ≤ st.launches.length ∨ e.pick full st = none := by
  unfold Env.turn at h
  split at h
  · split at h
    · cases h
    · exact .inr (.inr (Option.map_eq_none_iff.mp h))
  · next hgo =>
    rw [Bool.and_eq_true, decide_eq_true_eq, decide_eq_true_eq, not_and_or, Nat.not_lt,
      Nat.not_lt] at hgo
    rcases hgo with hb | hl
    · exact .inl (Nat.le_zero.mp hb)
    · exact .inr (.inl hl)

theorem slotsOf_append (ls : List Launch) (l : Launch) :
    slotsOf (ls ++ [l]) = slotsOf ls ++ l.spans.map PrefillSpan.slot := by
  unfold slotsOf
  rw [List.flatMap_append, List.flatMap_singleton]

theorem foldl_insert_length (ss : List PrefillSpan) (q : SlotSet) :
    (ss.foldl (fun q span => (q.insert span.slot).1) q).words.length = q.words.length := by
  induction ss generalizing q with
  | nil => rfl
  | cons s ss ih =>
    rw [List.foldl_cons, ih]
    exact insert_length q s.slot

theorem foldl_insert_contains {capacity : ℕ} (ss : List PrefillSpan) (q : SlotSet)
    (hq : q.words.length = (capacity + 63) / 64) (hs : ∀ s ∈ ss, s.slot < capacity) (slot : ℕ) :
    (ss.foldl (fun q span => (q.insert span.slot).1) q).contains slot = true ↔
      q.contains slot = true ∨ slot ∈ ss.map PrefillSpan.slot := by
  induction ss generalizing q with
  | nil => simp
  | cons s ss ih =>
    obtain ⟨h1, h2⟩ := List.forall_mem_cons.mp hs
    rw [List.foldl_cons, ih _ ((insert_length q s.slot).trans hq) h2, List.map_cons, List.mem_cons,
      ← or_assoc]
    refine or_congr_left ⟨contains_insert, ?_⟩
    rintro (h | rfl)
    · exact contains_insert_of_contains h
    · exact contains_insert_self hq h1

theorem launch_inv (hi : Inv e full st) (hf : Fresh e full st l) : Inv e full (st.launch l) := by
  have hrows : max l.rows 1 = l.rows := max_eq_left hf.ok.room.1
  have hroom := hf.room
  have hpos := hf.ok.room.1
  have hfree : ∀ s ∈ l.spans, s.slot < e.tick.slots ∧ st.advanced.contains s.slot = false :=
    fun s hs => taken_iff.mp (hf.free s hs)
  constructor
  · show ((st.launches ++ [l]).map Launch.rows).sum + (st.budget - max l.rows 1) = full
    have := hi.budget
    rw [List.map_append, List.sum_append, hrows]
    show _ + (l.rows + 0) + _ = full
    omega
  · show (st.launches ++ [l]).length + (st.budget - max l.rows 1) ≤ full
    have := hi.count
    rw [List.length_append, List.length_singleton, hrows]
    omega
  · show (slotsOf (st.launches ++ [l])).Nodup
    rw [slotsOf_append, List.nodup_append]
    refine ⟨hi.slots, hf.slots, ?_⟩
    rintro a ha b hb rfl
    obtain ⟨s, hs, rfl⟩ := List.mem_map.mp hb
    have h1 := (hi.advanced s.slot).mpr ha
    rw [(hfree s hs).2] at h1
    cases h1
  · show ∀ slot ∈ slotsOf (st.launches ++ [l]), slot < e.tick.slots
    intro slot hs
    rw [slotsOf_append] at hs
    rcases List.mem_append.mp hs with hs | hs
    · exact hi.within slot hs
    · obtain ⟨s, hmem, rfl⟩ := List.mem_map.mp hs
      exact (hfree s hmem).1
  · exact (foldl_insert_length l.spans st.advanced).trans hi.words
  · intro slot
    show _ ↔ slot ∈ slotsOf (st.launches ++ [l])
    rw [slotsOf_append, List.mem_append, ← hi.advanced slot]
    exact foldl_insert_contains l.spans st.advanced hi.words (fun s hs => (hfree s hs).1) slot
  · intro i l' hl
    replace hl : (st.launches ++ [l])[i]? = some l' := hl
    rcases lt_trichotomy i st.launches.length with hlt | rfl | hgt
    · rw [List.getElem?_append_left hlt] at hl
      exact hi.launches i l' hl
    · rw [List.getElem?_concat_length] at hl
      cases hl
      exact hf.ok
    · rw [List.getElem?_eq_none (by rw [List.length_append, List.length_singleton]; omega)] at hl
      cases hl

/-! ### The loop -/

theorem turn_inv (hw : ∀ c ∈ e.candidates, Waiting c) (hfull : full ≤ u32Max) (hi : Inv e full st)
    (h : e.turn full st = some st') : Inv e full st' ∧ st'.budget < st.budget ∧
      st'.launches.length ≤ e.maxLaunches := by
  obtain ⟨l, rfl, hf, hb, hmax⟩ := turn_cases hw hfull hi h
  refine ⟨launch_inv hi hf, ?_, ?_⟩
  · show st.budget - max l.rows 1 < st.budget
    omega
  · show (st.launches ++ [l]).length ≤ e.maxLaunches
    rw [List.length_append, List.length_singleton]
    omega

theorem planLoop_inv (hw : ∀ c ∈ e.candidates, Waiting c) (hfull : full ≤ u32Max) (fuel : ℕ) (hi : Inv e full st)
    (hl : st.launches.length ≤ e.maxLaunches) : Inv e full (e.planLoop full fuel st) ∧
      (e.planLoop full fuel st).launches.length ≤ e.maxLaunches := by
  induction fuel generalizing st with
  | zero => exact ⟨hi, hl⟩
  | succ fuel ih =>
    unfold Env.planLoop
    cases ht : e.turn full st with
    | none => exact ⟨hi, hl⟩
    | some st' =>
      obtain ⟨h1, -, h3⟩ := turn_inv hw hfull hi ht
      exact ih h1 h3

theorem planLoop_stops (hw : ∀ c ∈ e.candidates, Waiting c) (hfull : full ≤ u32Max) (fuel : ℕ) (hi : Inv e full st)
    (hb : st.budget ≤ fuel) : e.turn full (e.planLoop full fuel st) = none := by
  induction fuel generalizing st with
  | zero =>
    unfold Env.planLoop Env.turn
    rw [if_neg (by simp; omega)]
  | succ fuel ih =>
    unfold Env.planLoop
    cases ht : e.turn full st with
    | none => exact ht
    | some st' =>
      obtain ⟨h1, h2, -⟩ := turn_inv hw hfull hi ht
      exact ih h1 (by omega)

theorem inv_init (e : Env) (full : ℕ) : Inv e full ⟨full, .withCapacity e.tick.slots, []⟩ := by
  refine ⟨zero_add _, by simp, List.nodup_nil, nofun, withCapacity_length _, fun slot => ?_, nofun⟩
  rw [contains_withCapacity]
  exact ⟨nofun, nofun⟩

theorem budget_le (e : Env) (decodes : List ℕ) : e.budget decodes ≤ u32Max := by
  have := e.backend.stepBudget_le
  unfold Env.budget
  simp only
  split <;> omega

/-- the planner: it ends after as many turns as there are rows, more turns change nothing, and its
plan is sound -/
theorem plan_sound (e : Env) (decodes : List ℕ) (hw : ∀ c ∈ e.candidates, Waiting c) :
    Sound e decodes (e.plan decodes) ∧
    e.turn (e.budget decodes) (e.planLoop (e.budget decodes) (e.budget decodes)
      ⟨e.budget decodes, .withCapacity e.tick.slots, []⟩) = none := by
  have hstop := planLoop_stops hw (budget_le e decodes) (e.budget decodes) (inv_init e (e.budget decodes)) le_rfl
  obtain ⟨hi, hmax⟩ := planLoop_inv hw (budget_le e decodes) (e.budget decodes) (inv_init e (e.budget decodes))
    (Nat.zero_le _)
  refine ⟨?_, hstop⟩
  have hplan : e.plan decodes = ⟨decodes, _, _⟩ := rfl
  generalize e.planLoop (e.budget decodes) (e.budget decodes)
    ⟨e.budget decodes, .withCapacity e.tick.slots, []⟩ = st at *
  rw [hplan]
  constructor
  · rfl
  · exact ⟨hi.slots, hi.within⟩
  · exact hi.launches
  · exact hi.budget
  · intro h
    rw [Env.maxLaunches, if_pos h] at hmax
    exact hmax
  · intro hne hpos c hc hrows hslot hwait
    rcases turn_none hstop with h0 | hl | hpick
    · exact absurd h0 (Nat.pos_iff_ne_zero.mp hpos)
    · have h1 := hi.count
      have h2 := budget_le e decodes
      rw [Env.maxLaunches, if_neg hne] at hl
      unfold u32Max at h2
      omega
    · have hnil := List.filter_eq_nil_iff.mp (minByKey_none hpick) c hc
      have hfree : e.taken st.advanced c.span = false := by
        refine taken_iff.mpr ⟨hslot, ?_⟩
        by_contra hcon
        exact hwait ((hi.advanced _).mp (Bool.not_eq_false _ ▸ hcon))
      by_contra hfits
      rw [Bool.not_eq_false] at hfits
      apply hnil
      rw [hfree, hfits]
      simp only [Bool.not_false, Bool.and_true, decide_eq_true_eq]
      exact hrows

/-- a whole-span backend of 8 rows and a program of 6: two planned chunks share a launch, the fresh
request waits for the next tick -/
def sampleEnv : Env where
  backend := ⟨8, true, false, false, none, eight_le_u32Max⟩
  tick := ⟨u32Max, true, false, 0, 4⟩
  candidates :=
    [⟨⟨0, 4, 0, 0, 10, 14, 0, 3⟩, 5, true, true⟩, ⟨⟨0, 2, 1, 0, 0, 2, 1, 3⟩, 2, true, true⟩,
      ⟨⟨0, u32Max, 2, 0, 0, u32Max, 2, 0⟩, 1, false, false⟩]
  programRows := fun _ => some 6
  programSpanLimit := fun _ => 4

theorem plan_sound_sample : Sound sampleEnv [7] (sampleEnv.plan [7]) ∧ sampleEnv.plan [7] =
      ⟨[7], [⟨[⟨0, 2, 1, 0, 0, 2, 1, 3⟩, ⟨2, 4, 0, 0, 10, 14, 0, 3⟩]⟩], 2⟩ := by
  refine ⟨(plan_sound sampleEnv [7] ?_).1, by decide⟩
  intro c hc
  simp only [sampleEnv, List.mem_cons, List.not_mem_nil, or_false] at hc
  rcases hc with rfl | rfl | rfl
  · exact ⟨by decide, nofun⟩
  · exact ⟨by decide, nofun⟩
  · exact ⟨by decide, fun _ => .inl rfl⟩

end Plow.Sched
