import Plow.PackedPrefill.Stages

/-!
# The ring obligation

`request` builds the launches that the ring contract is checked on: the planner is run on boundary
mixes of requests, for every rung, stage and ring.  `Launch.Contract` is the contract and
`checkLaunch` its check.

`checked_iff`: when every enumerated launch passes, a launch of any other plan passes if and only
if its padding does not stand apart from its owner's rows (`Joined`).  A plan whose padding is masked is
always `Joined`; without a request limit the padding can go to a request that is not the last,
which is then written in two runs (`checked_split`).
-/

namespace Plow.PackedPrefill
open Plow.Lib List

/-! ### The contract -/

structure RingSpan where
  slot : Nat
  start : Nat
  len : Nat
  deriving DecidableEq, Repr

/-- The rows that one launch writes into the rings. -/
structure RingLaunch where
  ringLog : Nat
  window : Nat
  capacity : Nat
  spans : List RingSpan
  deriving DecidableEq, Repr

namespace RingLaunch

def ring (l : RingLaunch) : Nat := 2 ^ l.ringLog

def Contract (l : RingLaunch) : Prop :=
  0 < l.window ∧ l.ringLog < 32 ∧ l.capacity < 2 ^ 32 ∧
    (∀ s ∈ l.spans, s.len = 0 ∨ (l.window + s.len ≤ l.ring + 1 ∧ s.start + s.len ≤ l.capacity)) ∧
    ((l.spans.filter fun s => s.len ≠ 0).map (·.slot)).Nodup

instance (l : RingLaunch) : Decidable l.Contract := by
  unfold Contract
  exact inferInstance

end RingLaunch

def checkLaunch (l : RingLaunch) : Bool := decide l.Contract

/-! ### The enumeration -/

/-- The ring geometry: `2 ^ ringLog` rows, the attention window, `capacity` positions. -/
structure Ring where
  ringLog : Nat
  window : Nat
  capacity : Nat
  deriving DecidableEq, Repr

def Ring.le (a b : Ring) : Bool :=
  a.ringLog < b.ringLog || a.ringLog = b.ringLog &&
    (a.window < b.window || a.window = b.window && a.capacity ≤ b.capacity)

/-- the geometry of a sliding cache -/
def ringOf (live : Live) (c : Cache) : Res Ring :=
  if c.stride = 2 ^ c.stride.log2 ∧ c.mask = c.stride - 1 then
    .ok ⟨c.stride.log2, c.window, live.maxCtx⟩
  else .error (.refused ("cache " ++ toString c.pair ++ ": ring stride " ++ toString c.stride ++
    " / mask " ++ toString c.mask ++ " is not a power-of-two ring"))

def rings (live : Live) : Res (List Ring) := do
  let all ← (live.caches.filter (·.isRing live)).mapM (ringOf live)
  pure (all.dedup.insertionSort fun a b => a.le b)

/-- one written row more -/
def addRow (spans : List RingSpan) (slot position : Nat) : List RingSpan :=
  match spans.getLast? with
  | some s =>
    if s.slot = slot ∧ s.start + s.len = position then
      spans.dropLast ++ [{ s with len := s.len + 1 }]
    else spans ++ [⟨slot, position, 1⟩]
  | none => [⟨slot, position, 1⟩]

/-- the spans behind `spans`: the maximal runs of one slot at consecutive positions -/
def launchLoop : List (Int × Int) → List RingSpan → Res (List RingSpan)
  | [], spans => pure spans
  | (slot, position) :: rows, spans =>
    if slot < 0 then launchLoop rows spans
    else if position < 0 then
      .error (.refused ("negative position " ++ toString position ++ " for slot " ++ toString slot))
    else launchLoop rows (addRow spans slot.toNat position.toNat)

def launch (ring : Ring) (slots positions : List Int) : Res RingLaunch :=
  if slots.length ≠ positions.length then
    .error (.refused ("slot map has " ++ toString slots.length ++ " rows, positions " ++
      toString positions.length))
  else do
    let spans ← launchLoop (slots.zip positions) []
    pure ⟨ring.ringLog, ring.window, ring.capacity, spans⟩

/-- boundary mixes of requests (slot, start, length) -/
def mixes (rows limit batch maxCtx : Nat) : List (List (Nat × Nat × Nat)) :=
  let full := min (min limit rows) maxCtx
  let tail := maxCtx - rows
  let n := max (min (min batch 4) rows) 1
  let each := max (min (rows / n) limit) 1
  [[(0, min tail (maxCtx - full), full)],
    (List.range n).map fun i => (i, tail * i / n, each),
    [(0, 0, 1)]]

/-- What the planner needs from a packet. -/
structure Shape where
  rungs : List Nat
  maxRequestRows : Option Nat
  stageRows : Option Nat
  batch : Nat
  maxCtx : Nat

/-- `frontiers[slot] = start` -/
def setFrontier (frontiers : List Nat) (e : Nat × Nat × Nat) : Res (List Nat) :=
  if e.1 < frontiers.length then .ok (frontiers.set e.1 (asU32 e.2.1)) else .error .panic

def mixRequest (e : Nat × Nat × Nat) : Request := ⟨e.1, e.2.1, e.2.2, e.2.1 + e.2.2⟩

/-- `map_err` -/
def inMix {α : Type} (rows : Nat) (mix : List (Nat × Nat × Nat)) : Res α → Res α
  | .error (.refused e) =>
    .error (.refused ("rung " ++ toString rows ++ ", mix " ++ toString mix ++ ": " ++ e))
  | r => r

/-- the plan of a mix -/
def mixPlan (shape : Shape) (rows : Nat) (mix : List (Nat × Nat × Nat)) : Res Plan := do
  let frontiers ← mix.foldlM setFrontier (List.replicate shape.batch 0)
  inMix rows mix
    (planWithLimit (mix.map mixRequest) frontiers rows shape.maxCtx shape.maxRequestRows)

/-- the slot maps of a plan's stages -/
def planSlots (shape : Shape) (plan : Plan) : Res (List (List Int)) :=
  match shape.stageRows with
  | none => .ok [plan.slots]
  | some stageRows => do
    let n ← stagesNeeded plan stageRows
    (List.range n).mapM fun s => stageSlots plan s stageRows

/-- the launches of a plan, for every stage and ring -/
def planLaunches (rings : List Ring) (shape : Shape) (plan : Plan) : Res (List RingLaunch) := do
  let stages ← planSlots shape plan
  let all ← stages.mapM fun slots => rings.mapM fun ring => launch ring slots plan.positions
  pure all.flatten

def mixLaunches (rings : List Ring) (shape : Shape) (rows : Nat) (mix : List (Nat × Nat × Nat)) :
    Res (List RingLaunch) := do
  let plan ← mixPlan shape rows mix
  planLaunches rings shape plan

def rungLaunches (rings : List Ring) (shape : Shape) (limit rows : Nat) :
    Res (List RingLaunch) := do
  let all ← (mixes rows limit shape.batch shape.maxCtx).mapM (mixLaunches rings shape rows)
  pure all.flatten

def launches (rings : List Ring) (shape : Shape) : Res (List RingLaunch) :=
  match shape.rungs.max? with
  | none => .error (.refused "no prefill rungs")
  | some widest => do
    let limit := shape.maxRequestRows.getD widest
    let all ← (shape.rungs.dedup.insertionSort (· ≤ ·)).mapM (rungLaunches rings shape limit)
    pure all.flatten

def shapeOf (pf : Manifest) (live : Live) (rungs : List Nat) : Shape :=
  ⟨rungs, pf.maxRequestRows, pf.stageRows, live.batch, live.maxCtx⟩

/-- The launches of a packet; none when it has no sliding ring. -/
def request (pf : Manifest) (live : Live) (rungs : List Nat) : Res (Option (List RingLaunch)) := do
  let rs ← rings live
  if rs = [] then pure none
  else do
    let ls ← launches rs (shapeOf pf live rungs)
    pure (some ls)

/-! ### The spans of runs of rows -/

def Ring.launchOf (ring : Ring) (spans : List RingSpan) : RingLaunch :=
  ⟨ring.ringLog, ring.window, ring.capacity, spans⟩

def Request.ringSpan (r : Request) : RingSpan := ⟨r.slot, r.start, r.len⟩

/-- the spans behind the rows of a run -/
def addRun (spans : List RingSpan) (s : RingSpan) : List RingSpan :=
  if s.len = 0 then spans
  else
    match spans.getLast? with
    | some t =>
      if t.slot = s.slot ∧ t.start + t.len = s.start then
        spans.dropLast ++ [{ t with len := t.len + s.len }]
      else spans ++ [s]
    | none => [s]

def runRows (s : RingSpan) : List (Int × Int) :=
  (List.range s.len).map fun i => ((s.slot : Int), ((s.start + i : Nat) : Int))

variable {rows rest : List (Int × Int)} {spans : List RingSpan} {s t : RingSpan} {rs : List Request}

theorem addRow_addRun (slot start n : Nat) :
    addRow (addRun spans ⟨slot, start, n⟩) slot (start + n) = addRun spans ⟨slot, start, n + 1⟩ := by
  unfold addRun
  rw [if_neg (Nat.succ_ne_zero n)]
  by_cases h0 : n = 0
  · subst h0
    rfl
  · rw [if_neg h0]
    cases spans.getLast? with
    | none => simp [addRow]
    | some t =>
      dsimp only
      by_cases ht : t.slot = slot ∧ t.start + t.len = start
      · simp only [if_pos ht]
        simp [addRow, ht.1, ← ht.2, add_assoc]
      · simp only [if_neg ht]
        simp [addRow]

theorem launchLoop_run : launchLoop (runRows s ++ rest) spans = launchLoop rest (addRun spans s) := by
  obtain ⟨slot, start, n⟩ := s
  induction n generalizing rest with
  | zero => rfl
  | succ n ih =>
    have e : runRows ⟨slot, start, n + 1⟩ =
        runRows ⟨slot, start, n⟩ ++ [((slot : Int), ((start + n : Nat) : Int))] := by
      simp [runRows, range_succ]
    rw [e, append_assoc, ih, singleton_append, launchLoop, if_neg (by omega),
      if_neg (by omega), Int.toNat_natCast, Int.toNat_natCast, addRow_addRun]

theorem launchLoop_masked (h : ∀ e ∈ rows, e.1 < 0) :
    launchLoop (rows ++ rest) spans = launchLoop rest spans := by
  induction rows with
  | nil => rfl
  | cons e rows ih =>
    obtain ⟨h0, h⟩ := forall_mem_cons.mp h
    rw [cons_append, launchLoop, if_pos h0]
    exact ih h

theorem launchLoop_run_end : launchLoop (runRows s) spans = .ok (addRun spans s) := by
  rw [← append_nil (runRows s), launchLoop_run]
  rfl

theorem launchLoop_masked_end (h : ∀ e ∈ rows, e.1 < 0) : launchLoop rows spans = .ok spans := by
  rw [← append_nil rows, launchLoop_masked h]
  rfl

theorem addRun_new (h : ∀ t ∈ spans, t.slot ≠ s.slot) :
    addRun spans s = spans ++ [s].filter fun s => s.len ≠ 0 := by
  unfold addRun
  split
  · next h0 => simp [h0]
  · next h0 =>
    cases hl : spans.getLast? with
    | none =>
      rw [getLast?_eq_none_iff.mp hl]
      simp [h0]
    | some t =>
      have ht := h t (mem_of_getLast? hl)
      simp [h0, ht]

theorem launchLoop_flatMap {block : Request → List (Int × Int)} {cut : Request → RingSpan}
    (hb : ∀ r rest spans, launchLoop (block r ++ rest) spans = launchLoop rest (addRun spans (cut r)))
    (hs : ∀ t ∈ spans, ∀ r ∈ rs, t.slot ≠ (cut r).slot)
    (hd : rs.Pairwise fun p r => (cut p).slot ≠ (cut r).slot) :
    launchLoop (rs.flatMap block ++ rest) spans =
      launchLoop rest (spans ++ (rs.map cut).filter fun s => s.len ≠ 0) := by
  induction rs generalizing spans with
  | nil => simp
  | cons r rs ih =>
    obtain ⟨hd0, hd⟩ := pairwise_cons.mp hd
    rw [flatMap_cons, append_assoc, hb, addRun_new fun t ht => hs t ht r mem_cons_self,
      ih ?_ hd, map_cons, append_assoc, ← filter_append, singleton_append]
    intro t ht q hq
    rcases mem_append.mp ht with ht | ht
    · exact hs t ht q (mem_cons_of_mem _ hq)
    · rw [mem_singleton.mp (mem_filter.mp ht).1]
      exact hd0 q hq

/-! ### The launch of a stage -/

def stageRowsOf (stageRows s : Nat) (r : Request) : List (Int × Int) :=
  (List.range r.len).map fun i =>
    (if i / stageRows = s then (r.slot : Int) else -1, ((r.start + i : Nat) : Int))

theorem launchLoop_stageRowsOf {stageRows n : Nat} {r : Request} (hs : 0 < stageRows) :
    launchLoop (stageRowsOf stageRows n r ++ rest) spans =
      launchLoop rest (addRun spans (r.clip (n * stageRows) stageRows).ringSpan) := by
  have hclip := r.clip_len_le (n * stageRows) stageRows
  have hmem : ∀ i < r.len, _ := fun i hi => @Request.mem_clip r stageRows n i hi hs
  generalize ht : r.taken (n * stageRows) = t at hclip hmem
  generalize hc : (r.clip (n * stageRows) stageRows).len = c at hclip hmem
  obtain ⟨d, hd⟩ := Nat.exists_eq_add_of_le hclip
  -- the rows before the stage, in it, and behind it
  have hsplit : stageRowsOf stageRows n r =
      ((range t).map fun i => ((-1 : Int), ((r.start + i : Nat) : Int))) ++
      (runRows ⟨r.slot, r.start + t, c⟩ ++
      (range d).map fun i => ((-1 : Int), ((r.start + (t + c + i) : Nat) : Int))) := by
    unfold stageRowsOf runRows
    rw [hd, range_add, range_add, map_append, map_append, map_map,
      map_map, append_assoc]
    congr 1
    · apply map_congr_left
      intro i hi
      have hi := mem_range.mp hi
      rw [if_neg fun h => by have := (hmem i (by omega)).mpr h; omega]
    · congr 1
      · apply map_congr_left
        intro i hi
        have hi := mem_range.mp hi
        rw [Function.comp_apply, if_pos ((hmem _ (by omega)).mp (by omega)), add_assoc]
      · apply map_congr_left
        intro i hi
        have hi := mem_range.mp hi
        rw [Function.comp_apply, if_neg fun h => by have := (hmem _ (by omega)).mpr h; omega]
  have hrun : (r.clip (n * stageRows) stageRows).ringSpan = ⟨r.slot, r.start + t, c⟩ := by
    unfold Request.ringSpan
    rw [r.clip_start, r.clip_slot, ht, hc]
  rw [hsplit, append_assoc, launchLoop_masked (by simp), append_assoc, launchLoop_run,
    launchLoop_masked (by simp), hrun]

theorem zip_packed :
    (packed rs).slots.zip (packed rs).positions = rs.flatMap fun r => runRows r.ringSpan := by
  induction rs with
  | nil => rfl
  | cons r rs ih =>
    have hrun : r.slotRows.zip r.positionRows = runRows r.ringSpan := by
      apply ext_getElem
      · simp [Request.slotRows, Request.positionRows, runRows, Request.ringSpan]
      · intro i h1 h2
        simp [Request.slotRows, Request.positionRows, runRows, Request.ringSpan]
    have hlen : r.slotRows.length = r.positionRows.length := by
      simp [Request.slotRows, Request.positionRows]
    show (r.slotRows ++ (packed rs).slots).zip (r.positionRows ++ (packed rs).positions) = _
    rw [zip_append hlen, ih, hrun, flatMap_cons]

variable {requests rs : List Request} {p : Plan} {stageRows n bucket maxCtx : Nat}
  {slots table : List Int} {ring : Ring} {frontiers rungs : List Nat} {limit : Option Nat}
  {live : Live} {ls : List RingLaunch}

/-- the rows of a stage: the requests' and then masked ones -/
theorem IsStage.zip (m : Masked requests p) (hp : p.positions.length = p.slots.length)
    (g : IsStage requests p stageRows n slots table) :
    ∃ pad : List (Int × Int), (∀ e ∈ pad, e.1 < 0) ∧
      slots.zip p.positions = requests.flatMap (stageRowsOf stageRows n) ++ pad := by
  have hlen : (requests.flatMap (stageRowsOf stageRows n)).length = (lens requests).sum := by
    rw [length_flatMap]
    simp [stageRowsOf, lens]
  have hzip : (slots.zip p.positions).length = p.slots.length := by
    rw [length_zip, g.length, hp, min_self]
  have hroom := m.room
  refine ⟨(slots.zip p.positions).drop (lens requests).sum, fun e he => ?_, ?_⟩
  · obtain ⟨i, hi, rfl⟩ := getElem_of_mem he
    rw [length_drop, hzip] at hi
    have hpad := g.pad ((lens requests).sum + i) (by omega) (by omega)
    rw [getElem_drop, getElem_zip]
    rw [getElem?_eq_getElem (by rw [g.length]; omega)] at hpad
    rw [Option.some.inj hpad]
    show (-1 : Int) < 0
    decide
  · refine (take_append_drop (lens requests).sum _).symm.trans (congrArg (· ++ _) ?_)
    apply ext_getElem?
    intro row
    rcases lt_or_ge row (lens requests).sum with h | h
    · obtain ⟨k, r, i, hr, hi, rfl⟩ := exists_row h
      have e : lens requests = requests.map fun r => (stageRowsOf stageRows n r).length :=
        map_congr_left fun r _ => by simp [stageRowsOf]
      have hi' : i < (stageRowsOf stageRows n r).length := by simpa [stageRowsOf] using hi
      have hget : (requests.flatMap (stageRowsOf stageRows n))[tileStart (lens requests) k + i]? =
          (stageRowsOf stageRows n r)[i]? := by
        rw [e]
        exact getElem?_flatMap_tile hr hi'
      rw [hget, getElem?_take_of_lt h, zip_eq_zipWith, getElem?_zipWith,
        g.row k r i hr hi, m.position hr hi]
      simp [stageRowsOf, hi]
    · rw [getElem?_eq_none (by rw [length_take]; omega),
        getElem?_eq_none (by rw [hlen]; exact h)]

def stageSpans (requests : List Request) (stageRows n : Nat) : List RingSpan :=
  requests.map fun r => (r.clip (n * stageRows) stageRows).ringSpan

theorem IsStage.launch (m : Masked requests p) (hp : p.positions.length = p.slots.length)
    (hd : requests.Pairwise fun p r => p.slot ≠ r.slot) (hs : 0 < stageRows)
    (g : IsStage requests p stageRows n slots table) : launch ring slots p.positions =
      .ok (ring.launchOf ((stageSpans requests stageRows n).filter fun s => s.len ≠ 0)) := by
  obtain ⟨pad, hpad, hz⟩ := g.zip m hp
  have hloop : launchLoop (requests.flatMap (stageRowsOf stageRows n) ++ pad) [] = launchLoop pad
      ((stageSpans requests stageRows n).filter fun s => s.len ≠ 0) :=
    launchLoop_flatMap (fun r rest spans => launchLoop_stageRowsOf hs) (by simp) hd
  unfold PackedPrefill.launch
  rw [if_neg (by rw [g.length, hp]; simp), hz, hloop, launchLoop_masked_end hpad]
  rfl

/-! ### The spans of a table -/

def Span.ringSpan (s : Span) : RingSpan := ⟨s.slot.toNat, (s.kvlen - s.qlen).toNat, s.qlen.toNat⟩

def tableSpans (table : List Int) : List RingSpan :=
  (List.range (table.length / 4)).filterMap fun k => (spanAt table k).map Span.ringSpan

theorem filterMap_range {α β : Type} {f : Nat → Option β} {g : α → β} {xs : List α}
    (h : ∀ k x, xs[k]? = some x → f k = some (g x)) :
    (range xs.length).filterMap f = xs.map g := by
  induction xs using reverseRecOn with
  | nil => rfl
  | append_singleton xs x ih =>
    have hx : f xs.length = some (g x) := h _ _ getElem?_concat_length
    have hxs : ∀ k x', xs[k]? = some x' → f k = some (g x') := by
      intro k x' hk
      have hlt := (List.getElem?_eq_some_iff.mp hk).1
      exact h k x' (by rw [getElem?_append_left hlt, hk])
    rw [length_append, length_singleton, range_succ, filterMap_append, ih hxs]
    simp [hx]

theorem IsStage.tableSpans (m : Masked requests p)
    (g : IsStage requests p stageRows n slots table) :
    tableSpans table = stageSpans requests stageRows n := by
  have hlen : table.length / 4 = requests.length := by
    rw [g.tableLength, m.table, packed, length_cons, length_entriesFrom]
    omega
  unfold PackedPrefill.tableSpans stageSpans
  rw [hlen]
  apply filterMap_range
  intro k r hr
  rw [g.span k r hr, Option.map_some]
  unfold Span.ringSpan
  rw [Request.span_start]
  rfl

/-- the tables of a plan's stages -/
def planTables (shape : Shape) (plan : Plan) : Res (List (List Int)) :=
  match shape.stageRows with
  | none => .ok [plan.table]
  | some stageRows => do
    let n ← stagesNeeded plan stageRows
    (List.range n).mapM fun s => planStage plan s stageRows

theorem stageRows_pos (h : stagesNeeded p stageRows = .ok n) : 0 < stageRows := by
  unfold stagesNeeded at h
  obtain ⟨nreq, h, -⟩ := bind_ok.mp h
  unfold stageTableReqs at h
  simpa using (need_bind.mp h).1

theorem Masked.isStage (m : Masked requests p) : IsStage requests p (i32Max + 1) 0 p.slots p.table := by
  have hlen : ∀ (k : Nat) (r : Request), requests[k]? = some r → r.len < i32Max + 1 := by
    intro k r hr
    have := rows_le hr
    have := m.room
    have := m.room32
    omega
  refine ⟨rfl, fun k r i hr hi => ?_, fun row h h' => m.slot_pad h h', rfl, rfl, fun k r hr => ?_⟩
  · have := hlen k r hr
    rw [if_pos (Nat.div_eq_of_lt (by omega)), m.slot hr hi]
  · have hle : r.len ≤ i32Max + 1 := (hlen k r hr).le
    have hclip : r.clip (0 * (i32Max + 1)) (i32Max + 1) = r := by
      simp only [Request.clip, Request.taken, zero_mul, Nat.min_zero, Nat.sub_zero,
        add_zero, min_eq_left hle]
    rw [hclip, m.spanAt hr]
    simp [Request.taken]

section
variable {shape : Shape} {stages tables : List (List Int)}

def StageRows (shape : Shape) (stageRows : Nat) : Prop :=
  match shape.stageRows with
  | none => stageRows = i32Max + 1
  | some s => stageRows = s

theorem Masked.planSlots_stage (m : Masked requests p) (h : planSlots shape p = .ok stages)
    (hm : slots ∈ stages) : ∃ stageRows n table, StageRows shape stageRows ∧ 0 < stageRows ∧
      IsStage requests p stageRows n slots table := by
  unfold planSlots at h
  unfold StageRows
  cases hs : shape.stageRows with
  | none =>
    rw [hs] at h
    cases h
    rw [mem_singleton.mp hm]
    exact ⟨_, 0, p.table, rfl, Nat.succ_pos _, m.isStage⟩
  | some stageRows =>
    rw [hs] at h
    obtain ⟨n, hn, h⟩ := bind_ok.mp h
    have h0 := stageRows_pos hn
    obtain ⟨n', hn', -, -, hskip⟩ := m.stagesNeeded h0
    rw [hn] at hn'
    cases hn'
    obtain ⟨i, hi, hslots⟩ := mem_of_mapM h hm
    obtain ⟨slots', table, hslots', -, g⟩ := m.exists_stage h0 (hskip i (mem_range.mp hi))
    rw [hslots] at hslots'
    cases hslots'
    exact ⟨stageRows, i, table, rfl, h0, g⟩

theorem Masked.planTables_stage (m : Masked requests p) (h : planTables shape p = .ok tables)
    (hm : table ∈ tables) : ∃ stageRows n slots, StageRows shape stageRows ∧ 0 < stageRows ∧
      IsStage requests p stageRows n slots table := by
  unfold planTables at h
  unfold StageRows
  cases hs : shape.stageRows with
  | none =>
    rw [hs] at h
    cases h
    rw [mem_singleton.mp hm]
    exact ⟨_, 0, p.slots, rfl, Nat.succ_pos _, m.isStage⟩
  | some stageRows =>
    rw [hs] at h
    obtain ⟨n, hn, h⟩ := bind_ok.mp h
    have h0 := stageRows_pos hn
    obtain ⟨n', hn', -, -, hskip⟩ := m.stagesNeeded h0
    rw [hn] at hn'
    cases hn'
    obtain ⟨i, hi, htable⟩ := mem_of_mapM h hm
    obtain ⟨slots, table', -, htable', g⟩ := m.exists_stage h0 (hskip i (mem_range.mp hi))
    rw [htable] at htable'
    cases htable'
    exact ⟨stageRows, i, slots, rfl, h0, g⟩

theorem Masked.planSlots_first (m : Masked requests p) (h : planSlots shape p = .ok stages) :
    ∃ slots ∈ stages, ∃ stageRows table, StageRows shape stageRows ∧ 0 < stageRows ∧
      IsStage requests p stageRows 0 slots table := by
  unfold planSlots at h
  unfold StageRows
  cases hs : shape.stageRows with
  | none =>
    rw [hs] at h
    cases h
    exact ⟨_, mem_singleton_self _, _, p.table, rfl, Nat.succ_pos _, m.isStage⟩
  | some stageRows =>
    rw [hs] at h
    obtain ⟨n, hn, h⟩ := bind_ok.mp h
    have h0 := stageRows_pos hn
    obtain ⟨n', hn', hpos, -, hskip⟩ := m.stagesNeeded h0
    rw [hn] at hn'
    cases hn'
    obtain ⟨slots, hm, hslots⟩ := mapM_mem h (mem_range.mpr hpos)
    obtain ⟨slots', table, hslots', -, g⟩ := m.exists_stage h0 (hskip 0 hpos)
    rw [hslots] at hslots'
    cases hslots'
    exact ⟨slots, hm, stageRows, table, rfl, h0, g⟩

theorem planLaunches_mem {rs : List Ring} (h : planLaunches rs shape p = .ok ls) :
    ∃ stages, planSlots shape p = .ok stages ∧
      (∀ l ∈ ls, ∃ slots ∈ stages, ∃ ring ∈ rs, launch ring slots p.positions = .ok l) ∧
      ∀ slots ∈ stages, ∀ ring ∈ rs, ∃ l ∈ ls, launch ring slots p.positions = .ok l := by
  obtain ⟨stages, hs, h⟩ := bind_ok.mp h
  obtain ⟨all, ha, h⟩ := bind_ok.mp h
  cases h
  refine ⟨stages, hs, fun l hl => ?_, fun slots hslots ring hring => ?_⟩
  · obtain ⟨part, hpart, hl⟩ := mem_flatten.mp hl
    obtain ⟨slots, hslots, hpart⟩ := mem_of_mapM ha hpart
    obtain ⟨ring, hring, hl⟩ := mem_of_mapM hpart hl
    exact ⟨slots, hslots, ring, hring, hl⟩
  · obtain ⟨part, hpart, hall⟩ := mapM_mem ha hslots
    obtain ⟨l, hl, hlaunch⟩ := mapM_mem hall hring
    exact ⟨l, mem_flatten.mpr ⟨part, hpart, hl⟩, hlaunch⟩

end

/-! ### Plans without padding rows -/

theorem length_positions (h : planWithLimit requests frontiers bucket maxCtx limit = .ok p) :
    p.positions.length = p.slots.length := by
  obtain ⟨a, h⟩ := planWithLimit_iff.mp h
  cases limit with
  | some l =>
    rw [(pad_masked rfl a.rows).mp h]
    simp [length_packed_slots, length_packed_positions]
  | none =>
    obtain ⟨index, r, -, rfl⟩ := pad_unmasked a h
    simp [length_packed_slots, length_packed_positions]

theorem masked_packed (a : Accepted requests frontiers bucket maxCtx limit) :
    Masked requests (packed requests) where
  table := rfl
  slots := by simp [length_packed_slots]
  positions := ⟨[], (append_nil _).symm⟩
  room := length_packed_slots.ge
  room32 := by
    rw [length_packed_slots]
    exact le_trans a.rows a.bucket32
  len r hr := (a.fits r hr).len
  stop32 r hr := le_trans (a.fits r hr).ctx a.maxCtx32

theorem masked_of_full (h : planWithLimit requests frontiers bucket maxCtx limit = .ok p)
    (hf : limit.isSome ∨ (lens requests).sum = bucket) : Masked requests p := by
  cases limit with
  | some l => exact (masked_of_plan h).1
  | none =>
    obtain ⟨a, h⟩ := planWithLimit_iff.mp h
    obtain ⟨index, r, -, rfl⟩ := pad_unmasked a h
    have hsum : (lens requests).sum = bucket := hf.resolve_left (by decide)
    have m := masked_packed a
    exact ⟨rfl, by simp [hsum, length_packed_slots], ⟨_, rfl⟩, by simp [length_packed_slots],
      by simpa [hsum, length_packed_slots] using a.bucket32, m.len, m.stop32⟩

/-! ### What the boundary mixes show -/

/-- a span of `n` rows meets the contract -/
structure Ring.Bounds (ring : Ring) (n : Nat) : Prop where
  window : 0 < ring.window
  ringLog : ring.ringLog < 32
  capacity : ring.capacity < 2 ^ 32
  rows : ring.window + n ≤ 2 ^ ring.ringLog + 1

theorem Ring.Bounds.mono {k : Nat} (b : ring.Bounds n) (h : k ≤ n) : ring.Bounds k :=
  ⟨b.window, b.ringLog, b.capacity, by have := b.rows; omega⟩

theorem Ring.Bounds.checked (b : ring.Bounds 0) (hlen : ∀ s ∈ spans, ring.Bounds s.len)
    (hstop : ∀ s ∈ spans, s.start + s.len ≤ ring.capacity) (hd : (spans.map (·.slot)).Nodup) :
    checkLaunch (ring.launchOf spans) := by
  refine decide_eq_true ⟨b.window, b.ringLog, b.capacity, fun s hs => ?_, ?_⟩
  · exact .inr ⟨(hlen s hs).rows, hstop s hs⟩
  · exact hd.sublist (Sublist.map _ filter_sublist)

theorem bounds_of_checked (h : checkLaunch (ring.launchOf spans)) (hs : s ∈ spans) (h0 : s.len ≠ 0) :
    ring.Bounds s.len := by
  obtain ⟨h1, h2, h3, h4, -⟩ := of_decide_eq_true h
  exact ⟨h1, h2, h3, ((h4 s hs).resolve_left h0).1⟩

theorem rings_capacity {rs : List Ring} (h : rings live = .ok rs) (hr : ring ∈ rs) :
    ring.capacity = live.maxCtx := by
  obtain ⟨all, ha, h⟩ := bind_ok.mp h
  cases h
  rw [mem_insertionSort, mem_dedup] at hr
  obtain ⟨c, -, hc⟩ := mem_of_mapM ha hr
  unfold ringOf at hc
  split at hc
  · cases hc
    rfl
  · cases hc

theorem inMix_ok {α : Type} {rows : Nat} {mix : List (Nat × Nat × Nat)} {x : Res α} {a : α}
    (h : inMix rows mix x = .ok a) : x = .ok a := by
  unfold inMix at h
  split at h
  · cases h
  · exact h

/-- the planner runs on the first mix of every rung -/
theorem first_mix {pf : Manifest}
    {rs : List Ring} {rows : Nat} (hq : request pf live rungs = .ok (some ls))
    (hrs : rings live = .ok rs) (hr : rows ∈ rungs) : ∃ widest start frontiers, rows ≤ widest ∧ ∃ p,
      planWithLimit [mixRequest (0, start, min (min (pf.maxRequestRows.getD widest) rows) live.maxCtx)]
        frontiers rows live.maxCtx pf.maxRequestRows = .ok p ∧
      ∃ ls', planLaunches rs (shapeOf pf live rungs) p = .ok ls' ∧ ∀ l ∈ ls', l ∈ ls := by
  unfold request at hq
  rw [hrs, ok_bind] at hq
  split at hq
  · cases hq
  obtain ⟨ls0, hq, he⟩ := bind_ok.mp hq
  cases he
  unfold launches at hq
  cases hmax : (shapeOf pf live rungs).rungs.max? with
  | none =>
    rw [hmax] at hq
    cases hq
  | some widest =>
    rw [hmax] at hq
    obtain ⟨all, ha, he⟩ := bind_ok.mp hq
    cases he
    obtain ⟨ls1, h1, hrung⟩ := mapM_mem ha
      ((mem_insertionSort _).mpr (mem_dedup.mpr hr))
    obtain ⟨parts, hp, he⟩ := bind_ok.mp hrung
    cases he
    obtain ⟨ls2, h2, hmix⟩ := mapM_mem hp (mem_cons_self)
    obtain ⟨p, hplan, hlaunches⟩ := bind_ok.mp hmix
    obtain ⟨frontiers, -, hplan⟩ := bind_ok.mp hplan
    refine ⟨widest, _, frontiers, (max?_eq_some_iff.mp hmax).2 rows hr, p, inMix_ok hplan, ls2,
      hlaunches, fun l hl => mem_flatten.mpr ⟨_, h1, mem_flatten.mpr ⟨_, h2, hl⟩⟩⟩

/-- A request's rows in a launch meet the contract when those of the first mix do. -/
theorem bounds_of_request {pf : Manifest}
    {rs : List Ring} {rows n : Nat} (hq : request pf live rungs = .ok (some ls))
    (hl : ∀ l ∈ ls, checkLaunch l) (hrs : rings live = .ok rs) (hr : rows ∈ rungs) (hring : ring ∈ rs)
    (h1 : ∀ limit ∈ pf.maxRequestRows, n ≤ limit) (h2 : n ≤ rows) (h3 : n ≤ live.maxCtx)
    (h4 : ∀ stageRows ∈ pf.stageRows, n ≤ stageRows) : ring.Bounds n := by
  obtain ⟨widest, start, frontiers, hw, p, hplan, ls', hls, hsub⟩ := first_mix hq hrs hr
  generalize hfull : min (min (pf.maxRequestRows.getD widest) rows) live.maxCtx = full at hplan
  obtain ⟨a, hpad⟩ := planWithLimit_iff.mp hplan
  have hf := a.fits _ mem_cons_self
  have hpos : 0 < full := hf.len
  have hn : n ≤ full := by
    cases hm : pf.maxRequestRows with
    | none =>
      rw [hm] at hfull
      dsimp only [Option.getD_none] at hfull
      omega
    | some limit =>
      have := h1 limit hm
      rw [hm] at hfull
      dsimp only [Option.getD_some] at hfull
      omega
  have m : Masked [mixRequest (0, start, full)] p := by
    refine masked_of_full hplan ?_
    cases hm : pf.maxRequestRows with
    | some limit => exact .inl rfl
    | none =>
      -- the padding has to fit the context, so the rung does
      rw [hm] at hpad hfull a
      obtain ⟨index, r, o, -⟩ := pad_unmasked a hpad
      have hr := mem_singleton.mp (mem_of_getElem? o.get)
      have hfit := o.fits
      rw [hr] at hfit
      simp only [lens, mixRequest, Request.stop, map_cons, map_nil, sum_cons,
        sum_nil, Option.getD_none] at hfit hfull ⊢
      right
      omega
  obtain ⟨stages, hstages, -, hall⟩ := planLaunches_mem hls
  obtain ⟨slots, hslots, S, table, hS, hS0, g⟩ := m.planSlots_first hstages
  obtain ⟨l, hlm, hlaunch⟩ := hall slots hslots ring hring
  rw [g.launch m (length_positions hplan) (pairwise_singleton _ _) hS0] at hlaunch
  cases hlaunch
  have hspan : (stageSpans [mixRequest (0, start, full)] S 0) = [⟨0, start, min full S⟩] := by
    simp [stageSpans, Request.clip, Request.taken, Request.ringSpan, mixRequest]
  have hne : min full S ≠ 0 := by omega
  have hmem : (⟨0, start, min full S⟩ : RingSpan) ∈
      (stageSpans [mixRequest (0, start, full)] S 0).filter fun s => s.len ≠ 0 := by
    rw [hspan]
    exact mem_filter.mpr ⟨mem_singleton_self _, decide_eq_true hne⟩
  refine (bounds_of_checked (hl _ (hsub _ hlm)) hmem hne).mono ?_
  show n ≤ min full S
  unfold StageRows at hS
  cases hm : pf.stageRows with
  | some stageRows =>
    have := h4 stageRows hm
    simp only [shapeOf, hm] at hS
    omega
  | none =>
    simp only [shapeOf, hm] at hS
    have := a.bucket32
    omega

/-! ### The launches of a plan -/

section
variable {pf : Manifest} {live : Live} {rungs : List Nat} {shape : Shape} {rs : List Ring}

/-- every launch of the plan meets the contract: the rows that its stages bind, and the spans in
the tables of its stages -/
def Passes (rs : List Ring) (shape : Shape) (p : Plan) : Prop :=
  ∀ ls, planLaunches rs shape p = .ok ls → (∀ l ∈ ls, checkLaunch l) ∧
    ∀ tables, planTables shape p = .ok tables → ∀ table ∈ tables, ∀ ring ∈ rs,
      checkLaunch (ring.launchOf (tableSpans table))

/-- the padding rows are masked, or none, or the last request has room for them -/
def Joined (shape : Shape) (requests : List Request) (rows : Nat) : Prop :=
  shape.maxRequestRows.isSome ∨ shape.stageRows.isSome ∨ (lens requests).sum = rows ∨
    ∀ r ∈ requests.getLast?, r.stop + (rows - (lens requests).sum) ≤ shape.maxCtx

/-- The rings hold what the shape allows a request in a launch of the rung. -/
def Holds (rs : List Ring) (shape : Shape) (rows : Nat) : Prop :=
  ∀ ring ∈ rs, ring.capacity = shape.maxCtx ∧ ∀ n, (∀ limit ∈ shape.maxRequestRows, n ≤ limit) →
    n ≤ rows → n ≤ shape.maxCtx → (∀ stageRows ∈ shape.stageRows, n ≤ stageRows) → ring.Bounds n

variable {rows : Nat}

/-- the spans of a stage meet the contract -/
theorem stageSpans_checked (hh : Holds rs shape rows) (hring : ring ∈ rs)
    (a : Accepted requests frontiers rows shape.maxCtx shape.maxRequestRows)
    (hS : StageRows shape stageRows) (hsub : spans.Sublist (stageSpans requests stageRows n)) :
    checkLaunch (ring.launchOf spans) := by
  obtain ⟨hcap, hb⟩ := hh ring hring
  have hspan : ∀ s ∈ spans, ∃ r ∈ requests, s = (r.clip (n * stageRows) stageRows).ringSpan := by
    intro s hs
    obtain ⟨r, hr, rfl⟩ := mem_map.mp (hsub.subset hs)
    exact ⟨r, hr, rfl⟩
  have hd : (requests.map (·.slot)).Nodup := pairwise_map.mpr a.distinct
  have hslots : (stageSpans requests stageRows n).map (·.slot) = requests.map (·.slot) := by
    unfold stageSpans
    rw [map_map]
    rfl
  refine (hb 0 (by simp) (Nat.zero_le _) (Nat.zero_le _) (by simp)).checked (fun s hs => ?_)
    (fun s hs => ?_) (Nodup.sublist (hsub.map _) (hslots ▸ hd))
  · obtain ⟨r, hr, rfl⟩ := hspan s hs
    have hf := a.fits r hr
    have hlen : (r.clip (n * stageRows) stageRows).len ≤ r.len := by
      have := r.clip_len_le (n * stageRows) stageRows
      omega
    have hsum : r.len ≤ (lens requests).sum := le_sum_of_mem (mem_map_of_mem hr)
    have hctx := hf.ctx
    have hrows := a.rows
    unfold Request.stop at hctx
    refine hb _ (fun limit hl => ?_) ?_ ?_ (fun s hs => ?_)
    · exact hlen.trans (hf.limit limit hl)
    · show (r.clip (n * stageRows) stageRows).len ≤ rows
      omega
    · show (r.clip (n * stageRows) stageRows).len ≤ shape.maxCtx
      omega
    · unfold StageRows at hS
      rw [hs] at hS
      dsimp only at hS
      subst hS
      exact r.clip_len_le_stage _ _
  · obtain ⟨r, hr, rfl⟩ := hspan s hs
    rw [hcap]
    exact (r.clip_stop_le _ _).trans (a.fits r hr).ctx

theorem passes_of_masked (hh : Holds rs shape rows)
    (hp : planWithLimit requests frontiers rows shape.maxCtx shape.maxRequestRows = .ok p)
    (m : Masked requests p) : Passes rs shape p := by
  have a := (planWithLimit_iff.mp hp).1
  intro ls hls
  obtain ⟨stages, hstages, hall, -⟩ := planLaunches_mem hls
  constructor
  · intro l hl
    obtain ⟨slots, hslots, ring, hring, hlaunch⟩ := hall l hl
    obtain ⟨S, n, table, hS, hS0, g⟩ := m.planSlots_stage hstages hslots
    rw [g.launch m (length_positions hp) a.distinct hS0] at hlaunch
    cases hlaunch
    exact stageSpans_checked hh hring a hS filter_sublist
  · intro tables htables table htable ring hring
    obtain ⟨S, n, slots, hS, -, g⟩ := m.planTables_stage htables htable
    rw [g.tableSpans m]
    exact stageSpans_checked hh hring a hS (.refl _)

end

/-! ### Padding with a slot -/

/-- the rows of a plan whose padding has the slot of a request -/
theorem launch_unmasked {r : Request} {slots positions : List Int}
    (hd : requests.Pairwise fun p r => p.slot ≠ r.slot) (h0 : ∀ r ∈ requests, 0 < r.len)
    (hs : slots = (packed requests).slots ++ replicate n (r.slot : Int))
    (hp : positions = (packed requests).positions ++
      (range n).map fun i => ((r.stop + i : Nat) : Int)) : launch ring slots positions =
      .ok (ring.launchOf (addRun (requests.map Request.ringSpan) ⟨r.slot, r.stop, n⟩)) := by
  have hlen : slots.length = positions.length := by
    rw [hs, hp]
    simp [length_packed_slots, length_packed_positions]
  have hpad : (replicate n (r.slot : Int)).zip ((range n).map fun i =>
      ((r.stop + i : Nat) : Int)) = runRows ⟨r.slot, r.stop, n⟩ := by
    apply ext_getElem
    · simp [runRows]
    · intro i h1 h2
      simp [runRows]
  have hzip : slots.zip positions =
      (requests.flatMap fun r => runRows r.ringSpan) ++ runRows ⟨r.slot, r.stop, n⟩ := by
    rw [hs, hp, zip_append (length_packed_slots.trans length_packed_positions.symm), hpad,
      zip_packed]
  have hloop : launchLoop ((requests.flatMap fun r => runRows r.ringSpan) ++
      runRows ⟨r.slot, r.stop, n⟩) [] = launchLoop (runRows ⟨r.slot, r.stop, n⟩)
        ((requests.map Request.ringSpan).filter fun s => s.len ≠ 0) :=
    launchLoop_flatMap (fun _ _ _ => launchLoop_run) (by simp) hd
  have hfilter : ((requests.map Request.ringSpan).filter fun s => s.len ≠ 0) =
      requests.map Request.ringSpan := by
    apply filter_eq_self.mpr
    intro s hs
    obtain ⟨q, hq, rfl⟩ := mem_map.mp hs
    exact decide_eq_true (h0 q hq).ne'
  unfold launch
  rw [if_neg (not_not.mpr hlen), hzip, hloop, hfilter, launchLoop_run_end]
  rfl

section
variable {pf : Manifest} {live : Live} {rungs : List Nat} {shape : Shape} {rs : List Ring} {rows : Nat}

theorem planSlots_none {stages : List (List Int)} (hs : shape.stageRows = none)
    (h : planSlots shape p = .ok stages) : stages = [p.slots] := by
  unfold planSlots at h
  rw [hs] at h
  exact (Except.ok.inj h).symm

/-- a staged plan has no padding rows with a slot -/
theorem full_of_staged (shape : Shape) (hs : shape.stageRows.isSome)
    (hp : planWithLimit requests frontiers rows shape.maxCtx none = .ok p)
    {stages : List (List Int)} (h : planSlots shape p = .ok stages) : (lens requests).sum = rows := by
  obtain ⟨a, hpad⟩ := planWithLimit_iff.mp hp
  obtain ⟨index, r, -, rfl⟩ := pad_unmasked a hpad
  obtain ⟨stageRows, hs⟩ := Option.isSome_iff_exists.mp hs
  have m := masked_packed a
  unfold planSlots at h
  rw [hs] at h
  obtain ⟨n, hn, h⟩ := bind_ok.mp h
  have h0 := stageRows_pos hn
  have hreqs := m.tableReqs h0
  obtain ⟨n', hn', hpos, -, hskip⟩ := m.stagesNeeded h0
  -- `stagesNeeded` reads the table only
  have hn'' : stagesNeeded (packed requests) stageRows = .ok n := hn
  rw [hn''] at hn'
  cases hn'
  obtain ⟨slots, -, hslots⟩ := mapM_mem h (mem_range.mpr hpos)
  have hmul : checkedMul 0 stageRows = some (0 * stageRows) := if_pos (hskip 0 hpos)
  have hcovered : usize (lens requests).sum = .ok (lens requests).sum := by
    have h1 := a.rows
    have h2 := a.bucket32
    unfold i32Max at h2
    exact if_pos (by omega)
  unfold stageSlots at hslots
  simp only [hreqs, ok_bind, hmul, okOr, m.mapM_tableRows, hcovered] at hslots
  obtain ⟨hmasked, -⟩ := need_bind.mp hslots
  have hall := (of_decide_eq_true hmasked).2
  rw [drop_left' length_packed_slots] at hall
  have hle := a.rows
  by_contra hne
  have hneg := all_eq_true.mp hall (r.slot : Int)
    (mem_replicate.mpr ⟨by omega, rfl⟩)
  have hneg := of_decide_eq_true hneg
  omega

/-- padding behind the last request lengthens its span -/
theorem passes_of_last (shape : Shape) (hh : Holds rs shape rows) (hs : shape.stageRows = none)
    (hm : shape.maxRequestRows = none)
    (hp : planWithLimit requests frontiers rows shape.maxCtx none = .ok p)
    (hlast : ∀ r ∈ requests.getLast?, r.stop + (rows - (lens requests).sum) ≤ shape.maxCtx) :
    Passes rs shape p := by
  obtain ⟨a, hpad⟩ := planWithLimit_iff.mp hp
  obtain ⟨index, r, o, rfl⟩ := pad_unmasked a hpad
  have m := masked_packed a
  have a' : Accepted requests frontiers rows shape.maxCtx shape.maxRequestRows := hm ▸ a
  -- the last request is the owner
  have hr : requests.getLast? = some r := by
    have hlt := (List.getElem?_eq_some_iff.mp o.get).1
    rcases lt_or_ge index (requests.length - 1) with h | h
    · have hget : requests[requests.length - 1]? = some requests[requests.length - 1] :=
        getElem?_eq_getElem (by omega)
      have h1 := o.last _ _ h hget
      have h2 := hlast requests[requests.length - 1] (by rw [getLast?_eq_getElem?, hget]; rfl)
      omega
    · rw [getLast?_eq_getElem?, ← o.get]
      congr 1
      omega
  obtain ⟨init, rfl⟩ := getLast?_eq_some_iff.mp hr
  intro ls hls
  obtain ⟨stages, hstages, hall, -⟩ := planLaunches_mem hls
  constructor
  · intro l hl
    obtain ⟨slots, hslots, ring, hring, hlaunch⟩ := hall l hl
    rw [planSlots_none hs hstages, mem_singleton] at hslots
    subst hslots
    rw [launch_unmasked a.distinct (fun r hr => (a.fits r hr).len) rfl rfl] at hlaunch
    cases hlaunch
    obtain ⟨hcap, hb⟩ := hh ring hring
    have hsum : (lens (init ++ [r])).sum = (lens init).sum + r.len := by simp [lens]
    have hrows := a.rows
    have hbound : ∀ n, n ≤ rows → n ≤ shape.maxCtx → ring.Bounds n := by
      intro n h1 h2
      exact hb n (by simp [hm]) h1 h2 (by simp [hs])
    have hspans : addRun ((init ++ [r]).map Request.ringSpan)
        ⟨r.slot, r.stop, rows - (lens (init ++ [r])).sum⟩ = init.map Request.ringSpan ++
          [⟨r.slot, r.start, r.len + (rows - (lens (init ++ [r])).sum)⟩] := by
      unfold addRun
      split
      · next h0 =>
        dsimp only at h0
        rw [h0, map_append]
        rfl
      · simp [Request.ringSpan, Request.stop]
    rw [hspans]
    refine (hbound 0 (Nat.zero_le _) (Nat.zero_le _)).checked (fun s hs => ?_) (fun s hs => ?_) ?_
    · rcases mem_append.mp hs with hs | hs
      · obtain ⟨q, hq, rfl⟩ := mem_map.mp hs
        have hle : q.len ≤ (lens init).sum := le_sum_of_mem (mem_map_of_mem hq)
        have hctx := (a.fits q (mem_append_left _ hq)).ctx
        unfold Request.stop at hctx
        refine hbound _ ?_ ?_
        · show q.len ≤ rows
          omega
        · show q.len ≤ shape.maxCtx
          omega
      · rw [mem_singleton.mp hs]
        have hctx := o.fits
        unfold Request.stop at hctx
        refine hbound _ ?_ ?_
        · dsimp only
          omega
        · dsimp only
          omega
    · rw [hcap]
      rcases mem_append.mp hs with hs | hs
      · obtain ⟨q, hq, rfl⟩ := mem_map.mp hs
        exact (a.fits q (mem_append_left _ hq)).ctx
      · rw [mem_singleton.mp hs]
        have hctx := o.fits
        unfold Request.stop at hctx
        dsimp only
        omega
    · have hd : ((init ++ [r]).map (·.slot)).Nodup := pairwise_map.mpr a.distinct
      rw [map_append] at hd ⊢
      rw [map_map]
      exact hd
  · intro tables htables table htable ring hring
    have htables' : planTables shape (packed (init ++ [r])) = .ok tables := by
      unfold planTables at htables ⊢
      rw [hs] at htables ⊢
      exact htables
    obtain ⟨S, n, slots, hS, -, g⟩ := m.planTables_stage htables' htable
    rw [g.tableSpans m]
    exact stageSpans_checked hh hring a' hS (.refl _)

/-- padding of a request before the last is a second span on its slot -/
theorem not_passes_of_split (shape : Shape) (hs : shape.stageRows = none)
    (hp : planWithLimit requests frontiers rows shape.maxCtx none = .ok p)
    (hne : (lens requests).sum ≠ rows) {q : Request} (hq : requests.getLast? = some q)
    (hlast : shape.maxCtx < q.stop + (rows - (lens requests).sum)) (hrs : rs ≠ []) :
    ¬ Passes rs shape p := by
  obtain ⟨a, hpad⟩ := planWithLimit_iff.mp hp
  obtain ⟨index, r, o, rfl⟩ := pad_unmasked a hpad
  obtain ⟨init, rfl⟩ := getLast?_eq_some_iff.mp hq
  have hr : r ∈ init := by
    rcases mem_append.mp (mem_of_getElem? o.get) with h | h
    · exact h
    · have := o.fits
      rw [mem_singleton.mp h] at this
      omega
  have hslot : r.slot ≠ q.slot := (pairwise_append.mp a.distinct).2.2 r hr q
    (mem_singleton_self q)
  obtain ⟨ring, hring⟩ := exists_mem_of_ne_nil rs hrs
  intro h
  have hlaunch := fun ring => @launch_unmasked (init ++ [q]) (rows - (lens (init ++ [q])).sum) ring r
    _ _ a.distinct (fun r hr => (a.fits r hr).len) rfl rfl
  have hls := mapM_ok (l := rs) fun ring _ => hlaunch ring
  have hplan := (h _ (by
    unfold planLaunches planSlots
    rw [hs]
    show ([_].mapM (fun slots => rs.mapM fun ring => launch ring slots _) >>= _) = _
    rw [mapM_cons, hls]
    rfl)).1
  have hcheck := hplan (ring.launchOf _) (mem_flatten.mpr
    ⟨_, mem_singleton_self _, mem_map_of_mem hring⟩)
  have hle := a.rows
  have hpos : rows - (lens (init ++ [q])).sum ≠ 0 := by omega
  have hspans : addRun ((init ++ [q]).map Request.ringSpan)
      ⟨r.slot, r.stop, rows - (lens (init ++ [q])).sum⟩ =
        (init ++ [q]).map Request.ringSpan ++ [⟨r.slot, r.stop, rows - (lens (init ++ [q])).sum⟩] := by
    unfold addRun
    rw [if_neg hpos, map_append]
    simp [Request.ringSpan, hslot.symm]
  rw [hspans] at hcheck
  have hd := (of_decide_eq_true hcheck).2.2.2.2
  have hlen := (a.fits r (mem_append_left _ hr)).len
  have hdup : r.slot ∈ ((((init ++ [q]).map Request.ringSpan).filter fun s => s.len ≠ 0).map (·.slot)) := by
    refine mem_map.mpr ⟨r.ringSpan, mem_filter.mpr ⟨?_, decide_eq_true hlen.ne'⟩, rfl⟩
    exact mem_map_of_mem (mem_append_left _ hr)
  unfold Ring.launchOf at hd
  rw [filter_append, map_append] at hd
  refine (nodup_append.mp hd).2.2 r.slot hdup r.slot ?_ rfl
  simp [hpos]

/-- When every enumerated launch passes, the launches of any plan of a rung pass if and only if its
padding is joined. -/
theorem checked_iff (pf : Manifest) (live : Live) (rungs : List Nat) (ls : List RingLaunch)
    (rs : List Ring) (hq : request pf live rungs = .ok (some ls)) (hl : ∀ l ∈ ls, checkLaunch l)
    (hrs : rings live = .ok rs) (rows : Nat) (hr : rows ∈ rungs) (requests : List Request)
    (frontiers : List Nat) (p : Plan)
    (hp : planWithLimit requests frontiers rows live.maxCtx pf.maxRequestRows = .ok p) :
    Passes rs (shapeOf pf live rungs) p ↔ Joined (shapeOf pf live rungs) requests rows := by
  have hh : Holds rs (shapeOf pf live rungs) rows := fun ring hring =>
    ⟨rings_capacity hrs hring, fun n => bounds_of_request hq hl hrs hr hring⟩
  constructor
  · intro h
    cases hm : pf.maxRequestRows with
    | some limit => exact .inl (by simp [shapeOf, hm])
    | none =>
      cases hs : pf.stageRows with
      | some stageRows => exact .inr (.inl (by simp [shapeOf, hs]))
      | none =>
        by_cases hsum : (lens requests).sum = rows
        · exact .inr (.inr (.inl hsum))
        · refine .inr (.inr (.inr fun r hlast => ?_))
          rw [hm] at hp
          have hne : rs ≠ [] := by
            intro h0
            unfold request at hq
            rw [hrs, ok_bind, if_pos h0] at hq
            cases hq
          by_contra hlt
          exact not_passes_of_split (shapeOf pf live rungs) hs hp hsum hlast
            (Nat.lt_of_not_le hlt) hne h
  · intro h
    by_cases hfull : pf.maxRequestRows.isSome ∨ (lens requests).sum = rows
    · exact passes_of_masked hh hp (masked_of_full hp hfull)
    · obtain ⟨hm, hsum⟩ := not_or.mp hfull
      have hm : pf.maxRequestRows = none := by simpa using hm
      rw [hm] at hp
      cases hs : pf.stageRows with
      | some stageRows =>
        intro ls' hls
        obtain ⟨stages, hstages, -⟩ := planLaunches_mem hls
        exact absurd (full_of_staged (shapeOf pf live rungs) (by simp [shapeOf, hs]) hp hstages) hsum
      | none =>
        have hlast : ∀ r ∈ requests.getLast?, r.stop + (rows - (lens requests).sum) ≤ live.maxCtx := by
          rcases h with h | h | h | h
          · simp [shapeOf, hm] at h
          · simp [shapeOf, hs] at h
          · exact absurd h hsum
          · exact h
        exact passes_of_last (shapeOf pf live rungs) hh hs hm hp hlast

end

def splitManifest : Manifest := ⟨1, none, none, [], []⟩

def splitLive : Live := ⟨1, 2, 16, [⟨(0, 1), 8, 4, 7⟩]⟩

def splitRequests : List Request := [⟨0, 0, 1, 1⟩, ⟨1, 14, 2, 16⟩]

def splitPlan : Plan where
  table := [2, 0, 1, 0, 1, 1, 2, 1, 16]
  slots := [0, 1, 1, 0]
  positions := [0, 14, 15, 1]
  mappedEnds := [(0, 2), (1, 16)]

/-- Every boundary mix of the packet passes, and a plan of its rung writes one slot in two spans. -/
theorem checked_split : rings splitLive = .ok [⟨3, 4, 16⟩] ∧
    (request splitManifest splitLive [4]).map (Option.map fun ls => ls.all checkLaunch) =
      .ok (some true) ∧
    planWithLimit splitRequests [0, 14] 4 splitLive.maxCtx splitManifest.maxRequestRows =
      .ok splitPlan ∧ planLaunches [⟨3, 4, 16⟩] (shapeOf splitManifest splitLive [4]) splitPlan =
      .ok [⟨3, 4, 16, [⟨0, 0, 1⟩, ⟨1, 14, 2⟩, ⟨0, 1, 1⟩]⟩] ∧
    checkLaunch ⟨3, 4, 16, [⟨0, 0, 1⟩, ⟨1, 14, 2⟩, ⟨0, 1, 1⟩]⟩ = false := by
  decide +kernel

theorem checked_iff_split : ¬ Passes [⟨3, 4, 16⟩] (shapeOf splitManifest splitLive [4]) splitPlan := by
  have hq : request splitManifest splitLive [4] = .ok (some [
      ⟨3, 4, 16, [⟨0, 12, 4⟩]⟩, ⟨3, 4, 16, [⟨0, 0, 2⟩, ⟨1, 6, 2⟩]⟩, ⟨3, 4, 16, [⟨0, 0, 4⟩]⟩]) := by
    decide +kernel
  rw [checked_iff splitManifest splitLive [4] _ [⟨3, 4, 16⟩] hq (by decide) (by decide +kernel) 4
    (by decide) splitRequests [0, 14] splitPlan (by decide +kernel)]
  unfold Joined
  decide

end Plow.PackedPrefill
