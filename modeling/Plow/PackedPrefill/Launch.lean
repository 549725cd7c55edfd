import Plow.PackedPrefill.Stages
import Plow.Lib.Ring

/-!
# Launches on a sliding ring

A launch plans its requests from the current frontiers and then works in phases: the whole launch
at once, or stage after stage where the cache is staged.  A phase writes its unmasked rows into
the slots' rings and then reads: a query at a position reads the window behind it.

`reads_last`: in every run of launches under a validated manifest, every read of a sliding cache
finds the row last written for its slot and position, and that row is no padding.
-/

namespace Plow.PackedPrefill
open Plow.Lib List Option

/-! ### The system -/

/-- A written row: its launch, its place in the packed rows, and whether it is a request's row. -/
structure RowTag where
  launch : Nat
  row : Nat
  live : Bool
  deriving DecidableEq, Repr

/-- the unmasked rows under a slot map -/
def rowWrites (launch live : Nat) (slots positions : List Int) : List (RingWrite Nat RowTag) :=
  ((slots.zip positions).zipIdx.filter fun e => 0 ≤ e.1.1).map fun e =>
    ⟨e.1.1.toNat, e.1.2.toNat, ⟨launch, e.2, e.2 < live⟩⟩

/-- the phases of a launch, each with its slot map and its table -/
def phases (m : Manifest) (g : Program) (c : Cache) (plan : Plan) :
    Res (List (List Int × List Int)) :=
  match m.stageRows with
  | none => .ok [(plan.slots, plan.table)]
  | some stageRows =>
    -- a cache with one reader is not staged (`stage_map`)
    if (readers g.insts c.pair).length ≤ 1 then .ok [(plan.slots, plan.table)]
    else (List.range (readers g.insts c.pair).length).mapM fun stage => do
      let slots ← stageSlots plan stage stageRows
      let table ← planStage plan stage stageRows
      pure (slots, table)

/-- The rings when the queries of a table read them. -/
structure Snapshot where
  rings : Rings Nat RowTag
  table : List Int

/-- every phase writes its rows, then its queries read -/
def runPhases (size launch live : Nat) (positions : List Int) :
    List (List Int × List Int) → Rings Nat RowTag → Rings Nat RowTag × List Snapshot
  | [], rings => (rings, [])
  | (slots, table) :: ps, rings =>
    let written := rings.writeAll size (rowWrites launch live slots positions)
    let rest := runPhases size launch live positions ps written
    (rest.1, ⟨written, table⟩ :: rest.2)

structure State where
  frontiers : List Nat
  rings : Rings Nat RowTag
  clock : Nat

inductive Event where
  | launch (program : Nat) (requests : List Request)
  /-- the slot is given to a new sequence -/
  | restart (slot : Nat)

def advance (frontiers : List Nat) (requests : List Request) : List Nat :=
  requests.foldl (fun f r => f.set r.slot (r.start + r.len)) frontiers

def step (m : Manifest) (p : Packet) (live : Live) (c : Cache) (s : State) :
    Event → Res (State × List Snapshot)
  | .launch program requests => do
    let programs ← Manifest.prefill p
    let g ← index programs program
    let plan ← planWithLimit requests s.frontiers g.rows live.maxCtx m.maxRequestRows
    let ps ← phases m g c plan
    let out := runPhases c.stride s.clock (lens requests).sum plan.positions ps s.rings
    pure (⟨advance s.frontiers requests, out.1, s.clock + 1⟩, out.2)
  | .restart slot => pure ({ s with frontiers := s.frontiers.set slot 0 }, [])

def run (m : Manifest) (p : Packet) (live : Live) (c : Cache) :
    List Event → State → Res (State × List Snapshot)
  | [], s => pure (s, [])
  | e :: es, s => do
    let (s, snaps) ← step m p live c s e
    let (s, rest) ← run m p live c es s
    pure (s, snaps ++ rest)

def State.init (live : Live) : State := ⟨List.replicate live.batch 0, Rings.empty, 0⟩

def isLive (_slot _position : Nat) (tag : RowTag) : Prop := tag.live = true

/-- Every query of the table reads, for each position of its window, the row last written for its
slot and that position; the row is no padding. -/
def Snapshot.Reads (size window : Nat) (s : Snapshot) : Prop :=
  ∀ k q, spanAt s.table k = some q → ∀ i : Nat, (i : Int) < q.qlen → ∀ x : Nat,
    (x : Int) ≤ q.kvlen - q.qlen + i → q.kvlen - q.qlen + i < x + window →
      Rings.Good size isLive s.rings q.slot.toNat x

/-! ### The rows of a phase -/

/-- The rows of a phase: of request `r` it writes the positions from `lo r` to `top r` behind the
start, and those up to `hi r` are the request's own. -/
structure PhaseRows (requests : List Request) (live : Nat) (slots positions : List Int)
    (lo hi top : Request → Nat) : Prop where
  mem : ∀ (row : Nat) (s x : Int), slots[row]? = some s → 0 ≤ s → positions[row]? = some x →
    ∃ r ∈ requests, ∃ i, s = r.slot ∧ x = (r.start + i : Nat) ∧ lo r ≤ i ∧ i < top r
  inj : ∀ (row row' : Nat) (s x : Int), 0 ≤ s → slots[row]? = some s → positions[row]? = some x →
    slots[row']? = some s → positions[row']? = some x → row = row'
  covers : ∀ r ∈ requests, ∀ i, lo r ≤ i → i < hi r → ∃ row < live,
    slots[row]? = some (r.slot : Int) ∧ positions[row]? = some ((r.start + i : Nat) : Int)

/-- how far the slots have come, `f r` rows into the requests -/
def progress (requests : List Request) (frontiers : List Nat) (f : Request → Nat) (s : Nat) : Nat :=
  match requests.find? fun r => r.slot = s with
  | some r => r.start + f r
  | none => frontiers.getD s 0

def extent (requests : List Request) (f : Request → Nat) (s : Nat) : Nat :=
  match requests.find? fun r => r.slot = s with
  | some r => f r
  | none => 0

variable {requests rs : List Request} {frontiers : List Nat} {r r' owner : Request} {slots positions table : List Int}
  {launch live k : Nat} {lo hi top : Request → Nat} {w : RingWrite Nat RowTag}

theorem find_slot (hd : requests.Pairwise fun p r => p.slot ≠ r.slot) (hr : r ∈ requests) :
    requests.find? (fun q => q.slot = r.slot) = some r := by
  induction requests with
  | nil => cases hr
  | cons q rs ih =>
    obtain ⟨h0, hd⟩ := pairwise_cons.mp hd
    rw [find?_cons]
    rcases mem_cons.mp hr with rfl | hr
    · simp
    · simp [h0 r hr, ih hd hr]

theorem find_some {s : Nat} (h : requests.find? (fun q => q.slot = s) = some r) :
    r ∈ requests ∧ r.slot = s :=
  ⟨mem_of_find?_eq_some h, by simpa using find?_some h⟩

theorem mem_rowWrites (h : w ∈ rowWrites launch live slots positions) :
    ∃ s x : Int, slots[w.value.row]? = some s ∧ positions[w.value.row]? = some x ∧ 0 ≤ s ∧
      w.slot = s.toNat ∧ w.position = x.toNat ∧ w.value.live = decide (w.value.row < live) := by
  obtain ⟨⟨⟨s, x⟩, row⟩, he, rfl⟩ := mem_map.mp h
  obtain ⟨hz, h0⟩ := mem_filter.mp he
  have hz := (mem_zipIdx_iff_getElem?.mp hz)
  obtain ⟨h1, h2⟩ := getElem?_zip_eq_some.mp hz
  exact ⟨s, x, h1, h2, by simpa using h0, rfl, rfl, rfl⟩

theorem rowWrites_mem {row : Nat} {s x : Int} (h1 : slots[row]? = some s)
    (h2 : positions[row]? = some x) (h0 : 0 ≤ s) :
    ⟨s.toNat, x.toNat, ⟨launch, row, row < live⟩⟩ ∈ rowWrites launch live slots positions := by
  refine mem_map.mpr ⟨((s, x), row), mem_filter.mpr ⟨?_, by simpa using h0⟩, rfl⟩
  exact mem_zipIdx_iff_getElem?.mpr (getElem?_zip_eq_some.mpr ⟨h1, h2⟩)

theorem rowWrites_rows : (rowWrites launch live slots positions).Pairwise
    fun v w => v.value.row < w.value.row := by
  have h : ((slots.zip positions).zipIdx).Pairwise fun a b => a.2 < b.2 := by
    rw [← pairwise_map, zipIdx_map_snd]
    exact pairwise_lt_range'
  unfold rowWrites
  rw [pairwise_map]
  exact h.filter _

theorem progress_eq (hd : requests.Pairwise fun p r => p.slot ≠ r.slot) (hr : r ∈ requests) :
    progress requests frontiers lo r.slot = r.start + lo r := by
  unfold progress
  rw [find_slot hd hr]

theorem extent_eq (hd : requests.Pairwise fun p r => p.slot ≠ r.slot) (hr : r ∈ requests) :
    extent requests lo r.slot = lo r := by
  unfold extent
  rw [find_slot hd hr]

theorem slot_cases (requests : List Request) (frontiers : List Nat) (s : Nat) :
    (∃ r ∈ requests, r.slot = s) ∨
      ∀ f, progress requests frontiers f s = frontiers.getD s 0 ∧ extent requests f s = 0 := by
  cases h : requests.find? fun r => r.slot = s with
  | some r => exact Or.inl ⟨r, find_some h⟩
  | none =>
    refine Or.inr fun f => ?_
    unfold progress extent
    rw [h]
    exact ⟨rfl, rfl⟩

theorem batch_of_rows {size window : Nat} (frontiers : List Nat) (launch : Nat)
    (hd : requests.Pairwise fun p r => p.slot ≠ r.slot)
    (h : PhaseRows requests live slots positions lo hi top)
    (hstep : ∀ r ∈ requests, lo r ≤ hi r ∧ hi r ≤ top r)
    (hfits : ∀ r ∈ requests, ∀ x y, r.start + lo r < x + window → x < r.start + top r →
      r.start + lo r ≤ y → y < r.start + top r → x % size = y % size → x = y) :
    Rings.Batch size window isLive (progress requests frontiers lo) (progress requests frontiers hi)
      (extent requests fun r => top r - lo r) (rowWrites launch live slots positions) where
  range w hw := by
    obtain ⟨s, x, h1, h2, h0, e1, e2, -⟩ := mem_rowWrites hw
    obtain ⟨r, hr, i, rfl, rfl, hlo, htop⟩ := h.mem _ s x h1 h0 h2
    have e1 : w.slot = r.slot := by rw [e1, Int.toNat_natCast]
    have e2 : w.position = r.start + i := by rw [e2, Int.toNat_natCast]
    rw [e1, e2, progress_eq hd hr, extent_eq hd hr]
    omega
  distinct := by
    refine Pairwise.imp_of_mem ?_ rowWrites_rows
    intro v w hv hw hlt hslot hpos
    obtain ⟨s, x, h1, h2, h0, e1, e2, -⟩ := mem_rowWrites hv
    obtain ⟨s', x', h1', h2', h0', e1', e2', -⟩ := mem_rowWrites hw
    obtain ⟨r, -, i, -, hx, -⟩ := h.mem _ s x h1 h0 h2
    obtain ⟨r', -, i', -, hx', -⟩ := h.mem _ s' x' h1' h0' h2'
    have hs : s' = s := by omega
    have hxx : x' = x := by omega
    rw [hs] at h1'
    rw [hxx] at h2'
    have := h.inj _ _ s x h0 h1 h2 h1' h2'
    omega
  covers s x hlo hhi := by
    rcases slot_cases requests frontiers s with ⟨r, hr, rfl⟩ | hnone
    · rw [progress_eq hd hr] at hlo hhi
      obtain ⟨i, rfl⟩ := Nat.exists_eq_add_of_le (show r.start ≤ x by omega)
      obtain ⟨row, hrow, h1, h2⟩ := h.covers r hr i (by omega) (by omega)
      refine ⟨_, rowWrites_mem h1 h2 (Int.natCast_nonneg _), ?_, ?_, decide_eq_true hrow⟩
      · exact Int.toNat_natCast _
      · exact Int.toNat_natCast _
    · rw [(hnone lo).1] at hlo
      rw [(hnone hi).1] at hhi
      omega
  step s := by
    rcases slot_cases requests frontiers s with ⟨r, hr, rfl⟩ | hnone
    · have := hstep r hr
      rw [progress_eq hd hr, progress_eq hd hr, extent_eq hd hr]
      omega
    · rw [(hnone lo).1, (hnone hi).1]
      omega
  fits s x y h1 h2 h3 h4 he := by
    rcases slot_cases requests frontiers s with ⟨r, hr, rfl⟩ | hnone
    · have := hstep r hr
      rw [progress_eq hd hr] at h1 h2 h3 h4
      rw [extent_eq hd hr] at h2 h4
      exact hfits r hr x y h1 (by omega) h3 (by omega) he
    · rw [(hnone lo).1, (hnone _).2] at h4
      rw [(hnone lo).1] at h3
      omega

theorem index_of_slot {k' : Nat}
    (hd : requests.Pairwise fun p r => p.slot ≠ r.slot) (h : requests[k]? = some r)
    (h' : requests[k']? = some r') (he : r.slot = r'.slot) : k = k' := by
  obtain ⟨hk, rfl⟩ := List.getElem?_eq_some_iff.mp h
  obtain ⟨hk', rfl⟩ := List.getElem?_eq_some_iff.mp h'
  rcases lt_trichotomy k k' with hlt | heq | hlt
  · exact absurd he (pairwise_iff_getElem.mp hd k k' hk hk' hlt)
  · exact heq
  · exact absurd he.symm (pairwise_iff_getElem.mp hd k' k hk' hk hlt)

/-- rows that are found from the request and the position -/
theorem PhaseRows.of_place (hd : requests.Pairwise fun p r => p.slot ≠ r.slot)
    (place : Nat → Nat → Nat)
    (hmem : ∀ (row : Nat) (s x : Int), slots[row]? = some s → 0 ≤ s → positions[row]? = some x →
      ∃ k r i, requests[k]? = some r ∧ row = place k i ∧ s = r.slot ∧ x = (r.start + i : Nat) ∧
        lo r ≤ i ∧ i < top r)
    (hcovers : ∀ k r i, requests[k]? = some r → lo r ≤ i → i < hi r → place k i < live ∧
      slots[place k i]? = some (r.slot : Int) ∧
      positions[place k i]? = some ((r.start + i : Nat) : Int)) :
    PhaseRows requests live slots positions lo hi top where
  mem row s x h1 h0 h2 := by
    obtain ⟨k, r, i, hr, -, hs, hx, hlo, htop⟩ := hmem row s x h1 h0 h2
    exact ⟨r, mem_of_getElem? hr, i, hs, hx, hlo, htop⟩
  inj row row' s x h0 h1 h2 h1' h2' := by
    obtain ⟨k, r, i, hr, hrow, hs, hx, -⟩ := hmem row s x h1 h0 h2
    obtain ⟨k', r', i', hr', hrow', hs', hx', -⟩ := hmem row' s x h1' h0 h2'
    have hk : k = k' := index_of_slot hd hr hr' (by omega)
    cases hk
    rw [hr] at hr'
    cases hr'
    have hi : i = i' := by omega
    rw [hrow, hrow', hi]
  covers r hr i hlo hhi := by
    obtain ⟨k, hk⟩ := mem_iff_getElem?.mp hr
    obtain ⟨h1, h2, h3⟩ := hcovers k r i hk hlo hhi
    exact ⟨_, h1, h2, h3⟩

variable {p : Plan} {stageRows stage bucket maxCtx padding n : Nat} {c : Cache} {l : Live}
  {g : Program}

theorem IsStage.rows (m : Masked requests p) (hd : requests.Pairwise fun p r => p.slot ≠ r.slot)
    (hs : 0 < stageRows) (g : IsStage requests p stageRows stage slots table) :
    PhaseRows requests (lens requests).sum slots p.positions (·.taken (stage * stageRows))
      (·.taken ((stage + 1) * stageRows)) (·.taken ((stage + 1) * stageRows)) := by
  refine PhaseRows.of_place hd (fun k i => tileStart (lens requests) k + i) ?_ ?_
  · intro row s x h1 h0 h2
    obtain ⟨k, r, i, hr, hi, rfl, hq⟩ := g.unmasked_iff.mp ⟨s, h1, h0⟩
    rw [g.row k r i hr hi, if_pos hq] at h1
    rw [m.position hr hi] at h2
    obtain ⟨hlo, hhi⟩ := (r.mem_clip stageRows hi hs).mpr hq
    refine ⟨k, r, i, hr, rfl, (some.inj h1).symm, (some.inj h2).symm, hlo, ?_⟩
    rw [r.taken_succ]
    exact hhi
  · intro k r i hr hlo hhi
    rw [r.taken_succ] at hhi
    have hclip := r.clip_len_le (stage * stageRows) stageRows
    have hi : i < r.len := by omega
    have hq : i / stageRows = stage := (r.mem_clip stageRows hi hs).mp ⟨hlo, hhi⟩
    have hrows := rows_le hr
    refine ⟨by omega, ?_, m.position hr hi⟩
    rw [g.row k r i hr hi, if_pos hq]

theorem Masked.rows (m : Masked requests p) (hd : requests.Pairwise fun p r => p.slot ≠ r.slot) :
    PhaseRows requests (lens requests).sum p.slots p.positions (fun _ => 0) (·.len) (·.len) := by
  refine PhaseRows.of_place hd (fun k i => tileStart (lens requests) k + i) ?_ ?_
  · intro row s x h1 h0 h2
    obtain ⟨k, r, i, hr, hi, rfl⟩ := m.unmasked_iff.mp ⟨s, h1, h0⟩
    rw [m.slot hr hi] at h1
    rw [m.position hr hi] at h2
    exact ⟨k, r, i, hr, rfl, (some.inj h1).symm, (some.inj h2).symm, by omega, hi⟩
  · intro k r i hr _ hi
    have hrows := rows_le hr
    exact ⟨by omega, m.slot hr hi, m.position hr hi⟩

def withPadding (owner : Request) (padding : Nat) (r : Request) : Nat :=
  if r.slot = owner.slot then r.len + padding else r.len

/-- the rows of a launch whose padding is written for `owner` -/
theorem unmasked_rows {index : Nat}
    (hd : requests.Pairwise fun p r => p.slot ≠ r.slot) (ho : requests[index]? = some owner)
    (hslots : p.slots = (packed requests).slots ++ replicate padding (owner.slot : Int))
    (hpositions : p.positions = (packed requests).positions ++
      (range padding).map fun i => ((owner.stop + i : Nat) : Int)) :
    PhaseRows requests (lens requests).sum p.slots p.positions (fun _ => 0) (·.len)
      (withPadding owner padding) := by
  have hget : ∀ k r i, requests[k]? = some r → i < r.len →
      p.slots[tileStart (lens requests) k + i]? = some (r.slot : Int) ∧
        p.positions[tileStart (lens requests) k + i]? = some ((r.start + i : Nat) : Int) := by
    intro k r i hr hi
    have hrows := rows_le hr
    rw [hslots, hpositions, getElem?_append_left (by rw [length_packed_slots]; omega),
      getElem?_append_left (by rw [length_packed_positions]; omega)]
    exact ⟨packed_slot hr hi, packed_position hr hi⟩
  refine PhaseRows.of_place hd (fun k i => if i < ((lens requests)[k]?).getD 0
    then tileStart (lens requests) k + i
    else (lens requests).sum + (i - ((lens requests)[k]?).getD 0)) ?_ ?_
  · intro row s x h1 h0 h2
    have hlen : ∀ {k : Nat} {r : Request}, requests[k]? = some r → ((lens requests)[k]?).getD 0 = r.len := by
      intro k r hr
      simp [lens, hr]
    rcases lt_or_ge row (lens requests).sum with hlt | hge
    · obtain ⟨k, r, i, hr, hi, rfl⟩ := exists_row hlt
      obtain ⟨g1, g2⟩ := hget k r i hr hi
      rw [g1] at h1
      rw [g2] at h2
      refine ⟨k, r, i, hr, ?_, (some.inj h1).symm, (some.inj h2).symm, by omega, ?_⟩
      · rw [hlen hr, if_pos hi]
      · unfold withPadding
        split <;> omega
    · -- a padding row continues its owner
      obtain ⟨j, rfl⟩ := Nat.exists_eq_add_of_le hge
      rw [hslots, getElem?_append_right (by rw [length_packed_slots]; omega),
        length_packed_slots, Nat.add_sub_cancel_left, getElem?_replicate] at h1
      have hj : j < padding := by
        by_contra hc
        rw [if_neg hc] at h1
        cases h1
      rw [if_pos hj] at h1
      rw [hpositions, getElem?_append_right (by rw [length_packed_positions]; omega),
        length_packed_positions, Nat.add_sub_cancel_left, getElem?_map,
        getElem?_range hj] at h2
      refine ⟨index, owner, owner.len + j, ho, ?_, (some.inj h1).symm, ?_, by omega, ?_⟩
      · rw [hlen ho, if_neg (by omega), Nat.add_sub_cancel_left]
      · rw [← some.inj h2]
        simp only [Request.stop, add_assoc]
      · unfold withPadding
        rw [if_pos rfl]
        omega
  · intro k r i hr _ hi
    have hrows := rows_le hr
    have hlen : ((lens requests)[k]?).getD 0 = r.len := by simp [lens, hr]
    obtain ⟨h1, h2⟩ := hget k r i hr hi
    rw [hlen, if_pos hi]
    exact ⟨by omega, h1, h2⟩

/-! ### Phases -/

section Phases
variable {size window : Nat} {rings : Rings Nat RowTag}

/-- The queries of a table stand between the positions `lo` and `hi` of their requests. -/
def Queries (requests : List Request) (table : List Int) (lo hi : Request → Nat) : Prop :=
  ∀ k q, spanAt table k = some q → ∃ r ∈ requests, q.slot = r.slot ∧
    q.kvlen - q.qlen = (r.start + lo r : Nat) ∧ q.qlen ≤ (hi r : Int) - lo r

theorem reads_of_batch {len : Nat → Nat} {ws : List (RingWrite Nat RowTag)}
    (hd : requests.Pairwise fun p r => p.slot ≠ r.slot) (hwin : 0 < window)
    (b : Rings.Batch size window isLive (progress requests frontiers lo)
      (progress requests frontiers hi) len ws)
    (held : Rings.Held size window isLive (progress requests frontiers lo) rings)
    (hq : Queries requests table lo hi) :
    Snapshot.Reads size window ⟨rings.writeAll size ws, table⟩ := by
  intro k q h i hiq x hx hw
  obtain ⟨r, hr, hslot, hstart, hlen⟩ := hq k q h
  have hs : q.slot.toNat = r.slot := by rw [hslot, Int.toNat_natCast]
  have hlo := @progress_eq requests frontiers r lo hd hr
  have hhi := @progress_eq requests frontiers r hi hd hr
  have hp := b.reads hwin held (s := r.slot) (p := r.start + lo r + i) (x := x)
    (by omega) (by omega) (by omega) (by omega)
  rw [hs]
  exact hp

/-- phase after phase: the windows stay held, and every phase's reads are right -/
theorem runPhases_reads (hd : requests.Pairwise fun p r => p.slot ≠ r.slot) (hwin : 0 < window)
    {ps : List (List Int × List Int)} (f : Nat → Request → Nat)
    (hphase : ∀ j slots table, ps[j]? = some (slots, table) →
      (∃ len, Rings.Batch size window isLive (progress requests frontiers (f j))
        (progress requests frontiers (f (j + 1))) len (rowWrites launch live slots positions)) ∧
      Queries requests table (f j) (f (j + 1)))
    (held : Rings.Held size window isLive (progress requests frontiers (f 0)) rings) :
    Rings.Held size window isLive (progress requests frontiers (f ps.length))
        (runPhases size launch live positions ps rings).1 ∧
      ∀ snap ∈ (runPhases size launch live positions ps rings).2, snap.Reads size window := by
  induction ps generalizing f rings with
  | nil => exact ⟨held, nofun⟩
  | cons a ps ih =>
    obtain ⟨slots, table⟩ := a
    obtain ⟨⟨len, b⟩, hq⟩ := hphase 0 slots table rfl
    obtain ⟨h1, h2⟩ := ih (fun j => f (j + 1)) (fun j slots table hj => hphase (j + 1) slots table hj)
      (b.held hwin held)
    refine ⟨h1, fun snap hsnap => ?_⟩
    rcases mem_cons.mp hsnap with rfl | hsnap
    · exact reads_of_batch hd hwin b held hq
    · exact h2 snap hsnap

end Phases

/-! ### Frontiers -/

theorem progress_zero (h : ∀ r ∈ requests, r.start = frontiers.getD r.slot 0) :
    progress requests frontiers (fun _ => 0) = fun s => frontiers.getD s 0 := by
  funext s
  unfold progress
  cases hf : requests.find? fun r => r.slot = s with
  | none => rfl
  | some r =>
    obtain ⟨hr, rfl⟩ := find_some hf
    exact h r hr

theorem advance_getD (hd : requests.Pairwise fun p r => p.slot ≠ r.slot)
    (hslot : ∀ r ∈ requests, r.slot < frontiers.length) :
    (fun s => (advance frontiers requests).getD s 0) = progress requests frontiers (·.len) := by
  funext s
  induction requests generalizing frontiers with
  | nil => rfl
  | cons r rs ih =>
    obtain ⟨h0, hd⟩ := pairwise_cons.mp hd
    obtain ⟨hr, hslot⟩ := forall_mem_cons.mp hslot
    have ih : (advance (frontiers.set r.slot (r.start + r.len)) rs).getD s 0 =
        progress rs (frontiers.set r.slot (r.start + r.len)) (·.len) s :=
      ih hd fun q hq => by simpa using hslot q hq
    rw [advance, foldl_cons, ← advance, ih]
    unfold progress
    rw [find?_cons]
    by_cases hs : r.slot = s
    · have hnone : rs.find? (fun q => q.slot = s) = none := by
        rw [find?_eq_none]
        intro q hq
        simpa [← hs] using (h0 q hq).symm
      subst hs
      simp [hnone, hr]
    · simp only [hs, decide_false, getD_eq_getElem?_getD, getElem?_set_ne hs]

/-! ### The manifest -/

/-- the ring has the window and `n` written rows beside each other, or is never full -/
def Cache.Room (live : Live) (c : Cache) (n : Nat) : Prop :=
  c.stride ≥ live.maxCtx ∨ c.stride ≥ c.window + n - 1

theorem Cache.Room.mono {n' : Nat} (h : c.Room l n) (hn : n' ≤ n) : c.Room l n' := by
  unfold Cache.Room at *
  omega

theorem Cache.Room.fits {f x y : Nat} (h : c.Room l n)
    (hw : 0 < c.window) (hctx : f + n ≤ l.maxCtx) (h1 : f < x + c.window) (h2 : x < f + n)
    (h3 : f ≤ y) (h4 : y < f + n) (he : x % c.stride = y % c.stride) : x = y := by
  rcases h with h | h
  · exact Rings.fits_of_lt (by omega) (by omega) he
  · exact Rings.fits_of_le hw (by omega) h1 h2 h3 h4 he

/-- What the manifest's checks give for a program and a cache: how many rows a launch or a stage
may write. -/
inductive RingOk (m : Manifest) (l : Live) (g : Program) (c : Cache) : Prop where
  /-- the whole launch is one phase -/
  | whole (n : Nat) (hn : ∀ plan, phases m g c plan = .ok [(plan.slots, plan.table)])
      (hlimit : n = min (m.maxRequestRows.getD g.rows) g.rows) (hroom : c.Room l n)
  | staged (stageRows limit : Nat) (hrows : m.stageRows = some stageRows)
      (hlimit : m.maxRequestRows = some limit) (hs : 0 < stageRows)
      (hreaders : 1 < (readers g.insts c.pair).length)
      (hstages : (readers g.insts c.pair).length = divCeil (min limit g.rows) stageRows)
      (hroom : c.Room l stageRows)

theorem length_sites (insts : List DevInst) (f : DevInst → Bool) :
    (sites insts f).length = insts.countP f := by
  have h : ∀ n, ((insts.zipIdx n).filter fun e => f e.1).length = insts.countP f := by
    intro n
    induction insts generalizing n with
    | nil => rfl
    | cons d ds ih =>
      rw [zipIdx_cons, filter_cons, countP_cons]
      cases f d <;> simp [ih]
  rw [sites, length_map]
  exact h 0

theorem length_readers (insts : List DevInst) (pair : Nat × Nat) : (readers insts pair).length =
      ((insts.filter isAttention).map fun d => (d.t 3, d.t 4)).count pair := by
  rw [readers, length_sites, count_eq_countP, countP_map, countP_filter]
  apply countP_congr
  intro d _
  simp [and_comm]

theorem readPairs_ok {seen pairs : List (Nat × Nat)} {pair : Nat × Nat}
    (h : readPairs l seen pairs = .ok ()) (h2 : pair ∈ seen ∧ pair ∈ pairs ∨ 1 < pairs.count pair) :
    ∃ c ∈ l.caches, c.pair = pair ∧ c.isRing l = true := by
  induction pairs generalizing seen with
  | nil => simp at h2
  | cons a pairs ih =>
    obtain ⟨h1, h⟩ := need_bind.mp h
    by_cases ha : a = pair
    · subst ha
      by_cases hseen : a ∈ seen
      · simpa [hseen] using h1
      · refine ih h (Or.inl ⟨mem_cons_self, ?_⟩)
        have hc : 1 < (a :: pairs).count a := by
          rcases h2 with h2 | h2
          · exact absurd h2.1 hseen
          · exact h2
        rw [count_cons_self] at hc
        exact count_pos_iff.mp (by omega)
    · refine ih h ?_
      rcases h2 with ⟨h2, h3⟩ | h2
      · rcases mem_cons.mp h3 with rfl | h3
        · exact absurd rfl ha
        · exact Or.inl ⟨mem_cons_of_mem _ h2, h3⟩
      · rw [count_cons_of_ne ha] at h2
        exact Or.inr h2

theorem validateRing_ok {stages : Nat} (h : validateRing g n stages c = .ok ()) :
    ((readers g.insts c.pair).length ≤ 1 → c.stride ≥ c.window + n - 1) ∧
      (1 < (readers g.insts c.pair).length → (readers g.insts c.pair).length = stages) := by
  unfold validateRing at h
  dsimp only at h
  split at h
  · next hle =>
    exact ⟨fun _ => of_decide_eq_true (need_ok.mp h), fun hlt => absurd hle (by omega)⟩
  · next hgt =>
    obtain ⟨h1, -⟩ := need_bind.mp h
    exact ⟨fun hle => absurd hle hgt, fun _ => of_decide_eq_true h1⟩

theorem validateStages_ok
    (h : validateStages g l n stageRows = .ok ()) (hc : c ∈ l.caches) (hw : 0 < c.window) :
    ((readers g.insts c.pair).length ≤ 1 → c.Room l n) ∧ (1 < (readers g.insts c.pair).length →
        (readers g.insts c.pair).length = divCeil n stageRows) := by
  unfold validateStages at h
  obtain ⟨⟨⟩, h1, h⟩ := bind_ok.mp h
  have hring : ∀ c ∈ l.caches, c.isRing l = true →
      validateRing g n (divCeil n stageRows) c = .ok () := by
    intro c hc hr
    exact forM_ok.mp h c (mem_filter.mpr ⟨hc, hr⟩)
  constructor
  · intro hle
    by_cases hr : c.isRing l = true
    · exact Or.inr ((validateRing_ok (hring c hc hr)).1 hle)
    · left
      simp only [Cache.isRing, Bool.and_eq_true, decide_eq_true_eq, not_and] at hr
      have := hr hw
      omega
  · intro hlt
    rw [length_readers] at hlt
    obtain ⟨c', hc', hpair, hr⟩ := readPairs_ok h1 (Or.inr hlt)
    have := (validateRing_ok (hring c' hc' hr)).2
    rw [hpair, length_readers] at this
    rw [length_readers]
    exact this hlt

theorem ringOk_of_validateRows {m : Manifest} {p : Packet}
    {programs : List Program} (h : m.validateRows p l = .ok ()) (hc : c ∈ l.caches)
    (hw : 0 < c.window) (hp : Manifest.prefill p = .ok programs) (hg : g ∈ programs) :
    RingOk m l g c ∧ g.rows ≤ i32Max := by
  obtain ⟨-, h⟩ := need_bind.mp h
  obtain ⟨-, h⟩ := need_bind.mp h
  obtain ⟨programs', h1, h⟩ := bind_ok.mp h
  rw [hp] at h1
  cases h1
  obtain ⟨rows, hrows, h⟩ := bind_ok.mp h
  obtain ⟨h32, h⟩ := need_bind.mp h
  obtain ⟨⟨⟩, -, h⟩ := bind_ok.mp h
  obtain ⟨n, hn, h⟩ := bind_ok.mp h
  obtain ⟨⟨⟩, hring, h⟩ := bind_ok.mp h
  have h32 := of_decide_eq_true h32
  have hle : g.rows ≤ rows := by
    unfold Manifest.widest at hrows
    split at hrows
    · next h => cases hrows; exact (max?_eq_some_iff.mp h).2 _ (mem_map_of_mem hg)
    · cases hrows
  have hroom : c.Room l n := by
    have := of_decide_eq_true (need_ok.mp (forM_ok.mp hring c hc))
    unfold Cache.Room
    omega
  refine ⟨?_, le_trans hle h32⟩
  cases hs : m.stageRows with
  | none =>
    unfold Manifest.writeRows at hn
    rw [hs] at hn
    obtain ⟨-, hn⟩ := need_bind.mp hn
    cases pure_ok.mp hn
    refine RingOk.whole _ (fun plan => ?_) rfl (hroom.mono ?_)
    · unfold phases
      rw [hs]
    · cases m.maxRequestRows with
      | none => simpa using hle
      | some limit => exact min_le_left _ _
  | some stageRows =>
    unfold Manifest.writeRows at hn
    rw [hs] at hn
    obtain ⟨h1, hn⟩ := need_bind.mp hn
    obtain ⟨h2, hn⟩ := need_bind.mp hn
    obtain ⟨-, hn⟩ := need_bind.mp hn
    have hn : stageRows = n := pure_ok.mp hn
    rw [← hn] at hroom
    obtain ⟨limit, hlimit⟩ := isSome_iff_exists.mp h1
    have h2 := (of_decide_eq_true h2).1
    unfold Manifest.stagesOk at h
    simp only [hs] at h
    rw [hlimit] at h
    obtain ⟨hone, hmany⟩ := validateStages_ok (forM_ok.mp h g hg) hc hw
    by_cases hr : (readers g.insts c.pair).length ≤ 1
    · refine RingOk.whole _ (fun plan => ?_) rfl ?_
      · unfold phases
        simp only [hs, if_pos hr]
      · rw [hlimit]
        exact hone hr
    · exact RingOk.staged stageRows limit hs hlimit h2 (by omega) (hmany (by omega)) hroom

/-! ### A launch -/

theorem spanAt_lt {q : Span} (h : spanAt table k = some q)
    (hn : table.length = 1 + 4 * n) : k < n := by
  obtain ⟨-, -, -, h4⟩ := index_span h
  unfold index at h4
  split at h4
  · next h => have := (List.getElem?_eq_some_iff.mp h).1; omega
  · cases h4

theorem queries_packed : Queries requests (packed requests).table (fun _ => 0) (·.len) := by
  intro k q h
  have hlen : (packed requests).table.length = 1 + 4 * requests.length := by
    rw [packed, length_cons, length_entriesFrom, add_comm]
  have hk := spanAt_lt h hlen
  have hr : requests[k]? = some requests[k] := getElem?_eq_getElem hk
  rw [spanAt_packed hr] at h
  cases h
  refine ⟨_, getElem_mem hk, rfl, ?_, ?_⟩
  · rw [Request.span_start, add_zero]
  · simp [Request.span]

theorem IsStage.queries (m : Masked requests p)
    (g : IsStage requests p stageRows stage slots table) :
    Queries requests table (·.taken (stage * stageRows)) (·.taken ((stage + 1) * stageRows)) := by
  intro k q h
  have hlen : table.length = 1 + 4 * requests.length := by
    rw [g.tableLength, m.table, packed, length_cons, length_entriesFrom, add_comm]
  have hk := spanAt_lt h hlen
  have hr : requests[k]? = some requests[k] := getElem?_eq_getElem hk
  rw [g.span k _ hr] at h
  cases h
  refine ⟨_, getElem_mem hk, rfl, ?_, ?_⟩
  · rw [Request.span_start, Request.clip_start]
  · simp only [Request.taken_succ, Request.span]
    omega

section Launches
variable {m : Manifest} {l : Live} {c : Cache} {g : Program} {ps : List (List Int × List Int)}
  {rings : Rings Nat RowTag} {limit : Nat}

/-- What a launch does to the rings. -/
def LaunchOk (c : Cache) (requests : List Request) (frontiers : List Nat) (launch : Nat)
    (positions : List Int) (ps : List (List Int × List Int)) : Prop :=
  ∀ rings : Rings Nat RowTag,
    Rings.Held c.stride c.window isLive (fun s => frontiers.getD s 0) rings →
    Rings.Held c.stride c.window isLive (fun s => (advance frontiers requests).getD s 0)
        (runPhases c.stride launch (lens requests).sum positions ps rings).1 ∧
      ∀ snap ∈ (runPhases c.stride launch (lens requests).sum positions ps rings).2,
        snap.Reads c.stride c.window

theorem launchOk_of_phases {bucket limit} (a : Accepted requests frontiers bucket l.maxCtx limit)
    (hw : 0 < c.window) (launch : Nat) (f : Nat → Request → Nat)
    (hzero : f 0 = fun _ => 0) (hlast : ∀ r ∈ requests, f ps.length r = r.len)
    (hphase : ∀ j slots table, ps[j]? = some (slots, table) →
      (∃ len, Rings.Batch c.stride c.window isLive (progress requests frontiers (f j))
        (progress requests frontiers (f (j + 1))) len
          (rowWrites launch (lens requests).sum slots positions)) ∧
      Queries requests table (f j) (f (j + 1))) :
    LaunchOk c requests frontiers launch positions ps := by
  intro rings held
  have hstart : progress requests frontiers (f 0) = fun s => frontiers.getD s 0 := by
    rw [hzero]
    exact progress_zero fun r hr => (a.fits r hr).start
  have hend : progress requests frontiers (f ps.length) = progress requests frontiers (·.len) := by
    funext s
    rcases slot_cases requests frontiers s with ⟨r, hr, rfl⟩ | hnone
    · rw [progress_eq a.distinct hr, progress_eq a.distinct hr, hlast r hr]
    · rw [(hnone _).1, (hnone _).1]
  rw [← hstart] at held
  have h := runPhases_reads a.distinct hw f hphase held
  rw [hend, ← advance_getD a.distinct fun r hr => (a.fits r hr).slot] at h
  exact h

theorem launchOk_masked
    (h : planWithLimit requests frontiers bucket l.maxCtx (some limit) = .ok p) (hw : 0 < c.window)
    (hroom : c.Room l n) (hn : n = min limit bucket) (launch : Nat) :
    LaunchOk c requests frontiers launch p.positions [(p.slots, p.table)] := by
  obtain ⟨a, -⟩ := planWithLimit_iff.mp h
  obtain ⟨m, -⟩ := masked_of_plan h
  refine launchOk_of_phases a hw launch (fun j r => if j = 0 then 0 else r.len) rfl
    (fun r _ => rfl) fun j slots table hj => ?_
  cases j with
  | succ j => cases hj
  | zero =>
    cases hj
    refine ⟨⟨_, batch_of_rows frontiers launch a.distinct (m.rows a.distinct)
      (fun r _ => ⟨Nat.zero_le _, le_rfl⟩) fun r hr x y h1 h2 h3 h4 he => ?_⟩, ?_⟩
    · have hlen : r.len ≤ n := by
        have h1 := (a.fits r hr).limit limit rfl
        have h2 : r.len ≤ (lens requests).sum := le_sum_of_mem (mem_map_of_mem hr)
        have h3 := a.rows
        omega
      exact (hroom.mono hlen).fits hw (a.fits r hr).ctx h1 h2 h3 h4 he
    · rw [m.table]
      exact queries_packed

/-- a launch whose padding is written -/
theorem launchOk_unmasked
    (h : planWithLimit requests frontiers bucket l.maxCtx none = .ok p) (hw : 0 < c.window)
    (hroom : c.Room l n) (hn : n = bucket) (launch : Nat) :
    LaunchOk c requests frontiers launch p.positions [(p.slots, p.table)] := by
  obtain ⟨a, h⟩ := planWithLimit_iff.mp h
  obtain ⟨index, owner, o, hp⟩ := pad_unmasked a h
  have hslots : p.slots = (packed requests).slots ++
      replicate (bucket - (lens requests).sum) (owner.slot : Int) := by rw [hp]
  have hpositions : p.positions = (packed requests).positions ++
      (range (bucket - (lens requests).sum)).map fun i => ((owner.stop + i : Nat) : Int) := by
    rw [hp]
  have htable : p.table = (packed requests).table := by rw [hp]
  have hsum := a.rows
  -- a request has at most the bucket's rows, the padding included, and ends in the context
  have hbound : ∀ r ∈ requests,
      withPadding owner (bucket - (lens requests).sum) r ≤ n ∧
        r.start + withPadding owner (bucket - (lens requests).sum) r ≤ l.maxCtx := by
    intro r hr
    have hle : r.len ≤ (lens requests).sum := le_sum_of_mem (mem_map_of_mem hr)
    have hctx := (a.fits r hr).ctx
    have hfit := o.fits
    unfold Request.stop at hctx hfit
    unfold withPadding
    split
    · next hs =>
      obtain ⟨k, hk⟩ := mem_iff_getElem?.mp hr
      have hkk := index_of_slot a.distinct hk o.get hs
      rw [hkk, o.get] at hk
      cases hk
      omega
    · omega
  refine launchOk_of_phases a hw launch (fun j r => if j = 0 then 0 else r.len) rfl
    (fun r _ => rfl) fun j slots table hj => ?_
  cases j with
  | succ j => cases hj
  | zero =>
    cases hj
    refine ⟨⟨_, batch_of_rows frontiers launch a.distinct
      (unmasked_rows a.distinct o.get hslots hpositions) (fun r _ => ⟨Nat.zero_le _, ?_⟩)
      fun r hr x y h1 h2 h3 h4 he => ?_⟩, ?_⟩
    · show r.len ≤ withPadding owner (bucket - (lens requests).sum) r
      unfold withPadding
      split <;> omega
    · obtain ⟨h5, h6⟩ := hbound r hr
      exact (hroom.mono h5).fits hw h6 h1 h2 h3 h4 he
    · rw [htable]
      exact queries_packed

/-- a launch in stages -/
theorem launchOk_staged
    (h : planWithLimit requests frontiers bucket l.maxCtx (some limit) = .ok p) (hw : 0 < c.window)
    (hroom : c.Room l stageRows) (hs : 0 < stageRows) (hn : n = divCeil (min limit bucket) stageRows)
    (launch : Nat) :
    ∃ ps, ((range n).mapM fun stage => do
        let slots ← stageSlots p stage stageRows
        let table ← planStage p stage stageRows
        pure (slots, table)) = .ok ps ∧
      LaunchOk c requests frontiers launch p.positions ps := by
  obtain ⟨a, -⟩ := planWithLimit_iff.mp h
  obtain ⟨m, -⟩ := masked_of_plan h
  have hskip : ∀ stage < n, stage * stageRows < 2 ^ 64 := by
    intro stage hlt
    have h1 := mul_lt_of_lt_divCeil (hn ▸ hlt)
    have h2 := a.bucket32
    unfold i32Max at h2
    omega
  have hstage : ∀ s, ∃ slots table, s < n → stageSlots p s stageRows = .ok slots ∧
      planStage p s stageRows = .ok table ∧ IsStage requests p stageRows s slots table := by
    intro s
    by_cases hlt : s < n
    · obtain ⟨slots, table, h⟩ := m.exists_stage hs (hskip s hlt)
      exact ⟨slots, table, fun _ => h⟩
    · exact ⟨[], [], fun h => absurd h hlt⟩
  choose slots tables hall using hstage
  refine ⟨(range n).map fun s => (slots s, tables s), mapM_ok fun s hs => ?_, ?_⟩
  · obtain ⟨h1, h2, -⟩ := hall s (mem_range.mp hs)
    rw [h1, h2]
    rfl
  · refine launchOk_of_phases a hw launch (fun j r => r.taken (j * stageRows)) ?_
      (fun r hr => ?_) fun j sl tb hj => ?_
    · funext r
      rw [zero_mul]
      exact Nat.min_zero _
    · have h1 := (a.fits r hr).limit limit rfl
      have h2 : r.len ≤ (lens requests).sum := le_sum_of_mem (mem_map_of_mem hr)
      have h3 := a.rows
      have h4 := le_divCeil (a := min limit bucket) hs
      rw [length_map, length_range, hn]
      exact min_eq_left (by omega)
    · rw [getElem?_map] at hj
      obtain ⟨s, hs', hj⟩ := map_eq_some_iff.mp hj
      obtain ⟨hlt, rfl⟩ := List.getElem?_eq_some_iff.mp hs'
      rw [getElem_range] at hj
      rw [length_range] at hlt
      cases hj
      obtain ⟨-, -, g⟩ := hall j hlt
      refine ⟨⟨_, batch_of_rows frontiers launch a.distinct (g.rows m a.distinct hs)
        (fun r _ => ?_) fun r hr x y h1 h2 h3 h4 he => ?_⟩, g.queries m⟩
      · rw [r.taken_succ]
        omega
      · have hclip := r.clip_len_le_stage (j * stageRows) stageRows
        have hstop := r.clip_len_le (j * stageRows) stageRows
        have hctx := (a.fits r hr).ctx
        unfold Request.stop at hctx
        rw [r.taken_succ, ← add_assoc] at h2 h4
        exact (hroom.mono hclip).fits hw (by omega) h1 h2 h3 h4 he

end Launches

/-! ### Runs -/

section Runs
variable {m : Manifest} {p : Packet} {l : Live} {c : Cache} {s s' : State} {e : Event}
  {es : List Event} {snaps : List Snapshot}

def Inv (c : Cache) (s : State) : Prop :=
  Rings.Held c.stride c.window isLive (fun slot => s.frontiers.getD slot 0) s.rings

theorem inv_init : Inv c (State.init l) := by
  intro s x hx
  have h : (replicate l.batch 0).getD s 0 = 0 := by
    rw [getD_eq_getElem?_getD, getElem?_replicate]
    split <;> rfl
  simp only [State.init, h] at hx
  omega

theorem index_some {α : Type} {xs : List α} {j : Nat} {a : α} (h : index xs j = .ok a) : a ∈ xs := by
  unfold index at h
  split at h
  · next hx =>
    cases h
    exact mem_of_getElem? hx
  · cases h

theorem step_reads (h : m.validateRows p l = .ok ()) (hc : c ∈ l.caches) (hw : 0 < c.window)
    (hi : Inv c s) (hs : step m p l c s e = .ok (s', snaps)) :
    Inv c s' ∧ ∀ snap ∈ snaps, snap.Reads c.stride c.window := by
  cases e with
  | restart slot =>
    cases pure_ok.mp hs
    have hfrontier : (fun t => (s.frontiers.set slot 0).getD t 0) =
        fun t => if t = slot then 0 else s.frontiers.getD t 0 := by
      funext t
      rw [getD_eq_getElem?_getD, getD_eq_getElem?_getD, getElem?_set]
      by_cases ht : t = slot
      · subst ht
        rw [if_pos rfl, if_pos rfl]
        split <;> rfl
      · rw [if_neg ht, if_neg fun h => ht h.symm]
    refine ⟨?_, nofun⟩
    unfold Inv
    rw [hfrontier]
    exact hi.restart
  | launch program requests =>
    obtain ⟨programs, h1, hs⟩ := bind_ok.mp hs
    obtain ⟨g, h2, hs⟩ := bind_ok.mp hs
    obtain ⟨plan, h3, hs⟩ := bind_ok.mp hs
    obtain ⟨ps, h4, hs⟩ := bind_ok.mp hs
    cases pure_ok.mp hs
    obtain ⟨ring, -⟩ := ringOk_of_validateRows h hc hw h1 (index_some h2)
    have hlaunch : LaunchOk c requests s.frontiers s.clock plan.positions ps := by
      cases ring with
      | whole n hn hlimit hroom =>
        rw [hn plan] at h4
        cases h4
        cases hl : m.maxRequestRows with
        | none =>
          rw [hl] at h3 hlimit
          exact launchOk_unmasked h3 hw hroom (hlimit.trans (min_self _)) s.clock
        | some limit =>
          rw [hl] at h3 hlimit
          exact launchOk_masked h3 hw hroom hlimit s.clock
      | staged stageRows limit hrows hlimit hpos hreaders hstages hroom =>
        rw [hlimit] at h3
        unfold phases at h4
        simp only [hrows, if_neg (Nat.not_le.mpr hreaders)] at h4
        obtain ⟨ps', h5, hok⟩ := launchOk_staged h3 hw hroom hpos hstages s.clock
        rw [h5] at h4
        cases h4
        exact hok
    exact hlaunch s.rings hi

theorem run_reads (h : m.validateRows p l = .ok ()) (hc : c ∈ l.caches) (hw : 0 < c.window)
    (hi : Inv c s) (hr : run m p l c es s = .ok (s', snaps)) :
    ∀ snap ∈ snaps, snap.Reads c.stride c.window := by
  induction es generalizing s snaps with
  | nil =>
    cases pure_ok.mp hr
    exact nofun
  | cons e es ih =>
    obtain ⟨⟨t, first⟩, h1, hr⟩ := bind_ok.mp hr
    obtain ⟨⟨u, rest⟩, h2, hr⟩ := bind_ok.mp hr
    cases pure_ok.mp hr
    obtain ⟨ht, hfirst⟩ := step_reads h hc hw hi h1
    intro snap hsnap
    rcases mem_append.mp hsnap with hsnap | hsnap
    · exact hfirst snap hsnap
    · exact ih ht h2 snap hsnap

end Runs

/-- In every run of launches under a validated manifest, every query reads from a sliding cache, for
each position of its window, the row last written for its slot and that position, and no
padding. -/
theorem reads_last (m : Manifest) (p : Packet) (l : Live) (c : Cache)
    (h : m.validateRows p l = .ok ()) (hc : c ∈ l.caches) (hw : 0 < c.window) (es : List Event)
    (s : State) (snaps : List Snapshot) (hr : run m p l c es (State.init l) = .ok (s, snaps)) :
    ∀ snap ∈ snaps, snap.Reads c.stride c.window :=
  run_reads h hc hw inv_init hr

def writer (h : Nat) : DevInst := ⟨.headNormRope, fun _ => 1, fun _ => h, fun _ => 0⟩

def reader : DevInst where
  op := .flashPrefill
  fj := fun _ => 0
  t := fun j => if j = 3 then 10 else if j = 4 then 11 else 20
  i := fun _ => 0

def twoStages : Program where
  rows := 4
  insts := [writer 10, writer 11, reader, writer 10, writer 11, reader]
  gqStream := [0, 1, 2, 3, 4, 5]
  gqSegOfs := [0, 2, 3, 5, 6]

def stagedManifest : Manifest := ⟨1, some 4, some 2, [⟨1, 2⟩, ⟨3, 4⟩], ["digest"]⟩

def shortRing : Cache := ⟨(10, 11), 4, 3, 3⟩

def shortLive : Live := ⟨1, 2, 16, [shortRing]⟩

def threeLaunches : List Event :=
  [.launch 0 [⟨0, 0, 3, 7⟩, ⟨1, 0, 1, 1⟩], .launch 0 [⟨0, 3, 4, 7⟩], .restart 1,
    .launch 0 [⟨1, 0, 4, 5⟩]]

theorem reads_last_three : ∃ s snaps,
    run stagedManifest ⟨false, 1, [twoStages]⟩ shortLive shortRing threeLaunches
      (State.init shortLive) = .ok (s, snaps) ∧ snaps.length = 6 ∧
      ∀ snap ∈ snaps, snap.Reads 4 3 := by
  have hv : stagedManifest.validateRows ⟨false, 1, [twoStages]⟩ shortLive = .ok () := by
    decide +kernel
  have hn : (run stagedManifest ⟨false, 1, [twoStages]⟩ shortLive shortRing threeLaunches
      (State.init shortLive)).toOption.map (·.2.length) = some 6 := by decide +kernel
  cases hr : run stagedManifest ⟨false, 1, [twoStages]⟩ shortLive shortRing threeLaunches
      (State.init shortLive) with
  | error e =>
    rw [hr] at hn
    cases hn
  | ok out =>
    obtain ⟨s, snaps⟩ := out
    rw [hr] at hn
    exact ⟨s, snaps, rfl, some.inj hn, reads_last stagedManifest _ shortLive shortRing hv
      mem_cons_self (by decide) threeLaunches s snaps hr⟩

end Plow.PackedPrefill
