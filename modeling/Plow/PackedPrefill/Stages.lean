import Plow.PackedPrefill.Plan

/-!
# The stages of a launch

A stage takes `stageRows` rows of every request: `Request.clip` is what it takes of one.
`planStage` and `stageSlots` of a masked plan both come out of `clip` (`planStage_masked`,
`stageSlots_masked`), so the table's spans and the unmasked rows agree, and the stages cut the live
rows into parts (`staged_partition`).
-/

namespace Plow.PackedPrefill
open Plow.Lib List

/-! ### What a stage takes of a request -/

namespace Request

def taken (r : Request) (skip : Nat) : Nat := min r.len skip

/-- the part of the request in the stage behind `skip` rows -/
def clip (r : Request) (skip stageRows : Nat) : Request :=
  { r with start := r.start + r.taken skip, len := min (r.len - r.taken skip) stageRows }

variable (r : Request) (skip stageRows : Nat)

@[simp] theorem clip_slot : (r.clip skip stageRows).slot = r.slot := rfl

theorem clip_start : (r.clip skip stageRows).start = r.start + r.taken skip := rfl

theorem taken_le : r.taken skip ≤ r.len := min_le_left _ _

theorem clip_len_le : r.taken skip + (r.clip skip stageRows).len ≤ r.len := by
  have := r.taken_le skip
  simp only [clip]
  omega

theorem clip_len_le_stage : (r.clip skip stageRows).len ≤ stageRows := min_le_right _ _

theorem clip_stop_le : (r.clip skip stageRows).stop ≤ r.stop := by
  have := r.clip_len_le skip stageRows
  simp only [clip, stop] at this ⊢
  omega

theorem mem_clip {stage i : Nat} (hi : i < r.len) (hs : 0 < stageRows) :
    (r.taken (stage * stageRows) ≤ i ∧
      i < r.taken (stage * stageRows) + (r.clip (stage * stageRows) stageRows).len) ↔
        i / stageRows = stage := by
  have h : i / stageRows = stage ↔ stage * stageRows ≤ i ∧ i < stage * stageRows + stageRows := by
    rw [Nat.div_eq_iff hs]
    have : stage * stageRows + stageRows - 1 + 1 = stage * stageRows + stageRows := by omega
    omega
  rw [h]
  simp only [clip, taken]
  omega

theorem taken_succ (stage : Nat) : r.taken ((stage + 1) * stageRows) =
    r.taken (stage * stageRows) + (r.clip (stage * stageRows) stageRows).len := by
  rw [Nat.succ_mul]
  simp only [clip, taken]
  omega

end Request

theorem le_divCeil {a b : Nat} (hb : 0 < b) : a ≤ divCeil a b * b := by
  have h := Nat.div_add_mod a b
  have hlt := Nat.mod_lt a hb
  unfold divCeil
  split
  · rw [Nat.succ_mul, mul_comm]
    omega
  · rw [add_zero, mul_comm]
    omega

theorem mul_lt_of_lt_divCeil {a b s : Nat} (h : s < divCeil a b) : s * b < a := by
  have hd := Nat.div_add_mod a b
  rw [mul_comm] at hd
  unfold divCeil at h
  split at h
  · have := Nat.mul_le_mul_right b (Nat.le_of_lt_succ h)
    omega
  · rw [add_zero] at h
    have := Nat.mul_le_mul_right b (Nat.succ_le_of_lt h)
    rw [Nat.succ_mul] at this
    rcases Nat.eq_zero_or_pos b with rfl | hb
    · rw [Nat.div_zero] at h
      omega
    · omega

theorem foldl_max_le {xs : List Nat} {a b : Nat} :
    xs.foldl max a ≤ b ↔ a ≤ b ∧ ∀ x ∈ xs, x ≤ b := by
  induction xs generalizing a with
  | nil => simp
  | cons x xs ih => rw [foldl_cons, ih, max_le_iff, forall_mem_cons, and_assoc]

/-! ### The table -/

/-- A span of the table. -/
structure Span where
  row0 : Int
  qlen : Int
  slot : Int
  kvlen : Int
  deriving DecidableEq, Repr

/-- entry `r` of a table -/
def spanAt (table : List Int) (r : Nat) : Option Span := do
  pure ⟨← table[1 + 4 * r]?, ← table[2 + 4 * r]?, ← table[3 + 4 * r]?, ← table[4 + 4 * r]?⟩

/-- the span of a request whose rows begin at `row0` -/
def Request.span (r : Request) (row0 : Nat) : Span := ⟨row0, r.len, r.slot, r.stop⟩

theorem Request.span_start (r : Request) (row0 : Nat) :
    (r.span row0).kvlen - (r.span row0).qlen = r.start := by
  simp only [Request.span, Request.stop]
  push_cast
  omega

variable {frontiers : List Nat} {bucket maxCtx skip stageRows stage limit : Nat} {r r' : Request}
  {rs requests : List Request} {p : Plan} {k i n row j : Nat} {table out xs slots : List Int}

theorem entriesFrom_get (h : rs[k]? = some r) (hj : j < 4) :
    (entriesFrom n rs)[4 * k + j]? = (r.entry (n + tileStart (lens rs) k))[j]? := by
  induction rs generalizing n k with
  | nil => simp at h
  | cons r' rs ih =>
    cases k with
    | zero =>
      cases h
      rw [tileStart_zero, mul_zero, zero_add, add_zero, entriesFrom,
        getElem?_append_left (by simpa [Request.entry] using hj)]
    | succ k =>
      have hl : (r'.entry n).length = 4 := rfl
      rw [entriesFrom, getElem?_append_right (by omega), hl, lens, map_cons,
        tileStart_cons, ← add_assoc]
      have e : 4 * (k + 1) + j - 4 = 4 * k + j := by omega
      rw [e]
      exact ih h

theorem length_entriesFrom : (entriesFrom n rs).length = 4 * rs.length := by
  induction rs generalizing n with
  | nil => rfl
  | cons r rs ih =>
    rw [entriesFrom, length_append, ih, length_cons]
    simp only [Request.entry, length_cons, length_nil]
    omega

theorem spanAt_of_entry {row0 : Nat} (h : ∀ j < 4, table[1 + (4 * k + j)]? = (r.entry row0)[j]?) :
    spanAt table k = some (r.span row0) := by
  have h0 := h 0 (by decide)
  have h1 := h 1 (by decide)
  have h2 := h 2 (by decide)
  have h3 := h 3 (by decide)
  rw [show 1 + (4 * k + 0) = 1 + 4 * k by omega] at h0
  rw [show 1 + (4 * k + 1) = 2 + 4 * k by omega] at h1
  rw [show 1 + (4 * k + 2) = 3 + 4 * k by omega] at h2
  rw [show 1 + (4 * k + 3) = 4 + 4 * k by omega] at h3
  unfold spanAt
  rw [h0, h1, h2, h3]
  rfl

theorem spanAt_packed (h : rs[k]? = some r) :
    spanAt (packed rs).table k = some (r.span (tileStart (lens rs) k)) := by
  apply spanAt_of_entry
  intro j hj
  have := entriesFrom_get (n := 0) h hj
  rw [zero_add] at this
  rw [← this, packed, add_comm 1, getElem?_cons_succ]

theorem index_ok {α : Type} {xs : List α} {a : α} (h : xs[j]? = some a) : index xs j = .ok a := by
  unfold index
  rw [h]

theorem index_span {s : Span} (h : spanAt table k = some s) :
    index table (1 + 4 * k) = .ok s.row0 ∧ index table (2 + 4 * k) = .ok s.qlen ∧
      index table (3 + 4 * k) = .ok s.slot ∧ index table (4 + 4 * k) = .ok s.kvlen := by
  unfold spanAt at h
  cases h1 : table[1 + 4 * k]? with
  | none => rw [h1] at h; cases h
  | some a =>
    cases h2 : table[2 + 4 * k]? with
    | none => rw [h1, h2] at h; cases h
    | some b =>
      cases h3 : table[3 + 4 * k]? with
      | none => rw [h1, h2, h3] at h; cases h
      | some c =>
        cases h4 : table[4 + 4 * k]? with
        | none => rw [h1, h2, h3, h4] at h; cases h
        | some d =>
          rw [h1, h2, h3, h4] at h
          cases h
          exact ⟨index_ok h1, index_ok h2, index_ok h3, index_ok h4⟩

theorem copySlice_get {from_ len : Nat} (hx : from_ + len ≤ xs.length)
    (ho : out.length = xs.length) : (copySlice out xs from_ len)[row]? =
      if from_ ≤ row ∧ row < from_ + len then xs[row]? else out[row]? := by
  have h1 : (out.take from_).length = from_ := by
    rw [length_take]
    omega
  have h2 : ((xs.drop from_).take len).length = len := by
    rw [length_take, length_drop]
    omega
  unfold copySlice
  rcases lt_or_ge row from_ with hlt | hge
  · rw [append_assoc, getElem?_append_left (by omega), getElem?_take_of_lt hlt,
      if_neg (by omega)]
  · rcases lt_or_ge row (from_ + len) with hlt | hge'
    · rw [append_assoc, getElem?_append_right (by omega), h1,
        getElem?_append_left (by omega), getElem?_take_of_lt (by omega),
        getElem?_drop, if_pos ⟨hge, hlt⟩]
      congr 1
      omega
    · rw [getElem?_append_right (by rw [length_append]; omega), length_append, h1, h2,
        getElem?_drop, if_neg (by omega)]
      congr 1
      omega

theorem length_copySlice {from_ len : Nat} (hx : from_ + len ≤ xs.length)
    (ho : out.length = xs.length) : (copySlice out xs from_ len).length = xs.length := by
  unfold copySlice
  rw [length_append, length_append, length_take, length_take,
    length_drop, length_drop]
  omega

/-! ### A masked plan -/

/-- The plan of accepted requests with masked padding. -/
structure Masked (requests : List Request) (p : Plan) : Prop where
  table : p.table = (packed requests).table
  slots : p.slots = (packed requests).slots ++
    List.replicate (p.slots.length - (lens requests).sum) (-1)
  positions : ∃ zs, p.positions = (packed requests).positions ++ zs
  room : (lens requests).sum ≤ p.slots.length
  room32 : p.slots.length ≤ i32Max
  len : ∀ r ∈ requests, 0 < r.len
  stop32 : ∀ r ∈ requests, r.stop ≤ i32Max

theorem masked_of_plan (h : planWithLimit requests frontiers bucket maxCtx (some limit) = .ok p) :
    Masked requests p ∧ p.slots.length = bucket := by
  obtain ⟨a, h⟩ := planWithLimit_iff.mp h
  have hr := a.rows
  have hp := (pad_masked rfl hr).mp h
  have hlen : p.slots.length = bucket := by
    rw [hp]
    simp only [length_append, length_replicate, length_packed_slots]
    omega
  refine ⟨⟨?_, ?_, ?_, ?_, ?_, fun r hr => (a.fits r hr).len, fun r hr => ?_⟩, hlen⟩
  · rw [hp]
  · rw [hlen, hp]
  · rw [hp]
    exact ⟨_, rfl⟩
  · rw [hlen]
    exact hr
  · rw [hlen]
    exact a.bucket32
  · exact le_trans (a.fits r hr).ctx a.maxCtx32

theorem rows_le (h : rs[k]? = some r) : tileStart (lens rs) k + r.len ≤ (lens rs).sum := by
  obtain ⟨hk, rfl⟩ := List.getElem?_eq_some_iff.mp h
  have hk' : k < (lens rs).length := by simpa [lens] using hk
  simpa [lens] using tile_le hk'

theorem exists_row (h : row < (lens rs).sum) :
    ∃ (k : Nat) (r : Request) (i : Nat), rs[k]? = some r ∧ i < r.len ∧
      row = tileStart (lens rs) k + i := by
  obtain ⟨k, hk, i, hi, rfl⟩ := exists_tile h
  have hk' : k < rs.length := by simpa [lens] using hk
  exact ⟨k, rs[k], i, getElem?_eq_getElem hk', by simpa [lens] using hi, rfl⟩

theorem row_unique {k' i' : Nat} (h : rs[k]? = some r) (hi : i < r.len)
    (h' : rs[k']? = some r') (hi' : i' < r'.len)
    (he : tileStart (lens rs) k + i = tileStart (lens rs) k' + i') : k = k' ∧ i = i' := by
  obtain ⟨hk, rfl⟩ := List.getElem?_eq_some_iff.mp h
  obtain ⟨hk', rfl⟩ := List.getElem?_eq_some_iff.mp h'
  have h1 : k < (lens rs).length := by simpa [lens] using hk
  have h2 : k' < (lens rs).length := by simpa [lens] using hk'
  exact tile_unique h1 h2 (by simpa [lens] using hi) (by simpa [lens] using hi') he

theorem packed_slot (h : rs[k]? = some r) (hi : i < r.len) :
    (packed rs).slots[tileStart (lens rs) k + i]? = some (r.slot : Int) := by
  have e : lens rs = rs.map fun r => r.slotRows.length :=
    map_congr_left fun r _ => by simp [Request.slotRows]
  have hi' : i < r.slotRows.length := by simpa [Request.slotRows] using hi
  rw [packed, e]
  dsimp only
  rw [getElem?_flatMap_tile h hi', Request.slotRows, getElem?_replicate, if_pos hi]

theorem packed_position (h : rs[k]? = some r) (hi : i < r.len) :
    (packed rs).positions[tileStart (lens rs) k + i]? = some ((r.start + i : Nat) : Int) := by
  have e : lens rs = rs.map fun r => r.positionRows.length :=
    map_congr_left fun r _ => by simp [Request.positionRows]
  have hi' : i < r.positionRows.length := by simpa [Request.positionRows] using hi
  rw [packed, e]
  dsimp only
  rw [getElem?_flatMap_tile h hi', Request.positionRows, getElem?_map,
    getElem?_range hi]
  rfl

namespace Masked
variable (m : Masked requests p)

include m

theorem slot (h : requests[k]? = some r) (hi : i < r.len) :
    p.slots[tileStart (lens requests) k + i]? = some (r.slot : Int) := by
  have hlt : tileStart (lens requests) k + i < (packed requests).slots.length := by
    rw [length_packed_slots]
    have := rows_le h
    omega
  rw [m.slots, getElem?_append_left hlt, packed_slot h hi]

theorem position (h : requests[k]? = some r) (hi : i < r.len) :
    p.positions[tileStart (lens requests) k + i]? = some ((r.start + i : Nat) : Int) := by
  obtain ⟨zs, hz⟩ := m.positions
  have hlt : tileStart (lens requests) k + i < (packed requests).positions.length := by
    rw [length_packed_positions]
    have := rows_le h
    omega
  rw [hz, getElem?_append_left hlt, packed_position h hi]

theorem slot_pad (h : (lens requests).sum ≤ row) (hr : row < p.slots.length) :
    p.slots[row]? = some (-1) := by
  have hge : (packed requests).slots.length ≤ row := length_packed_slots.trans_le h
  rw [m.slots, getElem?_append_right hge, getElem?_replicate, if_pos]
  rw [length_packed_slots]
  omega

theorem spanAt (h : requests[k]? = some r) :
    spanAt p.table k = some (r.span (tileStart (lens requests) k)) := by
  rw [m.table]
  exact spanAt_packed h

theorem length32 : requests.length ≤ i32Max :=
  le_trans (le_trans (length_le_sum m.len) m.room) m.room32

theorem tableReqs (hs : 0 < stageRows) :
    stageTableReqs p.table stageRows = .ok requests.length := by
  have hlen : p.table.length = 1 + 4 * requests.length := by
    rw [m.table, packed, length_cons, length_entriesFrom, add_comm]
  have h0 : index p.table 0 = .ok (requests.length : Int) := by
    rw [m.table]
    rfl
  have hn : asUsize (max (requests.length : Int) 0) = requests.length := by
    rw [max_eq_left (Int.natCast_nonneg _), asUsize_eq m.length32]
  have hne : p.table ≠ [] := by
    intro h
    rw [h, length_nil] at hlen
    omega
  unfold stageTableReqs
  refine need_bind.mpr ⟨decide_eq_true hs, need_bind.mpr ⟨decide_eq_true ⟨hne, ?_⟩, ?_⟩⟩
  · rw [hlen]
    omega
  · rw [h0, ok_bind]
    dsimp only
    rw [hn]
    exact need_bind.mpr ⟨decide_eq_true hlen, rfl⟩

theorem tableRows (h : requests[k]? = some r) : tableRows p.table k = .ok r.len := by
  have h32 : r.len ≤ i32Max := by
    have := rows_le h
    have := m.room
    have := m.room32
    omega
  unfold PackedPrefill.tableRows
  rw [(index_span (m.spanAt h)).2.1, ok_bind]
  simp only [Request.span]
  rw [max_eq_left (Int.natCast_nonneg _), asUsize_eq h32]
  rfl

theorem mapM_tableRows :
    (range requests.length).mapM (PackedPrefill.tableRows p.table) = .ok (lens requests) := by
  have e : lens requests = (range requests.length).map fun k => (lens requests).getD k 0 := by
    apply ext_getElem?
    intro k
    by_cases hk : k < requests.length <;> simp [lens, hk]
  rw [e]
  refine mapM_ok fun k hk => ?_
  have hk := mem_range.mp hk
  rw [m.tableRows (getElem?_eq_getElem hk)]
  simp [lens, hk]

/-- the entry of a request in a stage -/
theorem stageEntry (h : requests[k]? = some r) : stageEntry p.table skip stageRows k =
      .ok ((r.clip skip stageRows).entry (tileStart (lens requests) k + r.taken skip)) := by
  have hr := mem_of_getElem? h
  have hrow := rows_le h
  have hroom := m.room
  have hroom32 := m.room32
  have hstop := m.stop32 r hr
  have ht := r.taken_le skip
  have hl := r.clip_len_le skip stageRows
  have hs := r.clip_stop_le skip stageRows
  obtain ⟨h1, h2, h3, h4⟩ := index_span (m.spanAt h)
  have hi32 : ∀ {n : Nat} {x : Int}, x = n → n ≤ i32Max → int32 x = .ok (n : Int) := by
    intro n x hx hn
    unfold int32 i32Max at *
    rw [hx, if_pos (by omega)]
  have hstart : int32 ((r.stop : Int) - r.len) = .ok (r.start : Int) :=
    hi32 (by unfold Request.stop; push_cast; omega) (by unfold Request.stop at hstop; omega)
  have htaken : asI32 (min (asUsize (r.len : Int)) skip) = (r.taken skip : Nat) := by
    rw [asUsize_eq (by omega)]
    exact asI32_eq (by rw [← Request.taken]; omega)
  have hrest : int32 ((r.len : Int) - (r.taken skip : Nat)) = .ok ((r.len - r.taken skip : Nat) : Int) :=
    hi32 (by omega) (by omega)
  have hlen : asI32 (min (asUsize ((r.len - r.taken skip : Nat) : Int)) stageRows) =
      ((r.clip skip stageRows).len : Nat) := by
    rw [asUsize_eq (by omega)]
    exact asI32_eq (by show (r.clip skip stageRows).len ≤ _; omega)
  have hrow0 : int32 ((tileStart (lens requests) k : Nat) + (r.taken skip : Nat) : Int) =
      .ok ((tileStart (lens requests) k + r.taken skip : Nat) : Int) :=
    hi32 (by push_cast; rfl) (by omega)
  have hstart32 : (r.clip skip stageRows).start ≤ i32Max := by
    have : (r.clip skip stageRows).start ≤ (r.clip skip stageRows).stop := Nat.le_add_right _ _
    omega
  have hfrom : int32 ((r.start : Nat) + (r.taken skip : Nat) : Int) =
      .ok ((r.clip skip stageRows).start : Int) :=
    hi32 (by rw [r.clip_start, Nat.cast_add]) hstart32
  have hkv : int32 (((r.clip skip stageRows).start : Nat) + ((r.clip skip stageRows).len : Nat) : Int) =
      .ok ((r.clip skip stageRows).stop : Int) :=
    hi32 (by unfold Request.stop; push_cast; rfl) (by omega)
  have hneed : (decide ((r.len : Int) ≥ 0 ∧ (r.stop : Int) ≥ r.len)) = true :=
    decide_eq_true ⟨by omega, by unfold Request.stop; push_cast; omega⟩
  unfold PackedPrefill.stageEntry
  rw [h1, h2, h3, h4]
  simp only [ok_bind, Request.span]
  refine need_bind.mpr ⟨hneed, ?_⟩
  rw [hstart, ok_bind, htaken, hrest, ok_bind, hlen, hrow0, ok_bind, hfrom, ok_bind, hkv]
  rfl

/-- the table of a stage -/
theorem planStage (hs : 0 < stageRows) (hskip : stage * stageRows < 2 ^ 64) :
    ∃ table, planStage p stage stageRows = .ok table ∧
      table.length = p.table.length ∧ table[0]? = p.table[0]? ∧
      ∀ k r, requests[k]? = some r → PackedPrefill.spanAt table k =
        some ((r.clip (stage * stageRows) stageRows).span
          (tileStart (lens requests) k + r.taken (stage * stageRows))) := by
  let block := fun k => ((requests[k]?).map fun (r : Request) => (r.clip (stage * stageRows) stageRows).entry
    (tileStart (lens requests) k + r.taken (stage * stageRows))).getD []
  have hblock : ∀ k r, requests[k]? = some r → block k =
      (r.clip (stage * stageRows) stageRows).entry
        (tileStart (lens requests) k + r.taken (stage * stageRows)) := by
    intro k r hr
    simp only [block, hr, Option.map_some, Option.getD_some]
  have hget : ∀ k ∈ range requests.length, ∃ r, requests[k]? = some r := by
    intro k hk
    exact ⟨_, getElem?_eq_getElem (mem_range.mp hk)⟩
  have hlen : ∀ k ∈ range requests.length, (block k).length = 4 := by
    intro k hk
    obtain ⟨r, hr⟩ := hget k hk
    rw [hblock k r hr]
    rfl
  have hentries : (range requests.length).mapM
      (PackedPrefill.stageEntry p.table (stage * stageRows) stageRows) =
        .ok ((range requests.length).map block) := by
    refine mapM_ok fun k hk => ?_
    obtain ⟨r, hr⟩ := hget k hk
    rw [m.stageEntry hr, hblock k r hr]
  have hfirst : index p.table 0 = .ok (requests.length : Int) := by
    rw [m.table]
    rfl
  have hmul : checkedMul stage stageRows = some (stage * stageRows) := if_pos hskip
  refine ⟨(requests.length : Int) :: (range requests.length).flatMap block, ?_, ?_, ?_, ?_⟩
  · unfold PackedPrefill.planStage
    rw [m.tableReqs hs, ok_bind, hmul]
    simp only [okOr, ok_bind, hfirst, hentries]
    rfl
  · rw [m.table, packed, length_cons, length_cons, length_entriesFrom,
      length_flatMap, map_congr_left hlen]
    simp [mul_comm]
  · rw [m.table]
    rfl
  · intro k r hr
    apply spanAt_of_entry
    intro j hj
    have hk : k < requests.length := (List.getElem?_eq_some_iff.mp hr).1
    rw [add_comm 1, getElem?_cons_succ, getElem?_flatMap_block hlen
      (getElem?_range hk) hj, hblock k r hr]

theorem stageCopy (h : requests[k]? = some r) : stageCopy p skip stageRows k out =
      .ok (copySlice out p.slots (tileStart (lens requests) k + r.taken skip)
        (r.clip skip stageRows).len) := by
  have hrow := rows_le h
  have hroom := m.room
  have hroom32 := m.room32
  have hl := r.clip_len_le skip stageRows
  have hu : ∀ {n : Nat}, n ≤ i32Max → usize n = .ok n := by
    intro n hn
    exact if_pos (by unfold i32Max at hn; omega)
  have h1 : index p.table (1 + 4 * k) = .ok (tileStart (lens requests) k : Int) :=
    (index_span (m.spanAt h)).1
  have h2 : usize (tileStart (lens requests) k + r.taken skip) =
      .ok (tileStart (lens requests) k + r.taken skip) := hu (by omega)
  have h3 : usize (tileStart (lens requests) k + r.taken skip + (r.clip skip stageRows).len) =
      .ok (tileStart (lens requests) k + r.taken skip + (r.clip skip stageRows).len) :=
    hu (by omega)
  unfold PackedPrefill.stageCopy
  rw [h1, ok_bind, m.tableRows h, ok_bind, asUsize_eq (by omega)]
  show (usize (tileStart (lens requests) k + r.taken skip) >>= _) = _
  rw [h2, ok_bind]
  show (usize (tileStart (lens requests) k + r.taken skip + (r.clip skip stageRows).len) >>= _) = _
  rw [h3, ok_bind]
  exact need_bind.mpr ⟨decide_eq_true (by omega), rfl⟩

end Masked

/-- the row is one of request `k` in the stage -/
def InStage (requests : List Request) (skip stageRows k row : Nat) : Prop :=
  ∃ r, requests[k]? = some r ∧ tileStart (lens requests) k + r.taken skip ≤ row ∧
    row < tileStart (lens requests) k + r.taken skip + (r.clip skip stageRows).len

namespace Masked
variable (m : Masked requests p)

include m

open Classical in
/-- after the copies of the first `n` requests -/
theorem foldlM_stageCopy (skip stageRows : Nat) (hn : n ≤ requests.length) :
    ∃ out, (range n).foldlM (fun out r => PackedPrefill.stageCopy p skip stageRows r out)
        (replicate p.slots.length (-1)) = .ok out ∧ out.length = p.slots.length ∧
      ∀ row, out[row]? = if ∃ k < n, InStage requests skip stageRows k row then p.slots[row]?
        else (replicate p.slots.length (-1))[row]? := by
  induction n with
  | zero => exact ⟨_, rfl, length_replicate, fun row => by simp⟩
  | succ n ih =>
    obtain ⟨out, hout, hlen, hget⟩ := ih (by omega)
    have hr : requests[n]? = some requests[n] := getElem?_eq_getElem (by omega)
    have hrow := rows_le hr
    have hroom := m.room
    have hl := requests[n].clip_len_le skip stageRows
    have hfit : tileStart (lens requests) n + requests[n].taken skip +
        (requests[n].clip skip stageRows).len ≤ p.slots.length := by omega
    refine ⟨_, ?_, length_copySlice hfit hlen, fun row => ?_⟩
    · rw [range_succ, foldlM_append, hout, ok_bind, foldlM_cons, m.stageCopy hr]
      rfl
    · have hiff : (∃ k < n + 1, InStage requests skip stageRows k row) ↔
          (∃ k < n, InStage requests skip stageRows k row) ∨
            InStage requests skip stageRows n row := by
        constructor
        · intro ⟨k, hk, h⟩
          rcases Nat.lt_succ_iff_lt_or_eq.mp hk with hk | rfl
          · exact Or.inl ⟨k, hk, h⟩
          · exact Or.inr h
        · intro h
          rcases h with ⟨k, hk, h⟩ | h
          · exact ⟨k, by omega, h⟩
          · exact ⟨n, by omega, h⟩
      have hin : InStage requests skip stageRows n row ↔
          tileStart (lens requests) n + requests[n].taken skip ≤ row ∧
            row < tileStart (lens requests) n + requests[n].taken skip +
              (requests[n].clip skip stageRows).len := by
        unfold InStage
        rw [hr]
        simp
      rw [copySlice_get hfit hlen, hget]
      by_cases h1 : InStage requests skip stageRows n row
      · rw [if_pos (hin.mp h1), if_pos (hiff.mpr (Or.inr h1))]
      · rw [if_neg (fun h => h1 (hin.mpr h))]
        by_cases h2 : ∃ k < n, InStage requests skip stageRows k row
        · rw [if_pos h2, if_pos (hiff.mpr (Or.inl h2))]
        · rw [if_neg h2, if_neg fun h => (hiff.mp h).elim h2 h1]

/-- The slot map of a stage: row `i` of a request has its slot in the stage `i / stageRows`, and
is masked in the others. -/
theorem stageSlots (hs : 0 < stageRows) (hskip : stage * stageRows < 2 ^ 64) :
    ∃ slots, stageSlots p stage stageRows = .ok slots ∧ slots.length = p.slots.length ∧
      (∀ k r i, requests[k]? = some r → i < r.len → slots[tileStart (lens requests) k + i]? =
        some (if i / stageRows = stage then (r.slot : Int) else -1)) ∧
      ∀ row, (lens requests).sum ≤ row → row < p.slots.length → slots[row]? = some (-1) := by
  obtain ⟨out, h1, h2, h3⟩ :=
    m.foldlM_stageCopy (stage * stageRows) stageRows (le_refl requests.length)
  have hroom := m.room
  have hroom32 := m.room32
  have hmul : checkedMul stage stageRows = some (stage * stageRows) := if_pos hskip
  have hcovered : usize (lens requests).sum = .ok (lens requests).sum :=
    if_pos (by unfold i32Max at hroom32; omega)
  have hmasked : (p.slots.drop (lens requests).sum).all (fun s => decide (s < 0)) = true := by
    have e : p.slots.drop (lens requests).sum =
        replicate (p.slots.length - (lens requests).sum) (-1) := by
      rw [m.slots, drop_append_of_le_length length_packed_slots.ge,
        drop_of_length_le length_packed_slots.le, nil_append]
      simp [length_packed_slots]
    rw [e]
    simp
  refine ⟨out, ?_, h2, fun k r i hr hi => ?_, fun row hrow hlt => ?_⟩
  · unfold PackedPrefill.stageSlots
    rw [m.tableReqs hs, ok_bind, hmul]
    simp only [okOr, ok_bind, m.mapM_tableRows, hcovered]
    exact need_bind.mpr ⟨decide_eq_true ⟨hroom, hmasked⟩, h1⟩
  · have hle := rows_le hr
    have hin : (∃ k' < requests.length, InStage requests (stage * stageRows) stageRows k'
        (tileStart (lens requests) k + i)) ↔ i / stageRows = stage := by
      rw [← r.mem_clip stageRows hi hs]
      constructor
      · intro ⟨k', _, r', hr', hge, hlt⟩
        have hclip := r'.clip_len_le (stage * stageRows) stageRows
        obtain ⟨j, he⟩ := Nat.exists_eq_add_of_le hge
        have hj : r'.taken (stage * stageRows) + j < r'.len := by omega
        obtain ⟨rfl, rfl⟩ := row_unique hr hi hr' hj (by omega)
        rw [hr] at hr'
        cases hr'
        omega
      · intro ⟨hge, hlt⟩
        exact ⟨k, (List.getElem?_eq_some_iff.mp hr).1, r, hr, by omega, by omega⟩
    rw [h3]
    split
    · next h => rw [m.slot hr hi, if_pos (hin.mp h)]
    · next h =>
      rw [if_neg fun hc => h (hin.mpr hc), getElem?_replicate, if_pos (by omega)]
  · have hout : ¬∃ k < requests.length, InStage requests (stage * stageRows) stageRows k row := by
      intro ⟨k, _, r, hr, _, hlt'⟩
      have := rows_le hr
      have := r.clip_len_le (stage * stageRows) stageRows
      omega
    rw [h3, if_neg hout, getElem?_replicate, if_pos hlt]

/-- the stages that the plan needs -/
theorem stagesNeeded (hs : 0 < stageRows) : ∃ n, stagesNeeded p stageRows = .ok n ∧ 0 < n ∧
    (∀ r ∈ requests, r.len ≤ n * stageRows) ∧ ∀ stage < n, stage * stageRows < 2 ^ 64 := by
  have hroom := m.room
  have hroom32 := m.room32
  have hmax := foldl_max_le.mp (le_refl ((lens requests).foldl max 0))
  have hbound : (lens requests).foldl max 0 ≤ (lens requests).sum :=
    foldl_max_le.mpr ⟨Nat.zero_le _, fun x hx => le_sum_of_mem hx⟩
  refine ⟨max (divCeil ((lens requests).foldl max 0) stageRows) 1, ?_, by omega, fun r hr => ?_,
    fun stage hstage => ?_⟩
  · unfold PackedPrefill.stagesNeeded
    rw [m.tableReqs hs, ok_bind, m.mapM_tableRows, ok_bind]
    rfl
  · have h1 : r.len ≤ (lens requests).foldl max 0 := hmax.2 r.len (mem_map_of_mem hr)
    have h2 := le_divCeil (a := (lens requests).foldl max 0) hs
    have h3 := Nat.mul_le_mul_right stageRows
      (le_max_left (divCeil ((lens requests).foldl max 0) stageRows) 1)
    omega
  · by_cases h0 : stage = 0
    · rw [h0, zero_mul]
      decide
    · have h1 : stage < divCeil ((lens requests).foldl max 0) stageRows := by omega
      have h2 := mul_lt_of_lt_divCeil h1
      unfold i32Max at hroom32
      omega

end Masked

/-! ### The partition -/

def Unmasked (slots : List Int) (row : Nat) : Prop := ∃ s, slots[row]? = some s ∧ 0 ≤ s

/-- The stages of a plan: `slots s` and `tables s` are the slot map and the table of stage `s`. -/
structure Staged (requests : List Request) (p : Plan) (n : Nat) (slots tables : Nat → List Int) :
    Prop where
  /-- the live rows are the unmasked rows of the stages -/
  union : ∀ row, Unmasked p.slots row ↔ ∃ s < n, Unmasked (slots s) row
  /-- no row is in two stages -/
  disjoint : ∀ s < n, ∀ s' < n, ∀ row, Unmasked (slots s) row → Unmasked (slots s') row → s = s'
  /-- a row in a stage has the plan's slot -/
  slot : ∀ s < n, ∀ row, Unmasked (slots s) row → (slots s)[row]? = p.slots[row]?
  /-- the unmasked rows are the rows of the spans -/
  spans : ∀ s < n, ∀ row, Unmasked (slots s) row ↔ ∃ k q, k < requests.length ∧
    spanAt (tables s) k = some q ∧ q.row0 ≤ row ∧ (row : Int) < q.row0 + q.qlen
  /-- a table has one entry for each request, as the plan's -/
  table : ∀ s < n, (tables s).length = p.table.length ∧ (tables s)[0]? = p.table[0]?
  /-- entry `k` addresses request `k`: its rows have the request's slot and the positions from
  `kvlen - qlen` to `kvlen` -/
  entry : ∀ s < n, ∀ k r, requests[k]? = some r → ∃ q, spanAt (tables s) k = some q ∧
    q.slot = r.slot ∧ 0 ≤ q.row0 ∧ 0 ≤ q.qlen ∧ ∀ i : Nat, (i : Int) < q.qlen →
      (slots s)[q.row0.toNat + i]? = some q.slot ∧
      p.positions[q.row0.toNat + i]? = some (q.kvlen - q.qlen + i)
  /-- a request's spans begin where its span in the plan begins, follow each other without a gap,
  and end where that span ends -/
  chain : ∀ k, k < requests.length → ∃ q, spanAt p.table k = some q ∧
    (∃ a, spanAt (tables 0) k = some a ∧ a.row0 = q.row0 ∧ a.kvlen - a.qlen = q.kvlen - q.qlen) ∧
    (∀ s, s + 1 < n → ∃ a b, spanAt (tables s) k = some a ∧ spanAt (tables (s + 1)) k = some b ∧
      b.row0 = a.row0 + a.qlen ∧ b.kvlen - b.qlen = a.kvlen) ∧
    ∃ a, spanAt (tables (n - 1)) k = some a ∧ a.row0 + a.qlen = q.row0 + q.qlen ∧ a.kvlen = q.kvlen

/-- The slot map and the table of stage `s`. -/
structure IsStage (requests : List Request) (p : Plan) (stageRows s : Nat)
    (slots table : List Int) : Prop where
  length : slots.length = p.slots.length
  row : ∀ k r i, requests[k]? = some r → i < r.len → slots[tileStart (lens requests) k + i]? =
    some (if i / stageRows = s then (r.slot : Int) else -1)
  pad : ∀ row, (lens requests).sum ≤ row → row < p.slots.length → slots[row]? = some (-1)
  tableLength : table.length = p.table.length
  head : table[0]? = p.table[0]?
  span : ∀ k r, requests[k]? = some r → spanAt table k =
    some ((r.clip (s * stageRows) stageRows).span
      (tileStart (lens requests) k + r.taken (s * stageRows)))

theorem Masked.exists_stage (m : Masked requests p) (hs : 0 < stageRows)
    (hskip : stage * stageRows < 2 ^ 64) :
    ∃ slots table, PackedPrefill.stageSlots p stage stageRows = .ok slots ∧
      PackedPrefill.planStage p stage stageRows = .ok table ∧ IsStage requests p stageRows stage slots table := by
  obtain ⟨slots, h1, h2, h3, h4⟩ := m.stageSlots hs hskip
  obtain ⟨table, g1, g2, g3, g4⟩ := m.planStage hs hskip
  exact ⟨slots, table, h1, g1, h2, h3, h4, g2, g3, g4⟩

theorem Masked.unmasked_iff (m : Masked requests p) : Unmasked p.slots row ↔
    ∃ k r i, requests[k]? = some r ∧ i < r.len ∧ row = tileStart (lens requests) k + i := by
  constructor
  · intro ⟨s, hs, h0⟩
    have hlt := (List.getElem?_eq_some_iff.mp hs).1
    rcases lt_or_ge row (lens requests).sum with h | h
    · exact exists_row h
    · rw [m.slot_pad h hlt] at hs
      cases hs
      omega
  · intro ⟨k, r, i, hr, hi, he⟩
    exact ⟨r.slot, he ▸ m.slot hr hi, Int.natCast_nonneg _⟩

theorem IsStage.unmasked_iff
    (g : IsStage requests p stageRows stage slots table) : Unmasked slots row ↔
      ∃ k r i, requests[k]? = some r ∧ i < r.len ∧ row = tileStart (lens requests) k + i ∧
        i / stageRows = stage := by
  constructor
  · intro ⟨s, hs, h0⟩
    have hlt := (List.getElem?_eq_some_iff.mp hs).1
    rcases lt_or_ge row (lens requests).sum with h | h
    · obtain ⟨k, r, i, hr, hi, rfl⟩ := exists_row h
      refine ⟨k, r, i, hr, hi, rfl, ?_⟩
      by_contra hne
      rw [g.row k r i hr hi, if_neg hne] at hs
      cases hs
      omega
    · rw [g.pad row h (g.length ▸ hlt)] at hs
      cases hs
      omega
  · intro ⟨k, r, i, hr, hi, he, hq⟩
    refine ⟨r.slot, ?_, Int.natCast_nonneg _⟩
    rw [he, g.row k r i hr hi, if_pos hq]

theorem staged_of_isStage (m : Masked requests p) (hs : 0 < stageRows) (hn : 0 < n)
    (hlen : ∀ r ∈ requests, r.len ≤ n * stageRows) {slots tables : Nat → List Int}
    (g : ∀ s < n, IsStage requests p stageRows s (slots s) (tables s)) :
    Staged requests p n slots tables where
  union row := by
    rw [m.unmasked_iff]
    constructor
    · intro ⟨k, r, i, hr, hi, he⟩
      have hlt : i / stageRows < n := by
        rw [Nat.div_lt_iff_lt_mul hs]
        exact lt_of_lt_of_le hi (hlen r (mem_of_getElem? hr))
      exact ⟨_, hlt, ((g _ hlt).unmasked_iff).mpr ⟨k, r, i, hr, hi, he, rfl⟩⟩
    · intro ⟨s, hs, h⟩
      obtain ⟨k, r, i, hr, hi, he, -⟩ := ((g s hs).unmasked_iff).mp h
      exact ⟨k, r, i, hr, hi, he⟩
  disjoint s hs s' hs' row h h' := by
    obtain ⟨k, r, i, hr, hi, rfl, rfl⟩ := ((g s hs).unmasked_iff).mp h
    obtain ⟨k', r', i', hr', hi', he, rfl⟩ := ((g s' hs').unmasked_iff).mp h'
    obtain ⟨-, rfl⟩ := row_unique hr hi hr' hi' he
    rfl
  slot s hs row h := by
    obtain ⟨k, r, i, hr, hi, rfl, hq⟩ := ((g s hs).unmasked_iff).mp h
    rw [(g s hs).row k r i hr hi, if_pos hq, m.slot hr hi]
  spans s hs' row := by
    rw [(g s hs').unmasked_iff]
    constructor
    · intro ⟨k, r, i, hr, hi, he, hq⟩
      obtain ⟨h1, h2⟩ := (r.mem_clip stageRows hi hs).mpr hq
      refine ⟨k, _, (List.getElem?_eq_some_iff.mp hr).1, (g s hs').span k r hr, ?_, ?_⟩
      · simp only [Request.span]
        omega
      · simp only [Request.span]
        omega
    · intro ⟨k, q, hk, hq, h1, h2⟩
      have hr : requests[k]? = some requests[k] := getElem?_eq_getElem hk
      rw [(g s hs').span k _ hr] at hq
      cases hq
      simp only [Request.span] at h1 h2
      have hclip := requests[k].clip_len_le (s * stageRows) stageRows
      obtain ⟨i, hi⟩ := Nat.exists_eq_add_of_le
        (show tileStart (lens requests) k ≤ row by omega)
      refine ⟨k, _, i, hr, by omega, hi, ?_⟩
      exact (requests[k].mem_clip stageRows (by omega) hs).mp ⟨by omega, by omega⟩
  table s hs := ⟨(g s hs).tableLength, (g s hs).head⟩
  entry s hs' k r hr := by
    refine ⟨_, (g s hs').span k r hr, rfl, ?_, ?_, fun i hi => ?_⟩
    · exact Int.natCast_nonneg _
    · exact Int.natCast_nonneg _
    · have hclip := r.clip_len_le (s * stageRows) stageRows
      have hi : i < (r.clip (s * stageRows) stageRows).len := by
        simpa only [Request.span, Nat.cast_lt] using hi
      have hlt : r.taken (s * stageRows) + i < r.len := by omega
      have hq : (r.taken (s * stageRows) + i) / stageRows = s :=
        (r.mem_clip stageRows hlt hs).mp ⟨by omega, by omega⟩
      simp only [Request.span, Int.toNat_natCast, add_assoc]
      rw [(g s hs').row k r _ hr hlt, if_pos hq, m.position hr hlt]
      refine ⟨rfl, congrArg some ?_⟩
      unfold Request.stop
      rw [r.clip_start]
      push_cast
      omega
  chain k hk := by
    have hr : requests[k]? = some requests[k] := getElem?_eq_getElem hk
    refine ⟨_, m.spanAt hr, ⟨_, (g 0 hn).span k _ hr, ?_, ?_⟩, fun s hs => ?_, ?_⟩
    · simp [Request.span, Request.taken]
    · rw [Request.span_start, Request.span_start, Request.clip_start, zero_mul]
      simp [Request.taken]
    · refine ⟨_, _, (g s (by omega)).span k _ hr, (g (s + 1) hs).span k _ hr, ?_, ?_⟩
      · simp only [Request.span, Request.taken_succ]
        push_cast
        omega
      · rw [Request.span_start, Request.clip_start, Request.taken_succ]
        simp only [Request.span, Request.stop, Request.clip_start, add_assoc]
    · have hlast := requests[k].taken_succ stageRows (n - 1)
      have hall : requests[k].taken ((n - 1 + 1) * stageRows) = requests[k].len := by
        rw [Nat.sub_add_cancel hn]
        exact min_eq_left (hlen _ (getElem_mem hk))
      refine ⟨_, (g (n - 1) (by omega)).span k _ hr, ?_, ?_⟩
      · simp only [Request.span]
        omega
      · simp only [Request.span, Request.stop, Request.clip_start]
        omega

/-- The stages of a plan with masked padding are a partition of it. -/
theorem staged_partition (requests : List Request) (frontiers : List Nat)
    (bucket maxCtx limit stageRows : Nat) (p : Plan)
    (h : planWithLimit requests frontiers bucket maxCtx (some limit) = .ok p) (hs : 0 < stageRows) :
    ∃ n, stagesNeeded p stageRows = .ok n ∧ ∃ slots tables : Nat → List Int,
      (∀ s < n, stageSlots p s stageRows = .ok (slots s) ∧
        planStage p s stageRows = .ok (tables s)) ∧ Staged requests p n slots tables := by
  obtain ⟨m, -⟩ := masked_of_plan h
  obtain ⟨n, hn, h0, hlen, hskip⟩ := m.stagesNeeded hs
  have hstage : ∀ s, ∃ slots table, s < n → stageSlots p s stageRows = .ok slots ∧
      planStage p s stageRows = .ok table ∧ IsStage requests p stageRows s slots table := by
    intro s
    by_cases hlt : s < n
    · obtain ⟨slots, table, h⟩ := m.exists_stage hs (hskip s hlt)
      exact ⟨slots, table, fun _ => h⟩
    · exact ⟨[], [], fun h => absurd h hlt⟩
  choose slots tables hall using hstage
  refine ⟨n, hn, slots, tables, fun s hlt => ⟨(hall s hlt).1, (hall s hlt).2.1⟩, ?_⟩
  exact staged_of_isStage m hs h0 hlen fun s hlt => (hall s hlt).2.2

def twoRequests : List Request := [⟨0, 5, 5, 12⟩, ⟨1, 0, 2, 2⟩]

def twoPlan : Plan where
  table := [2, 0, 5, 0, 10, 5, 2, 1, 2]
  slots := [0, 0, 0, 0, 0, 1, 1, -1]
  positions := [5, 6, 7, 8, 9, 0, 1, 0]
  mappedEnds := [(0, 10), (1, 2)]

theorem staged_partition_two : ∃ slots tables : Nat → List Int,
    (∀ s < 3, stageSlots twoPlan s 2 = .ok (slots s) ∧ planStage twoPlan s 2 = .ok (tables s)) ∧
      Staged twoRequests twoPlan 3 slots tables := by
  obtain ⟨n, hn, h⟩ := staged_partition twoRequests [5, 0] 8 16 5 2 twoPlan (by decide +kernel)
    (by decide)
  have h3 : stagesNeeded twoPlan 2 = .ok 3 := by decide +kernel
  rw [h3] at hn
  cases hn
  exact h

example : stageSlots twoPlan 1 2 = .ok [-1, -1, 0, 0, -1, -1, -1, -1] := by decide +kernel

example : planStage twoPlan 1 2 = .ok [2, 2, 2, 0, 9, 7, 0, 1, 2] := by decide +kernel

end Plow.PackedPrefill
