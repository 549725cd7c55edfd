import Plow.TokenBatch.Model
import Plow.Lib.Tiling

/-!
# What `validate` accepts, and what a row resolves to

`Valid b` is the meaning of an accepted batch: the spans tile `[0, realRows)`, each with its
positions and its live mask, the padding is parked and every sample index is a live row
(`validate_iff`).  `resolveRow` of a valid batch never refuses a row below the capacity: row `i`
of the span `k` resolves to the span `k` (`Valid.resolveRow_live`), a row from `realRows` on to
padding.
-/

namespace Plow.TokenBatch
open Plow.Lib List

variable {α : Type} {r : Refusal} {a : α}

theorem refuse_ok : ¬ (refuse r : Res α) = .ok a :=
  fun h => nomatch h

theorem ite_refuse_ok {c : Prop} [Decidable c] {x : Res α} :
    (if c then refuse r else x) = .ok a ↔ ¬ c ∧ x = .ok a := ite_error_ok

theorem index_ok {xs : List α} {i : Nat} {x : α} : index xs i = .ok x ↔ xs[i]? = some x := by
  unfold index
  cases xs[i]? with
  | none => exact ⟨(fun h => nomatch h), (fun h => nomatch h)⟩
  | some y => exact ⟨fun h => by cases h; rfl, fun h => by cases h; rfl⟩

theorem okOr_ok {o : Option α} : okOr o r = .ok a ↔ o = some a := by
  cases o with
  | none => exact ⟨(fun h => nomatch h), (fun h => nomatch h)⟩
  | some x => exact ⟨fun h => by cases h; rfl, fun h => by cases h; rfl⟩

theorem checkedAdd_some {a b c : Nat} : checkedAdd a b = some c ↔ a + b < 2 ^ 32 ∧ c = a + b := by
  unfold checkedAdd
  split
  · next h => exact ⟨fun e => ⟨h, (Option.some.inj e).symm⟩, fun e => by rw [e.2]⟩
  · next h => exact ⟨(fun e => nomatch e), fun e => absurd e.1 h⟩

variable {b : HostBatch} {spans : List PrefillSpan} {s : PrefillSpan}

/-- row `j` of the span is live and at its position -/
def RowOk (b : HostBatch) (s : PrefillSpan) (j : Nat) : Prop :=
  (∃ a, b.active[s.row0 + j]? = some a ∧ a ≠ 0) ∧
    b.positions[s.row0 + j]? = some (s.kvRow0 + j)

structure SpanOk (b : HostBatch) (s : PrefillSpan) : Prop where
  pos : 0 < s.nRows
  le : s.row0 + s.nRows ≤ b.realRows
  fits : s.row0 + s.nRows < 2 ^ 32
  kvFits : s.kvRow0 + s.nRows < 2 ^ 32
  kvLen : s.kvLen = s.kvRow0 + s.nRows
  rows : ∀ j < s.nRows, RowOk b s j

def lens (spans : List PrefillSpan) : List Nat := spans.map (·.nRows)

@[simp] theorem length_lens (spans : List PrefillSpan) : (lens spans).length = spans.length :=
  length_map _

/-- the spans lie one after the other from `next` on, up to `stop` -/
structure Tiles (spans : List PrefillSpan) (next stop : Nat) : Prop where
  row0 : ∀ k s, spans[k]? = some s → s.row0 = next + tileStart (lens spans) k
  total : next + (lens spans).sum = stop

theorem tiles_nil {next stop : Nat} : Tiles [] next stop ↔ next = stop :=
  ⟨fun h => by simpa [lens] using h.total,
    fun h => ⟨fun k s hs => by simp at hs, by simpa [lens] using h⟩⟩

theorem tiles_cons {next stop : Nat} :
    Tiles (s :: spans) next stop ↔ s.row0 = next ∧ Tiles spans (next + s.nRows) stop := by
  constructor
  · intro h
    refine ⟨by simpa using h.row0 0 s rfl, fun k t ht => ?_, ?_⟩
    · have := h.row0 (k + 1) t ht
      simp only [lens, map_cons, tileStart_cons] at this ⊢
      omega
    · have := h.total
      simp only [lens, map_cons, sum_cons] at this ⊢
      omega
  · rintro ⟨h0, h⟩
    refine ⟨fun k t ht => ?_, ?_⟩
    · cases k with
      | zero =>
        cases ht
        simpa using h0
      | succ k =>
        have := h.row0 k t ht
        simp only [lens, map_cons, tileStart_cons] at this ⊢
        omega
    · have := h.total
      simp only [lens, map_cons, sum_cons] at this ⊢
      omega

/-! ### The loops of `validate` -/

theorem checkRows_ok {n j : Nat} : checkRows b s n j = .ok () ↔ ∀ i < n, RowOk b s (j + i) := by
  induction n generalizing j with
  | zero => simp [checkRows]
  | succ n ih =>
    have hstep : checkRows b s (n + 1) j = .ok () ↔ RowOk b s j ∧ ∀ i < n, RowOk b s (j + 1 + i) := by
      unfold checkRows
      constructor
      · intro h
        obtain ⟨a, ha, h⟩ := bind_ok.mp h
        obtain ⟨ha0, h⟩ := ite_refuse_ok.mp h
        obtain ⟨p, hp, h⟩ := bind_ok.mp h
        obtain ⟨hp0, h⟩ := ite_refuse_ok.mp h
        refine ⟨⟨⟨a, index_ok.mp ha, ha0⟩, ?_⟩, ih.mp h⟩
        rw [index_ok.mp hp, not_not.mp hp0]
      · rintro ⟨⟨⟨a, ha, ha0⟩, hp⟩, h⟩
        refine bind_ok.mpr ⟨a, index_ok.mpr ha, ite_refuse_ok.mpr ⟨ha0, ?_⟩⟩
        refine bind_ok.mpr ⟨_, index_ok.mpr hp, ite_refuse_ok.mpr ⟨not_not.mpr rfl, ih.mpr h⟩⟩
    rw [hstep]
    constructor
    · rintro ⟨h0, h⟩ i hi
      cases i with
      | zero => exact h0
      | succ i =>
        have e : j + (i + 1) = j + 1 + i := by omega
        rw [e]
        exact h i (by omega)
    · intro h
      refine ⟨h 0 (by omega), fun i hi => ?_⟩
      have e : j + 1 + i = j + (i + 1) := by omega
      rw [e]
      exact h (i + 1) (by omega)

theorem checkSpans_ok {next stop : Nat} :
    checkSpans b spans next = .ok stop ↔ Tiles spans next stop ∧ ∀ s ∈ spans, SpanOk b s := by
  induction spans generalizing next with
  | nil => simp [checkSpans, tiles_nil]
  | cons s spans ih =>
    rw [tiles_cons]
    unfold checkSpans
    constructor
    · intro h
      obtain ⟨e, he, h⟩ := bind_ok.mp h
      obtain ⟨hfit, rfl⟩ := checkedAdd_some.mp (okOr_ok.mp he)
      obtain ⟨h1, h⟩ := ite_refuse_ok.mp h
      obtain ⟨kv, hkv, h⟩ := bind_ok.mp h
      obtain ⟨hkvfit, rfl⟩ := checkedAdd_some.mp (okOr_ok.mp hkv)
      obtain ⟨h2, h⟩ := ite_refuse_ok.mp h
      obtain ⟨⟨⟩, hr, h⟩ := bind_ok.mp h
      obtain ⟨h3, h4⟩ := ih.mp h
      have h0 : s.row0 = next := by omega
      refine ⟨⟨h0, h0 ▸ h3⟩, forall_mem_cons.mpr ⟨?_, h4⟩⟩
      exact ⟨by omega, by omega, hfit, hkvfit, by omega, fun j hj => by
        simpa using checkRows_ok.mp hr j hj⟩
    · rintro ⟨⟨h0, h3⟩, h4⟩
      obtain ⟨hs, h4⟩ := forall_mem_cons.mp h4
      have hpos := hs.pos
      have hle := hs.le
      refine bind_ok.mpr ⟨_, okOr_ok.mpr (checkedAdd_some.mpr ⟨hs.fits, rfl⟩), ?_⟩
      refine ite_refuse_ok.mpr ⟨by omega, ?_⟩
      refine bind_ok.mpr ⟨_, okOr_ok.mpr (checkedAdd_some.mpr ⟨hs.kvFits, rfl⟩), ?_⟩
      refine ite_refuse_ok.mpr ⟨not_not.mpr hs.kvLen, bind_ok.mpr ⟨(), ?_, ?_⟩⟩
      · exact checkRows_ok.mpr fun j hj => by simpa using hs.rows j hj
      · exact ih.mpr ⟨h0 ▸ h3, h4⟩

theorem checkPadding_ok {n row : Nat} :
    checkPadding b n row = .ok () ↔ ∀ i < n, b.active[row + i]? = some 0 := by
  induction n generalizing row with
  | zero => simp [checkPadding]
  | succ n ih =>
    unfold checkPadding
    constructor
    · intro h
      obtain ⟨a, ha, h⟩ := bind_ok.mp h
      obtain ⟨ha0, h⟩ := ite_refuse_ok.mp h
      have h := ih.mp h
      intro i hi
      cases i with
      | zero => rw [Nat.add_zero, index_ok.mp ha, not_not.mp ha0]
      | succ i =>
        have e : row + (i + 1) = row + 1 + i := by omega
        rw [e]
        exact h i (by omega)
    · intro h
      refine bind_ok.mpr ⟨0, index_ok.mpr (by simpa using h 0 (by omega)), ?_⟩
      refine ite_refuse_ok.mpr ⟨not_not.mpr rfl, ih.mpr fun i hi => ?_⟩
      have e : row + 1 + i = row + (i + 1) := by omega
      rw [e]
      exact h (i + 1) (by omega)

def Live (b : HostBatch) (row : Nat) : Prop :=
  row < b.realRows ∧ ∃ a, b.active[row]? = some a ∧ a ≠ 0

theorem checkSamples_ok {rows : List Nat} :
    checkSamples b rows = .ok () ↔ ∀ row ∈ rows, Live b row := by
  induction rows with
  | nil => simp [checkSamples]
  | cons row rows ih =>
    rw [forall_mem_cons]
    unfold checkSamples
    constructor
    · intro h
      obtain ⟨hr, h⟩ := ite_refuse_ok.mp h
      obtain ⟨a, ha, h⟩ := bind_ok.mp h
      obtain ⟨ha0, h⟩ := ite_refuse_ok.mp h
      exact ⟨⟨by omega, a, index_ok.mp ha, ha0⟩, ih.mp h⟩
    · rintro ⟨⟨hr, a, ha, ha0⟩, h⟩
      refine ite_refuse_ok.mpr ⟨by omega, ?_⟩
      exact bind_ok.mpr ⟨a, index_ok.mpr ha, ite_refuse_ok.mpr ⟨ha0, ih.mpr h⟩⟩

/-- What an accepted batch is. -/
structure Valid (b : HostBatch) : Prop where
  cap : 0 < b.rowCapacity
  real : b.realRows ≤ b.rowCapacity
  positions : b.rowCapacity ≤ b.positions.length
  active : b.rowCapacity ≤ b.active.length
  samples : b.sampleRows ≤ b.sampleInputRows.length
  few : b.sampleRows ≤ b.realRows
  tiles : Tiles b.spans 0 b.realRows
  spans : ∀ s ∈ b.spans, SpanOk b s
  parked : ∀ row, b.realRows ≤ row → row < b.rowCapacity → b.active[row]? = some 0
  live : ∀ row ∈ b.sampleInputRows.take b.sampleRows, Live b row

theorem length_le_sum (spans : List PrefillSpan) (h : ∀ s ∈ spans, 0 < s.nRows) :
    spans.length ≤ (lens spans).sum := by
  induction spans with
  | nil => simp
  | cons s spans ih =>
    obtain ⟨h0, h⟩ := forall_mem_cons.mp h
    have := ih h
    simp only [lens, map_cons, sum_cons, length_cons] at this ⊢
    omega

theorem check_ok_iff : check b = .ok () ↔
    0 < b.rowCapacity ∧ b.realRows ≤ b.rowCapacity ∧ b.rowCapacity ≤ b.positions.length ∧
      b.rowCapacity ≤ b.active.length ∧ (b.realRows = 0 ↔ b.spans = []) ∧
      b.spans.length ≤ b.realRows ∧ b.sampleRows ≤ b.sampleInputRows.length ∧
      b.sampleRows ≤ b.realRows := by
  simp only [check, ite_refuse_ok, and_true]
  by_cases h : b.spans = []
  · simp [h]
    omega
  · simp [h]
    omega

theorem validate_iff : validate b = .ok () ↔ Valid b := by
  unfold validate
  constructor
  · intro h
    obtain ⟨⟨⟩, hc, h⟩ := bind_ok.mp h
    obtain ⟨h1, h2, h3, h4, -, -, h5, h6⟩ := check_ok_iff.mp hc
    obtain ⟨next, hs, h⟩ := bind_ok.mp h
    obtain ⟨hn, h⟩ := ite_refuse_ok.mp h
    obtain ⟨ht, hs⟩ := checkSpans_ok.mp hs
    obtain ⟨⟨⟩, hp, h⟩ := bind_ok.mp h
    rw [not_not.mp hn] at ht
    refine ⟨h1, h2, h3, h4, h5, h6, ht, hs, fun row hr hr' => ?_, checkSamples_ok.mp h⟩
    have e : row = b.realRows + (row - b.realRows) := by omega
    rw [e]
    exact checkPadding_ok.mp hp _ (by omega)
  · intro v
    have hsum : (lens b.spans).sum = b.realRows := by simpa using v.tiles.total
    have hle : b.spans.length ≤ b.realRows :=
      hsum ▸ length_le_sum b.spans fun s hs => (v.spans s hs).pos
    have hnil : b.realRows = 0 ↔ b.spans = [] := by
      constructor
      · intro h0
        exact length_eq_zero_iff.mp (by omega)
      · intro h0
        rw [← hsum, h0]
        rfl
    refine bind_ok.mpr ⟨(), check_ok_iff.mpr ⟨v.cap, v.real, v.positions, v.active, hnil, hle,
      v.samples, v.few⟩, ?_⟩
    refine bind_ok.mpr ⟨_, checkSpans_ok.mpr ⟨v.tiles, v.spans⟩, ?_⟩
    refine ite_refuse_ok.mpr ⟨not_not.mpr rfl, bind_ok.mpr ⟨(), ?_, ?_⟩⟩
    · exact checkPadding_ok.mpr fun i hi => v.parked _ (by omega) (by omega)
    · exact checkSamples_ok.mpr v.live

/-! ### Resolving a row -/

theorem lens_get {k : Nat} (h : spans[k]? = some s) :
    ∃ hk : k < (lens spans).length, (lens spans)[k] = s.nRows := by
  obtain ⟨hk, rfl⟩ := List.getElem?_eq_some_iff.mp h
  exact ⟨by simpa using hk, by simp [lens]⟩

namespace Tiles
variable {spans : List PrefillSpan} {n k i row : Nat} {s s' : PrefillSpan}

section

variable (t : Tiles spans 0 n)
include t

theorem start (h : spans[k]? = some s) :
    s.row0 = tileStart (lens spans) k := by
  rw [t.row0 k s h, Nat.zero_add]

theorem sum : (lens spans).sum = n := by simpa using t.total

theorem locate (h : row < n) : ∃ (k : Nat) (s : PrefillSpan) (i : Nat),
      spans[k]? = some s ∧ i < s.nRows ∧ row = s.row0 + i := by
  obtain ⟨k, hk, i, hi, he⟩ := exists_tile (t.sum ▸ h)
  have hk' : k < spans.length := by simpa using hk
  have hs : spans[k]? = some spans[k] := getElem?_eq_getElem hk'
  refine ⟨k, spans[k], i, hs, by simpa [lens] using hi, ?_⟩
  rw [t.start hs, he]

theorem row0_le_iff (h : spans[k]? = some s) (hi : i < s.nRows) {k' : Nat}
    (h' : spans[k']? = some s') : s'.row0 ≤ s.row0 + i ↔ k' ≤ k := by
  obtain ⟨hk, e⟩ := lens_get h
  rw [t.start h, t.start h']
  exact tileStart_le_iff hk (e ▸ hi)

theorem partitionPoint_eq (h : spans[k]? = some s) (hi : i < s.nRows) :
    partitionPoint (fun s' => s'.row0 ≤ s.row0 + i) spans = k + 1 := by
  have hk : k < spans.length := (List.getElem?_eq_some_iff.mp h).1
  refine length_takeWhile hk (fun j hj hjk => ?_) fun hj => ?_
  · rw [decide_eq_true_eq, t.row0_le_iff h hi (getElem?_eq_getElem hj)]
    omega
  · rw [decide_eq_false_iff_not, t.row0_le_iff h hi (getElem?_eq_getElem hj)]
    omega

end

end Tiles

namespace Valid
variable {k i row : Nat} {s : PrefillSpan}

theorem row_lt (v : Valid b) (h : b.spans[k]? = some s) (hi : i < s.nRows) :
    s.row0 + i < b.realRows := by
  have := (v.spans s (mem_of_getElem? h)).le
  omega

theorem resolveRow_live (v : Valid b) (h : b.spans[k]? = some s) (hi : i < s.nRows) :
    resolveRow b (s.row0 + i) = .ok ⟨some k, i, s.slot, s.stateSlot, s.kvRow0 + i, true⟩ := by
  have hr := v.row_lt h hi
  have hc := v.real
  unfold resolveRow
  rw [validate_iff.mpr v, ok_bind, if_neg (by omega), if_neg (by omega)]
  simp only [v.tiles.partitionPoint_eq h hi]
  rw [if_neg (by omega), Nat.add_sub_cancel, index_ok.mpr h, ok_bind]
  simp only [Nat.add_sub_cancel_left]
  rw [if_neg (by omega)]

theorem resolveRow_padding (v : Valid b) (h : b.realRows ≤ row) (hc : row < b.rowCapacity) :
    resolveRow b row = .ok .padding := by
  unfold resolveRow
  rw [validate_iff.mpr v, ok_bind, if_neg (by omega), if_pos h]

theorem sampleRow_eq (v : Valid b) {n : Nat} (h : n < b.sampleRows) :
    ∃ row, b.sampleInputRows[n]? = some row ∧ Live b row ∧ sampleRow b n = .ok row := by
  have hl := v.samples
  have hn : n < b.sampleInputRows.length := by omega
  refine ⟨b.sampleInputRows[n], getElem?_eq_getElem hn, ?_, ?_⟩
  · have ht : (b.sampleInputRows.take b.sampleRows)[n]? = some b.sampleInputRows[n] := by
      rw [getElem?_take_of_lt h, getElem?_eq_getElem hn]
    exact v.live _ (mem_of_getElem? ht)
  · unfold sampleRow
    rw [validate_iff.mpr v, ok_bind, if_neg (by omega)]
    exact index_ok.mpr (getElem?_eq_getElem hn)

end Valid

end Plow.TokenBatch
