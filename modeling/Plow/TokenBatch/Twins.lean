import Plow.TokenBatch.Device

/-!
# The two resolvers agree

`Describes b tb` says that the descriptor `tb` shows the device the batch `b`: the counts, the
pointers to its arrays, the declared lengths and the range of a `uint32_t`.

`Twin x y` relates an outcome on the host to one on the device: both return the same value, or
both refuse, with the same code.  It has a rule for each way the two programs are put together, so
that `validate_twin` follows their text; neither side panics, traps or reads outside an array.
-/

namespace Plow.TokenBatch
open Plow.Lib List

structure Describes (b : HostBatch) (tb : PlowTokenBatch) : Prop where
  version : tb.version = tokenBatchVersion
  flags : tb.flags = 0 ∧ tb.pad0 = 0 ∧ tb.pad1 = 0
  rowCapacity : tb.rowCapacity = b.rowCapacity
  realRows : tb.realRows = b.realRows
  sampleRows : tb.sampleRows = b.sampleRows
  nSpans : tb.nSpans = b.spans.length
  inputIds : tb.inputIds ≠ none
  positions : tb.positions = some b.positions
  active : tb.active = some b.active
  /-- an empty table may have a null pointer -/
  spans : b.spans ≠ [] → tb.spans = some b.spans
  samples : b.sampleRows ≠ 0 → tb.sampleRowsIdx = some b.sampleInputRows
  /-- the declared lengths -/
  lengths : b.positions.length = b.rowCapacity ∧ b.active.length = b.rowCapacity ∧
    b.sampleInputRows.length = b.sampleRows
  /-- the fields are 32-bit values -/
  fits : b.rowCapacity < 2 ^ 32 ∧ b.realRows < 2 ^ 32 ∧ b.sampleRows < 2 ^ 32 ∧
    b.spans.length < 2 ^ 32
  spanFits : ∀ s ∈ b.spans, s.row0 < 2 ^ 32 ∧ s.nRows < 2 ^ 32 ∧ s.kvRow0 < 2 ^ 32 ∧
    s.kvLen < 2 ^ 32

inductive Twin {α : Type} : Res α → Dev α → Prop
  | ok (a : α) : Twin (.ok a) (.ok a)
  | refused (r : Refusal) : Twin (.error (.refused r)) (.error (.code r.code))

namespace Twin
variable {α β : Type} {x x' : Res α} {y y' : Dev α}

theorem bind {f : α → Res β} {g : α → Dev β} (h : Twin x y)
    (hf : ∀ a, x = .ok a → Twin (f a) (g a)) : Twin (x >>= f) (y >>= g) := by
  cases h with
  | ok a => exact hf a rfl
  | refused r => exact refused r

theorem ite {c d : Prop} [Decidable c] [Decidable d] (hc : c ↔ d) (h : c → Twin x y)
    (h' : ¬ c → Twin x' y') : Twin (if c then x else x') (if d then y else y') := by
  by_cases hcc : c
  · rw [if_pos hcc, if_pos (hc.mp hcc)]
    exact h hcc
  · rw [if_neg hcc, if_neg (fun hd => hcc (hc.mpr hd))]
    exact h' hcc

theorem index {xs : List β} {p : Option (List β)} {i : Nat} (hp : p = some xs)
    (hi : i < xs.length) : Twin (index xs i) (at32 p i) := by
  rw [hp]
  simp only [TokenBatch.index, at32, getElem?_eq_getElem hi]
  exact ok _

theorem of_ok {a : α} (h : Twin x y) (hx : x = .ok a) : y = .ok a := by
  cases h with
  | ok b => cases hx; rfl
  | refused r => cases hx

end Twin

variable {b : HostBatch} {tb : PlowTokenBatch} {n row i : Nat}

theorem wrap_of_lt (h : n < 2 ^ 32) : wrap n = n := Nat.mod_eq_of_lt h

theorem wrap_add_lt {m : Nat} (hm : m < 2 ^ 32) (hn : n < 2 ^ 32) (h : 2 ^ 32 ≤ m + n) :
    wrap (m + n) < m := by
  unfold wrap
  omega

section

variable (d : Describes b tb)
include d

theorem check_twin : Twin (check b) (plowTokenBatchCheck tb) := by
  obtain ⟨h1, h2, h3⟩ := d.lengths
  have hv : ¬ tb.version ≠ tokenBatchVersion := not_not.mpr d.version
  have hf : ¬ (tb.flags ≠ 0 ∨ tb.pad0 ≠ 0 ∨ tb.pad1 ≠ 0) := by
    have := d.flags
    omega
  have hn : ¬ (tb.inputIds = none ∨ tb.positions = none ∨ tb.active = none) := by
    rintro (h | h | h)
    · exact d.inputIds h
    · rw [d.positions] at h
      cases h
    · rw [d.active] at h
      cases h
  have hs : b.realRows > 0 ∧ b.spans = [] ↔ tb.realRows ≠ 0 ∧ (tb.spans = none ∨ tb.nSpans = 0) := by
    rw [d.realRows, d.nSpans, length_eq_zero_iff]
    constructor
    · rintro ⟨h, h'⟩
      exact ⟨by omega, Or.inr h'⟩
    · rintro ⟨h, h' | h'⟩
      · by_contra hc
        have := d.spans fun h0 => hc ⟨by omega, h0⟩
        rw [h'] at this
        cases this
      · exact ⟨by omega, h'⟩
  have hm : ¬ (tb.sampleRows ≠ 0 ∧ tb.sampleRowsIdx = none) := by
    rintro ⟨h, h'⟩
    rw [d.samples (d.sampleRows ▸ h)] at h'
    cases h'
  unfold check plowTokenBatchCheck
  rw [if_neg hv, if_neg hf]
  refine Twin.ite (by rw [d.rowCapacity, d.realRows]) (fun _ => .refused .capacity) fun _ => ?_
  rw [if_neg hn, if_neg (by omega)]
  refine Twin.ite hs (fun _ => .refused .spans) fun _ => ?_
  refine Twin.ite ?_ (fun _ => .refused .spans) fun _ => ?_
  · rw [d.realRows, d.nSpans, ne_eq, ne_eq, length_eq_zero_iff]
  refine Twin.ite (by rw [d.nSpans, d.realRows]) (fun _ => .refused .cover) fun _ => ?_
  rw [if_neg hm, if_neg (by omega)]
  exact Twin.ite (by rw [d.sampleRows, d.realRows]) (fun _ => .refused .sample) fun _ => .ok ()

theorem checkRows_twin (hc : b.realRows ≤ b.rowCapacity) {s : PrefillSpan}
    {j : Nat} (hs : s.row0 + j + n ≤ b.realRows) (hk : s.kvRow0 + j + n < 2 ^ 32) :
    Twin (checkRows b s n j) (validateRows tb s n j) := by
  obtain ⟨h1, h2, -⟩ := d.lengths
  have hr := d.fits.2.1
  induction n generalizing j with
  | zero => exact .ok ()
  | succ n ih =>
    have e : wrap (s.row0 + j) = s.row0 + j := wrap_of_lt (by omega)
    have ek : wrap (s.kvRow0 + j) = s.kvRow0 + j := wrap_of_lt (by omega)
    unfold checkRows validateRows
    simp only [e, ek]
    refine Twin.bind (Twin.index d.active (by omega)) fun a _ => ?_
    refine Twin.ite Iff.rfl (fun _ => .refused .active) fun _ => ?_
    refine Twin.bind (Twin.index d.positions (by omega)) fun p _ => ?_
    exact Twin.ite Iff.rfl (fun _ => .refused .position) fun _ => ih (by omega) (by omega)

theorem checkSpans_twin (hc : b.realRows ≤ b.rowCapacity)
    {spans : List PrefillSpan} {next : Nat} (hs : b.spans.drop i = spans) :
    Twin (checkSpans b spans next) (validateSpans tb spans.length i next) := by
  induction spans generalizing i next with
  | nil => exact .ok next
  | cons s spans ih =>
    have hi : b.spans[i]? = some s := by
      have := congrArg List.head? hs
      simpa using this
    have hne : b.spans ≠ [] := by
      intro h0
      rw [h0] at hi
      simp at hi
    have hrest : b.spans.drop (i + 1) = spans := by
      rw [← drop_drop, hs]
      rfl
    obtain ⟨f1, f2, f3, f4⟩ := d.spanFits s (mem_of_getElem? hi)
    have hat : at32 tb.spans i = .ok s := by
      rw [d.spans hne]
      simp only [at32, hi]
    unfold checkSpans
    rw [length_cons, validateSpans, hat, ok_bind, d.realRows]
    by_cases hfit : s.row0 + s.nRows < 2 ^ 32
    · rw [okOr_ok.mpr (checkedAdd_some.mpr ⟨hfit, rfl⟩), ok_bind]
      simp only [wrap_of_lt hfit]
      by_cases hcov : s.nRows = 0 ∨ s.row0 + s.nRows < s.row0 ∨ s.row0 + s.nRows > b.realRows
      · rw [if_pos hcov, if_pos (by omega)]
        exact .refused .cover
      rw [if_neg hcov]
      by_cases hnext : s.row0 ≠ next
      · rw [if_pos hnext, if_pos (by omega)]
        exact .refused .cover
      rw [if_neg hnext, if_neg (by omega)]
      by_cases hkv : s.kvRow0 + s.nRows < 2 ^ 32
      · rw [okOr_ok.mpr (checkedAdd_some.mpr ⟨hkv, rfl⟩), ok_bind]
        simp only [wrap_of_lt hkv]
        refine Twin.ite (by omega) (fun _ => .refused .kvLen) fun _ => ?_
        refine Twin.bind (checkRows_twin d hc (by omega) (by omega)) fun _ _ => ?_
        exact ih hrest
      · -- the KV extent wraps: the host's sum overflows, the device's is below its start
        have hlt := wrap_add_lt f3 f2 (by omega)
        rw [if_pos (by omega)]
        have e : checkedAdd s.kvRow0 s.nRows = none := if_neg hkv
        rw [e]
        exact .refused .kvLen
    · have hlt := wrap_add_lt f1 f2 (by omega)
      have e : checkedAdd s.row0 s.nRows = none := if_neg hfit
      rw [if_pos (by omega), e]
      exact .refused .cover

theorem checkPadding_twin (h : row + n ≤ b.rowCapacity) :
    Twin (checkPadding b n row) (validatePadding tb n row) := by
  obtain ⟨-, h2, -⟩ := d.lengths
  induction n generalizing row with
  | zero => exact .ok ()
  | succ n ih =>
    unfold checkPadding validatePadding
    refine Twin.bind (Twin.index d.active (by omega)) fun a _ => ?_
    exact Twin.ite Iff.rfl (fun _ => .refused .active) fun _ => ih (by omega)

theorem checkSamples_twin (hc : b.realRows ≤ b.rowCapacity) {rows : List Nat}
    (hi : b.sampleInputRows.drop i = rows) (hl : i + rows.length = b.sampleRows) :
    Twin (checkSamples b rows) (validateSamples tb rows.length i) := by
  obtain ⟨-, h2, h3⟩ := d.lengths
  induction rows generalizing i with
  | nil => exact .ok ()
  | cons row rows ih =>
    have hrow : b.sampleInputRows[i]? = some row := by
      have := congrArg List.head? hi
      simpa using this
    have hat : at32 tb.sampleRowsIdx i = .ok row := by
      rw [length_cons] at hl
      rw [d.samples (by omega)]
      simp only [at32, hrow]
    unfold checkSamples
    rw [length_cons, validateSamples, hat, ok_bind, d.realRows]
    refine Twin.ite Iff.rfl (fun _ => .refused .sample) fun hr => ?_
    refine Twin.bind (Twin.index d.active (by omega)) fun a _ => ?_
    refine Twin.ite Iff.rfl (fun _ => .refused .sample) fun _ => ih ?_ ?_
    · rw [← drop_drop, hi]
      rfl
    · rw [length_cons] at hl
      omega

theorem validate_twin : Twin (validate b) (plowTokenBatchValidate tb) := by
  unfold validate plowTokenBatchValidate
  refine Twin.bind (check_twin d) fun _ hc => ?_
  have hreal := (check_ok_iff.mp hc).2.1
  rw [d.nSpans, d.realRows, d.rowCapacity, d.sampleRows]
  refine Twin.bind (checkSpans_twin d hreal rfl) fun next _ => ?_
  refine Twin.ite Iff.rfl (fun _ => .refused .cover) fun _ => ?_
  refine Twin.bind (checkPadding_twin d (by omega)) fun _ _ => ?_
  have h3 := d.lengths.2.2
  have e : b.sampleInputRows.take b.sampleRows = b.sampleInputRows := by
    rw [← h3, take_length]
  have ht := checkSamples_twin d hreal (i := 0) rfl (by simpa using h3)
  rw [e]
  rw [drop_zero, h3] at ht
  exact ht

/-! ### The resolvers on an accepted batch -/

def atOrBefore (b : HostBatch) (row k : Nat) : Bool :=
  match b.spans[k]? with
  | some s => s.row0 ≤ row
  | none => false

/-- the search loop is a bisection, and stays in the table -/
theorem searchSpans_eq {lo hi : Nat} (h : hi ≤ b.spans.length) :
    searchSpans tb row lo hi = .ok (bisect (atOrBefore b row) lo hi) := by
  fun_induction searchSpans tb row lo hi with
  | case1 lo hi hlt mid ih1 ih2 =>
    have hmid : mid < b.spans.length := by omega
    have hne : b.spans ≠ [] := ne_nil_of_length_pos (by omega)
    have hat : at32 tb.spans mid = .ok b.spans[mid] := by
      rw [d.spans hne]
      simp only [at32, getElem?_eq_getElem hmid]
    have hp : atOrBefore b row mid = decide (b.spans[mid].row0 ≤ row) := by
      simp only [atOrBefore, getElem?_eq_getElem hmid]
    rw [hat, ok_bind]
    by_cases hle : b.spans[mid].row0 ≤ row
    · have hb : bisect (atOrBefore b row) lo hi = bisect (atOrBefore b row) (mid + 1) hi := by
        rw [bisect, if_pos hlt]
        exact if_pos (hp.trans (decide_eq_true hle))
      rw [if_pos hle, hb]
      exact ih1 h
    · have hb : bisect (atOrBefore b row) lo hi = bisect (atOrBefore b row) lo mid := by
        rw [bisect, if_pos hlt]
        exact if_neg (Bool.eq_false_iff.mp (hp.trans (decide_eq_false hle)))
      rw [if_neg hle, hb]
      exact ih2 (by omega)
  | case2 lo hi hlt => rw [bisect, if_neg hlt]

end

namespace Valid
variable {k i row : Nat} {s : PrefillSpan}

theorem dev_check (v : Valid b) (d : Describes b tb) : plowTokenBatchCheck tb = .ok () := by
  obtain ⟨⟨⟩, hc, -⟩ := bind_ok.mp (validate_iff.mpr v)
  exact (check_twin d).of_ok hc

theorem dev_active (v : Valid b) (d : Describes b tb) (h : b.spans[k]? = some s)
    (hi : i < s.nRows) : ∃ a, at32 tb.active (s.row0 + i) = .ok a ∧ a ≠ 0 := by
  obtain ⟨⟨a, ha, ha0⟩, -⟩ := (v.spans s (mem_of_getElem? h)).rows i hi
  refine ⟨a, ?_, ha0⟩
  rw [d.active]
  simp only [at32, ha]

theorem dev_search (v : Valid b) (d : Describes b tb) (h : b.spans[k]? = some s)
    (hi : i < s.nRows) : searchSpans tb (s.row0 + i) 0 tb.nSpans = .ok (k + 1) := by
  have hk : k < b.spans.length := (List.getElem?_eq_some_iff.mp h).1
  rw [d.nSpans, searchSpans_eq d le_rfl]
  refine congrArg Except.ok (bisect_eq (fun j hj => ?_) (fun j hj hjl => ?_) (Nat.zero_le _) hk)
  · have hjl : j < b.spans.length := by omega
    simp only [atOrBefore, getElem?_eq_getElem hjl, decide_eq_true_eq,
      v.tiles.row0_le_iff h hi (getElem?_eq_getElem hjl)]
    omega
  · simp only [atOrBefore, getElem?_eq_getElem hjl, decide_eq_false_iff_not,
      v.tiles.row0_le_iff h hi (getElem?_eq_getElem hjl)]
    omega

theorem span_end (v : Valid b) (h : b.spans[k]? = some s) :
    (∀ t, b.spans[k + 1]? = some t → s.row0 + s.nRows = t.row0) ∧
      (k + 1 = b.spans.length → s.row0 + s.nRows = b.realRows) := by
  obtain ⟨hk, e⟩ := lens_get h
  have hs := tileStart_succ hk
  rw [e, ← v.tiles.start h] at hs
  refine ⟨fun t ht => ?_, fun hl => ?_⟩
  · rw [v.tiles.start ht, hs]
  · rw [← hs, hl, ← length_lens, tileStart_length, v.tiles.sum]

/-- the checks of `plow_token_span` pass -/
theorem dev_span (v : Valid b) (d : Describes b tb) (h : b.spans[k]? = some s) :
    plowTokenSpan tb k = .ok s := by
  have hk : k < b.spans.length := (List.getElem?_eq_some_iff.mp h).1
  have hne : b.spans ≠ [] := ne_nil_of_length_pos (by omega)
  have ok := v.spans s (mem_of_getElem? h)
  have hpos := ok.pos
  have hle := ok.le
  have hkv := ok.kvLen
  have hat : ∀ {j t}, b.spans[j]? = some t → at32 tb.spans j = .ok t := by
    intro j t ht
    rw [d.spans hne]
    simp only [at32, ht]
  have hbefore : priorEnd tb k = .ok s.row0 := by
    unfold priorEnd
    cases k with
    | zero =>
      have := v.tiles.start h
      rw [tileStart_zero] at this
      rw [this]
      rfl
    | succ j =>
      have hj : b.spans[j]? = some b.spans[j] := getElem?_eq_getElem (by omega)
      have ej := (v.span_end hj).1 s h
      have fj := (v.spans _ (mem_of_getElem? hj)).fits
      rw [if_neg (by omega), Nat.add_sub_cancel, hat hj, ok_bind, wrap_of_lt fj, ej]
      rfl
  have hlast : ¬ (wrap (k + 1) = b.spans.length ∧ s.row0 + s.nRows ≠ b.realRows) := by
    have hf := d.fits.2.2.2
    rw [wrap_of_lt (by omega)]
    rintro ⟨h1, h2⟩
    exact h2 ((v.span_end h).2 h1)
  unfold plowTokenSpan
  rw [v.dev_check d]
  simp only [orTrap, ok_bind, hat h, hbefore, wrap_of_lt ok.fits, wrap_of_lt ok.kvFits, d.nSpans,
    d.realRows]
  rw [if_neg (by omega), if_neg (by omega), if_neg (not_not.mpr rfl), if_neg (by omega),
    if_neg hlast]
  rfl

theorem dev_row_live (v : Valid b) (d : Describes b tb) (h : b.spans[k]? = some s)
    (hi : i < s.nRows) : plowTokenRow tb (s.row0 + i) =
      .ok ⟨some k, i, s.slot, s.stateSlot, s.kvRow0 + i, 1⟩ := by
  have hr := v.row_lt h hi
  have hc := v.real
  have ok := v.spans s (mem_of_getElem? h)
  have hkf := ok.kvFits
  obtain ⟨a, ha, ha0⟩ := v.dev_active d h hi
  have hpos : at32 tb.positions (s.row0 + i) = .ok (s.kvRow0 + i) := by
    rw [d.positions]
    simp only [at32, (ok.rows i hi).2]
  unfold plowTokenRow
  rw [v.dev_check d]
  simp only [orTrap, ok_bind, d.rowCapacity, d.realRows]
  rw [if_neg (by omega), if_neg (by omega), ha, ok_bind, if_neg ha0, v.dev_search d h hi, ok_bind,
    if_neg (by omega), Nat.add_sub_cancel, v.dev_span d h, ok_bind]
  simp only [Nat.add_sub_cancel_left, wrap_of_lt (show s.kvRow0 + i < 2 ^ 32 by omega)]
  rw [if_neg (by omega), hpos, ok_bind, if_neg (by omega)]
  rfl

theorem dev_row_padding (v : Valid b) (d : Describes b tb) (h : b.realRows ≤ row)
    (hc : row < b.rowCapacity) : plowTokenRow tb row = .ok ⟨none, 0, 0, 0, 0, 0⟩ := by
  have hp : at32 tb.active row = .ok 0 := by
    rw [d.active]
    simp only [at32, v.parked row h hc]
  unfold plowTokenRow
  rw [v.dev_check d]
  simp only [orTrap, ok_bind, d.rowCapacity, d.realRows]
  rw [if_neg (by omega), if_pos (by omega), hp]
  rfl

theorem dev_sample_row (v : Valid b) (d : Describes b tb) (h : n < b.sampleRows)
    (hrow : b.sampleInputRows[n]? = some row) (hl : Live b row) :
    plowTokenSampleRow tb n = .ok row := by
  obtain ⟨hr, a, ha, ha0⟩ := hl
  have hs : at32 tb.sampleRowsIdx n = .ok row := by
    rw [d.samples (by omega)]
    simp only [at32, hrow]
  have hat : at32 tb.active row = .ok a := by
    rw [d.active]
    simp only [at32, ha]
  unfold plowTokenSampleRow
  rw [v.dev_check d]
  simp only [orTrap, ok_bind, d.sampleRows, d.realRows, hs, hat]
  rw [if_neg (by omega), if_neg (by omega), if_neg ha0]
  rfl

end Valid

/-- the code that `validate` reports; `none` for a panic -/
def hostCode : Res Unit → Option Int
  | .ok () => some 0
  | .error (.refused r) => some r.code
  | .error .panic => none

/-- the code that `plow_token_batch_validate` returns; `none` for a trap or a wild read -/
def devCode : Dev Unit → Option Int
  | .ok () => some 0
  | .error (.code rc) => some rc
  | .error _ => none

def ResolvedRow.dev (r : ResolvedRow) : PlowTokenRow :=
  ⟨r.span, r.localRow, r.slot, r.stateSlot, r.position, if r.active then 1 else 0⟩

/-- Both validators give one code, and on an accepted batch both resolvers give the same rows and
the same sample rows. -/
theorem resolvers_agree (b : HostBatch) (tb : PlowTokenBatch) (d : Describes b tb) :
    (∃ rc, hostCode (validate b) = some rc ∧ devCode (plowTokenBatchValidate tb) = some rc) ∧
    (validate b = .ok () → (∀ row < b.rowCapacity,
        ∃ r, resolveRow b row = .ok r ∧ plowTokenRow tb row = .ok r.dev) ∧ (∀ n < b.sampleRows,
        ∃ row, sampleRow b n = .ok row ∧ plowTokenSampleRow tb n = .ok row)) := by
  constructor
  · have ht := validate_twin d
    generalize validate b = x at ht
    generalize plowTokenBatchValidate tb = y at ht
    cases ht with
    | ok a => exact ⟨0, rfl, rfl⟩
    | refused r => exact ⟨r.code, rfl, rfl⟩
  · intro h
    have v := validate_iff.mp h
    refine ⟨fun row hrow => ?_, fun n hn => ?_⟩
    · by_cases hr : row < b.realRows
      · obtain ⟨k, s, i, hs, hi, rfl⟩ := v.tiles.locate hr
        exact ⟨_, v.resolveRow_live hs hi, v.dev_row_live d hs hi⟩
      · exact ⟨_, v.resolveRow_padding (by omega) hrow, v.dev_row_padding d (by omega) hrow⟩
    · obtain ⟨row, h1, h2, h3⟩ := v.sampleRow_eq hn
      exact ⟨row, h3, v.dev_sample_row d hn h1 h2⟩

/-- a decode span and the two-row chunk of another request, in four rows -/
def pairBatch : HostBatch where
  rowCapacity := 4
  realRows := 3
  sampleRows := 2
  spans := [⟨0, 1, 3, 0, 7, 8, 3, 5⟩, ⟨1, 2, 1, 1, 0, 2, 1, 5⟩]
  positions := [7, 0, 1, 0]
  active := [1, 1, 1, 0]
  sampleInputRows := [0, 2]

def pairDescriptor : PlowTokenBatch where
  version := 1
  rowCapacity := 4
  realRows := 3
  sampleRows := 2
  nSpans := 2
  flags := 0
  pad0 := 0
  pad1 := 0
  spans := some pairBatch.spans
  inputIds := some [11, 12, 13, 0]
  positions := some pairBatch.positions
  active := some pairBatch.active
  sampleRowsIdx := some pairBatch.sampleInputRows

theorem resolvers_agree_pair : (∃ rc, hostCode (validate pairBatch) = some rc ∧
      devCode (plowTokenBatchValidate pairDescriptor) = some rc) ∧
    (∀ row < 4, ∃ r, resolveRow pairBatch row = .ok r ∧
      plowTokenRow pairDescriptor row = .ok r.dev) ∧
    ∀ n < 2, ∃ row, sampleRow pairBatch n = .ok row ∧
      plowTokenSampleRow pairDescriptor n = .ok row := by
  have d : Describes pairBatch pairDescriptor :=
    ⟨rfl, by decide, rfl, rfl, rfl, rfl, by decide, rfl, rfl, fun _ => rfl, fun _ => rfl,
      by decide, by decide, by decide⟩
  obtain ⟨h1, h2⟩ := resolvers_agree pairBatch pairDescriptor d
  exact ⟨h1, h2 (by decide)⟩

end Plow.TokenBatch
