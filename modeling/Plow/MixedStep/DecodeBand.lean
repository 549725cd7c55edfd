import Plow.MixedStep.Dense

/-!
# The validator of the decode band

A plan of the decode band with a prefill span passes `Variant.validatePlan` for the variant with its
row counts and program, under limits that cover its requests; a plan without a span does not
(`validatePlan_iff`).
-/

namespace Plow.MixedStep
open Plow.Lib List
open Plow.TokenBatch (Plans PrefillSpan checkedAdd checkedAdd_some okOrErr okOrErr_ok)

variable {env : Env} {ds : List DecodeRequest} {ps : List PrefillRequest} {out out' plan : Plan}
  {parkedEnd : Option Nat} {owner : Row} {capacity i pad : Nat}

/-- a decode-band plan for the requests, behind the padding -/
structure Banded (env : Env) (ds : List DecodeRequest) (ps : List PrefillRequest)
    (parkedEnd : Option Nat) (owner : Row) (plan : Plan) : Prop where
  decode : ∀ d ∈ ds, DecodeOk env d
  prefill : ∀ p ∈ ps, PrefillOk env p
  slots : (ds.map (·.slot) ++ ps.map (·.slot)).Nodup
  stateSlots : (ds.map (·.stateSlot) ++ ps.map (·.stateSlot)).Nodup
  rows : ∃ pad, plan.rows = scheduled env ds ps ++ pad
  decodeSlots : plan.decodeSlots = ds.map fun d => asI32 d.slot
  decodeRows : plan.decodeRows = ds.length
  realRows : plan.realRows = ds.length + chunkTotal ps
  small : plan.realRows < 2 ^ 32
  ends : plan.mappedEnds =
    (endsOf env ds ps).map fun e => (e.1, mappedEnd parkedEnd owner e.1 e.2)

theorem take_decode (hb : Banded env ds ps parkedEnd owner plan) (hi : i ≤ ds.length) :
    plan.rows.take i = (ds.take i).map (decodeRow env) := by
  obtain ⟨pad, hrows⟩ := hb.rows
  have hlen : i ≤ (ds.map (decodeRow env)).length := by rwa [length_map]
  rw [hrows, scheduled, append_assoc, take_append_of_le_length hlen, map_take]

theorem not_mem_before {α : Type} {f : α → Nat} {as : List α} {a : α}
    (h : (as.map f).Nodup) (ha : as[i]? = some a) : f a ∉ (as.take i).map f := by
  obtain ⟨hi, rfl⟩ := List.getElem?_eq_some_iff.mp ha
  rw [← take_append_drop i as, map_append] at h
  have hdisj := disjoint_of_nodup_append h
  intro hm
  refine hdisj hm (mem_map_of_mem ?_)
  rw [drop_eq_getElem_cons hi]
  exact mem_cons_self

/-! ### Decode rows -/

theorem validateDecodeRow_ok (hb : Banded env ds ps parkedEnd owner plan)
    (hcap : env.frontiers.length ≤ capacity) :
    checkAll (validateDecodeRow plan parkedEnd owner capacity)
      (plan.rows.take plan.decodeRows).zipIdx = .ok () := by
  rw [checkAll_ok, hb.decodeRows, take_decode hb le_rfl, take_length]
  rintro ⟨r, i⟩ hq
  have hr : (ds.map (decodeRow env))[i]? = some r := mem_zipIdx_iff_getElem?.mp hq
  rw [getElem?_map] at hr
  obtain ⟨d, hd, rfl⟩ := Option.map_eq_some_iff.mp hr
  have hmem := mem_of_getElem? hd
  have hi : i < ds.length := (List.getElem?_eq_some_iff.mp hd).1
  obtain ⟨hslots, -, -⟩ := nodup_append.mp hb.slots
  obtain ⟨hstates, -, -⟩ := nodup_append.mp hb.stateSlots
  have hok := hb.decode d hmem
  have h1 : (!(plan.rows.take i).any fun p => decide (p.slot = d.slot)) = true := by
    rw [take_decode hb hi.le, none_has, map_map]
    exact not_mem_before hslots hd
  have h2 : (!(plan.rows.take i).any fun p => decide (p.stateSlot = d.stateSlot)) = true := by
    rw [take_decode hb hi.le, none_has, map_map]
    exact not_mem_before hstates hd
  have h3 : plan.decodeSlots[i]? = some (asI32 d.slot) := by
    rw [hb.decodeSlots, getElem?_map, hd]
    rfl
  have h4 : plan.mappedEnds[i]? = some (d.slot, mappedEnd parkedEnd owner d.slot (endOf env d)) := by
    rw [hb.ends, getElem?_map, endsOf, getElem?_append_left (by rwa [length_map]),
      getElem?_map, hd]
    rfl
  exact require_ok.mpr (decide_eq_true
    ⟨hok.slot.trans_le hcap, h3, hok.stateSlot.trans_le hcap, h1, h2, h4⟩)

/-! ### Spans -/

theorem spansFrom_stateSlots (n : Nat) :
    (spansFrom env n ps).map (·.stateSlot) = ps.map (·.stateSlot) := by
  induction ps generalizing n with
  | nil => rfl
  | cons p ps ih => rw [spansFrom, map_cons, ih, map_cons]; rfl

theorem spansFrom_program (n : Nat) : ∀ s ∈ spansFrom env n ps, s.program = env.auxiliaryProgram := by
  induction ps generalizing n with
  | nil => exact nofun
  | cons p ps ih => exact forall_mem_cons.mpr ⟨rfl, ih _⟩

theorem rows_chunk {done rest : List PrefillRequest} {p : PrefillRequest}
    (hb : Banded env ds (done ++ p :: rest) parkedEnd owner plan) :
    (plan.rows.drop (ds.length + chunkTotal done)).take p.tokens.length = chunkOf p := by
  obtain ⟨pad, hrows⟩ := hb.rows
  have hbefore : (scheduled env ds done).length = ds.length + chunkTotal done := length_scheduled
  have hsplit : plan.rows =
      scheduled env ds done ++ (chunkOf p ++ (rest.flatMap chunkOf ++ pad)) := by
    rw [hrows, scheduled, scheduled, flatMap_append, flatMap_cons]
    simp only [append_assoc]
  rw [hsplit, drop_left' hbefore]
  exact take_left' length_chunkRows

theorem validatePrefillRow_ok (p : PrefillRequest) (flags n : Nat) :
    checkAll (validatePrefillRow (spanOf env flags n p)) (chunkOf p).zipIdx = .ok () := by
  rw [checkAll_ok]
  rintro ⟨r, i⟩ hq
  have hr : (chunkOf p)[i]? = some r := mem_zipIdx_iff_getElem?.mp hq
  unfold chunkOf at hr
  rw [chunkRows_getElem?] at hr
  obtain ⟨x, -, rfl⟩ := Option.map_eq_some_iff.mp hr
  exact require_ok.mpr (decide_eq_true ⟨rfl, rfl, rfl, rfl, rfl⟩)

/-- the spans of the chunks `rest`, behind those of `done` -/
theorem validateSpans_ok (done rest : List PrefillRequest)
    (hb : Banded env ds (done ++ rest) parkedEnd owner plan)
    (hcap : env.frontiers.length ≤ capacity) :
    validateSpans plan parkedEnd owner capacity (spansFrom env ds.length done)
        (spansFrom env (ds.length + chunkTotal done) rest) (ds.length + chunkTotal done) =
      .ok (ds.length + chunkTotal (done ++ rest)) := by
  induction rest generalizing done with
  | nil =>
    rw [append_nil]
    rfl
  | cons p rest ih =>
    have hok := hb.prefill p (by simp)
    have hreal := hb.realRows
    have hsmall := hb.small
    rw [chunkTotal_append, chunkTotal_cons] at hreal
    have hnext : chunkTotal (done ++ [p]) = chunkTotal done + p.tokens.length := by
      rw [chunkTotal_append]
      rfl
    have hslot := hb.slots
    have hstate := hb.stateSlots
    rw [map_append, map_cons, ← append_assoc, nodup_append] at hslot hstate
    obtain ⟨-, -, hslot⟩ := hslot
    obtain ⟨-, -, hstate⟩ := hstate
    have h1 : (!((plan.rows.take plan.decodeRows).any (fun row => decide (row.slot = p.slot)) ||
        (spansFrom env ds.length done).any fun q => decide (q.slot = p.slot))) = true := by
      rw [Bool.not_or, Bool.and_eq_true, none_has, none_has, spansFrom_slots, hb.decodeRows,
        take_decode hb le_rfl, take_length, map_map]
      exact ⟨fun hm => hslot _ (mem_append_left _ hm) _ mem_cons_self rfl,
        fun hm => hslot _ (mem_append_right _ hm) _ mem_cons_self rfl⟩
    have h2 : (!((plan.rows.take plan.decodeRows).any
          (fun row => decide (row.stateSlot = p.stateSlot)) ||
        (spansFrom env ds.length done).any fun q => decide (q.stateSlot = p.stateSlot))) = true := by
      rw [Bool.not_or, Bool.and_eq_true, none_has, none_has, spansFrom_stateSlots, hb.decodeRows,
        take_decode hb le_rfl, take_length, map_map]
      exact ⟨fun hm => hstate _ (mem_append_left _ hm) _ mem_cons_self rfl,
        fun hm => hstate _ (mem_append_right _ hm) _ mem_cons_self rfl⟩
    have h3 : plan.mappedEnds[plan.decodeRows + (spansFrom env ds.length done).length]? =
        some (p.slot, mappedEnd parkedEnd owner p.slot (stopOf p)) := by
      have hends : endsOf env ds (done ++ p :: rest) = endsOf env ds done ++
          (p.slot, stopOf p) :: rest.map fun p => (p.slot, stopOf p) := by
        simp [endsOf]
      have hlen : (endsOf env ds done).length = ds.length + done.length := by
        simp [endsOf]
      rw [hb.ends, getElem?_map, hends, hb.decodeRows, length_spansFrom, ← hlen,
        getElem?_append_right le_rfl, Nat.sub_self]
      rfl
    have hrest := ih (done ++ [p]) (by rwa [append_assoc])
    rw [spansFrom_concat, append_assoc, hnext, ← Nat.add_assoc] at hrest
    show validateSpans plan parkedEnd owner capacity _ (spanOf _ _ _ p :: _) _ = _
    unfold validateSpans
    refine bind_ok.mpr ⟨_, okOrErr_ok.mpr (checkedAdd_some.mpr ⟨?_, rfl⟩), ?_⟩
    · show ds.length + chunkTotal done + p.tokens.length < 2 ^ 32
      omega
    refine bind_ok.mpr ⟨_, okOrErr_ok.mpr (checkedAdd_some.mpr ⟨hok.fits, rfl⟩), ?_⟩
    refine require_bind.mpr ⟨decide_eq_true ⟨rfl, hok.tokens, ?_, rfl, rfl, hok.slot.trans_le hcap,
      hok.stateSlot.trans_le hcap, h1, h2, h3⟩, ?_⟩
    · show ds.length + chunkTotal done + p.tokens.length ≤ plan.realRows
      omega
    refine bind_ok.mpr ⟨(), ?_, hrest⟩
    show checkAll _ ((plan.rows.drop (ds.length + chunkTotal done)).take p.tokens.length).zipIdx = _
    rw [rows_chunk hb]
    exact validatePrefillRow_ok p _ _

/-! ### Padding -/

theorem validateParkedRow_ok (h : owner.position + 1 + pad < 2 ^ 32) :
    checkAll (validateParkedRow owner)
      (padRows owner.slot owner.stateSlot owner.position pad).zipIdx = .ok () := by
  rw [checkAll_ok]
  rintro ⟨r, i⟩ hq
  have hr : (padRows owner.slot owner.stateSlot owner.position pad)[i]? = some r :=
    mem_zipIdx_iff_getElem?.mp hq
  have hi : i < pad := by
    have := (List.getElem?_eq_some_iff.mp hr).1
    rwa [length_padRows] at this
  unfold padRows at hr
  rw [getElem?_map, getElem?_range hi] at hr
  cases hr
  have h1 : checkedAdd owner.position 1 = some (owner.position + 1) :=
    checkedAdd_some.mpr ⟨by omega, rfl⟩
  have h2 : checkedAdd (owner.position + 1) i = some (owner.position + 1 + i) :=
    checkedAdd_some.mpr ⟨by omega, rfl⟩
  have h3 : checkedAdd (owner.position + 1 + i) 1 = some (owner.position + 1 + i + 1) :=
    checkedAdd_some.mpr ⟨by omega, rfl⟩
  unfold validateParkedRow
  rw [h1, Option.bind_some, h2]
  refine bind_ok.mpr ⟨_, rfl, ?_⟩
  rw [h3]
  refine bind_ok.mpr ⟨_, rfl, ?_⟩
  exact require_ok.mpr (decide_eq_true ⟨rfl, rfl, rfl, rfl, rfl, rfl⟩)

theorem last_padRows {slot stateSlot position : Nat} {rows : List Row} (h : 0 < pad) :
    (rows ++ padRows slot stateSlot position pad).getLast?.map (·.kvLen) = some (position + 1 + pad) := by
  obtain ⟨n, rfl⟩ : ∃ n, pad = n + 1 := ⟨pad - 1, by omega⟩
  unfold padRows
  rw [range_succ, map_append, ← append_assoc, map_singleton,
    getLast?_concat]
  rfl

/-! ### The plan -/

/-- A decode-band plan passes its validator if and only if it has a prefill span. -/
theorem validatePlan_iff {maxActive : Nat} (hl : Laid env false ds ps out)
    (h : finish env out = .ok out') (hmax : ds.length + ps.length ≤ maxActive)
    (hcap : env.frontiers.length ≤ capacity) :
    Variant.validatePlan ⟨env.rows, ds.length, env.auxiliaryProgram⟩ out' maxActive capacity = .ok () ↔
      ps ≠ [] := by
  have hkeys : (out.mappedEnds.map (·.1)).Nodup := by
    rw [hl.ends, endsOf_slots]
    exact hl.slots
  obtain ⟨owner, howner⟩ : ∃ owner, out.rows.getLast? = some owner := by
    unfold finish at h
    obtain ⟨n, -, h⟩ := bind_ok.mp h
    obtain ⟨owner, h1, -⟩ := bind_ok.mp h
    exact ⟨owner, okOrErr_ok.mp h1⟩
  obtain ⟨hsmall, hfits, -, rfl⟩ := finish_laid hkeys rfl howner h
  obtain ⟨h31, hslots, hspans⟩ := hl.leading rfl
  have hlen : out.rows.length = ds.length + chunkTotal ps := by
    rw [hl.rows, length_scheduled]
  have hfit := hl.fits
  have hdecode : out.decodeSlots.length = ds.length := by
    rw [hslots, length_map]
  have hspanlen : out.prefillSpans.length = ps.length := by
    rw [hspans, length_spansFrom]
  have hpos : 0 < out.rows.length := by
    rw [length_pos_iff]
    rintro hnil
    rw [hnil] at howner
    cases howner
  have hrows : (out.rows ++ padRows owner.slot owner.stateSlot owner.position
      (env.rows - out.rows.length)).length = env.rows := by
    rw [length_append, length_padRows]
    omega
  have hband : ∀ p, p = { out with
      parked := List.replicate out.rows.length 0 ++ List.replicate (env.rows - out.rows.length) 1
      rows := out.rows ++ padRows owner.slot owner.stateSlot owner.position
        (env.rows - out.rows.length)
      mappedEnds := out.mappedEnds.map
        fun e => (e.1, mappedEnd (paddedEnd env out owner) owner e.1 e.2)
      decodeRows := out.decodeSlots.length
      realRows := out.rows.length } →
      Banded env ds ps (paddedEnd env out owner) owner p := by
    rintro p rfl
    exact ⟨hl.decode, hl.prefill, hl.slots, hl.stateSlots, ⟨_, by rw [hl.rows]⟩, hslots, hdecode,
      hlen, hsmall, by rw [hl.ends]⟩
  have hb := hband _ rfl
  have howner' : (if out.rows.length = 0 then none else
      (out.rows ++ padRows owner.slot owner.stateSlot owner.position
        (env.rows - out.rows.length))[out.rows.length - 1]?) = some owner := by
    rw [if_neg (by omega), getElem?_append_left (by omega), ← getLast?_eq_getElem?, howner]
  have hend : (if out.rows.length < env.rows then (out.rows ++ padRows owner.slot owner.stateSlot
      owner.position (env.rows - out.rows.length)).getLast?.map (·.kvLen) else none) =
        paddedEnd env out owner := by
    unfold paddedEnd
    split
    · exact last_padRows (by omega)
    · rfl
  have htake := take_decode hb le_rfl
  have hrow : ∀ d ∈ ds, (decodeRow env d).kvLen = (checkedAdd (decodeRow env d).position 1).getD 0 := by
    intro d hd
    have hstop : checkedAdd (decodeRow env d).position 1 = some (endOf env d) :=
      checkedAdd_some.mpr ⟨(hl.decode d hd).fits, rfl⟩
    rw [hstop]
    rfl
  have hslot : ∀ d ∈ ds, 0 ≤ asI32 d.slot ∧ (asI32 d.slot).toNat < capacity := by
    intro d hd
    rw [asI32_small (h31 d hd)]
    exact ⟨Int.natCast_nonneg _, (hl.decode d hd).slot.trans_le hcap⟩
  have hnext : validateSpans _ (paddedEnd env out owner) owner capacity [] (spansFrom env ds.length ps)
      ds.length = .ok (ds.length + chunkTotal ps) := validateSpans_ok [] ps hb hcap
  rw [← hspans, ← hlen, hdecode] at hnext
  unfold Variant.validatePlan
  rw [hrows, hdecode, require_bind, decide_eq_true_eq, howner', hend]
  constructor
  · rintro ⟨⟨-, -, -, -, hne, -⟩, -⟩ hnil
    rw [hnil] at hspans
    exact hne hspans
  · intro hne
    have hne' : out.prefillSpans ≠ [] := by
      rw [← length_pos_iff] at hne ⊢
      omega
    have hreal : ds.length ≤ out.rows.length := by omega
    have hactive : out.prefillSpans.length + ds.length ≤ maxActive := by omega
    refine ⟨⟨rfl, rfl, hreal, hfit, hne', hactive, ?_⟩, ?_⟩
    · rw [hspans, all_eq_true]
      exact fun s hs => decide_eq_true (spansFrom_program _ s hs)
    refine bind_ok.mpr ⟨owner, rfl, ?_⟩
    refine require_bind.mpr ⟨decide_eq_true ?_, ?_⟩
    · rw [length_map, hl.ends, endsOf, length_append, length_map, length_map,
        hspanlen]
    refine bind_ok.mpr ⟨(), require_ok.mpr (decide_eq_true ⟨hdecode, ?_⟩), ?_⟩
    · rw [hslots, all_map, all_eq_true]
      intro d hd
      rw [Function.comp_apply, decide_eq_true_eq]
      exact hslot d hd
    refine require_bind.mpr ⟨?_, ?_⟩
    · rw [htake, take_length, all_map, all_eq_true]
      exact fun d hd => decide_eq_true ⟨rfl, hrow d hd⟩
    refine bind_ok.mpr ⟨(), ?_, ?_⟩
    · have := validateDecodeRow_ok hb hcap
      rwa [hb.decodeRows] at this
    refine bind_ok.mpr ⟨out.rows.length, ?_, ?_⟩
    · exact hnext
    refine require_bind.mpr ⟨decide_eq_true rfl, ?_⟩
    refine bind_ok.mpr ⟨(), ?_, ?_⟩
    · rw [drop_left]
      exact validateParkedRow_ok hfits
    refine require_ok.mpr (decide_eq_true ⟨?_, ?_, ?_⟩)
    · rw [length_append, length_replicate, length_replicate]
      omega
    · rw [take_left' (length_replicate ..), all_replicate]
      simp
    · rw [drop_left' (length_replicate ..), all_replicate]
      simp

end Plow.MixedStep
