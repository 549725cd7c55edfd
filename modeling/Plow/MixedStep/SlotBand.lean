import Plow.MixedStep.Band

/-!
# The validator of the slot band

A slot-band plan passes `validateSlotBand` for a slot table that covers the band and the planner's own
slots (`validateSlotBand_ok`).
-/

namespace Plow.MixedStep
open Plow.Lib List
open Plow.TokenBatch (Plans PrefillSpan prefillSpanResetState checkedAdd checkedAdd_some okOrErr
  okOrErr_ok)

variable {env : Env} {band : Nat} {ds : List DecodeRequest} {ps : List PrefillRequest}
  {plan : Plan} {slotCapacity : Nat} {b : PrefillRequest}

/-! ### Band rows -/

/-- what a claimed row says of itself -/
structure ClaimOk (env : Env) (r : Row) : Prop where
  stateSlot : r.stateSlot = r.slot
  phase : r.phase = .decode
  kvLen : r.kvLen = r.position + 1
  fits : r.kvLen < 2 ^ 32
  ctx : r.kvLen ≤ env.maxCtx

theorem claim_ok (hb : BandPlan env band ds ps plan) {r : Row} (hr : r ∈ claims env ds ps) :
    ClaimOk env r := by
  rcases claim_cases hr with ⟨d, hd, rfl⟩ | ⟨p, hp, -, rfl⟩
  · obtain ⟨h, -, hstate⟩ := hb.decode d hd
    exact ⟨hstate, rfl, rfl, h.fits, h.ctx⟩
  · obtain ⟨h, -, hstate⟩ := hb.prefill p hp
    have hpos := h.tokens
    refine ⟨hstate, rfl, ?_, h.fits, h.ctx⟩
    show p.start + p.tokens.length = p.start + p.tokens.length - 1 + 1
    omega

theorem validateBandRow_ok (hb : BandPlan env band ds ps plan) {t : Nat} (ht : t < band) :
    validateBandRow plan env.maxCtx t =
      .ok (if claimed (claims env ds ps) t then some t else none) := by
  obtain ⟨hrow, hbit⟩ := band_row hb ht
  unfold validateBandRow
  rw [hrow, hbit]
  by_cases hc : claimed (claims env ds ps) t = true
  · obtain ⟨hmem, hslot⟩ := rowAt_of_mem (of_decide_eq_true hc)
    have hok := claim_ok hb hmem
    have hkv : (rowAt (claims env ds ps) t).kvLen =
        ((rowAt (claims env ds ps) t).position + 1) % 2 ^ 32 := by
      have := hok.fits
      rw [hok.kvLen] at this ⊢
      exact (Nat.mod_eq_of_lt this).symm
    rw [bitAt, if_pos hc, if_pos hc]
    refine bind_ok.mpr ⟨_, rfl, ?_⟩
    refine require_bind.mpr ⟨decide_eq_true ⟨hslot, hok.stateSlot.trans hslot⟩, ?_⟩
    rw [hok.phase]
    exact require_bind.mpr ⟨decide_eq_true ⟨hkv, hok.ctx⟩, rfl⟩
  · have hrest := rowAt_of_not_mem (C := claims env ds ps) fun hm => hc (decide_eq_true hm)
    rw [bitAt, if_neg hc, if_neg hc, hrest]
    refine bind_ok.mpr ⟨_, rfl, ?_⟩
    exact require_bind.mpr ⟨decide_eq_true ⟨rfl, rfl⟩, rfl⟩

theorem validateBandRows_ok {maxCtx : Nat} {f : Nat → Bool} {ts : List Nat}
    (h : ∀ t ∈ ts, validateBandRow plan maxCtx t = .ok (if f t then some t else none)) :
    validateBandRows plan maxCtx ts = .ok (ts.filter f) := by
  induction ts with
  | nil => rfl
  | cons t ts ih =>
    obtain ⟨h0, h⟩ := forall_mem_cons.mp h
    refine bind_ok.mpr ⟨_, h0, bind_ok.mpr ⟨_, ih h, ?_⟩⟩
    rw [filter_cons]
    cases f t with
    | true => rfl
    | false => rfl

/-! ### Bodies -/

theorem mem_bodies (h : b ∈ bodies ps) : ∃ p ∈ ps, b = bodyOf p ∧ b.tokens ≠ [] := by
  obtain ⟨h1, h2⟩ := mem_filter.mp h
  obtain ⟨p, hp, rfl⟩ := mem_map.mp h1
  exact ⟨p, hp, rfl, of_decide_eq_true h2⟩

theorem stop_bodyOf (p : PrefillRequest) : stopOf (bodyOf p) =
    if completing true p then p.start + (p.tokens.length - 1) else stopOf p := by
  unfold stopOf bodyOf
  split
  · rw [length_dropLast]
  · rfl

theorem stop_bodyOf_le (p : PrefillRequest) : stopOf (bodyOf p) ≤ stopOf p := by
  rw [stop_bodyOf]
  unfold stopOf
  split
  · omega
  · exact Nat.le_refl _

theorem bodies_slots (h : (ps.map (·.slot)).Nodup) : ((bodies ps).map (·.slot)).Nodup := by
  have hsub : ((bodies ps).map (·.slot)).Sublist ((ps.map bodyOf).map (·.slot)) :=
    Sublist.map _ (filter_sublist ..)
  rw [map_map] at hsub
  exact hsub.nodup h

/-- a slot that is claimed in the band and has a body holds the token right after the body -/
theorem validatePair_ok (hb : BandPlan env band ds ps plan) (h : b ∈ bodies ps)
    (flags n : Nat) : validatePair plan band (spanOf env flags n b) = .ok () := by
  obtain ⟨p, hp, rfl, -⟩ := mem_bodies h
  unfold validatePair
  split
  · next hc =>
    have hlt : p.slot < band := hc.1
    have hbit : plan.parked[p.slot]? = some 0 := hc.2
    obtain ⟨hrow, hbit'⟩ := band_row hb hlt
    have hclaim : claimed (claims env ds ps) p.slot = true := by
      by_contra hno
      have hone : bitAt (claims env ds ps) p.slot = 1 := if_neg hno
      have := hbit'.symm.trans hbit
      rw [hone] at this
      cases this
    obtain ⟨hmem, hslot⟩ := rowAt_of_mem (of_decide_eq_true hclaim)
    have hpos := (hb.prefill p hp).1.tokens
    have hposition : (rowAt (claims env ds ps) p.slot).position = stopOf (bodyOf p) := by
      obtain ⟨-, hslots, hdisj⟩ := nodup_append.mp hb.slots
      rcases claim_cases hmem with ⟨d, hd, heq⟩ | ⟨q, hq, hc, heq⟩
      · rw [heq] at hslot
        exact absurd hslot (hdisj _ (mem_map_of_mem hd) _ (mem_map_of_mem hp))
      · have hqp : q = p := by
          rw [heq] at hslot
          exact inj_on_of_nodup_map hslots hq hp hslot
        rw [heq, hqp, stop_bodyOf, if_pos (hqp ▸ hc)]
        show p.start + p.tokens.length - 1 = _
        omega
    change (okOrErr plan.rows[p.slot]? outOfBounds >>= _) = _
    rw [hrow]
    refine bind_ok.mpr ⟨_, rfl, ?_⟩
    exact require_ok.mpr (decide_eq_true hposition)
  · rfl

theorem resetFlag_cases (start : Nat) :
    resetFlag start &&& (2 ^ 32 - 1 - prefillSpanResetState) = 0 ∧
      (resetFlag start &&& prefillSpanResetState ≠ 0 ↔ start = 0) := by
  unfold resetFlag
  by_cases h : start = 0
  · rw [if_pos h]
    exact ⟨by decide, iff_of_true (by decide) h⟩
  · rw [if_neg h]
    exact ⟨by decide, iff_of_false (by decide) h⟩

section

variable (hb : BandPlan env band ds ps plan)
include hb

theorem body_row {done rest : List PrefillRequest}
    (h : bodies ps = done ++ b :: rest) {i : Nat} (hi : i < b.tokens.length) :
    plan.rows[band + chunkTotal done + i]? = (chunkOf b)[i]? ∧
      plan.parked[band + chunkTotal done + i]? = some 0 := by
  obtain ⟨pad, hrows, -⟩ := hb.rows
  have hdone := length_chunks done
  have hchunk : (chunkOf b).length = b.tokens.length := length_chunkRows
  constructor
  · rw [hrows, h, getElem?_append_right (by simp; omega), flatMap_append, flatMap_cons,
      append_assoc, getElem?_append_right (by simp only [length_map, length_range]; omega),
      append_assoc, getElem?_append_left (by simp only [length_map, length_range]; omega)]
    congr 1
    simp only [length_map, length_range]
    omega
  · have htotal : chunkTotal (bodies ps) = chunkTotal done + (b.tokens.length + chunkTotal rest) := by
      rw [h, chunkTotal_append, chunkTotal_cons]
    rw [hb.parked, getElem?_append_right (by simp; omega),
      getElem?_append_left (by simp; omega), getElem?_replicate, if_pos (by simp; omega)]

theorem validateBodyRows_ok {done rest : List PrefillRequest}
    (h : bodies ps = done ++ b :: rest) (flags : Nat) :
    checkAll (validateBodyRow plan (spanOf env flags (band + chunkTotal done) b))
      (range b.tokens.length) = .ok () := by
  rw [checkAll_ok]
  intro i hi
  have hi := mem_range.mp hi
  obtain ⟨hrow, hbit⟩ := body_row hb h hi
  have hchunk : (chunkOf b)[i]? =
      some ⟨b.tokens[i], b.slot, b.stateSlot, b.start + i, b.start + i + 1, .prefill⟩ := by
    show (chunkRows _ _ _ _)[i]? = _
    rw [chunkRows_getElem?, getElem?_eq_getElem hi]
    rfl
  unfold validateBodyRow
  change (okOrErr plan.rows[band + chunkTotal done + i]? outOfBounds >>= _) = _
  rw [hrow, hchunk]
  refine bind_ok.mpr ⟨_, rfl, ?_⟩
  exact require_ok.mpr (decide_eq_true ⟨rfl, rfl, rfl, hbit⟩)

/-- the spans of the bodies `rest`, behind those of `done` -/
theorem validateBodySpans_ok
    (hcap : env.frontiers.length ≤ slotCapacity) (done rest : List PrefillRequest)
    (h : bodies ps = done ++ rest) :
    validateBodySpans plan slotCapacity env.maxCtx band (spansFrom env band done)
        (spansFrom env (band + chunkTotal done) rest) (band + chunkTotal done) =
      .ok (band + chunkTotal (bodies ps)) := by
  induction rest generalizing done with
  | nil =>
    rw [h, append_nil]
    rfl
  | cons b rest ih =>
    have hmem : b ∈ bodies ps := by
      rw [h]
      exact mem_append_right _ mem_cons_self
    obtain ⟨p, hp, rfl, hne⟩ := mem_bodies hmem
    obtain ⟨hok, -, hstate⟩ := hb.prefill p hp
    have hstop := stop_bodyOf_le p
    have hfits := hok.fits
    have hctx := hok.ctx
    have hreal := hb.real
    have hsmall := hb.small
    have hslots := bodies_slots (nodup_append.mp hb.slots).2.1
    have hnext : chunkTotal (done ++ [bodyOf p]) = chunkTotal done + (bodyOf p).tokens.length := by
      rw [chunkTotal_append]
      rfl
    have hrest := ih (done ++ [bodyOf p]) (by rw [h, append_assoc]; rfl)
    rw [spansFrom_concat, hnext, ← Nat.add_assoc] at hrest
    rw [h, chunkTotal_append, chunkTotal_cons] at hreal
    rw [h, map_append, map_cons] at hslots
    have hprior : (!(spansFrom env band done).any fun q => decide (q.slot = (bodyOf p).slot)) = true := by
      rw [none_has, spansFrom_slots]
      exact fun hm => (nodup_append.mp hslots).2.2 _ hm _ mem_cons_self rfl
    show validateBodySpans plan slotCapacity env.maxCtx band _ (spanOf _ _ _ (bodyOf p) :: _) _ = _
    unfold validateBodySpans
    refine require_bind.mpr ⟨decide_eq_true ⟨rfl, length_pos_iff.mpr hne⟩, ?_⟩
    refine require_bind.mpr ⟨decide_eq_true (resetFlag_cases p.start), ?_⟩
    refine bind_ok.mpr ⟨stopOf (bodyOf p), okOrErr_ok.mpr (checkedAdd_some.mpr ⟨?_, rfl⟩), ?_⟩
    · show stopOf (bodyOf p) < 2 ^ 32
      omega
    refine require_bind.mpr ⟨decide_eq_true ⟨rfl, hstop.trans hctx⟩, ?_⟩
    refine require_bind.mpr ⟨decide_eq_true ⟨hok.slot.trans_le hcap, hstate.symm⟩, ?_⟩
    refine require_bind.mpr ⟨hprior, ?_⟩
    refine bind_ok.mpr ⟨(), validatePair_ok hb hmem _ _, ?_⟩
    refine bind_ok.mpr ⟨(), validateBodyRows_ok hb h _, ?_⟩
    refine bind_ok.mpr ⟨_, okOrErr_ok.mpr (checkedAdd_some.mpr ⟨?_, rfl⟩), hrest⟩
    show band + chunkTotal done + (bodyOf p).tokens.length < 2 ^ 32
    omega

/-! ### The plan -/

/-- A slot-band plan passes its validator. -/
theorem validateSlotBand_ok (hband : band ≤ slotCapacity)
    (hcap : env.frontiers.length ≤ slotCapacity) :
    validateSlotBand plan slotCapacity env.maxCtx = .ok () := by
  obtain ⟨pad, hrows, hpad, hphase⟩ := hb.rows
  have hreal := hb.real
  have hfits := hb.fits
  have hbody := length_chunks (bodies ps)
  have hlen : plan.rows.length = env.rows := (band_sound hb).whole.1
  have hlen' : plan.parked.length = env.rows := (band_sound hb).whole.2
  have hbits : ((range band).map (bitAt (claims env ds ps))).length = band := by simp
  have hbandrows : ((range band).map (rowAt (claims env ds ps))).length = band := by simp
  unfold validateSlotBand
  rw [hb.cover]
  dsimp only
  refine require_bind.mpr ⟨decide_eq_true ⟨hb.width, hband, by omega⟩, ?_⟩
  refine require_bind.mpr ⟨decide_eq_true ⟨hlen'.trans hlen.symm, ?_⟩, ?_⟩
  · rw [hb.parked, all_append, all_append, all_map]
    have hbit : ∀ t ∈ range band, ((fun m => decide (m ≤ 1)) ∘ bitAt (claims env ds ps)) t = true := by
      intro t _
      rw [Function.comp_apply, bitAt]
      split
      · rfl
      · rfl
    rw [all_eq_true.mpr hbit, all_replicate, all_replicate]
    simp
  refine require_bind.mpr ⟨decide_eq_true ⟨by omega, by omega, hb.decodeRows⟩, ?_⟩
  refine bind_ok.mpr ⟨_, validateBandRows_ok fun t ht =>
    validateBandRow_ok hb (mem_range.mp ht), ?_⟩
  refine require_bind.mpr ⟨decide_eq_true hb.decodeSlots, ?_⟩
  refine require_bind.mpr ⟨decide_eq_true hb.sampleInputRows, ?_⟩
  refine bind_ok.mpr ⟨plan.realRows, ?_, ?_⟩
  · rw [hb.spans, hreal]
    exact validateBodySpans_ok hb hcap [] (bodies ps) rfl
  refine require_bind.mpr ⟨decide_eq_true rfl, ?_⟩
  refine require_ok.mpr (decide_eq_true ⟨?_, ?_⟩)
  · rw [hb.parked, hreal, ← append_assoc, drop_left' (by simp), all_replicate]
    simp
  · rw [hrows, hreal, ← append_assoc, drop_left' (by simp [hbody]), all_eq_true]
    exact fun r hr => decide_eq_true (hphase r hr)

end

end Plow.MixedStep
