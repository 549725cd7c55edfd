import Plow.MixedStep.Claims

/-!
# Sound plans under the slot band

The two loops keep the band and the bodies behind it (`Framed`), and what follows them parks the rest
(`bandTail_framed`), so the plan is sound (`band_sound`).
-/

namespace Plow.MixedStep
open Plow.Lib List
open Plow.TokenBatch (Plans PrefillSpan checkedAdd checkedAdd_some okOrErr okOrErr_ok)

variable {env : Env} {band t : Nat} {ds : List DecodeRequest} {ps rs : List PrefillRequest}
  {d : DecodeRequest} {p : PrefillRequest} {out out' : Plan} {r : Row}

/-! ### What a turn does -/

theorem bandDecodeOne_ok (h : bandDecodeOne env band ds d out = .ok out') :
    DecodeOk env d ∧ d.slot < band ∧ d.stateSlot = d.slot ∧ d.slot ∉ ds.map (·.slot) ∧
      out'.rows = out.rows.set d.slot (decodeRow env d) ∧ out'.parked = out.parked.set d.slot 0 ∧
      out'.prefillSpans = out.prefillSpans ∧ out'.cover = out.cover ∧
      out'.mappedEnds = out.mappedEnds ++ [(d.slot, endOf env d)] := by
  unfold bandDecodeOne at h
  obtain ⟨g, h⟩ := require_bind.mp h
  obtain ⟨g1, g2, g3, g4⟩ := of_decide_eq_true g
  obtain ⟨stop, e2, h⟩ := bind_ok.mp h
  obtain ⟨h2, rfl⟩ := checkedAdd_some.mp (okOrErr_ok.mp e2)
  obtain ⟨h3, h⟩ := require_bind.mp h
  obtain rfl := pure_ok.mp h
  exact ⟨⟨g1, g3 ▸ g1, h2, of_decide_eq_true h3⟩, g2, g3, none_has.mp g4, rfl, rfl, rfl, rfl, rfl⟩

theorem bandBody_ok {body : List Nat} (hfit : out.rows.length ≤ env.rows)
    (h : bandBody env p body out = .ok out') :
    out'.rows = out.rows ++ chunkOf { p with tokens := body } ∧ out'.parked = out.parked ∧
      out'.prefillSpans = out.prefillSpans ++ (if body ≠ [] then
        [spanOf env (resetFlag p.start) out.rows.length { p with tokens := body }] else []) ∧
      out'.cover = out.cover ∧ out'.mappedEnds = out.mappedEnds ∧ out'.commits = out.commits ∧
      out'.rows.length ≤ env.rows := by
  unfold bandBody at h
  by_cases hb : body = []
  · rw [if_pos hb] at h
    obtain rfl := pure_ok.mp h
    subst hb
    exact ⟨(append_nil _).symm, rfl, (append_nil _).symm, rfl, rfl, rfl, hfit⟩
  · rw [if_neg hb] at h
    obtain ⟨h1, h⟩ := require_bind.mp h
    obtain ⟨row0, e2, h⟩ := bind_ok.mp h
    obtain ⟨-, rfl⟩ := tryU32_ok.mp e2
    obtain ⟨n, e3, h⟩ := bind_ok.mp h
    obtain ⟨-, rfl⟩ := tryU32_ok.mp e3
    obtain rfl := pure_ok.mp h
    rw [if_pos hb]
    refine ⟨rfl, rfl, rfl, rfl, rfl, rfl, ?_⟩
    rw [length_append, length_chunkRows]
    exact of_decide_eq_true h1

theorem bandPrefillOne_ok (hfit : out.rows.length ≤ env.rows)
    (h : bandPrefillOne env band ds ps p out = .ok out') :
    PrefillOk env p ∧ (completing true p = true → p.slot < band) ∧ p.stateSlot = p.slot ∧
      p.slot ∉ ds.map (·.slot) ++ ps.map (·.slot) ∧
      out'.rows = (if completing true p then out.rows.set p.slot (terminalOf p) else out.rows) ++
        chunkOf (bodyOf p) ∧
      out'.parked = (if completing true p then out.parked.set p.slot 0 else out.parked) ∧
      out'.prefillSpans = out.prefillSpans ++ (if (bodyOf p).tokens ≠ [] then
        [spanOf env (resetFlag p.start) out.rows.length (bodyOf p)] else []) ∧
      out'.cover = out.cover ∧ out'.mappedEnds = out.mappedEnds ++ [(p.slot, stopOf p)] ∧
      out'.rows.length ≤ env.rows := by
  unfold bandPrefillOne at h
  obtain ⟨g, h⟩ := require_bind.mp h
  obtain ⟨g1, g2, g3⟩ := of_decide_eq_true g
  rw [Bool.not_or, Bool.and_eq_true, none_has, none_has] at g3
  obtain ⟨n, e1, h⟩ := bind_ok.mp h
  obtain ⟨-, rfl⟩ := tryU32_ok.mp e1
  obtain ⟨stop, e2, h⟩ := bind_ok.mp h
  obtain ⟨h2, rfl⟩ := checkedAdd_some.mp (okOrErr_ok.mp e2)
  obtain ⟨h3, h⟩ := require_bind.mp h
  obtain ⟨h31, h32, h33, h34⟩ := of_decide_eq_true h3
  obtain ⟨h4, h⟩ := require_bind.mp h
  obtain ⟨o, h5, h⟩ := bind_ok.mp h
  obtain rfl := pure_ok.mp h
  have hok : PrefillOk env p := ⟨g1, g2 ▸ g1, h31, h32, h2, h33, h34⟩
  have hslots : p.slot ∉ ds.map (·.slot) ++ ps.map (·.slot) := fun hm =>
    (mem_append.mp hm).elim g3.1 g3.2
  have hc : (p.start + p.tokens.length == p.promptLen) = completing true p := rfl
  rw [hc] at h4 h5
  unfold bodyOf
  cases hdone : completing true p with
  | true =>
    rw [hdone] at h4 h5
    rw [if_pos rfl, if_pos rfl] at h5
    have hfit' : (out.rows.set p.slot (terminalOf p)).length ≤ env.rows := by
      rwa [length_set]
    obtain ⟨k1, k2, k3, k4, k5, k6, k7⟩ := bandBody_ok hfit' h5
    rw [length_set] at k3
    refine ⟨hok, fun _ => ?_, g2, hslots, k1, k2, k3, k4, by rw [k5]; rfl, k7⟩
    simpa using h4
  | false =>
    rw [hdone, if_neg Bool.false_ne_true, if_neg Bool.false_ne_true] at h5
    obtain ⟨k1, k2, k3, k4, k5, k6, k7⟩ := bandBody_ok hfit h5
    exact ⟨hok, nofun, g2, hslots, k1, k2, k3, k4, by rw [k5]; rfl, k7⟩

/-! ### After every turn -/

/-- what the plan holds when the turns of the requests `ds` and `ps` are over -/
structure Framed (env : Env) (band : Nat) (ds : List DecodeRequest) (ps : List PrefillRequest)
    (out : Plan) : Prop where
  decode : ∀ d ∈ ds, DecodeOk env d ∧ d.slot < band ∧ d.stateSlot = d.slot
  prefill : ∀ p ∈ ps, PrefillOk env p ∧ (completing true p = true → p.slot < band) ∧
    p.stateSlot = p.slot
  slots : (ds.map (·.slot) ++ ps.map (·.slot)).Nodup
  rows : out.rows =
    (List.range band).map (rowAt (claims env ds ps)) ++ (bodies ps).flatMap chunkOf
  parked : out.parked =
    (List.range band).map (bitAt (claims env ds ps)) ++ List.replicate (env.rows - band) 1
  fits : out.rows.length ≤ env.rows
  spans : out.prefillSpans = spansFrom env band (bodies ps)
  ends : out.mappedEnds = endsOf env ds ps
  cover : out.cover = .slotBand band

theorem claim_new {C : List Row} {slots : List Nat} (h : (C.map (·.slot)).Sublist slots)
    (ht : t ∉ slots) : t ∉ C.map (·.slot) := fun hm => ht (h.subset hm)

theorem framed_decode (hf : Framed env band ds [] out)
    (h : bandDecodeOne env band ds d out = .ok out') : Framed env band (ds ++ [d]) [] out' := by
  obtain ⟨h1, h2, h3, h4, h5, h6, h7, h8, h9⟩ := bandDecodeOne_ok h
  have hnew : (decodeRow env d).slot ∉ (claims env ds []).map (·.slot) := by
    refine claim_new claims_sublist ?_
    rw [map_nil, append_nil]
    exact h4
  have hband : d.slot < ((range band).map (rowAt (claims env ds []))).length := by simpa using h2
  have hbits : d.slot < ((range band).map (bitAt (claims env ds []))).length := by simpa using h2
  refine ⟨?_, nofun, ?_, ?_, ?_, ?_, h7.trans hf.spans, ?_, h8.trans hf.cover⟩
  · rw [forall_mem_append]
    exact ⟨hf.decode, forall_mem_singleton.mpr ⟨h1, h2, h3⟩⟩
  · have := hf.slots
    simp only [map_append, map_nil, append_nil] at this ⊢
    exact nodup_concat this h4
  · rw [h5, hf.rows, set_append_left _ _ hband, claims_concat_decode, ← set_rowAt hnew]
    rfl
  · rw [h6, hf.parked, set_append_left _ _ hbits, claims_concat_decode, ← set_bitAt]
    rfl
  · rw [h5, length_set]
    exact hf.fits
  · rw [h9, hf.ends]
    simp [endsOf]

theorem length_framed (hf : Framed env band ds ps out) :
    out.rows.length = band + chunkTotal (bodies ps) := by
  rw [hf.rows, length_append, length_map, length_range, length_chunks]

/-- a turn of the prefill loop -/
theorem framed_prefill (hf : Framed env band ds ps out)
    (h : bandPrefillOne env band ds ps p out = .ok out') : Framed env band ds (ps ++ [p]) out' := by
  obtain ⟨h1, h2, h3, h4, h5, h6, h7, h8, h9, h10⟩ := bandPrefillOne_ok hf.fits h
  have hlen : out.rows.length = band + chunkTotal (bodies ps) := length_framed hf
  have hband : ∀ C : List Row, ((range band).map (rowAt C)).length = band := by simp
  have hbits : ∀ C : List Row, ((range band).map (bitAt C)).length = band := by simp
  have hnew : (terminalOf p).slot ∉ (claims env ds ps).map (·.slot) := claim_new claims_sublist h4
  have hbody : (bodies (ps ++ [p])).flatMap chunkOf =
      (bodies ps).flatMap chunkOf ++ chunkOf (bodyOf p) := by
    rw [flatMap_bodies, flatMap_bodies, flatMap_append, flatMap_singleton]
  refine ⟨hf.decode, ?_, ?_, ?_, ?_, h10, ?_, ?_, h8.trans hf.cover⟩
  · rw [forall_mem_append]
    exact ⟨hf.prefill, forall_mem_singleton.mpr ⟨h1, h2, h3⟩⟩
  · rw [map_append, ← append_assoc]
    exact nodup_concat hf.slots h4
  · rw [h5, hf.rows, hbody, ← append_assoc, claims_concat]
    congr 1
    unfold claimOf
    by_cases hc : completing true p = true
    · have hlt : p.slot < ((range band).map (rowAt (claims env ds ps))).length := by
        rw [hband]
        exact h2 hc
      rw [if_pos hc, if_pos hc, set_append_left _ _ hlt, ← set_rowAt hnew]
      rfl
    · rw [if_neg hc, if_neg hc, append_nil]
  · rw [h6, hf.parked, claims_concat]
    unfold claimOf
    by_cases hc : completing true p = true
    · have hlt : p.slot < ((range band).map (bitAt (claims env ds ps))).length := by
        rw [hbits]
        exact h2 hc
      rw [if_pos hc, if_pos hc, set_append_left _ _ hlt, ← set_bitAt]
      rfl
    · rw [if_neg hc, if_neg hc, append_nil]
  · rw [h7, hf.spans, bodies_concat, hlen]
    by_cases hb : (bodyOf p).tokens ≠ []
    · rw [if_pos hb, if_pos hb, spansFrom_concat]
      rfl
    · rw [if_neg hb, if_neg hb, append_nil, append_nil]
  · rw [h9, hf.ends]
    simp [endsOf]

theorem framed_decodeLoop {rs : List DecodeRequest} (hf : Framed env band ds [] out)
    (h : bandDecodeLoop env band ds rs out = .ok out') : Framed env band (ds ++ rs) [] out' := by
  induction rs generalizing ds out with
  | nil =>
    obtain rfl := pure_ok.mp h
    rwa [append_nil]
  | cons r rs ih =>
    obtain ⟨o, h1, h2⟩ := bind_ok.mp h
    have := ih (framed_decode hf h1) h2
    rwa [append_assoc] at this

theorem framed_prefillLoop (hf : Framed env band ds ps out)
    (h : bandPrefillLoop env band ds ps rs out = .ok out') :
    Framed env band ds (ps ++ rs) out' := by
  induction rs generalizing ps out with
  | nil =>
    obtain rfl := pure_ok.mp h
    rwa [append_nil]
  | cons r rs ih =>
    obtain ⟨o, h1, h2⟩ := bind_ok.mp h
    have := ih (framed_prefill hf h1) h2
    rwa [append_assoc] at this

theorem framed_nil (hb : band ≤ env.rows) : Framed env band [] []
    { Plan.empty with
      cover := .slotBand band
      parked := replicate env.rows 1
      rows := (range band).map fun slot => ⟨0, slot, slot, 0, 1, .parked⟩ } where
  decode := nofun
  prefill := nofun
  slots := nodup_nil
  rows := (append_nil _).symm
  parked := by
    have hone : (range band).map (bitAt (claims env [] [])) = replicate band 1 := by
      have hmap : (range band).map (bitAt (claims env [] [])) = (range band).map fun _ => 1 :=
        map_congr_left fun _ _ => rfl
      rw [hmap, map_const', length_range]
    rw [hone, replicate_append_replicate, Nat.add_sub_cancel' hb]
  fits := by simpa using hb
  spans := rfl
  ends := rfl
  cover := rfl

/-! ### The plan -/

/-- a slot-band plan for the requests -/
structure BandPlan (env : Env) (band : Nat) (ds : List DecodeRequest) (ps : List PrefillRequest)
    (plan : Plan) : Prop where
  width : 0 < band
  decode : ∀ d ∈ ds, DecodeOk env d ∧ d.slot < band ∧ d.stateSlot = d.slot
  prefill : ∀ p ∈ ps, PrefillOk env p ∧ (completing true p = true → p.slot < band) ∧
    p.stateSlot = p.slot
  slots : (ds.map (·.slot) ++ ps.map (·.slot)).Nodup
  real : plan.realRows = band + chunkTotal (bodies ps)
  fits : plan.realRows ≤ env.rows
  small : plan.realRows < 2 ^ 32
  rows : ∃ pad, plan.rows = (List.range band).map (rowAt (claims env ds ps)) ++
      ((bodies ps).flatMap chunkOf ++ pad) ∧
    pad.length = env.rows - plan.realRows ∧ ∀ r ∈ pad, r.phase = .parked
  parked : plan.parked = (List.range band).map (bitAt (claims env ds ps)) ++
    (List.replicate (chunkTotal (bodies ps)) 0 ++ List.replicate (env.rows - plan.realRows) 1)
  sampleInputRows : plan.sampleInputRows = (List.range band).filter (claimed (claims env ds ps))
  decodeSlots : plan.decodeSlots =
    ((List.range band).filter (claimed (claims env ds ps))).map asI32
  decodeRows : plan.decodeRows = band
  spans : plan.prefillSpans = spansFrom env band (bodies ps)
  cover : plan.cover = .slotBand band

theorem bandPad_ok (h : bandPad env out = .ok out') :
    ∃ pad es, out' = { out with rows := out.rows ++ pad, mappedEnds := es } ∧
      pad.length = env.rows - out.rows.length ∧ ∀ r ∈ pad, r.phase = .parked := by
  unfold bandPad at h
  by_cases hpad : env.rows - out.rows.length = 0
  · rw [if_pos hpad] at h
    obtain rfl := pure_ok.mp h
    refine ⟨[], out.mappedEnds, ?_, hpad.symm, nofun⟩
    rw [append_nil]
  · rw [if_neg hpad] at h
    split at h
    · obtain ⟨stop, -, h⟩ := bind_ok.mp h
      obtain ⟨-, h⟩ := require_bind.mp h
      obtain ⟨es, -, h⟩ := bind_ok.mp h
      exact ⟨_, es, (pure_ok.mp h).symm, length_padRows, fun r => padRows_phase⟩
    · refine ⟨_, out.mappedEnds, (pure_ok.mp h).symm, length_replicate .., ?_⟩
      intro r hr
      rw [eq_of_mem_replicate hr]

theorem bandSampled_framed (hf : Framed env band ds ps out) :
    bandSampled out band = (range band).filter (claimed (claims env ds ps)) := by
  apply filter_congr
  intro t ht
  have hlt := mem_range.mp ht
  have hget : out.parked.getD t 1 = bitAt (claims env ds ps) t := by
    rw [hf.parked, getD_eq_getElem?_getD, getElem?_append_left (by simpa using hlt),
      getElem?_map, getElem?_range hlt]
    rfl
  rw [hget]
  unfold bitAt
  cases claimed (claims env ds ps) t with
  | true => rfl
  | false => rfl

/-- the slot-band planner builds a band plan -/
theorem planSlotBandInner_ok {caps : Caps} {plan : Plan}
    (h : planSlotBandInner env ds ps band caps { Plan.empty with cover := .slotBand band } =
      .ok plan) : BandPlan env band ds ps plan := by
  unfold planSlotBandInner at h
  obtain ⟨g, h⟩ := require_bind.mp h
  obtain ⟨g1, g2⟩ := of_decide_eq_true g
  obtain ⟨-, h⟩ := require_bind.mp h
  obtain ⟨o1, h1, h⟩ := bind_ok.mp h
  obtain ⟨o2, h2, h⟩ := bind_ok.mp h
  obtain ⟨n, e3, h⟩ := bind_ok.mp h
  obtain ⟨h3, rfl⟩ := tryU32_ok.mp e3
  obtain ⟨o3, h4, h⟩ := bind_ok.mp h
  have hf : Framed env band ds ps o2 := framed_prefillLoop (framed_decodeLoop (framed_nil g2) h1) h2
  have hlen := length_framed hf
  obtain ⟨pad, es, rfl, hpad, hphase⟩ := bandPad_ok h4
  obtain rfl := pure_ok.mp h
  have hparked : o2.parked.take band ++ replicate (o2.rows.length - band) 0 ++
      o2.parked.drop o2.rows.length = (range band).map (bitAt (claims env ds ps)) ++
        (replicate (chunkTotal (bodies ps)) 0 ++
          replicate (env.rows - o2.rows.length) 1) := by
    have hbits : ((range band).map (bitAt (claims env ds ps))).length = band := by simp
    have hbody : o2.rows.length - band = chunkTotal (bodies ps) := by omega
    have hrest : env.rows - band - (o2.rows.length - band) = env.rows - o2.rows.length := by omega
    rw [hf.parked, take_left' hbits, drop_append, drop_of_length_le (by omega), hbits,
      drop_replicate, hrest, hbody, append_assoc]
    rfl
  refine ⟨g1, hf.decode, hf.prefill, hf.slots, hlen, hf.fits, h3, ⟨pad, ?_, hpad, hphase⟩, hparked,
    bandSampled_framed hf, congrArg (map asI32) (bandSampled_framed hf), rfl, hf.spans, hf.cover⟩
  rw [← append_assoc, ← hf.rows]

/-! ### Soundness -/

theorem claim_cases (h : r ∈ claims env ds ps) :
    (∃ d ∈ ds, r = decodeRow env d) ∨ ∃ p ∈ ps, completing true p = true ∧ r = terminalOf p := by
  rcases mem_append.mp h with h | h
  · obtain ⟨d, hd, rfl⟩ := mem_map.mp h
    exact .inl ⟨d, hd, rfl⟩
  · obtain ⟨p, hp, hr⟩ := mem_flatMap.mp h
    unfold claimOf at hr
    split at hr
    · next hc => exact .inr ⟨p, hp, hc, mem_singleton.mp hr⟩
    · cases hr

theorem claims_phase (h : r ∈ claims env ds ps) : r.phase = .decode := by
  rcases claim_cases h with ⟨d, -, rfl⟩ | ⟨p, -, -, rfl⟩
  · rfl
  · rfl

theorem claims_nodup (h : (ds.map (·.slot) ++ ps.map (·.slot)).Nodup) :
    ((claims env ds ps).map (·.slot)).Nodup :=
  claims_sublist.nodup h

section

variable (hb : BandPlan env band ds ps out)
include hb

theorem claims_band : ∀ r ∈ claims env ds ps, r.slot < band := by
  intro r hr
  rcases claim_cases hr with ⟨d, hd, rfl⟩ | ⟨p, hp, hc, rfl⟩
  · exact (hb.decode d hd).2.1
  · exact (hb.prefill p hp).2.1 hc

theorem band_row (ht : t < band) :
    out.rows[t]? = some (rowAt (claims env ds ps) t) ∧
      out.parked[t]? = some (bitAt (claims env ds ps) t) := by
  obtain ⟨pad, hrows, -⟩ := hb.rows
  constructor
  · rw [hrows, getElem?_append_left (by simpa using ht), getElem?_map, getElem?_range ht]
    rfl
  · rw [hb.parked, getElem?_append_left (by simpa using ht), getElem?_map,
      getElem?_range ht]
    rfl

theorem band_live : liveRows out.rows out.parked =
      ((range band).filter (claimed (claims env ds ps))).map (rowAt (claims env ds ps)) ++
        (bodies ps).flatMap chunkOf := by
  obtain ⟨pad, hrows, hpad, -⟩ := hb.rows
  have hbody := length_chunks (bodies ps)
  rw [hrows, hb.parked, liveRows_append (by simp), liveRows_append (by simpa using hbody), ← hbody,
    liveRows_zero, liveRows_one, append_nil]
  congr 1
  exact liveRows_map _ _ _

/-- the sampled rows of a band plan -/
theorem band_samples : Samples env true ds ps out
      (((range band).filter (claimed (claims env ds ps))).map fun t => (t, t)) := by
  have hmem : ∀ t, t ∈ (claims env ds ps).map (·.slot) → t < band →
      t ∈ (((range band).filter (claimed (claims env ds ps))).map fun t => (t, t)).map (·.1) := by
    intro t ht hlt
    rw [map_map]
    refine mem_map.mpr ⟨t, ?_, rfl⟩
    rw [mem_filter]
    exact ⟨mem_range.mpr hlt, decide_eq_true ht⟩
  refine ⟨?_, ?_, ?_, ?_, ?_, ?_⟩
  · rw [hb.decodeSlots]
    simp only [map_map, Function.comp_def]
  · rw [hb.sampleInputRows, map_map]
    exact (map_id _).symm
  · intro q hq
    obtain ⟨t, ht, rfl⟩ := mem_map.mp hq
    have hlt := mem_range.mp (mem_filter.mp ht).1
    have hsmall := hb.small
    have hreal := hb.real
    show t < 2 ^ 32
    omega
  · intro q hq
    obtain ⟨t, ht, rfl⟩ := mem_map.mp hq
    obtain ⟨hlt, hclaim⟩ := mem_filter.mp ht
    obtain ⟨hrow, hslot⟩ := rowAt_of_mem (of_decide_eq_true hclaim)
    refine ⟨_, (band_row hb (mem_range.mp hlt)).1, hslot, ?_⟩
    rcases claim_cases hrow with ⟨d, hd, heq⟩ | ⟨p, hp, hc, heq⟩
    · exact .inl ⟨d, hd, congrArg Row.key heq⟩
    · have hpos := (hb.prefill p hp).1.tokens
      rw [heq]
      refine .inr ⟨p, hp, rfl, eq_of_beq hc, rfl, ?_⟩
      show p.start + p.tokens.length - 1 + 1 = p.start + p.tokens.length
      omega
  · intro d hd
    refine hmem _ (mem_map.mpr ⟨decodeRow env d, ?_, rfl⟩) (hb.decode d hd).2.1
    exact mem_append_left _ (mem_map_of_mem hd)
  · intro p hp _ hstop
    have hc : completing true p = true := by
      rw [completing, hstop, beq_self_eq_true]
      rfl
    refine hmem _ (mem_map.mpr ⟨terminalOf p, ?_, rfl⟩) ((hb.prefill p hp).2.1 hc)
    refine mem_append_right _ (mem_flatMap.mpr ⟨p, hp, ?_⟩)
    rw [claimOf, if_pos hc]
    exact mem_singleton.mpr rfl

/-- A band plan is sound. -/
theorem band_sound : SoundPlan env true ds ps out := by
  have hfit := hb.fits
  have hreal := hb.real
  have hkeys : ((liveRows out.rows out.parked).map Row.key).Perm
      ((scheduled env ds ps).map Row.key) := by
    refine Perm.trans ?_ (keys_perm fun p hp => (hb.prefill p hp).1.tokens)
    rw [band_live hb]
    refine Perm.map _ (Perm.append_right _ ?_)
    exact perm_claimed (claims_nodup hb.slots) (claims_band hb)
  refine ⟨⟨?_, ?_⟩, ?_, hkeys, ?_, hb.slots, ⟨_, band_samples hb⟩⟩
  · obtain ⟨pad, hrows, hpad, -⟩ := hb.rows
    rw [hrows, length_append, length_append, length_map, length_range,
      length_chunks, hpad]
    omega
  · rw [hb.parked, length_append, length_append, length_map, length_range,
      length_replicate, length_replicate]
    omega
  · intro i r hr
    by_cases hi : i < band
    · obtain ⟨h1, h2⟩ := band_row hb hi
      cases h1.symm.trans hr
      rw [h2]
      unfold bitAt
      by_cases hc : claimed (claims env ds ps) i = true
      · left
        have hphase := claims_phase (rowAt_of_mem (of_decide_eq_true hc)).1
        rw [if_pos hc, hphase]
        exact ⟨rfl, nofun⟩
      · right
        rw [if_neg hc, rowAt_of_not_mem fun hm => hc (decide_eq_true hm)]
        exact ⟨rfl, rfl⟩
    · obtain ⟨pad, hrows, hpad, hphase⟩ := hb.rows
      rw [hrows, getElem?_append_right (by simpa using Nat.le_of_not_lt hi)] at hr
      rw [hb.parked, getElem?_append_right (by simpa using Nat.le_of_not_lt hi)]
      simp only [length_map, length_range] at hr ⊢
      have hbody : ∀ r ∈ (bodies ps).flatMap chunkOf, r.phase ≠ .parked := fun r hr =>
        @scheduled_phase env ds (bodies ps) r (mem_append_right _ hr)
      have := mask_append hbody hphase hpad (i - band) r hr
      rwa [length_chunks] at this
  · exact (cells_perm hkeys).nodup_iff.mpr (cells_scheduled hb.slots)

end

end Plow.MixedStep
