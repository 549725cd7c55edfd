import Plow.MixedStep.Admission

/-!
# The prefix-free planner and the token batch's planner

Both planners accept the same decode and prefill requests and plan the same rows, spans, samples
and owners (`planners_agree`), apart from three refusals of the prefix-free planner alone: it
refuses an empty list (`planners_differ`), a sampled slot that is no `i32`, and a buffer without
the capacity for the plan.
-/

namespace Plow.MixedStep
open Plow.Lib List
open Plow.TokenBatch (Request Phase PrefillSpan SampleOwner checkedAdd checkedAdd_some okOrErr
  okOrErr_ok Plans order rowLens Admitted Apart)

variable {env : TokenBatch.Env} {r : Request} {rs requests : List Request} {out out' : Plan}
  {n : Nat} {caps : Caps}

/-! ### The fold -/

/-- the spans of the requests with their flags, from the row `n` on -/
def flagged (env : TokenBatch.Env) : Nat → List Request → List PrefillSpan
  | _, [] => []
  | n, r :: rs => { env.span r n with flags := flagsOf env r } ::
      flagged env (n + (rowsOf env r).length) rs

/-- the sampled rows of the requests, from the row `n` on -/
def samples (env : TokenBatch.Env) : Nat → List Request → List Nat
  | _, [] => []
  | n, r :: rs => (env.sampled r).map (n + ·) ++ samples env (n + (rowsOf env r).length) rs

def slotsOf (env : TokenBatch.Env) (r : Request) : List Int :=
  (env.sampled r).map fun _ => (r.slot : Int)

theorem foldl_push :
    rs.foldl (Plan.push env) out =
      { out with
        rows := out.rows ++ rs.flatMap (rowsOf env)
        prefillSpans := out.prefillSpans ++ flagged env out.rows.length rs
        decodeSlots := out.decodeSlots ++ rs.flatMap (slotsOf env)
        sampleInputRows := out.sampleInputRows ++ samples env out.rows.length rs
        commits := out.commits ++ rs.map fun r => ⟨r.slot, env.start r, env.stop r⟩
        mappedEnds := out.mappedEnds ++ rs.map fun r => (r.slot, env.stop r) } := by
  induction rs generalizing out with
  | nil => simp [flagged, samples]
  | cons r rs ih =>
    rw [foldl_cons, ih]
    simp [Plan.push, flagged, samples, slotsOf]

def core (s : PrefillSpan) : Nat × Nat × Nat × Nat × Nat :=
  (s.row0, s.nRows, s.slot, s.kvRow0, s.kvLen)

theorem core_flagged (hp : ∀ r ∈ rs, env.PhaseOk r) :
    (flagged env n rs).map core = (env.spansFrom n rs).map core := by
  induction rs generalizing n with
  | nil => rfl
  | cons r rs ih =>
    obtain ⟨h0, hp⟩ := forall_mem_cons.mp hp
    rw [flagged, TokenBatch.Env.spansFrom, map_cons, map_cons, ih hp, length_rowsOf h0]
    rfl

theorem samples_eq (hp : ∀ r ∈ rs, env.PhaseOk r) : samples env n rs = env.samplesFrom n rs := by
  induction rs generalizing n with
  | nil => rfl
  | cons r rs ih =>
    obtain ⟨h0, hp⟩ := forall_mem_cons.mp hp
    rw [samples, TokenBatch.Env.samplesFrom, ih hp, length_rowsOf h0]

theorem rowsOf_token (hp : env.PhaseOk r) : (rowsOf env r).map (·.token) = r.tokens := by
  unfold TokenBatch.Env.PhaseOk at hp
  unfold rowsOf
  cases hk : r.phase with
  | decode =>
    simp only [hk] at hp
    obtain ⟨t, ht⟩ := length_eq_one_iff.mp hp.1
    rw [ht]
    rfl
  | prefill | verify => simp [chunkRows, Function.comp_def]

theorem rowsOf_position (hp : env.PhaseOk r) :
    (rowsOf env r).map (·.position) = env.positions r := by
  unfold TokenBatch.Env.PhaseOk at hp
  unfold rowsOf TokenBatch.Env.positions
  cases hk : r.phase with
  | decode =>
    simp only [hk] at hp
    rw [hp.1]
    rfl
  | prefill | verify =>
    apply ext_getElem?
    intro i
    by_cases hi : i < r.tokens.length <;> simp [chunkRows, hi]

/-! ### What follows the loops -/

theorem setEnd_some {slot stop : Nat} {es : List (Nat × Nat)} (h : ∃ e ∈ es, e.1 = slot) :
    ∃ es', setEnd slot stop es = some es' := by
  induction es with
  | nil =>
    obtain ⟨e, he, -⟩ := h
    cases he
  | cons e es ih =>
    unfold setEnd
    by_cases he : e.1 = slot
    · exact ⟨_, if_pos he⟩
    · obtain ⟨e', he', h'⟩ := h
      have hes : e' ∈ es := by
        rcases mem_cons.mp he' with rfl | h1
        · exact absurd h' he
        · exact h1
      obtain ⟨es', h2⟩ := ih ⟨e', hes, h'⟩
      rw [if_neg he, h2]
      exact ⟨_, rfl⟩

theorem finish_fields {env : Env} (h : finish env out = .ok out') :
    out'.prefillSpans = out.prefillSpans ∧ out'.sampleInputRows = out.sampleInputRows ∧
      out'.decodeSlots = out.decodeSlots ∧ out'.realRows = out.rows.length ∧
      ∃ pad, out'.rows = out.rows ++ pad := by
  unfold finish at h
  obtain ⟨n, h1, h⟩ := bind_ok.mp h
  obtain ⟨-, rfl⟩ := tryU32_ok.mp h1
  obtain ⟨owner, -, h⟩ := bind_ok.mp h
  obtain ⟨stop, -, h⟩ := bind_ok.mp h
  obtain ⟨-, h⟩ := require_bind.mp h
  obtain ⟨es, -, h⟩ := bind_ok.mp h
  obtain ⟨d, -, h⟩ := bind_ok.mp h
  rw [← pure_ok.mp h]
  exact ⟨rfl, rfl, rfl, rfl, _, rfl⟩

/-- `finish` succeeds where the padding of the last row's owner fits -/
theorem finish_ok {env : Env} {owner : Row} (h32 : out.rows.length < 2 ^ 32)
    (howner : out.rows.getLast? = some owner)
    (hpad : owner.position + 1 + (env.rows - out.rows.length) ≤ env.maxCtx)
    (hctx : env.maxCtx < 2 ^ 32) (hend : ∃ e ∈ out.mappedEnds, e.1 = owner.slot)
    (hslots : out.decodeSlots.length < 2 ^ 32) : ∃ out', finish env out = .ok out' := by
  have hstop : (checkedAdd owner.position 1).bind
      (fun stop => checkedAdd stop (env.rows - out.rows.length)) =
        some (owner.position + 1 + (env.rows - out.rows.length)) := by
    have h1 : checkedAdd owner.position 1 = some (owner.position + 1) :=
      checkedAdd_some.mpr ⟨by omega, rfl⟩
    rw [h1, Option.bind_some]
    exact checkedAdd_some.mpr ⟨by omega, rfl⟩
  have hends : ∃ es, padEnds owner.slot (owner.position + 1 + (env.rows - out.rows.length))
      (env.rows - out.rows.length) out.mappedEnds = .ok es := by
    unfold padEnds
    split
    · obtain ⟨es, h⟩ := setEnd_some hend
      exact ⟨es, okOrErr_ok.mpr h⟩
    · exact ⟨_, rfl⟩
  obtain ⟨es, hes⟩ := hends
  have e1 : tryU32 out.rows.length "real rows" = .ok out.rows.length := tryU32_ok.mpr ⟨h32, rfl⟩
  have e2 : tryU32 out.decodeSlots.length "sampled row count" = .ok out.decodeSlots.length :=
    tryU32_ok.mpr ⟨hslots, rfl⟩
  have e3 : require (decide (owner.position + 1 + (env.rows - out.rows.length) ≤ env.maxCtx))
      "padding exceeds physical context" = .ok () := require_ok.mpr (decide_eq_true hpad)
  unfold finish
  rw [e1, ok_bind, howner]
  simp only [okOrErr, ok_bind, hstop, e3, hes, e2]
  exact ⟨_, rfl⟩

/-! ### The order of the requests -/

theorem order_eq (hk : ∀ r ∈ requests, r.phase = .decode ∨ r.phase = .prefill) :
    order requests = decodes requests ++ prefills requests := by
  have h : requests.filter (fun r => r.phase = .verify) = [] := by
    apply filter_eq_nil_iff.mpr
    intro r hr
    rcases hk r hr with h | h <;> simp [h]
  rw [order, h, append_nil]
  rfl

theorem order_perm (hk : ∀ r ∈ requests, r.phase = .decode ∨ r.phase = .prefill) :
    (order requests).Perm requests := by
  have h : prefills requests = requests.filter fun r => !decide (r.phase = .decode) := by
    apply filter_congr
    intro r hr
    rcases hk r hr with h | h <;> simp [h]
  rw [order_eq hk, h]
  exact filter_append_perm _ _

/-! ### What both planners ask -/

/-- What the token batch's planner asks of a step. -/
structure Joint (env : TokenBatch.Env) (requests : List Request) : Prop where
  capacity : env.rowCapacity > 0 ∧ env.maxCtx > 0
  tables : env.frontiers.length = env.generations.length
  admitted : ∀ r ∈ order requests, Admitted env r
  apart : (order requests).Pairwise Apart
  fits : (rowLens (order requests)).sum ≤ env.rowCapacity

theorem plan_iff {p : TokenBatch.Plan} (hcap : env.rowCapacity < 2 ^ 32) :
    TokenBatch.plan env requests = .ok p ↔
      Joint env requests ∧ p = env.filled (order requests) := by
  have hcaps : (TokenBatch.Caps.withCapacity env.rowCapacity requests.length).Enough env requests :=
    ⟨le_rfl, le_rfl, le_rfl, le_rfl, le_rfl, le_rfl,
      le_rfl, le_rfl⟩
  have hplan : TokenBatch.plan env requests = .ok p ↔ TokenBatch.planFill env requests
      (.withCapacity env.rowCapacity requests.length) .empty = .ok p := by
    unfold TokenBatch.plan TokenBatch.planInto TokenBatch.Plan.clear
    rw [TokenBatch.planInner_eq]
    cases TokenBatch.planFill env requests
      (.withCapacity env.rowCapacity requests.length) .empty with
    | error e => exact Iff.rfl
    | ok q => exact Iff.rfl
  rw [hplan, TokenBatch.planFill_iff, TokenBatch.Admits, guarded_iff (room_iff hcap)]
  constructor
  · rintro ⟨h1, h2, _, ⟨h3, _, h4, h5⟩, _, h7⟩
    refine ⟨⟨h1, h2, h3, h4, ?_⟩, h7⟩
    by_cases hn : order requests = []
    · rw [hn]
      exact Nat.zero_le _
    · have := h5 hn
      rwa [zero_add] at this
  · rintro ⟨h, h7⟩
    refine ⟨h.capacity, h.tables, hcaps, ⟨h.admitted, by simp, h.apart, fun _ => ?_⟩, ?_, h7⟩
    · rw [zero_add]
      exact h.fits
    · exact lt_of_le_of_lt h.fits hcap

/-- the buffer has room for the plan -/
def Caps.Enough (caps : Caps) (env : TokenBatch.Env) (requests : List Request) : Prop :=
  caps.rows ≥ env.rowCapacity ∧ caps.prefillSpans ≥ requests.length ∧
    caps.decodeSlots ≥ requests.length ∧ caps.sampleInputRows ≥ requests.length ∧
    caps.parked ≥ env.rowCapacity ∧ caps.commits ≥ requests.length ∧
    caps.mappedEnds ≥ requests.length

/-- What the prefix-free planner asks beyond that. -/
structure Extra (env : TokenBatch.Env) (requests : List Request) (caps : Caps) : Prop where
  work : requests ≠ []
  sampled : ∀ r ∈ requests, env.done r = true → r.slot < 2 ^ 31
  caps : caps.Enough env requests

def start : Plan := { Plan.empty with cover := .prefixFree }

theorem planIntoInner_iff {ds ps : List Request} :
    planIntoInner (view env) (ds.map toDecode) (ps.map (toPrefill env)) .prefixFree caps out =
        .ok out' ↔ ((ds ≠ [] ∨ ps ≠ []) ∧ env.rowCapacity > 0 ∧ env.maxCtx > 0) ∧
        (ds ++ ps).length ≤ env.frontiers.length ∧ caps.Enough env (ds ++ ps) ∧
        ∃ o, loops env ds ps out = .ok o ∧ finish (view env) o = .ok out' := by
  have hd : ds.map toDecode ≠ [] ↔ ds ≠ [] := not_congr map_eq_nil_iff
  have hp : ps.map (toPrefill env) ≠ [] ↔ ps ≠ [] := not_congr map_eq_nil_iff
  have hloops : ∀ o, (decodeLoop (view env) true [] (ds.map toDecode) out >>= fun o =>
      prefillLoop (view env) true (ds.map toDecode) [] (ps.map (toPrefill env)) o >>=
        finish (view env)) = .ok o ↔
      ∃ o', loops env ds ps out = .ok o' ∧ finish (view env) o' = .ok o := by
    intro o
    rw [← bind_ok, loops, bind_assoc]
  unfold planIntoInner
  simp only [require_bind, decide_eq_true_eq, hd, hp, length_map, decide_true, if_true]
  rw [hloops, length_append, Caps.Enough, length_append]
  exact Iff.rfl

theorem planIntoCover_iff (hcap : env.rowCapacity < 2 ^ 32)
    (hk : ∀ r ∈ requests, r.phase = .decode ∨ r.phase = .prefill)
    (hp : ∀ r ∈ requests, env.PhaseOk r) :
    planIntoCover (view env) ((decodes requests).map toDecode)
        ((prefills requests).map (toPrefill env)) .prefixFree caps out = (.ok (), out') ↔
      (requests ≠ [] ∧ env.rowCapacity > 0 ∧ env.maxCtx > 0) ∧
        requests.length ≤ env.frontiers.length ∧ caps.Enough env requests ∧
        (∀ r ∈ order requests, LoopOk env r) ∧ (order requests).Pairwise ApartSlots ∧
        (rowLens (order requests)).sum ≤ env.rowCapacity ∧
        finish (view env) ((order requests).foldl (Plan.push env) start) = .ok out' := by
  have hcover : planIntoCover (view env) ((decodes requests).map toDecode)
      ((prefills requests).map (toPrefill env)) .prefixFree caps out = (.ok (), out') ↔
      planIntoInner (view env) ((decodes requests).map toDecode)
        ((prefills requests).map (toPrefill env)) .prefixFree caps start = .ok out' := by
    have hclear : { out.clear with cover := .prefixFree } = start := rfl
    unfold planIntoCover
    rw [hclear]
    cases planIntoInner (view env) ((decodes requests).map toDecode)
        ((prefills requests).map (toPrefill env)) .prefixFree caps start with
    | error e => simp
    | ok q => simp
  have hlen : (order requests).length = requests.length := (order_perm hk).length_eq
  have hne : decodes requests ≠ [] ∨ prefills requests ≠ [] ↔ requests ≠ [] := by
    rw [order_eq hk, length_append] at hlen
    simp only [← length_pos_iff]
    omega
  have hd : ∀ r ∈ decodes requests, r.phase = .decode ∧ env.PhaseOk r := fun r hr =>
    ⟨of_decide_eq_true (mem_filter.mp hr).2, hp r (mem_filter.mp hr).1⟩
  have hpre : ∀ r ∈ prefills requests, r.phase = .prefill ∧ env.PhaseOk r := fun r hr =>
    ⟨of_decide_eq_true (mem_filter.mp hr).2, hp r (mem_filter.mp hr).1⟩
  have henough : caps.Enough env (order requests) ↔ caps.Enough env requests := by
    unfold Caps.Enough
    rw [hlen]
  rw [hcover, planIntoInner_iff, hne, ← order_eq hk, hlen, henough]
  refine and_congr_right fun _ => and_congr_right fun _ => and_congr_right fun _ => ?_
  rw [order_eq hk]
  constructor
  · rintro ⟨o, h1, h2⟩
    obtain ⟨g1, g2, g3, rfl⟩ := (loops_iff hcap hd hpre rfl).mp h1
    exact ⟨g1, g2, g3, h2⟩
  · rintro ⟨g1, g2, g3, h2⟩
    exact ⟨_, (loops_iff hcap hd hpre rfl).mpr ⟨g1, g2, g3, rfl⟩, h2⟩

theorem joint_iff (hk : ∀ r ∈ requests, r.phase = .decode ∨ r.phase = .prefill) :
    Joint env requests ∧ (∀ r ∈ requests, env.done r = true → r.slot < 2 ^ 31) ↔
      (env.rowCapacity > 0 ∧ env.maxCtx > 0) ∧ env.frontiers.length = env.generations.length ∧
        ((∀ r ∈ requests, SplitOk env r) ∧ requests.Pairwise fun p r => p.id ≠ r.id) ∧
        (∀ r ∈ order requests, LoopOk env r) ∧ (order requests).Pairwise ApartSlots ∧
        (rowLens (order requests)).sum ≤ env.rowCapacity := by
  have hperm := order_perm hk
  have hids : (requests.Pairwise fun p r => p.id ≠ r.id) ↔
      (order requests).Pairwise fun p r => p.id ≠ r.id :=
    (hperm.pairwise_iff fun h => Ne.symm h).symm
  constructor
  · intro ⟨h, h31⟩
    refine ⟨h.capacity, h.tables, ⟨fun r hr => ?_, hids.mpr ?_⟩, fun r hr => ?_, ?_, h.fits⟩
    · have ha := h.admitted r (hperm.mem_iff.mpr hr)
      exact ⟨ha.selection, ha.slot, ha.generation, hk r hr, ha.phase, fun _ => ha.fits⟩
    · exact h.apart.imp fun h => h.1
    · have ha := h.admitted r hr
      exact ⟨ha.slot, ha.stateSlot, ha.tokens, ha.fits, ha.ctx, h31 r (hperm.mem_iff.mp hr)⟩
    · exact h.apart.imp fun h => h.2
  · intro ⟨hc, hl, ⟨hs, hi⟩, hok, hap, hfit⟩
    refine ⟨⟨hc, hl, fun r hr => ?_, ?_, hfit⟩, fun r hr => ?_⟩
    · have hs := hs r (hperm.mem_iff.mp hr)
      have hok := hok r hr
      exact ⟨hs.selection, hok.slot, hok.stateSlot, hs.generation, hok.tokens, hok.fits, hok.ctx,
        hs.phase⟩
    · exact (hids.mp hi).and hap
    · exact (hok r (hperm.mem_iff.mpr hr)).sampled

/-! ### The padding -/

def PadFits (env : TokenBatch.Env) (requests : List Request) : Prop :=
  ∀ r ∈ (order requests).getLast?,
    env.stop r + (env.rowCapacity - (rowLens (order requests)).sum) ≤ env.maxCtx

theorem rowsOf_last (hp : env.PhaseOk r) (ht : 0 < r.tokens.length) :
    ∃ owner, (rowsOf env r).getLast? = some owner ∧ owner.position + 1 = env.stop r ∧
      owner.slot = r.slot := by
  unfold TokenBatch.Env.PhaseOk at hp
  unfold rowsOf TokenBatch.Env.stop
  cases hk : r.phase with
  | decode =>
    simp only [hk] at hp
    rw [hp.1]
    exact ⟨_, rfl, rfl, rfl⟩
  | prefill | verify =>
    have hn : r.tokens ≠ [] := length_pos_iff.mp ht
    rw [← dropLast_concat_getLast hn]
    simp [chunkRows, zipIdx_append, add_assoc]

theorem length_flatMap_slotsOf : (rs.flatMap (slotsOf env)).length =
    (TokenBatch.sampleLens env rs).sum := by
  rw [length_flatMap, TokenBatch.sampleLens]
  refine congrArg sum (map_congr_left fun r _ => ?_)
  exact length_map _

theorem finish_fold (hcap : env.rowCapacity < 2 ^ 32) (hctx : env.maxCtx < 2 ^ 32)
    (h : Joint env requests) (hne : order requests ≠ []) (hpad : PadFits env requests) :
    ∃ m, finish (view env) ((order requests).foldl (Plan.push env) start) = .ok m := by
  have hp : ∀ r ∈ order requests, env.PhaseOk r := fun r hr => (h.admitted r hr).phase
  have hlen := @length_foldl_push env (order requests) start hp
  have hslots : (TokenBatch.sampleLens env (order requests)).sum ≤ (rowLens (order requests)).sum :=
    TokenBatch.sum_sampleLens_le fun r hr => (h.admitted r hr).tokens
  have hfit := h.fits
  have hr := getLast_mem hne
  obtain ⟨owner, h1, h2, h3⟩ := rowsOf_last (hp _ hr) (h.admitted _ hr).tokens
  have hstop := hpad _ (getLast?_eq_some_getLast hne)
  have hz : start.rows.length = 0 := rfl
  rw [hz, zero_add] at hlen
  have howner : ((order requests).foldl (Plan.push env) start).rows.getLast? = some owner := by
    rw [foldl_push, ← dropLast_concat_getLast hne]
    simp [h1, start, Plan.empty]
  refine finish_ok ?_ howner ?_ hctx ?_ ?_
  · omega
  · rw [hlen, h2]
    exact hstop
  · refine ⟨((getLast _ hne).slot, env.stop (getLast _ hne)), ?_, h3.symm⟩
    rw [foldl_push]
    exact mem_append_right _ (mem_map_of_mem hr)
  · rw [foldl_push]
    show ([] ++ (order requests).flatMap (slotsOf env)).length < _
    rw [nil_append, length_flatMap_slotsOf]
    omega

/-! ### The owners -/

def sampledOf (env : TokenBatch.Env) (rs : List Request) : List Request :=
  rs.flatMap fun r => (env.sampled r).map fun _ => r

theorem flatMap_sampled {α : Type} (f : Request → α) :
    (rs.flatMap fun r => (env.sampled r).map fun _ => f r) = (sampledOf env rs).map f := by
  rw [sampledOf, map_flatMap]
  simp

theorem sampled_view (hk : r.phase = .prefill) : sampled (view env) r = env.done r := by
  unfold sampled TokenBatch.Env.done TokenBatch.Env.stop TokenBatch.Env.start
  rw [hk]
  rfl

theorem sampledOf_eq (hk : ∀ r ∈ rs, r.phase = .decode ∨ r.phase = .prefill) :
    sampledOf env rs = rs.filter env.done := by
  induction rs with
  | nil => rfl
  | cons r rs ih =>
    obtain ⟨h0, hk⟩ := forall_mem_cons.mp hk
    have h1 : (env.sampled r).map (fun _ => r) = if env.done r then [r] else [] := by
      unfold TokenBatch.Env.sampled
      rcases h0 with h0 | h0 <;> rw [h0] <;> split <;> rfl
    have h2 : sampledOf env (r :: rs) = (env.sampled r).map (fun _ => r) ++ sampledOf env rs := rfl
    rw [h2, h1, ih hk, filter_cons]
    split <;> rfl

theorem ownersOf_eq (hk : ∀ r ∈ requests, r.phase = .decode ∨ r.phase = .prefill) :
    ownersOf (view env) .prefixFree requests = (sampledOf env (order requests)).map (·.id) := by
  have h1 : (decodes requests).filter env.done = decodes requests := by
    apply filter_eq_self.mpr
    intro r hr
    have hd : r.phase = .decode := of_decide_eq_true (mem_filter.mp hr).2
    unfold TokenBatch.Env.done
    rw [hd]
  have h2 : (prefills requests).filter env.done =
      requests.filter fun r => r.phase = .prefill && sampled (view env) r := by
    rw [prefills, filter_filter]
    apply filter_congr
    intro r _
    by_cases hp : r.phase = .prefill
    · rw [sampled_view hp, Bool.and_comm]
    · simp [hp]
  have hsub : ∀ r ∈ order requests, r.phase = .decode ∨ r.phase = .prefill :=
    fun r hr => hk r ((order_perm hk).mem_iff.mp hr)
  rw [sampledOf_eq hsub, order_eq hk, filter_append, map_append, h1, h2]
  rfl

theorem consistent_ok (hk : ∀ r ∈ requests, r.phase = .decode ∨ r.phase = .prefill)
    (h31 : ∀ r ∈ requests, env.done r = true → r.slot < 2 ^ 31) :
    consistent requests ((sampledOf env (order requests)).map (·.id))
      ((sampledOf env (order requests)).map fun r => (r.slot : Int)) = true := by
  have hsub : ∀ r ∈ order requests, r.phase = .decode ∨ r.phase = .prefill :=
    fun r hr => hk r ((order_perm hk).mem_iff.mp hr)
  unfold consistent
  rw [length_map, length_map, zip_map', all_map, Bool.and_eq_true,
    all_eq_true]
  refine ⟨decide_eq_true rfl, fun r hr => ?_⟩
  rw [sampledOf_eq hsub] at hr
  obtain ⟨hr, hd⟩ := mem_filter.mp hr
  have hr := (order_perm hk).mem_iff.mp hr
  show requests.any _ = true
  rw [any_eq_true]
  exact ⟨r, hr, by simpa using h31 r hr hd⟩

/-! ### The planners -/

theorem length_le_frontiers (h : Joint env requests) :
    (order requests).length ≤ env.frontiers.length := by
  have hnodup : ((order requests).map (·.slot)).Nodup := by
    rw [Nodup, pairwise_map]
    exact h.apart.imp fun h => h.2.1
  have hsub : (order requests).map (·.slot) ⊆ range env.frontiers.length := by
    intro s hs
    obtain ⟨r, hr, rfl⟩ := mem_map.mp hs
    exact mem_range.mpr (h.admitted r hr).slot
  simpa using (subperm_of_subset hnodup hsub).length_le

theorem partition_iff {lists : Split}
    (hk : ∀ r ∈ requests, r.phase = .decode ∨ r.phase = .prefill) :
    partition (view env) env.generations requests = .ok lists ↔
      env.frontiers.length = env.generations.length ∧
        ((∀ r ∈ requests, SplitOk env r) ∧ requests.Pairwise fun p r => p.id ≠ r.id) ∧
        lists = ⟨(decodes requests).map toDecode, (prefills requests).map (toPrefill env)⟩ := by
  rw [partition, require_bind, splitLoop_iff, foldl_add hk, decide_eq_true_eq, and_assoc]
  rfl

theorem planRequestsInto_iff {owners owners' : List Nat} (hcap : env.rowCapacity < 2 ^ 32)
    (hk : ∀ r ∈ requests, r.phase = .decode ∨ r.phase = .prefill) :
    planRequestsInto (view env) env.generations requests caps out owners = (.ok (), out', owners') ↔
      Joint env requests ∧ Extra env requests caps ∧
        finish (view env) ((order requests).foldl (Plan.push env) start) = .ok out' ∧
        owners' = (sampledOf env (order requests)).map (·.id) := by
  have hcover : ¬SpanCover.prefixFree = .decodeBand := by decide
  unfold planRequestsInto planRequestsIntoCover
  rw [if_neg hcover]
  constructor
  · intro h
    split at h
    · cases h
    · next lists hs =>
      obtain ⟨hl, hsplit, rfl⟩ := (partition_iff hk).mp hs
      split at h
      · cases h
      · next m hm =>
        obtain ⟨⟨hne, hc⟩, -, hcaps, hok, hap, hfit, hfin⟩ :=
          (planIntoCover_iff hcap hk fun r hr => (hsplit.1 r hr).phase).mp hm
        obtain ⟨hj, h31⟩ := (joint_iff hk).mpr ⟨hc, hl, hsplit, hok, hap, hfit⟩
        dsimp only at h
        split at h
        · cases h
          exact ⟨hj, ⟨hne, h31, hcaps⟩, hfin, ownersOf_eq hk⟩
        · cases h
  · intro ⟨hj, he, hfin, ho⟩
    obtain ⟨hc, hl, hsplit, hok, hap, hfit⟩ := (joint_iff hk).mp ⟨hj, he.sampled⟩
    have hlen := length_le_frontiers hj
    rw [(order_perm hk).length_eq] at hlen
    have hm : planIntoCover (view env) ((decodes requests).map toDecode)
        ((prefills requests).map (toPrefill env)) .prefixFree caps out.clear = (.ok (), out') :=
      (planIntoCover_iff hcap hk fun r hr => (hsplit.1 r hr).phase).mpr
        ⟨⟨he.work, hc⟩, hlen, he.caps, hok, hap, hfit, hfin⟩
    have hslots : out'.decodeSlots =
        (sampledOf env (order requests)).map fun r => (r.slot : Int) := by
      rw [(finish_fields hfin).2.2.1, foldl_push, ← flatMap_sampled]
      rfl
    rw [(partition_iff hk).mpr ⟨hl, hsplit, rfl⟩]
    dsimp only
    rw [hm]
    dsimp only
    rw [ownersOf_eq hk, hslots, if_pos (consistent_ok hk he.sampled), ho]

/-- The two plans say the same. -/
structure Agrees (p : TokenBatch.Plan) (m : Plan) (owners : List Nat) : Prop where
  realRows : m.realRows = p.realRows
  spans : m.prefillSpans.map core = p.spans.map core
  live : ∀ row < p.realRows, ∃ x : Row, m.rows[row]? = some x ∧
    p.inputIds[row]? = some x.token ∧ p.positions[row]? = some x.position
  samples : m.sampleInputRows = p.sampleInputRows
  owners : owners = p.sampleOwners.map (·.request)
  slots : m.decodeSlots = p.sampleOwners.map fun o => (o.slot : Int)

theorem agrees_fold (h : Joint env requests)
    (hm : finish (view env) ((order requests).foldl (Plan.push env) start) = .ok out') :
    Agrees (env.filled (order requests)) out' ((sampledOf env (order requests)).map (·.id)) := by
  have hp : ∀ r ∈ order requests, env.PhaseOk r := fun r hr => (h.admitted r hr).phase
  have htoken : ((order requests).flatMap (rowsOf env)).map (·.token) =
      (order requests).flatMap (·.tokens) := by
    rw [map_flatMap]
    exact flatMap_congr fun r hr => rowsOf_token (hp r hr)
  have hposition : ((order requests).flatMap (rowsOf env)).map (·.position) =
      (order requests).flatMap env.positions := by
    rw [map_flatMap]
    exact flatMap_congr fun r hr => rowsOf_position (hp r hr)
  have hlen : ((order requests).flatMap (rowsOf env)).length = (rowLens (order requests)).sum := by
    rw [← length_map (·.token), htoken]
    exact TokenBatch.length_table fun _ => rfl
  obtain ⟨h1, h2, h3, h4, pad, h5⟩ := finish_fields hm
  rw [foldl_push] at h1 h2 h3 h4 h5
  have hrows : out'.rows = (order requests).flatMap (rowsOf env) ++ pad := h5
  refine ⟨h4.trans hlen, ?_, fun row hrow => ?_, ?_, ?_, ?_⟩
  · rw [h1]
    exact core_flagged hp
  · have hrow : row < (rowLens (order requests)).sum := hrow
    have hlt : row < ((order requests).flatMap (rowsOf env)).length := hlen ▸ hrow
    obtain ⟨x, hget⟩ : ∃ x, ((order requests).flatMap (rowsOf env))[row]? = some x :=
      ⟨_, getElem?_eq_getElem hlt⟩
    have htokens : ((order requests).flatMap (·.tokens)).length = (rowLens (order requests)).sum :=
      TokenBatch.length_table fun _ => rfl
    have hpositions : ((order requests).flatMap env.positions).length =
        (rowLens (order requests)).sum :=
      TokenBatch.length_table fun r => by simp [TokenBatch.Env.positions]
    have hinput : (env.filled (order requests)).inputIds[row]? =
        ((order requests).flatMap (·.tokens))[row]? :=
      TokenBatch.resize_get (by rw [htokens]; exact hrow) (by rw [htokens]; exact h.fits)
    have hpos : (env.filled (order requests)).positions[row]? =
        ((order requests).flatMap env.positions)[row]? :=
      TokenBatch.resize_get (by rw [hpositions]; exact hrow) (by rw [hpositions]; exact h.fits)
    refine ⟨x, ?_, ?_, ?_⟩
    · rw [hrows, getElem?_append_left hlt, hget]
    · rw [hinput, ← htoken, getElem?_map, hget]
      rfl
    · rw [hpos, ← hposition, getElem?_map, hget]
      rfl
  · rw [h2]
    exact samples_eq hp
  · rw [← flatMap_sampled]
    show _ = ((order requests).flatMap env.owners).map _
    rw [map_flatMap]
    refine flatMap_congr fun r _ => ?_
    simp [TokenBatch.Env.owners, TokenBatch.Env.owner]
  · rw [h3]
    show [] ++ (order requests).flatMap (slotsOf env) =
      ((order requests).flatMap env.owners).map _
    rw [nil_append, map_flatMap]
    refine flatMap_congr fun r _ => ?_
    simp [slotsOf, TokenBatch.Env.owners, TokenBatch.Env.owner]

/-- The prefix-free planner accepts decode and prefill requests if and only if the token batch's
planner does and they are `Extra`, and then the plans say the same. -/
theorem planners_agree (env : TokenBatch.Env) (requests : List Request) (caps : Caps) (out : Plan)
    (owners : List Nat) (hk : ∀ r ∈ requests, r.phase = .decode ∨ r.phase = .prefill)
    (hcap : env.rowCapacity < 2 ^ 32) (hctx : env.maxCtx < 2 ^ 32) (hpad : PadFits env requests) :
    ((∃ m ids, planRequestsInto (view env) env.generations requests caps out owners =
        (.ok (), m, ids)) ↔ (∃ p, TokenBatch.plan env requests = .ok p) ∧ Extra env requests caps) ∧
    ∀ m ids p, planRequestsInto (view env) env.generations requests caps out owners =
        (.ok (), m, ids) → TokenBatch.plan env requests = .ok p → Agrees p m ids := by
  constructor
  · constructor
    · intro ⟨m, ids, h⟩
      obtain ⟨hj, he, -⟩ := (planRequestsInto_iff hcap hk).mp h
      exact ⟨⟨_, (plan_iff hcap).mpr ⟨hj, rfl⟩⟩, he⟩
    · intro ⟨⟨p, h⟩, he⟩
      obtain ⟨hj, -⟩ := (plan_iff hcap).mp h
      have hne : order requests ≠ [] := by
        rw [← length_pos_iff, (order_perm hk).length_eq, length_pos_iff]
        exact he.work
      obtain ⟨m, hm⟩ := finish_fold hcap hctx hj hne hpad
      exact ⟨m, _, (planRequestsInto_iff hcap hk).mpr ⟨hj, he, hm, rfl⟩⟩
  · intro m ids p h1 h2
    obtain ⟨hj, -, hm, rfl⟩ := (planRequestsInto_iff hcap hk).mp h1
    obtain ⟨-, rfl⟩ := (plan_iff hcap).mp h2
    exact agrees_fold hj hm

def pairEnv : TokenBatch.Env where
  frontiers := [5, 0]
  generations := [1, 1]
  rowCapacity := 4
  maxCtx := 8
  program := 3

def pairRequests : List Request :=
  [⟨10, 1, 1, 1, .prefill, [21], 1, TokenBatch.greedySelection⟩,
    ⟨12, 0, 0, 1, .decode, [41], 5, TokenBatch.greedySelection⟩]

def pairCaps : Caps := ⟨4, 4, 4, 4, 4, 4, 4⟩

theorem planners_agree_pair :
    ∃ m ids p, planRequestsInto (view pairEnv) pairEnv.generations pairRequests pairCaps .empty [] =
        (.ok (), m, ids) ∧ TokenBatch.plan pairEnv pairRequests = .ok p ∧ ids = [12, 10] ∧
      Agrees p m ids := by
  have hagree := planners_agree pairEnv pairRequests pairCaps .empty [] (by decide) (by decide)
    (by decide) (by unfold PadFits; decide +kernel)
  have hp : TokenBatch.plan pairEnv pairRequests = .ok (pairEnv.filled (order pairRequests)) := by
    decide +kernel
  have he : Extra pairEnv pairRequests pairCaps :=
    ⟨by decide, by decide, by unfold Caps.Enough; decide⟩
  obtain ⟨m, ids, hm⟩ := hagree.1.mpr ⟨⟨_, hp⟩, he⟩
  have ha := hagree.2 m ids _ hm hp
  refine ⟨m, ids, _, hm, hp, ?_, ha⟩
  rw [ha.owners]
  decide +kernel

/-- On the empty list of requests the two planners differ. -/
theorem planners_differ :
    ¬∀ (env : TokenBatch.Env) (requests : List Request) (caps : Caps) (out : Plan)
      (owners : List Nat), (∀ r ∈ requests, r.phase = .decode ∨ r.phase = .prefill) →
      (∀ r ∈ requests, r.tokens ≠ []) → env.rowCapacity < 2 ^ 32 → env.maxCtx < 2 ^ 32 →
      PadFits env requests → caps.Enough env requests →
      ((∃ m ids, planRequestsInto (view env) env.generations requests caps out owners =
          (.ok (), m, ids)) ↔ ∃ p, TokenBatch.plan env requests = .ok p) := by
  intro h
  have h := (h pairEnv [] pairCaps .empty [] (by decide) (by decide) (by decide) (by decide)
    (by unfold PadFits; decide) (by unfold Caps.Enough; decide)).mpr
      ⟨pairEnv.filled [], by decide +kernel⟩
  obtain ⟨m, ids, h⟩ := h
  have hno : (planRequestsInto (view pairEnv) pairEnv.generations [] pairCaps .empty []).1 =
      .error "mixed step: empty work or capacity" := by decide +kernel
  rw [h] at hno
  cases hno

end Plow.MixedStep
