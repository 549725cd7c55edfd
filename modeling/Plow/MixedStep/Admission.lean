import Plow.MixedStep.Model
import Plow.TokenBatch.Plan

/-!
# What the prefix-free planner accepts, and what it builds

The request planner works in three loops: the partition into decode and prefill requests, the
decode loop and the prefill loop.  In terms of the requests each turn of the last two does `push`,
so together they are one fold over the requests in scheduled order (`loops_iff`), as in the token
batch's planner.
-/

namespace Plow.MixedStep
open Plow.Lib List
open Plow.TokenBatch (Request Phase checkedAdd checkedAdd_some okOrErr okOrErr_ok Plans order rowLens)

variable {reason : String}

theorem require_ok {c : Bool} : require c reason = .ok () ↔ c = true := by
  unfold require
  split
  · next h => exact ⟨fun _ => h, fun _ => rfl⟩
  · next h => exact ⟨(fun e => nomatch e), fun e => absurd e h⟩

theorem require_bind {α : Type} {c : Bool} {x : Plans α} {a : α} :
    (require c reason >>= fun _ => x) = .ok a ↔ c = true ∧ x = .ok a := by
  rw [bind_ok]
  constructor
  · rintro ⟨⟨⟩, h, hx⟩
    exact ⟨require_ok.mp h, hx⟩
  · rintro ⟨h, hx⟩
    exact ⟨(), require_ok.mpr h, hx⟩

theorem tryU32_ok {n m : Nat} : tryU32 n reason = .ok m ↔ n < 2 ^ 32 ∧ m = n := by
  unfold tryU32
  split
  · next h => exact ⟨fun e => ⟨h, (Except.ok.inj e).symm⟩, fun e => by rw [e.2]⟩
  · next h => exact ⟨(fun e => nomatch e), fun e => absurd e.1 h⟩

theorem tryI32_ok {n : Nat} {m : Int} : tryI32 n reason = .ok m ↔ n < 2 ^ 31 ∧ m = n := by
  unfold tryI32
  split
  · next h => exact ⟨fun e => ⟨h, (Except.ok.inj e).symm⟩, fun e => by rw [e.2]⟩
  · next h => exact ⟨(fun e => nomatch e), fun e => absurd e.1 h⟩

theorem sampledSlot_ok {completes : Bool} {slot : Nat} {o : Option Int} :
    sampledSlot completes slot = .ok o ↔
      (completes = true → slot < 2 ^ 31) ∧ o = if completes then some (slot : Int) else none := by
  unfold sampledSlot tryI32
  cases completes with
  | false => exact ⟨fun e => ⟨(fun e => nomatch e), (Except.ok.inj e).symm⟩, fun e => by rw [e.2]; rfl⟩
  | true =>
    rw [if_pos rfl, if_pos rfl]
    split
    · next h => exact ⟨fun e => ⟨fun _ => h, (Except.ok.inj e).symm⟩, fun e => by rw [e.2]; rfl⟩
    · next h => exact ⟨(fun e => nomatch e), fun e => absurd (e.1 rfl) h⟩

def view (env : TokenBatch.Env) : Env :=
  ⟨env.frontiers, env.rowCapacity, env.maxCtx, env.program⟩

def toDecode (r : Request) : DecodeRequest := ⟨r.slot, r.stateSlot, r.tokens.headD 0⟩

def toPrefill (env : TokenBatch.Env) (r : Request) : PrefillRequest :=
  ⟨r.slot, r.stateSlot, env.start r, r.tokens, r.promptLen⟩

variable {env : TokenBatch.Env} {r : Request} {prior rs ds ps : List Request} {out out' : Plan}

/-! ### The partition -/

/-- what the partition asks of one request -/
structure SplitOk (env : TokenBatch.Env) (r : Request) : Prop where
  selection : r.selection.validate = .ok ()
  slot : r.slot < env.frontiers.length
  generation : env.generations.getD r.slot 0 = r.generation
  kind : r.phase = .decode ∨ r.phase = .prefill
  phase : env.PhaseOk r
  fits : r.phase = .prefill → env.stop r < 2 ^ 32

/-- the lists with one more request -/
def Split.add (env : TokenBatch.Env) (lists : Split) (r : Request) : Split :=
  match r.phase with
  | .decode => { lists with decode := lists.decode ++ [toDecode r] }
  | .prefill => { lists with prefill := lists.prefill ++ [toPrefill env r] }
  | .verify => lists

theorem splitOne_iff {lists lists' : Split} :
    splitOne (view env) env.generations prior r lists = .ok lists' ↔
      SplitOk env r ∧ (∀ p ∈ prior, p.id ≠ r.id) ∧ lists' = lists.add env r := by
  have hid : (!prior.any fun p => decide (p.id = r.id)) = true ↔ ∀ p ∈ prior, p.id ≠ r.id := by
    simp [any_eq_false]
  have hstop : ∀ {stop reason}, okOrErr (checkedAdd (env.start r) r.tokens.length) reason =
      .ok stop ↔ env.stop r < 2 ^ 32 ∧ stop = env.stop r :=
    fun {_ _} => okOrErr_ok.trans checkedAdd_some
  unfold splitOne Split.add
  constructor
  · intro h
    obtain ⟨⟨⟩, h1, h⟩ := bind_ok.mp h
    obtain ⟨h2, h⟩ := require_bind.mp h
    obtain ⟨h3, h⟩ := require_bind.mp h
    obtain ⟨h4, h⟩ := require_bind.mp h
    cases hk : r.phase with
    | decode =>
      simp only [hk] at h
      obtain ⟨h5, h⟩ := require_bind.mp h
      refine ⟨⟨h1, of_decide_eq_true h2, of_decide_eq_true h3, Or.inl hk, ?_, ?_⟩, hid.mp h4,
        (pure_ok.mp h).symm⟩
      · unfold TokenBatch.Env.PhaseOk
        rw [hk]
        exact of_decide_eq_true h5
      · rw [hk]
        exact fun e => nomatch e
    | prefill =>
      simp only [hk] at h
      obtain ⟨n, e5, h⟩ := bind_ok.mp h
      obtain ⟨-, rfl⟩ := tryU32_ok.mp e5
      obtain ⟨stop, e6, h⟩ := bind_ok.mp h
      obtain ⟨h6, rfl⟩ := hstop.mp e6
      obtain ⟨h7, h⟩ := require_bind.mp h
      refine ⟨⟨h1, of_decide_eq_true h2, of_decide_eq_true h3, Or.inr hk, ?_, fun _ => h6⟩,
        hid.mp h4, (pure_ok.mp h).symm⟩
      unfold TokenBatch.Env.PhaseOk
      rw [hk]
      exact of_decide_eq_true h7
    | verify =>
      simp only [hk] at h
      exact nomatch h
  · rintro ⟨hr, hf, rfl⟩
    refine bind_ok.mpr ⟨(), hr.selection, ?_⟩
    refine require_bind.mpr ⟨decide_eq_true hr.slot, ?_⟩
    refine require_bind.mpr ⟨decide_eq_true hr.generation, ?_⟩
    refine require_bind.mpr ⟨hid.mpr hf, ?_⟩
    have hp := hr.phase
    unfold TokenBatch.Env.PhaseOk at hp
    rcases hr.kind with hk | hk
    · simp only [hk] at hp ⊢
      exact require_bind.mpr ⟨decide_eq_true hp, rfl⟩
    · simp only [hk] at hp ⊢
      have h6 := hr.fits hk
      have h5 : r.tokens.length < 2 ^ 32 := by
        unfold TokenBatch.Env.stop at h6
        omega
      refine bind_ok.mpr ⟨_, tryU32_ok.mpr ⟨h5, rfl⟩, ?_⟩
      refine bind_ok.mpr ⟨_, hstop.mpr ⟨h6, rfl⟩, ?_⟩
      exact require_bind.mpr ⟨decide_eq_true hp, rfl⟩

def decodes (rs : List Request) : List Request := rs.filter (·.phase = .decode)

def prefills (rs : List Request) : List Request := rs.filter (·.phase = .prefill)

theorem foldl_add {lists : Split} (hk : ∀ r ∈ rs, r.phase = .decode ∨ r.phase = .prefill) :
    rs.foldl (Split.add env) lists = ⟨lists.decode ++ (decodes rs).map toDecode,
        lists.prefill ++ (prefills rs).map (toPrefill env)⟩ := by
  induction rs generalizing lists with
  | nil => simp [decodes, prefills]
  | cons r rs ih =>
    obtain ⟨h0, hk⟩ := forall_mem_cons.mp hk
    rw [foldl_cons, ih hk]
    rcases h0 with h0 | h0 <;> simp [Split.add, decodes, prefills, h0]

theorem isLoop_splitLoop (env : TokenBatch.Env) :
    IsLoop (splitLoop (view env) env.generations) (splitOne (view env) env.generations) :=
  ⟨fun _ _ => rfl, fun _ _ _ _ => rfl⟩

theorem turns_splitOne (env : TokenBatch.Env) :
    Turns (splitOne (view env) env.generations) (SplitOk env) (fun _ => True)
      (fun p r => p.id ≠ r.id) (fun n l => n + l ≤ 0) (fun _ => 0) (Split.add env) (fun _ => 0)
      fun _ _ => True where
  turn _ _ := by simp only [splitOne_iff, add_zero, le_refl, true_and]
  inv _ _ := trivial
  room _ := rfl

theorem splitLoop_iff {lists lists' : Split} :
    splitLoop (view env) env.generations [] rs lists = .ok lists' ↔
      (∀ r ∈ rs, SplitOk env r) ∧ rs.Pairwise (fun p r => p.id ≠ r.id) ∧
        lists' = rs.foldl (Split.add env) lists := by
  rw [(isLoop_splitLoop env).iff (turns_splitOne env) _ _ _ trivial fun _ _ => trivial,
    guarded_iff fun _ _ => Iff.rfl]
  simp [and_assoc]

/-! ### The two loops -/

/-- what the loops ask of one request -/
structure LoopOk (env : TokenBatch.Env) (r : Request) : Prop where
  slot : r.slot < env.frontiers.length
  stateSlot : r.stateSlot < env.frontiers.length
  tokens : 0 < r.tokens.length
  fits : env.stop r < 2 ^ 32
  ctx : env.stop r ≤ env.maxCtx
  /-- a sampled slot is reported as an `i32` -/
  sampled : env.done r = true → r.slot < 2 ^ 31

def ApartSlots (p r : Request) : Prop := p.slot ≠ r.slot ∧ p.stateSlot ≠ r.stateSlot

/-- the rows of a request -/
def rowsOf (env : TokenBatch.Env) (r : Request) : List Row :=
  match r.phase with
  | .decode =>
    [⟨r.tokens.headD 0, r.slot, r.stateSlot, env.start r, env.stop r, .decode⟩]
  | _ => chunkRows r.slot r.stateSlot (env.start r) r.tokens

/-- the flags of its span -/
def flagsOf (env : TokenBatch.Env) (r : Request) : Nat :=
  match r.phase with
  | .decode => resetFlag (env.start r) ||| prefillSpanDecode ||| prefillSpanSample
  | _ => resetFlag (env.start r) ||| if env.done r then prefillSpanSample else 0

/-- what one turn adds -/
def Plan.push (env : TokenBatch.Env) (out : Plan) (r : Request) : Plan :=
  { out with
    rows := out.rows ++ rowsOf env r
    prefillSpans := out.prefillSpans ++
      [{ env.span r out.rows.length with flags := flagsOf env r }]
    decodeSlots := out.decodeSlots ++ (env.sampled r).map fun _ => (r.slot : Int)
    sampleInputRows := out.sampleInputRows ++ (env.sampled r).map (out.rows.length + ·)
    commits := out.commits ++ [⟨r.slot, env.start r, env.stop r⟩]
    mappedEnds := out.mappedEnds ++ [(r.slot, env.stop r)] }

theorem length_rowsOf (hp : env.PhaseOk r) : (rowsOf env r).length = r.tokens.length := by
  unfold TokenBatch.Env.PhaseOk at hp
  unfold rowsOf
  cases hk : r.phase with
  | decode =>
    simp only [hk] at hp
    exact hp.1.symm
  | prefill | verify => simp [chunkRows]

theorem apart_iff {α : Type} (f : Request → α) (slot state : α → Nat)
    (h1 : ∀ p, slot (f p) = p.slot) (h2 : ∀ p, state (f p) = p.stateSlot) :
    ((!(prior.map f).any fun p => decide (slot p = r.slot)) = true ∧
      (!(prior.map f).any fun p => decide (state p = r.stateSlot)) = true) ↔
        ∀ p ∈ prior, ApartSlots p r := by
  simp only [any_map, Bool.not_eq_true', any_eq_false, Function.comp, decide_eq_true_eq,
    h1, h2, ApartSlots]
  exact ⟨fun h p hp => ⟨h.1 p hp, h.2 p hp⟩,
    fun h => ⟨fun p hp => (h p hp).1, fun p hp => (h p hp).2⟩⟩

theorem start_stop {n : Nat} (hn : r.tokens.length = n) {stop : Nat} :
    okOrErr (checkedAdd (env.start r) n) reason = .ok stop ↔
      env.stop r < 2 ^ 32 ∧ stop = env.stop r := by
  rw [← hn]
  exact okOrErr_ok.trans checkedAdd_some

theorem sampled_decode (hk : r.phase = .decode) (h1 : r.tokens.length = 1) :
    env.done r = true ∧ env.sampled r = [0] := by
  have hd : env.done r = true := by
    unfold TokenBatch.Env.done
    rw [hk]
  refine ⟨hd, ?_⟩
  unfold TokenBatch.Env.sampled
  rw [if_pos hd, hk, h1]

theorem sampled_prefill (hk : r.phase = .prefill) :
    env.sampled r = if env.done r then [r.tokens.length - 1] else [] := by
  unfold TokenBatch.Env.sampled
  rw [hk]

theorem push_decode (hk : r.phase = .decode) (h1 : r.tokens.length = 1)
    (hn : out.rows.length = prior.length) :
    out.push env r =
      { out with
        rows := out.rows ++ [⟨r.tokens.headD 0, r.slot, r.stateSlot, env.start r, env.stop r, .decode⟩]
        decodeSlots := out.decodeSlots ++ [(r.slot : Int)]
        sampleInputRows := out.sampleInputRows ++ [prior.length]
        prefillSpans := out.prefillSpans ++ [{
          row0 := prior.length, nRows := 1, slot := r.slot
          flags := resetFlag (env.start r) ||| prefillSpanDecode ||| prefillSpanSample
          kvRow0 := env.start r, kvLen := env.stop r, stateSlot := r.stateSlot
          program := env.program }]
        commits := out.commits ++ [⟨r.slot, env.start r, env.stop r⟩]
        mappedEnds := out.mappedEnds ++ [(r.slot, env.stop r)] } := by
  unfold Plan.push rowsOf flagsOf TokenBatch.Env.span
  rw [(sampled_decode hk h1).2, hk, h1, hn]
  rfl

theorem decodeOne_iff (hk : r.phase = .decode) (hp : env.PhaseOk r)
    (hn : out.rows.length = prior.length) :
    decodeOne (view env) true (prior.map toDecode) (toDecode r) out = .ok out' ↔
      LoopOk env r ∧ (∀ p ∈ prior, ApartSlots p r) ∧
        out.rows.length + r.tokens.length ≤ env.rowCapacity ∧ out.rows.length < 2 ^ 32 ∧
        out' = out.push env r := by
  have h1 : r.tokens.length = 1 := by
    unfold TokenBatch.Env.PhaseOk at hp
    simp only [hk] at hp
    exact hp.1
  have hap := @apart_iff r prior _ toDecode DecodeRequest.slot DecodeRequest.stateSlot
    (fun _ => rfl) fun _ => rfl
  unfold decodeOne
  rw [push_decode hk h1 hn, length_map]
  constructor
  · intro h
    obtain ⟨g, h⟩ := require_bind.mp h
    obtain ⟨g1, g2, g3⟩ := of_decide_eq_true g
    obtain ⟨stop, e2, h⟩ := bind_ok.mp h
    obtain ⟨h2, rfl⟩ := (start_stop h1).mp e2
    obtain ⟨h3, h⟩ := require_bind.mp h
    obtain ⟨h3, h4⟩ := of_decide_eq_true h3
    obtain ⟨m, e5, h⟩ := bind_ok.mp h
    obtain ⟨h5, rfl⟩ := tryI32_ok.mp e5
    obtain ⟨row0, e6, h⟩ := bind_ok.mp h
    obtain ⟨h6, rfl⟩ := tryU32_ok.mp e6
    refine ⟨⟨g1, g2, by omega, h2, h3, fun _ => h5⟩, hap.mp g3, ?_, by omega, ?_⟩
    · rw [h1]
      exact h4
    · exact (pure_ok.mp h).symm
  · rintro ⟨hr, hf, hc, h32, rfl⟩
    rw [h1] at hc
    refine require_bind.mpr ⟨decide_eq_true ⟨hr.slot, hr.stateSlot, hap.mpr hf⟩, ?_⟩
    refine bind_ok.mpr ⟨_, (start_stop h1).mpr ⟨hr.fits, rfl⟩, ?_⟩
    refine require_bind.mpr ⟨decide_eq_true ⟨hr.ctx, hc⟩, ?_⟩
    have h31 := hr.sampled (sampled_decode hk h1).1
    refine bind_ok.mpr ⟨_, tryI32_ok.mpr ⟨h31, rfl⟩, ?_⟩
    exact bind_ok.mpr ⟨_, tryU32_ok.mpr ⟨hn ▸ h32, rfl⟩, rfl⟩

theorem push_prefill (hk : r.phase = .prefill) (ht : 0 < r.tokens.length) :
    out.push env r =
      { out with
        prefillSpans := out.prefillSpans ++ [{
          row0 := out.rows.length, nRows := r.tokens.length, slot := r.slot
          flags := resetFlag (env.start r) ||| if env.done r then prefillSpanSample else 0
          kvRow0 := env.start r, kvLen := env.stop r, stateSlot := r.stateSlot
          program := env.program }]
        rows := out.rows ++ chunkRows r.slot r.stateSlot (env.start r) r.tokens
        decodeSlots := out.decodeSlots ++ (if env.done r then some (r.slot : Int) else none).toList
        sampleInputRows := out.sampleInputRows ++
          if env.done r then [out.rows.length + r.tokens.length - 1] else []
        commits := out.commits ++ [⟨r.slot, env.start r, env.stop r⟩]
        mappedEnds := out.mappedEnds ++ [(r.slot, env.stop r)] } := by
  unfold Plan.push rowsOf flagsOf TokenBatch.Env.span
  rw [sampled_prefill hk, hk]
  cases env.done r with
  | false => rfl
  | true =>
    have e : out.rows.length + r.tokens.length - 1 = out.rows.length + (r.tokens.length - 1) := by
      omega
    simp only [if_true, e]
    rfl

theorem prefillOne_iff (hk : r.phase = .prefill) (hp : env.PhaseOk r) :
    prefillOne (view env) true (ds.map toDecode) (ps.map (toPrefill env)) (toPrefill env r) out =
        .ok out' ↔ LoopOk env r ∧ (∀ p ∈ ds ++ ps, ApartSlots p r) ∧
        out.rows.length + r.tokens.length ≤ env.rowCapacity ∧ out.rows.length < 2 ^ 32 ∧
        out' = out.push env r := by
  have hle : env.stop r ≤ r.promptLen := by
    unfold TokenBatch.Env.PhaseOk at hp
    simpa only [hk] using hp
  have hdone : (true && env.stop r == r.promptLen) = env.done r := by
    unfold TokenBatch.Env.done
    rw [hk, Bool.true_and]
  have hap : (!((ds.map toDecode).any (fun p => decide (p.slot = r.slot)) ||
        (ps.map (toPrefill env)).any fun p => decide (p.slot = r.slot))) = true ∧
      (!((ds.map toDecode).any (fun p => decide (p.stateSlot = r.stateSlot)) ||
        (ps.map (toPrefill env)).any fun p => decide (p.stateSlot = r.stateSlot))) = true ↔
      ∀ p ∈ ds ++ ps, ApartSlots p r := by
    have h1 := @apart_iff r ds _ toDecode DecodeRequest.slot DecodeRequest.stateSlot
      (fun _ => rfl) fun _ => rfl
    have h2 := @apart_iff r ps _ (toPrefill env) PrefillRequest.slot PrefillRequest.stateSlot
      (fun _ => rfl) fun _ => rfl
    rw [forall_mem_append, ← h1, ← h2, Bool.not_or, Bool.not_or, Bool.and_eq_true,
      Bool.and_eq_true]
    tauto
  unfold prefillOne
  constructor
  · intro h
    obtain ⟨g, h⟩ := require_bind.mp h
    obtain ⟨g1, g2, g3⟩ := of_decide_eq_true g
    obtain ⟨n, e1, h⟩ := bind_ok.mp h
    obtain ⟨-, rfl⟩ := tryU32_ok.mp e1
    obtain ⟨stop, e2, h⟩ := bind_ok.mp h
    obtain ⟨h2, rfl⟩ := (start_stop rfl).mp e2
    obtain ⟨h3, h⟩ := require_bind.mp h
    obtain ⟨ht, -, -, hctx, hc⟩ := of_decide_eq_true h3
    obtain ⟨row0, e4, h⟩ := bind_ok.mp h
    obtain ⟨h4, rfl⟩ := tryU32_ok.mp e4
    obtain ⟨o, e5, h⟩ := bind_ok.mp h
    obtain ⟨h5, rfl⟩ := sampledSlot_ok.mp e5
    refine ⟨⟨g1, g2, ht, h2, hctx, fun hd => h5 (hdone.trans hd)⟩, hap.mp g3, hc, h4, ?_⟩
    rw [push_prefill hk ht, ← hdone]
    exact (pure_ok.mp h).symm
  · rintro ⟨hr, hf, hc, h32, rfl⟩
    have h5 : r.tokens.length < 2 ^ 32 := by
      have := hr.fits
      unfold TokenBatch.Env.stop at this
      omega
    refine require_bind.mpr ⟨decide_eq_true ⟨hr.slot, hr.stateSlot, hap.mpr hf⟩, ?_⟩
    refine bind_ok.mpr ⟨_, tryU32_ok.mpr ⟨h5, rfl⟩, ?_⟩
    refine bind_ok.mpr ⟨_, (start_stop rfl).mpr ⟨hr.fits, rfl⟩, ?_⟩
    refine require_bind.mpr ⟨decide_eq_true ⟨hr.tokens, rfl, hle, hr.ctx, hc⟩, ?_⟩
    refine bind_ok.mpr ⟨_, tryU32_ok.mpr ⟨h32, rfl⟩, ?_⟩
    have h31 : (true && env.stop r == r.promptLen) = true → r.slot < 2 ^ 31 :=
      fun hd => hr.sampled (hdone.symm.trans hd)
    refine bind_ok.mpr ⟨_, sampledSlot_ok.mpr ⟨h31, rfl⟩, ?_⟩
    rw [push_prefill hk hr.tokens, ← hdone]
    rfl

theorem isLoop_decodeLoop (env : TokenBatch.Env) :
    IsLoop (fun prior rs out => decodeLoop (view env) true (prior.map toDecode) (rs.map toDecode) out)
      (fun prior r out => decodeOne (view env) true (prior.map toDecode) (toDecode r) out) where
  nil _ _ := rfl
  cons prior r rs out := by
    rw [map_cons, decodeLoop, map_append]
    rfl

theorem isLoop_prefillLoop (env : TokenBatch.Env) (ds : List DecodeRequest) : IsLoop
      (fun prior rs out => prefillLoop (view env) true ds (prior.map (toPrefill env))
        (rs.map (toPrefill env)) out)
      (fun prior r out => prefillOne (view env) true ds (prior.map (toPrefill env))
        (toPrefill env r) out) where
  nil _ _ := rfl
  cons prior r rs out := by
    rw [map_cons, prefillLoop, map_append]
    rfl

theorem length_push (hp : env.PhaseOk r) :
    (out.push env r).rows.length = out.rows.length + r.tokens.length := by
  rw [Plan.push, length_append, length_rowsOf hp]

theorem turns_decodeOne (env : TokenBatch.Env) :
    Turns (fun prior r out => decodeOne (view env) true (prior.map toDecode) (toDecode r) out)
      (LoopOk env) (fun r => r.phase = .decode ∧ env.PhaseOk r) ApartSlots (TokenBatch.Room env)
      (·.tokens.length) (Plan.push env) (·.rows.length)
      fun prior out => out.rows.length = prior.length where
  turn hn hp := by rw [decodeOne_iff hp.1 hp.2 hn, TokenBatch.Room, and_assoc]
  inv {prior r out} hn hp := by
    have h1 : r.tokens.length = 1 := by
      have := hp.2
      unfold TokenBatch.Env.PhaseOk at this
      simp only [hp.1] at this
      exact this.1
    rw [length_push hp.2, length_append, length_singleton, hn, h1]
  room hp := length_push hp.2

theorem turns_prefillOne (env : TokenBatch.Env) (ds : List Request) : Turns
      (fun prior r out => prefillOne (view env) true (ds.map toDecode) (prior.map (toPrefill env))
        (toPrefill env r) out) (fun r => LoopOk env r ∧ ∀ p ∈ ds, ApartSlots p r)
      (fun r => r.phase = .prefill ∧ env.PhaseOk r) ApartSlots (TokenBatch.Room env)
      (·.tokens.length) (Plan.push env) (·.rows.length) fun _ _ => True where
  turn _ hp := by
    rw [prefillOne_iff hp.1 hp.2, TokenBatch.Room, forall_mem_append]
    simp only [and_assoc]
  inv _ _ := trivial
  room hp := length_push hp.2

/-- the two loops, one after the other -/
def loops (env : TokenBatch.Env) (ds ps : List Request) (out : Plan) : Plans Plan := do
  let out ← decodeLoop (view env) true [] (ds.map toDecode) out
  prefillLoop (view env) true (ds.map toDecode) [] (ps.map (toPrefill env)) out

theorem room_iff (hcap : env.rowCapacity < 2 ^ 32) (n l : Nat) :
    TokenBatch.Room env n l ↔ n + l ≤ env.rowCapacity := by
  unfold TokenBatch.Room
  omega

theorem length_foldl_push (hp : ∀ r ∈ rs, env.PhaseOk r) :
    (rs.foldl (Plan.push env) out).rows.length = out.rows.length + (rowLens rs).sum := by
  induction rs generalizing out with
  | nil => rfl
  | cons r rs ih =>
    obtain ⟨h0, hp⟩ := forall_mem_cons.mp hp
    rw [foldl_cons, ih hp, length_push h0, rowLens, rowLens, map_cons, sum_cons,
      add_assoc]

theorem decodeLoop_iff (hcap : env.rowCapacity < 2 ^ 32)
    (hd : ∀ r ∈ ds, r.phase = .decode ∧ env.PhaseOk r) (hout : out.rows = []) :
    decodeLoop (view env) true [] (ds.map toDecode) out = .ok out' ↔
      (∀ r ∈ ds, LoopOk env r) ∧ ds.Pairwise ApartSlots ∧
        (rowLens ds).sum ≤ env.rowCapacity ∧ out' = ds.foldl (Plan.push env) out := by
  have hz : out.rows.length = 0 := by rw [hout, length_nil]
  have h := (isLoop_decodeLoop env).iff (turns_decodeOne env) [] out out' hz hd
  rw [map_nil] at h
  rw [h, guarded_iff (room_iff hcap), hz, zero_add]
  constructor
  · rintro ⟨⟨h1, _, h2, h3⟩, h4⟩
    refine ⟨h1, h2, ?_, h4⟩
    by_cases hn : ds = []
    · rw [hn]
      exact Nat.zero_le _
    · exact h3 hn
  · rintro ⟨h1, h2, h3, h4⟩
    exact ⟨⟨h1, by simp, h2, fun _ => h3⟩, h4⟩

theorem prefillLoop_iff (hcap : env.rowCapacity < 2 ^ 32)
    (hp : ∀ r ∈ ps, r.phase = .prefill ∧ env.PhaseOk r) (hfit : out.rows.length ≤ env.rowCapacity) :
    prefillLoop (view env) true (ds.map toDecode) [] (ps.map (toPrefill env)) out = .ok out' ↔
      (∀ r ∈ ps, LoopOk env r) ∧ (∀ d ∈ ds, ∀ r ∈ ps, ApartSlots d r) ∧
        ps.Pairwise ApartSlots ∧ out.rows.length + (rowLens ps).sum ≤ env.rowCapacity ∧
        out' = ps.foldl (Plan.push env) out := by
  have h := (isLoop_prefillLoop env (ds.map toDecode)).iff (turns_prefillOne env ds) [] out out'
    trivial hp
  rw [map_nil] at h
  rw [h, guarded_iff (room_iff hcap)]
  constructor
  · rintro ⟨⟨h1, _, h2, h3⟩, h4⟩
    refine ⟨fun r hr => (h1 r hr).1, fun d hd r hr => (h1 r hr).2 d hd, h2, ?_, h4⟩
    by_cases hn : ps = []
    · rw [hn]
      exact hfit
    · exact h3 hn
  · rintro ⟨h1, h2, h3, h4, h5⟩
    exact ⟨⟨fun r hr => ⟨h1 r hr, fun d hd => h2 d hd r hr⟩, by simp, h3, fun _ => h4⟩, h5⟩

theorem loops_iff (hcap : env.rowCapacity < 2 ^ 32)
    (hd : ∀ r ∈ ds, r.phase = .decode ∧ env.PhaseOk r)
    (hp : ∀ r ∈ ps, r.phase = .prefill ∧ env.PhaseOk r) (hout : out.rows = []) :
    loops env ds ps out = .ok out' ↔
      (∀ r ∈ ds ++ ps, LoopOk env r) ∧ (ds ++ ps).Pairwise ApartSlots ∧
        (rowLens (ds ++ ps)).sum ≤ env.rowCapacity ∧
        out' = (ds ++ ps).foldl (Plan.push env) out := by
  have hlen : (ds.foldl (Plan.push env) out).rows.length = (rowLens ds).sum := by
    rw [length_foldl_push fun r hr => (hd r hr).2, hout, length_nil, zero_add]
  have hsum : (rowLens (ds ++ ps)).sum = (rowLens ds).sum + (rowLens ps).sum := by
    rw [rowLens, map_append, sum_append]
    rfl
  unfold loops
  rw [bind_ok, forall_mem_append, pairwise_append, foldl_append, hsum]
  constructor
  · rintro ⟨o, h1, h2⟩
    obtain ⟨d1, d2, d3, rfl⟩ := (decodeLoop_iff hcap hd hout).mp h1
    obtain ⟨p1, p2, p3, p4, rfl⟩ := (prefillLoop_iff hcap hp (hlen ▸ d3)).mp h2
    exact ⟨⟨d1, p1⟩, ⟨d2, p3, p2⟩, hlen ▸ p4, rfl⟩
  · rintro ⟨⟨d1, p1⟩, ⟨d2, p3, p2⟩, p4, he⟩
    have d3 : (rowLens ds).sum ≤ env.rowCapacity := by omega
    refine ⟨_, (decodeLoop_iff hcap hd hout).mpr ⟨d1, d2, d3, rfl⟩, ?_⟩
    exact (prefillLoop_iff hcap hp (hlen ▸ d3)).mpr ⟨p1, p2, p3, hlen ▸ p4, he⟩

end Plow.MixedStep
