import Plow.TokenBatch.Resolver

/-!
# What the planner accepts, and what it builds

`planOne` accepts a request if and only if it is `Admitted` and fits the rows that are left, and
then it does `push`.  So a whole run of the loop is a fold of `push` (`planLoop_iff`), and the
fold is known field by field (`foldl_push`): every table of the plan is a concatenation over the
scheduled requests.
-/

namespace Plow.TokenBatch
open Plow.Lib List

variable {reason : String} {α : Type} {c : Bool}

theorem require_ok : require c reason = .ok () ↔ c = true := by
  unfold require
  split
  · next h => exact ⟨fun _ => h, fun _ => rfl⟩
  · next h => exact ⟨(fun e => nomatch e), fun e => absurd e h⟩

theorem require_bind {x : Plans α} {a : α} :
    (require c reason >>= fun _ => x) = .ok a ↔ c = true ∧ x = .ok a := by
  rw [bind_ok]
  constructor
  · rintro ⟨⟨⟩, h, hx⟩
    exact ⟨require_ok.mp h, hx⟩
  · rintro ⟨h, hx⟩
    exact ⟨(), require_ok.mpr h, hx⟩

theorem tryU32_ok {n m : Nat} : tryU32 n reason = .ok m ↔ n < 2 ^ 32 ∧ m = n := by
  unfold tryU32
  split
  · next h => exact ⟨fun e => ⟨h, (Except.ok.inj e).symm⟩, fun e => by rw [e.2]⟩
  · next h => exact ⟨(fun e => nomatch e), fun e => absurd e.1 h⟩

namespace Env
variable (env : Env) (r : Request)

def start : Nat := env.frontiers.getD r.slot 0

def stop : Nat := env.start r + r.tokens.length

def done : Bool :=
  match r.phase with
  | .prefill => env.stop r == r.promptLen
  | _ => true

def sampled : List Nat :=
  if env.done r then
    match r.phase with
    | .verify => List.range r.tokens.length
    | _ => [r.tokens.length - 1]
  else []

def owner (r : Request) : SampleOwner := ⟨r.id, r.slot, r.generation, r.selection⟩

/-- the span of the request from the row `row0` on -/
def span (row0 : Nat) : PrefillSpan where
  row0
  nRows := r.tokens.length
  slot := r.slot
  flags := if env.start r = 0 then prefillSpanResetState else 0
  kvRow0 := env.start r
  kvLen := env.stop r
  stateSlot := r.stateSlot
  program := env.program

/-- the commit of the request, whose samples begin at `s` -/
def commit (s : Nat) : PendingCommit where
  request := r.id
  slot := r.slot
  generation := r.generation
  expectedFrontier := env.start r
  newFrontier := env.stop r
  completesPrompt := env.done r
  sampleIndex := if env.done r then some s else none

/-- what a phase asks of a request -/
def PhaseOk : Prop :=
  match r.phase with
  | .decode => r.tokens.length = 1 ∧ env.start r ≥ r.promptLen ∧ r.promptLen > 0
  | .prefill => env.stop r ≤ r.promptLen
  | .verify => env.start r ≥ r.promptLen ∧ r.promptLen > 0

end Env

def Apart (p r : Request) : Prop := p.id ≠ r.id ∧ p.slot ≠ r.slot ∧ p.stateSlot ≠ r.stateSlot

/-- what the planner asks of one request -/
structure Admitted (env : Env) (r : Request) : Prop where
  selection : r.selection.validate = .ok ()
  slot : r.slot < env.frontiers.length
  stateSlot : r.stateSlot < env.frontiers.length
  generation : env.generations.getD r.slot 0 = r.generation
  tokens : 0 < r.tokens.length
  fits : env.stop r < 2 ^ 32
  ctx : env.stop r ≤ env.maxCtx
  phase : env.PhaseOk r

/-- what one turn of the loop adds -/
def Plan.push (env : Env) (out : Plan) (r : Request) : Plan :=
  { out with
    spans := out.spans ++ [env.span r out.inputIds.length]
    phases := out.phases ++ [r.phase]
    inputIds := out.inputIds ++ r.tokens
    positions := out.positions ++ (List.range r.tokens.length).map (env.start r + ·)
    active := out.active ++ List.replicate r.tokens.length 1
    sampleInputRows := out.sampleInputRows ++ (env.sampled r).map (out.inputIds.length + ·)
    sampleOwners := out.sampleOwners ++ (env.sampled r).map fun _ => Env.owner r
    pending := out.pending ++ [env.commit r out.sampleInputRows.length] }

variable {env : Env} {r : Request} {prior rs : List Request} {out out' : Plan}

theorem completes_ok {done : Bool} :
    completes r r.tokens.length (env.start r) (env.stop r) = .ok done ↔
      env.PhaseOk r ∧ done = env.done r := by
  unfold completes Env.PhaseOk Env.done
  cases r.phase <;>
    simp only [require_bind, pure_ok, decide_eq_true_eq, eq_comm (a := done)]

theorem rows_eq {row0 : Nat} (ht : 0 < r.tokens.length) :
    (if env.done r then
        (range (r.tokens.length - if r.phase = .verify then 0 else r.tokens.length - 1)).map
          (row0 + (if r.phase = .verify then 0 else r.tokens.length - 1) + ·)
      else []) = (env.sampled r).map (row0 + ·) := by
  unfold Env.sampled
  split
  · cases r.phase with
    | verify => simp
    | decode | prefill =>
      have e : r.tokens.length - (r.tokens.length - 1) = 1 := by omega
      simp [e]
  · rfl

theorem fresh_iff : (!prior.any fun p => decide (p.id = r.id ∨ p.slot = r.slot ∨
    p.stateSlot = r.stateSlot)) = true ↔ ∀ p ∈ prior, Apart p r := by
  simp [Apart, any_eq_false]

theorem okOrErr_ok {o : Option α} {a : α} : okOrErr o reason = .ok a ↔ o = some a := by
  cases o with
  | none => exact ⟨(fun h => nomatch h), (fun h => nomatch h)⟩
  | some x => exact ⟨fun h => by cases h; rfl, fun h => by cases h; rfl⟩

theorem stop_ok {stop : Nat} :
    okOrErr (checkedAdd (env.start r) r.tokens.length) reason = .ok stop ↔
      env.stop r < 2 ^ 32 ∧ stop = env.stop r := okOrErr_ok.trans checkedAdd_some

theorem planOne_iff : planOne env prior r out = .ok out' ↔
      Admitted env r ∧ (∀ p ∈ prior, Apart p r) ∧
        out.inputIds.length + r.tokens.length ≤ env.rowCapacity ∧
        out.inputIds.length < 2 ^ 32 ∧ out' = out.push env r := by
  unfold planOne
  constructor
  · intro h
    obtain ⟨⟨⟩, h1, h⟩ := bind_ok.mp h
    obtain ⟨h2, h⟩ := require_bind.mp h
    obtain ⟨h3, h⟩ := require_bind.mp h
    obtain ⟨h4, h⟩ := require_bind.mp h
    obtain ⟨n, e5, h⟩ := bind_ok.mp h
    obtain ⟨-, rfl⟩ := tryU32_ok.mp e5
    obtain ⟨h6, h⟩ := require_bind.mp h
    obtain ⟨stop, e7, h⟩ := bind_ok.mp h
    obtain ⟨h7, rfl⟩ := stop_ok.mp e7
    obtain ⟨h8, h⟩ := require_bind.mp h
    obtain ⟨h9, h⟩ := require_bind.mp h
    obtain ⟨done, e10, h⟩ := bind_ok.mp h
    obtain ⟨h10, rfl⟩ := completes_ok.mp e10
    obtain ⟨row0, e11, h⟩ := bind_ok.mp h
    obtain ⟨h11, rfl⟩ := tryU32_ok.mp e11
    simp only [decide_eq_true_eq] at h2 h4 h6 h8 h9
    refine ⟨⟨h1, h2.1, h2.2, h4, h6, h7, h8, h10⟩, fresh_iff.mp h3, h9, h11, ?_⟩
    have h := pure_ok.mp h
    simp only [rows_eq h6] at h
    rw [← h, Plan.push, map_map]
    rfl
  · rintro ⟨ha, hf, hc, hn, rfl⟩
    have hlen : r.tokens.length < 2 ^ 32 := by
      have := ha.fits
      unfold Env.stop at this
      omega
    refine bind_ok.mpr ⟨(), ha.selection, ?_⟩
    refine require_bind.mpr ⟨decide_eq_true ⟨ha.slot, ha.stateSlot⟩, ?_⟩
    refine require_bind.mpr ⟨fresh_iff.mpr hf, ?_⟩
    refine require_bind.mpr ⟨decide_eq_true ha.generation, ?_⟩
    refine bind_ok.mpr ⟨_, tryU32_ok.mpr ⟨hlen, rfl⟩, ?_⟩
    refine require_bind.mpr ⟨decide_eq_true ha.tokens, ?_⟩
    refine bind_ok.mpr ⟨_, stop_ok.mpr ⟨ha.fits, rfl⟩, ?_⟩
    refine require_bind.mpr ⟨decide_eq_true ha.ctx, ?_⟩
    refine require_bind.mpr ⟨decide_eq_true hc, ?_⟩
    refine bind_ok.mpr ⟨_, completes_ok.mpr ⟨ha.phase, rfl⟩, ?_⟩
    refine bind_ok.mpr ⟨_, tryU32_ok.mpr ⟨hn, rfl⟩, pure_ok.mpr ?_⟩
    simp only [rows_eq ha.tokens]
    rw [Plan.push, map_map]
    rfl

def Room (env : Env) (n l : Nat) : Prop := n + l ≤ env.rowCapacity ∧ n < 2 ^ 32

/-- what the loop asks of the requests, with `n` rows taken and `prior` requests planned -/
def Admits (env : Env) : List Request → List Request → Nat → Prop :=
  Guarded (Admitted env) Apart (Room env) (·.tokens.length)

theorem isLoop_planLoop (env : Env) : IsLoop (planLoop env) (planOne env) :=
  ⟨fun _ _ => rfl, fun _ _ _ _ => rfl⟩

theorem turns_planOne (env : Env) : Turns (planOne env) (Admitted env) (fun _ => True) Apart
    (Room env) (·.tokens.length) (Plan.push env) (·.inputIds.length) fun _ _ => True where
  turn _ _ := by rw [planOne_iff, Room, and_assoc]
  inv _ _ := trivial
  room _ := by simp [Plan.push]

theorem planLoop_iff : planLoop env prior rs out = .ok out' ↔
      Admits env prior rs out.inputIds.length ∧ out' = rs.foldl (Plan.push env) out :=
  (isLoop_planLoop env).iff (turns_planOne env) _ _ _ trivial fun _ _ => trivial

/-! ### The tables of a plan -/

def rowLens (rs : List Request) : List Nat := rs.map (·.tokens.length)

namespace Env

/-- the spans of the requests, from the row `n` on -/
def spansFrom (env : Env) : Nat → List Request → List PrefillSpan
  | _, [] => []
  | n, r :: rs => env.span r n :: env.spansFrom (n + r.tokens.length) rs

/-- the sampled rows of the requests, from the row `n` on -/
def samplesFrom (env : Env) : Nat → List Request → List Nat
  | _, [] => []
  | n, r :: rs => (env.sampled r).map (n + ·) ++ env.samplesFrom (n + r.tokens.length) rs

/-- the commits of the requests, from the sample `s` on -/
def commitsFrom (env : Env) : Nat → List Request → List PendingCommit
  | _, [] => []
  | s, r :: rs => env.commit r s :: env.commitsFrom (s + (env.sampled r).length) rs

def positions (env : Env) (r : Request) : List Nat :=
  (List.range r.tokens.length).map (env.start r + ·)

def owners (env : Env) (r : Request) : List SampleOwner := (env.sampled r).map fun _ => owner r

end Env

theorem foldl_push :
    rs.foldl (Plan.push env) out =
      { out with
        spans := out.spans ++ env.spansFrom out.inputIds.length rs
        phases := out.phases ++ rs.map (·.phase)
        inputIds := out.inputIds ++ rs.flatMap (·.tokens)
        positions := out.positions ++ rs.flatMap env.positions
        active := out.active ++ rs.flatMap fun r => replicate r.tokens.length 1
        sampleInputRows := out.sampleInputRows ++ env.samplesFrom out.inputIds.length rs
        sampleOwners := out.sampleOwners ++ rs.flatMap env.owners
        pending := out.pending ++ env.commitsFrom out.sampleInputRows.length rs } := by
  induction rs generalizing out with
  | nil => simp [Env.spansFrom, Env.samplesFrom, Env.commitsFrom]
  | cons r rs ih =>
    rw [foldl_cons, ih]
    simp [Plan.push, Env.spansFrom, Env.samplesFrom, Env.commitsFrom, Env.positions, Env.owners]

end Plow.TokenBatch
