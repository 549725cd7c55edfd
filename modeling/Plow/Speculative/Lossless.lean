import Plow.Speculative.Accept

/-!
# Speculative decoding emits plain decode's tokens

A request is decoded in rounds.  A round takes the pending token (the last token emitted, or the
prompt's last) and some drafts, verifies them, emits the verdict's tokens and keeps as many KV rows
of the span as it emitted.

* `Request.plain`     one token at a time, until the first stop token;
* `Request.round`     one speculative round, with either acceptance function;
* `Request.Ok`        the invariant of a run: what was emitted is plain decode's, and the kept rows
                      were computed on the prompt and the emitted tokens;
* `rounds_emit_plain` every run of rounds, of any depths and any drafts.
-/

namespace Plow.Speculative

open List

/-- A request to a deterministic model.  The prompt is not empty; `last` is its last token. -/
structure Request where
  next : List Token → List Token → Token
  init : List Token
  last : Token
  stop : List Token

namespace Request

def prompt (r : Request) : List Token := r.init ++ [r.last]

def target (r : Request) : Target := r.next r.prompt

def stopped (r : Request) (out : List Token) : Bool :=
  match out.getLast? with
  | none => false
  | some t => t ∈ r.stop

/-- plain decode: up to `n` tokens, until the first stop -/
def plain (r : Request) : Nat → List Token
  | 0 => []
  | n + 1 => if r.stopped (r.plain n) then r.plain n else r.plain n ++ [r.target (r.plain n)]

def pending (r : Request) (out : List Token) : Token := (out.getLast?).getD r.last

end Request

/-- how a span's verify rows choose their tokens -/
inductive SpecDraw
  | argmax
  | host
  deriving DecidableEq, Repr

/-- What a round is started with: the drafter's proposal and the launch's bookkeeping. -/
structure Round where
  draw : SpecDraw
  drafts : List Token
  row0 : UInt32
  reqGen : UInt32
  depth : drafts.length ≤ specKmax

/-- the tokens emitted so far and the tokens the committed KV rows were computed on -/
structure Slot where
  out : List Token
  kept : List Token
  deriving DecidableEq

/-- one verified round: the tokens emitted before it, its start and its verdict -/
structure Verified where
  before : List Token
  round : Round
  verdict : SpecVerdict

namespace Request

variable (r : Request)

def inputs (out : List Token) (x : Round) : List Token := r.pending out :: x.drafts

/-- the verdict of a round: row `j` is the target after the emitted tokens and the first `j`
drafts -/
def verify (out : List Token) (x : Round) : Option SpecVerdict :=
  match x.draw with
  | .argmax =>
    acceptGreedy (r.inputs out x) (r.target.rows out x.drafts) x.row0 x.reqGen r.stop
  | .host =>
    match acceptSampled (r.inputs out x)
        (fun j => (.ok (r.target (out ++ x.drafts.take j)) : Except Empty Token))
        x.row0 x.reqGen r.stop with
    | .error _ => none
    | .ok v => some v

/-- `spec_commit`: the span's first `n_emit` inputs now own committed KV rows -/
def specCommit (inputs : List Token) (s : Slot) (v : SpecVerdict) : Option Slot :=
  if v.nEmit = 0 ∨ v.nEmit > inputs.length then none
  else some ⟨s.out ++ v.emitted, s.kept ++ inputs.take v.nEmit⟩

def round (s : Slot) (x : Round) : Option (Slot × Verified) :=
  match r.verify s.out x with
  | none => none
  | some v =>
    match specCommit (r.inputs s.out x) s v with
    | none => none
    | some s' => some (s', ⟨s.out, x, v⟩)

/-- the rounds of a request, until one ends in a stop token -/
def decode : Slot → List Round → Option (Slot × List Verified)
  | s, [] => some (s, [])
  | s, x :: xs =>
    if r.stopped s.out then some (s, [])
    else
      match r.round s x with
      | none => none
      | some (s', w) =>
        match decode s' xs with
        | none => none
        | some (s'', ws) => some (s'', w :: ws)

def start : Slot := ⟨[], r.init⟩

/-! ### One round -/

/-- what a verdict says about its round -/
structure RoundOk (w : Verified) : Prop where
  /-- between one token and `k + 1` -/
  pos : 1 ≤ w.verdict.nEmit
  le : w.verdict.nEmit ≤ w.round.drafts.length + 1
  emitted : w.verdict.emitted.length = w.verdict.nEmit
  /-- the emitted tokens that are drafts -/
  acc : w.verdict.nAcc = draftsEmitted w.verdict.emitted w.round.drafts
  /-- `hrow` is the verify row whose token was emitted last -/
  hrow : ∃ j, w.verdict.hrow = w.round.row0 + .ofNat j ∧ j ≤ w.round.drafts.length ∧
    w.verdict.emitted.getLast? = some (r.target (w.before ++ w.round.drafts.take j))
  /-- the kept rows are those of the inputs that were emitted before the last token -/
  kept : (r.inputs w.before w.round).take w.verdict.nEmit =
    r.pending w.before :: w.verdict.emitted.dropLast
  flags : w.verdict.flags = if r.stopped (w.before ++ w.verdict.emitted) then verdictStop else 0

variable {r}

/-- both acceptance functions emit the target's tokens -/
theorem verify_eq (out : List Token) (x : Round) :
    ∃ v, r.verify out x = some v ∧ v.emitted = r.target.emit r.stop out x.drafts ∧
      v.nEmit = (r.target.emit r.stop out x.drafts).length ∧
      v.nAcc = draftsEmitted (r.target.emit r.stop out x.drafts) x.drafts ∧
      v.hrow = x.row0 + .ofNat v.nEmit - 1 ∧
      v.flags = if ∃ t ∈ v.emitted, t ∈ r.stop then verdictStop else 0 := by
  have of_rows : ∀ rows, RowsOk r.target r.stop out x.drafts rows →
      ∃ v, acceptGreedy (r.inputs out x) rows x.row0 x.reqGen r.stop = some v ∧
        v.emitted = r.target.emit r.stop out x.drafts ∧
        v.nEmit = (r.target.emit r.stop out x.drafts).length ∧
        v.nAcc = draftsEmitted (r.target.emit r.stop out x.drafts) x.drafts ∧
        v.hrow = x.row0 + .ofNat v.nEmit - 1 ∧
        v.flags = if ∃ t ∈ v.emitted, t ∈ r.stop then verdictStop else 0 := by
    intro rows hok
    obtain ⟨v, hv, he, hn, ha, hh, -, hf⟩ :=
      acceptGreedy_eq (r.pending out) x.row0 x.reqGen r.stop
        x.depth hok.length
    rw [through_accepted hok] at he hn
    exact ⟨v, hv, he, hn, by rw [ha, hn, min_acceptedPrefix hok], hh, hf⟩
  unfold verify
  cases x.draw with
  | argmax => exact of_rows _ (rowsOk_rows _ _ _ _)
  | host =>
    obtain ⟨rows, hs, hok⟩ := rowsOk_sampleRows r.target r.stop out x.drafts
      (fun j => (.ok (r.target (out ++ x.drafts.take j)) : Except Empty Token)) 0
      (fun i _ => by rw [Nat.zero_add])
    obtain ⟨v, hv, h⟩ := of_rows rows hok
    refine ⟨v, ?_, h⟩
    have e : acceptSampled (r.inputs out x)
        (fun j => (.ok (r.target (out ++ x.drafts.take j)) : Except Empty Token))
        x.row0 x.reqGen r.stop = .ok v := by
      unfold acceptSampled
      rw [show r.inputs out x = r.pending out :: x.drafts from rfl] at hv ⊢
      simp only [x.depth, if_true, hs, hv]
    simp only [e]

/-! ### The emitted tokens are plain decode's -/

/-- the tokens `ts` are what plain decode emits after `out`, and none but the last is a stop -/
def Follows (r : Request) : List Token → List Token → Prop
  | _, [] => True
  | out, t :: ts => t = r.target out ∧ (ts ≠ [] → t ∉ r.stop) ∧ Follows r (out ++ [t]) ts

theorem follows_emit (out ds : List Token) : Follows r out (r.target.emit r.stop out ds) := by
  induction ds generalizing out with
  | nil => exact ⟨rfl, fun h => absurd rfl h, trivial⟩
  | cons d ds ih =>
    unfold Target.emit
    split
    · next hc =>
      refine ⟨rfl, fun _ => hc.2, ?_⟩
      rw [hc.1]
      exact ih (out ++ [d])
    · exact ⟨rfl, fun h => absurd rfl h, trivial⟩

@[simp] theorem stopped_nil : r.stopped [] = false := rfl

@[simp] theorem stopped_append (out : List Token) (t : Token) :
    r.stopped (out ++ [t]) = decide (t ∈ r.stop) := by
  simp [stopped]

theorem plain_of_follows {out ts : List Token} (h : Follows r out ts) (hs : r.stopped out = false)
    (hp : out = r.plain out.length) : out ++ ts = r.plain (out ++ ts).length := by
  induction ts generalizing out with
  | nil => simpa using hp
  | cons t ts ih =>
    obtain ⟨ht, hn, h'⟩ := h
    have hstep : out ++ [t] = r.plain (out ++ [t]).length := by
      rw [length_append, length_singleton]
      unfold plain
      rw [← hp, hs, ht]
      rfl
    by_cases he : ts = []
    · rw [he]
      exact hstep
    · have h1 := ih h' (by simpa using hn he) hstep
      simpa using h1

theorem stop_last {out ts : List Token} (h : Follows r out ts) (hne : ts ≠ []) :
    (∃ t ∈ ts, t ∈ r.stop) ↔ r.stopped (out ++ ts) = true := by
  induction ts generalizing out with
  | nil => exact absurd rfl hne
  | cons t ts ih =>
    obtain ⟨-, hn, h'⟩ := h
    by_cases he : ts = []
    · subst he
      simp
    · have h1 := ih h' he
      rw [append_assoc, singleton_append] at h1
      rw [← h1]
      simp [hn he]

/-! ### The run -/

/-- The invariant of a run. -/
structure Ok (r : Request) (s : Slot) : Prop where
  out : s.out = r.plain s.out.length
  kept : s.kept ++ [r.pending s.out] = r.prompt ++ s.out

theorem ok_start : r.Ok r.start := ⟨rfl, by simp [start, pending, prompt]⟩

/-- A round from a state that has not stopped. -/
theorem round_ok {s : Slot} (h : r.Ok s) (hs : r.stopped s.out = false) (x : Round) :
    ∃ s' w, r.round s x = some (s', w) ∧ r.Ok s' ∧ r.RoundOk w ∧ s.out.length < s'.out.length := by
  obtain ⟨v, hv, he, hn, ha, hh, hf⟩ := verify_eq (r := r) s.out x
  obtain ⟨m, hm, em⟩ := r.target.emit_eq r.stop s.out x.drafts
  have hF := follows_emit (r := r) s.out x.drafts
  have hlen : v.nEmit = m + 1 := by
    rw [hn, em, length_append, length_take, length_singleton, Nat.min_eq_left hm]
  have hkept : (r.inputs s.out x).take v.nEmit = r.pending s.out :: v.emitted.dropLast := by
    rw [hlen, he, em, dropLast_concat]
    rfl
  have hcommit : specCommit (r.inputs s.out x) s v =
      some ⟨s.out ++ v.emitted, s.kept ++ (r.inputs s.out x).take v.nEmit⟩ := by
    refine if_neg ?_
    rw [show r.inputs s.out x = r.pending s.out :: x.drafts from rfl, length_cons]
    omega
  refine ⟨⟨s.out ++ v.emitted, s.kept ++ (r.inputs s.out x).take v.nEmit⟩, ⟨s.out, x, v⟩, ?_,
    ⟨?_, ?_⟩, ?_, ?_⟩
  · simp only [round, hv, hcommit]
  · show s.out ++ v.emitted = r.plain (s.out ++ v.emitted).length
    rw [he]
    exact plain_of_follows hF hs h.out
  · show s.kept ++ (r.inputs s.out x).take v.nEmit ++ [r.pending (s.out ++ v.emitted)] =
      r.prompt ++ (s.out ++ v.emitted)
    have hlast : r.pending (s.out ++ v.emitted) = r.target (s.out ++ x.drafts.take m) := by
      rw [he, em, ← append_assoc]
      simp [pending]
    rw [hkept, hlast, ← append_assoc r.prompt, ← h.kept, he, em]
    simp
  · refine ⟨?_, ?_, by rw [he, hn], by rw [ha, he], ⟨m, ?_, hm, ?_⟩, hkept, ?_⟩
    · show 1 ≤ v.nEmit
      omega
    · show v.nEmit ≤ x.drafts.length + 1
      omega
    · show v.hrow = x.row0 + .ofNat m
      rw [hh, hlen, UInt32.ofNat_add, ← UInt32.add_assoc]
      exact UInt32.add_sub_cancel _ _
    · show v.emitted.getLast? = _
      rw [he, em]
      simp
    · show v.flags = if r.stopped (s.out ++ v.emitted) then verdictStop else 0
      have hne : v.emitted ≠ [] := by
        rw [he, em]
        simp
      rw [hf]
      refine if_congr ?_ rfl rfl
      rw [he] at hne ⊢
      exact stop_last hF hne
  · show s.out.length < (s.out ++ v.emitted).length
    rw [length_append, he, ← hn]
    omega

theorem decode_ok {s : Slot} (h : r.Ok s) (xs : List Round) :
    ∃ s' ws, r.decode s xs = some (s', ws) ∧ r.Ok s' ∧ (∀ w ∈ ws, r.RoundOk w) ∧
      (r.stopped s'.out = true ∨ s.out.length + xs.length ≤ s'.out.length) := by
  induction xs generalizing s with
  | nil => exact ⟨s, [], rfl, h, by simp, Or.inr (Nat.le_refl _)⟩
  | cons x xs ih =>
    unfold decode
    cases hs : r.stopped s.out with
    | true => exact ⟨s, [], rfl, h, by simp, Or.inl hs⟩
    | false =>
      obtain ⟨s₁, w, h1, ho, hw, hlt⟩ := round_ok h hs x
      obtain ⟨s₂, ws, h2, ho', hws, hd⟩ := ih ho
      refine ⟨s₂, w :: ws, by simp [h1, h2], ho', ?_, ?_⟩
      · intro w' hw'
        rcases mem_cons.mp hw' with rfl | hin
        · exact hw
        · exact hws w' hin
      · refine hd.imp id fun hle => ?_
        rw [length_cons]
        omega

/-- Rounds of any depths, with any drafts and either acceptance, emit plain decode's tokens up to
and with its first stop, and keep one KV row for every token emitted. -/
theorem rounds_emit_plain (r : Request) (xs : List Round) :
    ∃ s ws, r.decode r.start xs = some (s, ws) ∧ s.out = r.plain s.out.length ∧
      (r.stopped s.out = true ∨ xs.length ≤ s.out.length) ∧
      s.kept ++ [r.pending s.out] = r.prompt ++ s.out ∧ ∀ w ∈ ws, r.RoundOk w := by
  obtain ⟨s, ws, hd, ho, hw, hl⟩ := decode_ok (r := r) ok_start xs
  refine ⟨s, ws, hd, ho.out, hl.imp id fun h => ?_, ho.kept, hw⟩
  simpa [start] using h

/-- two drafts are accepted, then the stop inside the second span ends the request -/
example :
    let r : Request := ⟨fun _ out => .ofNat (out.length + 1), [], 9, [4]⟩
    (r.decode r.start [⟨.host, [1, 2, 7], 0, 0, by decide⟩, ⟨.argmax, [4, 5], 0, 0, by decide⟩]).map
      (fun p => p.1) = some ⟨[1, 2, 3, 4], [9, 1, 2, 3]⟩ := by
  decide

end Request

end Plow.Speculative
