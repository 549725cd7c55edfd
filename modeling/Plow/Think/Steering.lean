import Plow.Think.Quantum

/-!
# Steering within a quantum

`nextBias` is the logit bias of the next token and `probeClose` the instruction to close a block early.
A chained quantum samples all its tokens with what held at its start.  From a trace, or before one, that
is what each of its tokens asks for; from the reply it is so while no token opens a block again, or at
least none of the block's tokens but the last asks for more (`steering_same_iff`).

Biases are exact rationals.
-/

namespace Plow.Think

open Lib List Option

namespace ThinkCtl

/-- the bias on the close marker near the end of a block's budget -/
def rampBias (t : ThinkCtl) : List (Token × ℚ) :=
  match t.lim.bias.closeRamp, t.lim.budget with
  | some (k, top), some budget =>
    let start := budget - k
    if start ≤ t.traceN ∧ k > 0 then
      [(t.m.closeId, top * (min (t.traceN - start + 1) k : Nat) / k)]
    else []
  | _, _ => []

/-- the `logit_bias` for the next token: the request's own, then the steering rules that hold -/
def nextBias (t : ThinkCtl) : List (Token × ℚ) :=
  let b := t.lim.bias
  if t.forcing.isSome then b.base
  else match t.phase with
    | .reply =>
      b.base ++ (if t.replyN < 2 then b.replyFirst else []) ++ (if b.banReopen then [(t.m.openId, -100)] else [])
    | .trace =>
      if t.lineEnd then
        let out := b.base ++ t.rampBias
        -- a zero bias: the step samples on the host, where `probeClose` reads the row
        if b.earlyExitRank.isSome && !out.any (·.1 = t.m.closeId) then out ++ [(t.m.closeId, 0)] else out
      else b.base
    | .deciding => b.base

def probeClose (t : ThinkCtl) : Option (Token × Nat) :=
  t.lim.bias.earlyExitRank.bind fun r =>
    if t.phase = .trace ∧ t.lineEnd = true ∧ t.forcing = none then some (t.m.closeId, r) else none

def steering (t : ThinkCtl) : List (Token × ℚ) × Option (Token × Nat) := (t.nextBias, t.probeClose)

variable {t t' t₀ : ThinkCtl} {j n : Nat} {e : Event} {out out' : List Token} {c : Commit}

/-! ### The ramp is far -/

/-- the ramp does not begin within the next `j` tokens -/
structure Far (j : Nat) (t : ThinkCtl) : Prop where
  trace : t.phase = .trace → ∀ k top b, t.lim.bias.closeRamp = some (k, top) → t.lim.budget = some b → 0 < k →
    t.traceN + j < b - k
  /-- the open marker, unless the label it starts is being read, and then the tokens before the ramp -/
  outside : t.phase ≠ .trace → ∀ k top b, t.lim.bias.closeRamp = some (k, top) → t.lim.budget = some b → 0 < k →
    j + (if t.channel.isSome then 1 else 0) ≤ b - k

theorem Far.le (h : t.Far j) (hn : n ≤ j) : t.Far n where
  trace := fun hp k top b hr hb hk => Nat.lt_of_le_of_lt (Nat.add_le_add_left hn _) (h.trace hp k top b hr hb hk)
  outside := fun hp k top b hr hb hk => Nat.le_trans (Nat.add_le_add_right hn _) (h.outside hp k top b hr hb hk)

theorem Far.phaseStep (h : t.Far (j + 1)) (sampled : Token) : (t.phaseStep sampled).1.Far j := by
  unfold ThinkCtl.phaseStep
  split
  · next hp =>
    have hin := h.trace hp
    split
    · refine ⟨nofun, fun _ k top b hr hb hk => ?_⟩
      have h1 := hin k top b hr hb hk
      show j + (if t.channel.isSome then 1 else 0) ≤ b - k
      split <;> omega
    · refine ⟨fun _ k top b hr hb hk => ?_, fun hp' => absurd hp hp'⟩
      have h1 := hin k top b hr hb hk
      show t.traceN + 1 + j < b - k
      omega
  · next hp =>
    have ho := h.outside hp
    split
    · refine ⟨fun _ k top b hr hb hk => ?_, fun hp' => absurd rfl hp'⟩
      have h1 := ho k top b hr hb hk
      show 0 + j < b - k
      omega
    · split <;>
      · refine ⟨nofun, fun _ k top b hr hb hk => ?_⟩
        have h1 := ho k top b hr hb hk
        show j + (if t.channel.isSome then 1 else 0) ≤ b - k
        omega

theorem Far.labelEnd (h : t.Far j) (hc : t.channel.isSome = true) (whole : Bool) :
    ((({ t with channel := none } : ThinkCtl)).labelEnd whole).Far j := by
  unfold ThinkCtl.labelEnd
  cases whole with
  | true =>
    simp only [if_true]
    split
    · next hp => exact ⟨h.trace, fun hp' => absurd hp hp'⟩
    · next hp =>
      refine ⟨fun _ k top b hr hb hk => ?_, fun hp' => absurd rfl hp'⟩
      have h1 := h.outside hp k top b hr hb hk
      rw [if_pos hc] at h1
      show 0 + j < b - k
      omega
  | false =>
    refine ⟨nofun, fun _ k top b hr hb hk => ?_⟩
    show j + 0 ≤ b - k
    by_cases hp : t.phase = .trace
    · have h1 := h.trace hp k top b hr hb hk
      omega
    · have h1 := h.outside hp k top b hr hb hk
      omega

theorem Far.labelStep (h : t.Far (j + 1)) (label : List UInt8) (sampled : Token) (text : List UInt8) :
    if (t.labelStep label sampled text).2 then (t.labelStep label sampled text).1.Far j
    else (t.labelStep label sampled text).1.Far (j + 1) := by
  have reading : ∀ x, ({ t with channel := some x } : ThinkCtl).Far j := by
    intro x
    refine ⟨(h.le (Nat.le_succ j)).trace, fun hp k top b hr hb hk => ?_⟩
    have h1 := h.outside hp k top b hr hb hk
    show j + 1 ≤ b - k
    omega
  unfold ThinkCtl.labelStep
  split
  · exact reading _
  · split
    · refine ⟨h.trace, fun hp k top b hr hb hk => ?_⟩
      have h1 := h.outside hp k top b hr hb hk
      show j + 1 + 0 ≤ b - k
      omega
    · split
      · exact h
      · next n good hch =>
        dsimp only
        split
        · exact reading _
        · have h1 := h.labelEnd (t := t) (by rw [hch]; rfl)
            (good && labelAt label n (letters text) && n + (letters text).length == label.length)
          split
          · exact h1.le (Nat.le_succ j)
          · exact h1

theorem Far.freeStep (h : t.Far (j + 1)) (sampled : Token) (text : List UInt8) :
    (t.freeStep sampled text).1.Far j := by
  unfold ThinkCtl.freeStep
  split
  · exact h.phaseStep sampled
  · next label _ =>
    have h1 := h.labelStep label sampled text
    split
    · next t' he =>
      rw [he] at h1
      exact h1
    · next t' he =>
      rw [he] at h1
      exact Far.phaseStep h1 sampled

theorem Far.rampBias (h : t.Far j) (hp : t.phase = .trace) : t.rampBias = [] := by
  unfold ThinkCtl.rampBias
  split
  · next k top b hr hb =>
    refine if_neg fun hstart => ?_
    have h1 := h.trace hp k top b hr hb hstart.2
    omega
  · rfl

/-! ### The reply's tokens -/

theorem phaseStep_replyN (t : ThinkCtl) (sampled : Token) : t.replyN ≤ (t.phaseStep sampled).1.replyN := by
  unfold phaseStep
  split
  · split <;> exact le_rfl
  · split
    · exact le_rfl
    · split
      · exact le_rfl
      · exact Nat.le_succ _

theorem labelStep_replyN (t : ThinkCtl) (label : List UInt8) (sampled : Token) (text : List UInt8) :
    (t.labelStep label sampled text).1.replyN = t.replyN := by
  have hend : ∀ whole, (({ t with channel := none } : ThinkCtl).labelEnd whole).replyN = t.replyN := by
    intro whole
    unfold labelEnd
    (repeat' split) <;> rfl
  unfold labelStep
  split
  · rfl
  · split
    · rfl
    · split
      · rfl
      · dsimp only
        split
        · rfl
        · exact hend _

theorem freeStep_replyN (t : ThinkCtl) (sampled : Token) (text : List UInt8) :
    t.replyN ≤ (t.freeStep sampled text).1.replyN := by
  unfold freeStep
  split
  · exact phaseStep_replyN t sampled
  · next label _ =>
    have h1 := labelStep_replyN t label sampled text
    split
    · next t' he =>
      rw [he] at h1
      exact h1.ge
    · next t' he =>
      rw [he] at h1
      exact h1.ge.trans (phaseStep_replyN t' sampled)

/-! ### One token -/

/-- What a state `j` tokens before the end of a quantum that began in `t₀` is. -/
structure Steady (t₀ : ThinkCtl) (j : Nat) (t : ThinkCtl) : Prop where
  m : t.m = t₀.m
  lim : t.lim = t₀.lim
  far : t.Far j
  forced : t.forcing.isSome = true → t.phase = .trace
  /-- the first reply tokens are past, or need no steering -/
  spoken : t.lim.bias.replyFirst = [] ∨ 2 ≤ t.replyN
  /-- a quantum from elsewhere has no steering but the ramp -/
  plain : t₀.phase ≠ .reply → t₀.lim.bias.earlyExitRank = none ∧ t₀.lim.bias.replyFirst = [] ∧
    t₀.lim.bias.banReopen = false

theorem Steady.tick (h : Steady t₀ (j + 1) t) (hc : t.Clear (j + 1)) (ht : t.tick out e = some (t', out', c)) :
    Steady t₀ j t' := by
  rcases hc with h0 | ⟨hf, -⟩
  · cases h0
  have hf' : (t.hear e).forcing = none := hf
  unfold ThinkCtl.tick at ht
  rw [commit_free hf'] at ht
  simp only [some.injEq, Prod.mk.injEq] at ht
  obtain ⟨rfl, -, -⟩ := ht
  have hfar : ({ t.hear e with lineEnd := false } : ThinkCtl).Far (j + 1) := ⟨h.far.trace, h.far.outside⟩
  have hstep := hfar.freeStep e.sampled e.text
  have hframe := freeStep_frame ({ t.hear e with lineEnd := false } : ThinkCtl) e.sampled e.text
  have hreply := freeStep_replyN ({ t.hear e with lineEnd := false } : ThinkCtl) e.sampled e.text
  generalize (({ t.hear e with lineEnd := false } : ThinkCtl).freeStep e.sampled e.text).1 = u at hstep hframe hreply
  have hspoken : u.lim.bias.replyFirst = [] ∨ 2 ≤ u.replyN := by
    rw [hframe.lim]
    exact h.spoken.imp_right fun h2 => h2.trans hreply
  unfold ThinkCtl.arm
  split
  · refine ⟨hframe.m.trans h.m, hframe.lim.trans h.lim, hstep, fun hs => ?_, hspoken, h.plain⟩
    rw [hframe.forcing, show ({ t.hear e with lineEnd := false } : ThinkCtl).forcing = none from hf] at hs
    cases hs
  · next harm =>
    -- armed: a block is due
    simp only [Bool.or_eq_true, not_or] at harm
    have hp : u.phase = .trace := by simpa using harm.1.1.2
    exact ⟨hframe.m.trans h.m, hframe.lim.trans h.lim, ⟨hstep.trace, hstep.outside⟩, fun _ => hp, hspoken, h.plain⟩

/-- what the window says of a quantum of two tokens and more -/
theorem steady_start (h : t.allows (n + 2) = true) : Steady t (n + 1) t := by
  have hquiet : ¬ (t.forcing.isSome || t.due || t.channel.isSome || t.steerWindow) = true := by
    intro hq
    unfold allows chainLeft at h
    rw [if_pos hq] at h
    simp at h
  have hleast : ∀ c, t.rampLeft = some c → n + 2 ≤ c := by
    have hall : ∀ c, least (least t.forceLeft t.rampLeft) (if t.lim.live then some liveChain else none) = some c →
        n + 2 ≤ c := by
      intro c hc
      unfold allows chainLeft at h
      rw [if_neg hquiet, hc] at h
      exact of_decide_eq_true h
    exact (le_least.mp (le_least.mp hall).1).2
  simp only [Bool.or_eq_true, not_or, Bool.not_eq_true] at hquiet
  obtain ⟨⟨⟨hf, -⟩, hch⟩, hwin⟩ := hquiet
  have hramp : ∀ k top b, t.lim.bias.closeRamp = some (k, top) → t.lim.budget = some b → 0 < k →
      (t.phase = .trace → n + 2 ≤ max (b - k - t.traceN) 1) ∧ (t.phase ≠ .trace → n + 2 ≤ b - k + 1) := by
    intro k top b hr hb hk
    have h1 := hleast _ (by unfold rampLeft; rw [hr, hb]; exact if_pos hk)
    revert h1
    cases t.phase with
    | trace => exact fun h1 => ⟨fun _ => h1, fun hp => absurd rfl hp⟩
    | deciding | reply => exact fun h1 => ⟨fun hp => (by cases hp), fun _ => h1⟩
  refine ⟨rfl, rfl, ⟨fun hp k top b hr hb hk => ?_, fun hp k top b hr hb hk => ?_⟩, fun hs => ?_, ?_, fun hp => ?_⟩
  · have h1 := (hramp k top b hr hb hk).1 hp
    omega
  · have h1 := (hramp k top b hr hb hk).2 hp
    rw [if_neg (by rw [hch]; exact Bool.false_ne_true)]
    omega
  · rw [hf] at hs
    cases hs
  · unfold steerWindow at hwin
    by_cases hp : t.phase = .reply
    · simp only [hp, ne_eq, not_true_eq_false, false_and, if_false] at hwin
      by_cases hempty : t.lim.bias.replyFirst = []
      · exact .inl hempty
      · simp only [hempty, not_false_eq_true, decide_true, Bool.and_true, decide_eq_false_iff_not] at hwin
        exact .inr (by omega)
    · refine .inl ?_
      by_contra hne
      rw [if_pos ⟨hp, .inr (.inl hne)⟩] at hwin
      cases hwin
  · unfold steerWindow at hwin
    by_cases hsteer : t.lim.bias.earlyExitRank.isSome ∨ t.lim.bias.replyFirst ≠ [] ∨ t.lim.bias.banReopen
    · rw [if_pos ⟨hp, hsteer⟩] at hwin
      cases hwin
    · simp only [not_or, Bool.not_eq_true, not_not] at hsteer
      exact ⟨isSome_eq_false_iff.mp hsteer.1 |> isNone_iff_eq_none.mp, hsteer.2.1, hsteer.2.2⟩

/-! ### The steering of a steady state -/

/-- what a steady state asks for -/
theorem Steady.steering_eq (h : Steady t₀ j t) : t.steering =
    (t.lim.bias.base ++ (if t.phase = .reply ∧ t.lim.bias.banReopen = true then [(t.m.openId, -100)] else []) ++
      (if t.phase = .trace ∧ t.lineEnd = true ∧ t.forcing = none ∧ t.lim.bias.earlyExitRank.isSome = true ∧
          t.lim.bias.base.any (·.1 = t.m.closeId) = false then [(t.m.closeId, 0)] else []),
      if t.phase = .trace ∧ t.lineEnd = true ∧ t.forcing = none then
        t.lim.bias.earlyExitRank.map fun r => (t.m.closeId, r)
      else none) := by
  have hprobe : t.probeClose = if t.phase = .trace ∧ t.lineEnd = true ∧ t.forcing = none then
      t.lim.bias.earlyExitRank.map fun r => (t.m.closeId, r) else none := by
    unfold probeClose
    cases t.lim.bias.earlyExitRank with
    | none =>
      rw [map_none, ite_self]
      rfl
    | some r => rfl
  refine Prod.ext ?_ hprobe
  show t.nextBias = _
  unfold nextBias
  dsimp only
  by_cases hf : t.forcing.isSome = true
  · have hp := h.forced hf
    have hne : t.forcing ≠ none := fun h0 => by rw [h0] at hf; cases hf
    rw [if_pos hf, if_neg (fun hr => by rw [hp] at hr; cases hr.1), if_neg (fun hr => hne hr.2.2.1),
      append_nil, append_nil]
  rw [if_neg hf]
  have hnone : t.forcing = none := by simpa using hf
  cases hp : t.phase with
  | deciding => simp
  | reply =>
    have hfirst : (if t.replyN < 2 then t.lim.bias.replyFirst else []) = [] := by
      rcases h.spoken with h0 | h2
      · rw [h0, ite_self]
      · exact if_neg (by omega)
    dsimp only
    rw [hfirst]
    simp
  | trace =>
    dsimp only
    rw [h.far.rampBias hp, append_nil]
    cases hl : t.lineEnd with
    | false => simp
    | true =>
      cases t.lim.bias.earlyExitRank with
      | none => simp
      | some r =>
        cases ha : t.lim.bias.base.any (·.1 = t.m.closeId) with
        | false => simp [hnone]
        | true => simp

/-- When the steering is that of the start: in a quantum from the reply the reply is not left while
opening is banned, and no line end of a block asks for an early exit. -/
theorem Steady.steering_iff (h₀ : Steady t₀ n t₀) (h : Steady t₀ j t) :
    t.steering = t₀.steering ↔ (t₀.phase = .reply →
      (t₀.lim.bias.banReopen = true → t.phase = .reply) ∧
      (t₀.lim.bias.earlyExitRank.isSome = true → t.phase = .trace → t.lineEnd = true → t.forcing ≠ none)) := by
  rw [h.steering_eq, h₀.steering_eq, h.lim, h.m]
  by_cases hp₀ : t₀.phase = .reply
  · have hnt : t₀.phase ≠ .trace := by rw [hp₀]; nofun
    rw [if_neg (fun hx : t₀.phase = .trace ∧ _ => hnt hx.1), if_neg (fun hx : t₀.phase = .trace ∧ _ => hnt hx.1)]
    simp only [hp₀, true_and, forall_const, append_nil]
    constructor
    · intro heq
      obtain ⟨hbias, hprobe⟩ := Prod.mk.inj heq
      constructor
      · intro hban
        by_contra hleft
        rw [if_neg (fun hx => hleft hx.1), if_pos hban, append_nil, append_right_inj] at hbias
        split at hbias
        · -- the bias on the close marker is none
          have hval := (Prod.mk.inj (List.cons.inj hbias).1).2
          exact absurd hval (by decide)
        · cases hbias
      · intro hearly ht hl hnone
        rw [if_pos ⟨ht, hl, hnone⟩] at hprobe
        obtain ⟨r, hr⟩ := isSome_iff_exists.mp hearly
        rw [hr] at hprobe
        cases hprobe
    · rintro ⟨hban, hearly⟩
      have hno : ¬ (t.phase = .trace ∧ t.lineEnd = true ∧ t.forcing = none ∧
          t₀.lim.bias.earlyExitRank.isSome = true ∧ t₀.lim.bias.base.any (·.1 = t₀.m.closeId) = false) :=
        fun hx => hearly hx.2.2.2.1 hx.1 hx.2.1 hx.2.2.1
      have hprobe : (if t.phase = .trace ∧ t.lineEnd = true ∧ t.forcing = none then
          t₀.lim.bias.earlyExitRank.map fun r => (t₀.m.closeId, r) else none) = none := by
        split
        · next hx =>
          cases he : t₀.lim.bias.earlyExitRank with
          | none => rfl
          | some r => exact absurd hx.2.2 (hearly (by rw [he]; rfl) hx.1 hx.2.1)
        · rfl
      rw [if_neg hno, append_nil, hprobe]
      cases hb : t₀.lim.bias.banReopen with
      | false => simp
      | true => simp [hban hb]
  · obtain ⟨hearly, -, hban⟩ := h.plain hp₀
    simp [hp₀, hearly, hban]

/-! ### The quantum -/

theorem steady_ticks {es : List Event} {cs : List Commit} (h : Steady t₀ (es.length + j) t)
    (hc : t.Clear (es.length + j)) (ht : t.ticks out es = some (t', out', cs)) : Steady t₀ j t' := by
  induction es generalizing t out cs with
  | nil =>
    simp only [ticks, some.injEq, Prod.mk.injEq] at ht
    obtain ⟨rfl, -, -⟩ := ht
    rw [length_nil, Nat.zero_add] at h
    exact h
  | cons e es ih =>
    unfold ticks at ht
    split at ht
    · cases ht
    · next t₁ out₁ c h₁ =>
      split at ht
      · cases ht
      · next t₂ out₂ cs₂ h₂ =>
        simp only [some.injEq, Prod.mk.injEq] at ht
        obtain ⟨rfl, rfl, rfl⟩ := ht
        have hlen : (e :: es).length + j = es.length + j + 1 := by
          rw [length_cons]
          omega
        rw [hlen] at h hc
        exact ih (h.tick hc h₁) (clear_tick hc h₁).2.2 h₂

end ThinkCtl

open ThinkCtl in
/-- In a quantum that the controller allows, the steering of every token is that of the first one exactly
when, from the reply, no token before it opens a block while that is banned, and none ends a line in a
block that may be left early. -/
theorem steering_same_iff (t : ThinkCtl) (out : List Token) (es : List Event)
    (h : t.allows es.length = true) :
    (∀ i < es.length, ∀ t' out' cs, t.ticks out (es.take i) = some (t', out', cs) → t'.steering = t.steering) ↔
    ∀ i < es.length, ∀ t' out' cs, t.ticks out (es.take i) = some (t', out', cs) → t.phase = .reply →
      (t.lim.bias.banReopen = true → t'.phase = .reply) ∧
      (t.lim.bias.earlyExitRank.isSome = true → t'.phase = .trace → t'.lineEnd = true → t'.forcing ≠ none) := by
  refine forall₂_congr fun i hi => forall₂_congr fun t' out' => forall₂_congr fun cs ht => ?_
  rcases i with _ | i
  · -- the first token
    rw [take_zero] at ht
    simp only [ticks, some.injEq, Prod.mk.injEq] at ht
    obtain ⟨rfl, -, -⟩ := ht
    refine ⟨fun _ hp => ⟨fun _ => hp, fun _ hp' => ?_⟩, fun _ => rfl⟩
    rw [hp] at hp'
    cases hp'
  · obtain ⟨n, hn⟩ := Nat.exists_eq_add_of_le (show 2 ≤ es.length by omega)
    rw [Nat.add_comm] at hn
    rw [hn] at h
    have hstart := steady_start h
    have hclear := clear_of_allows h
    have hlen : (es.take (i + 1)).length + (n - i) = n + 1 := by
      rw [length_take]
      omega
    exact hstart.steering_iff (steady_ticks (hlen ▸ hstart) (hlen ▸ hclear) ht)

def replying : ThinkCtl :=
  { ThinkCtl.new ⟨100, 101, none, [10]⟩ ⟨none, none, [101], 0, false, { ThinkBias.default with earlyExitRank := some 5 }⟩
      false with phase := .reply, replyN := 1 }

def samples (ids : List Token) : List Event := ids.map fun s => ⟨false, s, [], false⟩

theorem steering_same_reply : ((replying.ticks [1] ((samples [7, 10, 8]).take 2)).map fun x => x.1.steering) =
    some replying.steering := by
  have hsame := (steering_same_iff replying [1] (samples [7, 10, 8]) (by decide)).mpr fun i hi t' out' cs ht _ => by
    -- the reply is not left
    have hphase : ((replying.ticks [1] ((samples [7, 10, 8]).take i)).map fun x => x.1.phase) = some .reply := by
      match i, hi with
      | 0, _ => decide
      | 1, _ => decide
      | 2, _ => decide
    rw [ht] at hphase
    have hp : t'.phase = .reply := some.inj hphase
    refine ⟨fun _ => hp, fun _ htr => ?_⟩
    rw [hp] at htr
    cases htr
  have hrun : (replying.ticks [1] ((samples [7, 10, 8]).take 2)).isSome = true := by decide
  obtain ⟨x, hx⟩ := isSome_iff_exists.mp hrun
  rw [hx, map_some, hsame 2 (by decide) x.1 x.2.1 x.2.2 hx]

/-- A block is opened again and ends a line: its third token may end the block, the first one cannot. -/
theorem steering_changes : ¬ ∀ (t : ThinkCtl) (out : List Token) (es : List Event), t.allows es.length = true →
    ∀ i < es.length, ∀ t' out' cs, t.ticks out (es.take i) = some (t', out', cs) → t'.steering = t.steering := by
  intro h
  have hsteer : ((replying.ticks [1] ((samples [100, 10, 8]).take 2)).map fun x => x.1.steering) =
      some ([(101, 0)], some (101, 5)) := by decide +kernel
  obtain ⟨x, hx, hs⟩ := map_eq_some_iff.mp hsteer
  have heq := h replying [1] (samples [100, 10, 8]) (by decide) 2 (by decide) x.1 x.2.1 x.2.2 hx
  rw [hs] at heq
  exact absurd heq (by decide +kernel)

end Plow.Think
