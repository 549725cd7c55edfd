import Plow.Think.Control
import Plow.Lib.Runs

/-!
# Replacements land on a quantum's last token

A chained decode path runs a quantum of tokens before the host sees them, so a token inside the
quantum must be the one that was sampled.  `Clear k t` says that the next `k` tokens of the
controller are committed as sampled; `clear_tick` is its step, and `clear_of_allows` says that
`chainLeft` announces it.
-/

namespace Plow.Think

open Lib Option List

namespace ThinkCtl

variable {t t' : ThinkCtl} {k n : Nat} {e : Event} {out out' : List Token} {c : Commit}

/-- no forced id can be due within the next `k` tokens -/
structure Bounds (k : Nat) (t : ThinkCtl) : Prop where
  live : t.lim.live = true → k < liveChain
  trace : t.phase = .trace → t.due = false ∧ (∀ b, t.lim.budget = some b → t.traceN + k ≤ b) ∧
    ∀ c, t.cut = some c → t.traceN + k ≤ c
  /-- the open marker, unless the label it starts is being read, and then the block's budget -/
  outside : t.phase ≠ .trace → ∀ b, t.lim.budget = some b →
    k + (if t.channel.isSome then 1 else 0) ≤ b + 1

/-- the next `k` tokens are committed as sampled -/
def Clear (k : Nat) (t : ThinkCtl) : Prop := k = 0 ∨ (t.forcing = none ∧ t.Bounds k)

theorem Bounds.le (h : t.Bounds k) (hn : n ≤ k) : t.Bounds n where
  live := fun hl => lt_of_le_of_lt hn (h.live hl)
  trace := fun hp =>
    ⟨(h.trace hp).1, fun b hb => Nat.le_trans (Nat.add_le_add_left hn _) ((h.trace hp).2.1 b hb),
      fun c hc => Nat.le_trans (Nat.add_le_add_left hn _) ((h.trace hp).2.2 c hc)⟩
  outside := fun hp b hb => Nat.le_trans (Nat.add_le_add_right hn _) (h.outside hp b hb)

theorem Bounds.openBlock (hl : t.lim.live = true → k < liveChain)
    (h : ∀ b, t.lim.budget = some b → k ≤ b) : t.openBlock.Bounds k where
  live := hl
  trace := fun _ => ⟨rfl, fun b hb => by
    show 0 + k ≤ b
    rw [zero_add]
    exact h b hb, fun c hc => by cases hc⟩
  outside := fun hp => absurd rfl hp

/-- one counted token -/
theorem Bounds.phaseStep (h : t.Bounds (k + 1)) (hk : 0 < k) (sampled : Token) :
    (t.phaseStep sampled).1.Bounds k := by
  have hl : t.lim.live = true → k < liveChain := fun hv => Nat.lt_of_succ_lt (h.live hv)
  unfold ThinkCtl.phaseStep
  split
  · next hp =>
    obtain ⟨hd, hb, hc⟩ := h.trace hp
    split
    · -- the model closes the block itself
      refine ⟨hl, nofun, fun _ b hb' => ?_⟩
      have h1 := hb b hb'
      show k + (if t.channel.isSome then 1 else 0) ≤ b + 1
      split <;> omega
    · have hcut : ∀ c, (t.traceToken sampled).cut = some c → t.traceN + 1 + k ≤ c := by
        intro c hc'
        unfold traceToken at hc'
        dsimp only at hc'
        split at hc'
        · next hlive =>
          have h1 := h.live (by simp only [Bool.and_eq_true] at hlive; exact hlive.1)
          cases hc'
          cases ht : t.cut with
          | none =>
            simp only [getD_none, min_self]
            omega
          | some c₀ =>
            have h2 := hc c₀ ht
            simp only [getD_some]
            omega
        · have h2 := hc c hc'
          omega
      have hdue : (t.traceToken sampled).due = false := by
        have h1 : (t.traceToken sampled).cut.any (· ≤ t.traceN + 1) = false := by
          cases ht : (t.traceToken sampled).cut with
          | none => rfl
          | some c =>
            have h2 := hcut c ht
            simp only [any_some, decide_eq_false_iff_not]
            omega
        have h3 : (t.lim.budget.any fun b =>
            b ≤ t.traceN + 1 && (b + t.lim.grace ≤ t.traceN + 1 || t.m.endsLine sampled)) = false := by
          cases ht : t.lim.budget with
          | none => rfl
          | some b =>
            have h2 := hb b ht
            have h4 : ¬ b ≤ t.traceN + 1 := by omega
            simp [h4]
        show ((t.due || (t.traceToken sampled).cut.any (· ≤ t.traceN + 1)) || _) = false
        rw [hd, h1]
        exact h3
      refine ⟨hl, fun _ => ⟨hdue, fun b hb' => ?_, hcut⟩, fun hp' => absurd hp hp'⟩
      have h1 := hb b hb'
      show t.traceN + 1 + k ≤ b
      omega
  · next hp =>
    have ho := h.outside hp
    split
    · refine Bounds.openBlock hl fun b hb => ?_
      have h1 := ho b hb
      omega
    · split
      · refine ⟨hl, nofun, fun _ b hb => ?_⟩
        have h1 := ho b hb
        exact Nat.le_trans (Nat.add_le_add_right (Nat.le_succ k) _) h1
      · refine ⟨hl, nofun, fun _ b hb => ?_⟩
        have h1 := ho b hb
        exact Nat.le_trans (Nat.add_le_add_right (Nat.le_succ k) _) h1

theorem Bounds.labelEnd (h : t.Bounds k) (hc : t.channel.isSome = true) (whole : Bool) :
    ((({ t with channel := none } : ThinkCtl)).labelEnd whole).Bounds k := by
  unfold ThinkCtl.labelEnd
  cases whole with
  | true =>
    simp only [if_true]
    split
    · next hp => exact ⟨h.live, h.trace, fun hp' => absurd hp hp'⟩
    · next hp =>
      refine Bounds.openBlock h.live fun b hb => ?_
      have h1 := h.outside hp b hb
      rw [hc] at h1
      exact Nat.le_of_succ_le_succ h1
  | false =>
    refine ⟨h.live, nofun, fun _ b hb => ?_⟩
    show k + 0 ≤ b + 1
    by_cases hp : t.phase = .trace
    · have h1 := (h.trace hp).2.1 b hb
      omega
    · have h1 := h.outside hp b hb
      omega

theorem Bounds.labelStep (h : t.Bounds (k + 1)) (label : List UInt8) (sampled : Token)
    (text : List UInt8) :
    if (t.labelStep label sampled text).2 then (t.labelStep label sampled text).1.Bounds k
    else (t.labelStep label sampled text).1.Bounds (k + 1) := by
  have reading : ∀ x, ({ t with channel := some x } : ThinkCtl).Bounds k := by
    intro x
    refine ⟨(h.le (Nat.le_succ k)).live, (h.le (Nat.le_succ k)).trace, fun hp b hb => ?_⟩
    have h1 := h.outside hp b hb
    show k + 1 ≤ b + 1
    omega
  unfold ThinkCtl.labelStep
  split
  · exact reading _
  · split
    · refine ⟨h.live, h.trace, fun hp b hb => ?_⟩
      have h1 := h.outside hp b hb
      show k + 1 + 0 ≤ b + 1
      omega
    · split
      · exact h
      · next n good hch =>
        dsimp only
        split
        · exact reading _
        · have h1 := h.labelEnd (t := t) (by rw [hch]; rfl)
            (good && labelAt label n (letters text) && n + (letters text).length == label.length)
          split
          · exact h1.le (Nat.le_succ k)
          · exact h1

theorem Bounds.freeStep (h : t.Bounds (k + 1)) (hk : 0 < k) (sampled : Token) (text : List UInt8) :
    (t.freeStep sampled text).1.Bounds k := by
  unfold ThinkCtl.freeStep
  split
  · exact h.phaseStep hk sampled
  · next label _ =>
    have h1 := h.labelStep label sampled text
    split
    · next t' he =>
      rw [he] at h1
      exact h1
    · next t' he =>
      rw [he] at h1
      exact Bounds.phaseStep h1 hk sampled

theorem Bounds.arm (h : t.Bounds k) (out : List Token) (p : Bool) : t.arm out p = t := by
  unfold ThinkCtl.arm
  by_cases hp : t.phase = .trace
  · simp [(h.trace hp).1]
  · simp [hp]

/-- what a token that is not forced leaves alone -/
structure Frame (t t' : ThinkCtl) : Prop where
  m : t'.m = t.m
  lim : t'.lim = t.lim
  forcing : t'.forcing = t.forcing

theorem Frame.trans {t'' : ThinkCtl} (h : Frame t t') (h' : Frame t' t'') : Frame t t'' :=
  ⟨h'.m.trans h.m, h'.lim.trans h.lim, h'.forcing.trans h.forcing⟩

theorem phaseStep_frame (t : ThinkCtl) (sampled : Token) : Frame t (t.phaseStep sampled).1 := by
  unfold phaseStep
  split <;> (repeat' split) <;> exact ⟨rfl, rfl, rfl⟩

theorem labelEnd_frame (t : ThinkCtl) (whole : Bool) : Frame t (t.labelEnd whole) := by
  unfold labelEnd
  (repeat' split) <;> exact ⟨rfl, rfl, rfl⟩

theorem labelStep_frame (t : ThinkCtl) (label : List UInt8) (sampled : Token) (text : List UInt8) :
    Frame t (t.labelStep label sampled text).1 := by
  unfold labelStep
  split
  · exact ⟨rfl, rfl, rfl⟩
  · split
    · exact ⟨rfl, rfl, rfl⟩
    · split
      · exact ⟨rfl, rfl, rfl⟩
      · dsimp only
        split
        · exact ⟨rfl, rfl, rfl⟩
        · have h1 := labelEnd_frame { t with channel := none }
          exact ⟨(h1 _).m, (h1 _).lim, (h1 _).forcing⟩

theorem freeStep_frame (t : ThinkCtl) (sampled : Token) (text : List UInt8) :
    Frame t (t.freeStep sampled text).1 := by
  unfold freeStep
  split
  · exact phaseStep_frame t sampled
  · next label _ =>
    have h1 := labelStep_frame t label sampled text
    split
    · next t' he =>
      rw [he] at h1
      exact h1
    · next t' he =>
      rw [he] at h1
      exact h1.trans (phaseStep_frame t' sampled)

theorem commit_free {sampled : Token} {text : List UInt8} (h : t.forcing = none) :
    t.commit sampled text =
      some (({ t with lineEnd := false } : ThinkCtl).freeStep sampled text |>.1,
        ⟨sampled, false, (({ t with lineEnd := false } : ThinkCtl).freeStep sampled text).2⟩) := by
  unfold commit
  simp only [h]

theorem clear_tick (h : t.Clear (k + 1)) (ht : t.tick out e = some (t', out', c)) :
    c.replaced = false ∧ c.token = e.sampled ∧ t'.Clear k := by
  rcases h with h0 | ⟨hf, hb⟩
  · cases h0
  · have hf' : (t.hear e).forcing = none := hf
    unfold tick at ht
    rw [commit_free hf'] at ht
    simp only [some.injEq, Prod.mk.injEq] at ht
    obtain ⟨rfl, -, rfl⟩ := ht
    refine ⟨rfl, rfl, ?_⟩
    rcases Nat.eq_zero_or_pos k with rfl | hk
    · exact .inl rfl
    · have hb' : ({ t.hear e with lineEnd := false } : ThinkCtl).Bounds (k + 1) :=
        ⟨hb.live, hb.trace, hb.outside⟩
      have h1 := hb'.freeStep hk e.sampled e.text
      rw [h1.arm]
      exact .inr ⟨(freeStep_frame _ _ _).forcing.trans hf', h1⟩

/-! ### Quanta -/

/-- a quantum of `n` tokens may be run from here -/
def allows (t : ThinkCtl) (n : Nat) : Bool :=
  match t.chainLeft with
  | none => true
  | some c => n ≤ c

theorem le_least {a b : Option Nat} :
    (∀ c, least a b = some c → n ≤ c) ↔ (∀ c, a = some c → n ≤ c) ∧ ∀ c, b = some c → n ≤ c := by
  unfold least
  cases a <;> cases b <;> simp

/-- What `chainLeft` announces: every token of the quantum but the last is clear. -/
theorem clear_of_allows (h : t.allows (n + 1) = true) : t.Clear n := by
  unfold allows chainLeft at h
  split at h
  · next hcl =>
    split at hcl
    · cases hcl
    · next hq => exact clear_of_least hq (fun c hc => by rw [hcl] at hc; cases hc)
  · next c hcl =>
    split at hcl
    · cases hcl
      exact .inl (by simpa using h)
    · next hq =>
      refine clear_of_least hq (fun c' hc' => ?_)
      rw [hcl] at hc'
      cases hc'
      exact of_decide_eq_true h
where
  clear_of_least {t : ThinkCtl} {n : Nat}
      (hq : ¬ (t.forcing.isSome || t.due || t.channel.isSome || t.steerWindow) = true)
      (h : ∀ c, least (least t.forceLeft t.rampLeft) (if t.lim.live then some liveChain else none) =
        some c → n + 1 ≤ c) : t.Clear n := by
    simp only [Bool.or_eq_true, not_or, Bool.not_eq_true] at hq
    obtain ⟨⟨⟨hf, hd⟩, hch⟩, -⟩ := hq
    obtain ⟨h1, h2⟩ := le_least.mp h
    have h3 := (le_least.mp h1).1
    rcases Nat.eq_zero_or_pos n with rfl | hn
    · exact .inl rfl
    refine .inr ⟨isSome_eq_false_iff.mp hf |> isNone_iff_eq_none.mp, ?_, ?_, ?_⟩
    · intro hl
      exact h2 liveChain (by rw [hl]; rfl)
    · intro hp
      refine ⟨hd, fun b hb => ?_, fun c hc => ?_⟩
      · cases hcut : t.cut with
        | none =>
          have h4 := h3 (b - t.traceN + 1) (by unfold forceLeft; simp only [hp, hb, hcut])
          omega
        | some c =>
          have h4 := h3 (min b c - t.traceN + 1) (by unfold forceLeft; simp only [hp, hb, hcut])
          omega
      · cases hbud : t.lim.budget with
        | none =>
          have h4 := h3 (c - t.traceN + 1) (by unfold forceLeft; simp only [hp, hbud, hc])
          omega
        | some b =>
          have h4 := h3 (min b c - t.traceN + 1) (by unfold forceLeft; simp only [hp, hbud, hc])
          omega
    · intro hp b hb
      have h4 := h3 (b + 2) (by
        unfold forceLeft
        split
        · next hp' => exact absurd hp' hp
        · rw [hb]
          rfl)
      rw [hch]
      show n + 0 ≤ b + 1
      omega

/-- the tokens of a quantum -/
def ticks (t : ThinkCtl) (out : List Token) :
    List Event → Option (ThinkCtl × List Token × List Commit)
  | [] => some (t, out, [])
  | e :: es =>
    match t.tick out e with
    | none => none
    | some (t, out, c) =>
      match t.ticks out es with
      | none => none
      | some (t, out, cs) => some (t, out, c :: cs)

def LastOnly (es : List Event) (cs : List Commit) : Prop :=
  cs.length = es.length ∧ ∀ i e c, i + 1 < es.length → es[i]? = some e → cs[i]? = some c →
    c.token = e.sampled ∧ c.replaced = false

theorem ticks_lastOnly {es : List Event} {cs : List Commit} (h : t.Clear (es.length - 1))
    (ht : t.ticks out es = some (t', out', cs)) : LastOnly es cs := by
  induction es generalizing t out cs with
  | nil =>
    simp only [ticks, some.injEq, Prod.mk.injEq] at ht
    obtain ⟨-, -, rfl⟩ := ht
    exact ⟨rfl, fun i e c hi => by simp at hi⟩
  | cons e es ih =>
    unfold ticks at ht
    split at ht
    · cases ht
    · next t₁ out₁ c h₁ =>
      split at ht
      · cases ht
      · next t₂ out₂ cs₂ h₂ =>
        simp only [some.injEq, Prod.mk.injEq] at ht
        obtain ⟨rfl, rfl, rfl⟩ := ht
        rcases Nat.eq_zero_or_pos es.length with h0 | hpos
        · obtain rfl := eq_nil_of_length_eq_zero h0
          obtain rfl : cs₂ = [] := eq_nil_of_length_eq_zero (ih (.inl rfl) h₂).1
          exact ⟨rfl, fun i e' c' hi => by simp at hi⟩
        · have hk : (e :: es).length - 1 = es.length - 1 + 1 := by
            rw [length_cons]
            omega
          rw [hk] at h
          obtain ⟨h3, h4, h5⟩ := clear_tick h h₁
          obtain ⟨h6, h7⟩ := ih h5 h₂
          refine ⟨by rw [length_cons, length_cons, h6], ?_⟩
          intro i e' c' hi he' hc'
          cases i with
          | zero =>
            cases he'
            cases hc'
            exact ⟨h4, h3⟩
          | succ i => exact h7 i e' c' (Nat.lt_of_succ_lt_succ hi) he' hc'

end ThinkCtl

/-- A request's decode: the controller, the committed output, and the quanta with their commits. -/
structure Decode where
  ctl : ThinkCtl
  out : List Token
  log : List (List Event × List Commit)

def Decode.start (m : ThinkMarkers) (lim : ThinkLimits) (opened : Bool) : Decode :=
  ⟨.new m lim opened, [], []⟩

/-- One quantum, of a length the controller allows before it starts. -/
def Decode.quantum (d : Decode) (es : List Event) : Option Decode :=
  if d.ctl.allows es.length then
    match d.ctl.ticks d.out es with
    | none => none
    | some (t, out, cs) => some ⟨t, out, d.log ++ [(es, cs)]⟩
  else none

/-- In every run of quanta a token that was not sampled is the last of its quantum. -/
theorem replaced_last {m : ThinkMarkers} {lim : ThinkLimits} {opened : Bool}
    {qs : List (List Event)} {d : Decode}
    (h : exec Decode.quantum (.start m lim opened) qs = some d) :
    ∀ x ∈ d.log, ThinkCtl.LastOnly x.1 x.2 := by
  refine exec_inv (P := fun d => ∀ x ∈ d.log, ThinkCtl.LastOnly x.1 x.2) ?_ ?_ h
  · intro d es d' hd hs
    unfold Decode.quantum at hs
    split at hs
    · next ha =>
      split at hs
      · cases hs
      · next t out cs ht =>
        cases hs
        intro x hx
        rcases mem_append.mp hx with hx | hx
        · exact hd x hx
        · obtain rfl := mem_singleton.mp hx
          refine ThinkCtl.ticks_lastOnly ?_ ht
          cases es with
          | nil => exact .inl rfl
          | cons e es => exact ThinkCtl.clear_of_allows ha
    · cases hs
  · intro x hx
    cases hx

def sampleDecode : Option Decode :=
  exec Decode.quantum
    (.start ⟨100, 101, none, [10]⟩ ⟨some 2, none, [7, 101], 0, false, .default⟩ true)
    ([[1, 2, 3], [4], [5]].map (List.map fun s => ⟨false, s, [], false⟩))

theorem replaced_last_sample : ∃ d, sampleDecode = some d ∧ d.out = [1, 2, 7, 101, 5] ∧
    ∀ x ∈ d.log, ThinkCtl.LastOnly x.1 x.2 := by
  have h : sampleDecode.map (fun d => d.out) = some [1, 2, 7, 101, 5] := by decide +kernel
  obtain ⟨d, hd, ho⟩ := map_eq_some_iff.mp h
  exact ⟨d, hd, ho, replaced_last hd⟩

end Plow.Think
