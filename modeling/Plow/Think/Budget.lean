import Plow.Think.Quantum

/-!
# The think budget

`Track` runs the controller and keeps what the claims about a whole generation speak of: the
sampled and the committed ids, the tokens the current block holds, and those among them that only
complete a character.  `Pieces` describe the committed ids: tokens as sampled, and forced runs that
spell a suffix of the forced end.

A token read as label text inside a block is not counted by the controller.  While no such token
comes, a block holds at most its budget, its grace and the late tokens (`budget_bound`); with them
it can hold any number (`label_unbounded`).
-/

namespace Plow.Think

open Lib List Option

/-! ### The committed ids -/

/-- a token committed as sampled, or a forced run from index `k` with what was sampled for it -/
inductive Piece
  | free (id : Token)
  | forced (k : Nat) (sampled : List Token)
  deriving DecidableEq

def Piece.sampled : Piece → List Token
  | .free id => [id]
  | .forced _ s => s

def Piece.committed (f : List Token) : Piece → List Token
  | .free id => [id]
  | .forced k s => (f.drop k).take s.length

def sampledOf (ps : List Piece) : List Token := ps.reverse.flatMap Piece.sampled

def committedOf (f : List Token) (ps : List Piece) : List Token :=
  ps.reverse.flatMap (Piece.committed f)

/-- The pieces of a generation that is at the forced index `forcing`, if it is forcing: a forced run
resumes the end the output already has, and only the newest can be unfinished. -/
inductive Spelled (f : List Token) : Option Nat → List Piece → Prop
  | nil : Spelled f none []
  | free (id : Token) {ps : List Piece} (h : Spelled f none ps) : Spelled f none (.free id :: ps)
  | forced {k : Nat} {s : List Token} {ps : List Piece} (h : Spelled f none ps)
      (resumes : f.take k <:+ committedOf f ps) (unfinished : k + s.length < f.length) :
      Spelled f (some (k + s.length)) (.forced k s :: ps)
  | done {k : Nat} {s : List Token} {ps : List Piece} (h : Spelled f none ps)
      (resumes : f.take k <:+ committedOf f ps) (started : k < f.length)
      (finished : k + s.length = f.length) : Spelled f none (.forced k s :: ps)

variable {f : List Token} {ps : List Piece} {i k : Nat} {s : List Token}

theorem sampledOf_cons (p : Piece) (ps : List Piece) :
    sampledOf (p :: ps) = sampledOf ps ++ p.sampled := by
  simp [sampledOf]

theorem committedOf_cons (f : List Token) (p : Piece) (ps : List Piece) :
    committedOf f (p :: ps) = committedOf f ps ++ p.committed f := by
  simp [committedOf]

theorem Spelled.suffix (resumes : f.take k <:+ committedOf f ps) (finished : k + s.length = f.length) :
    f <:+ committedOf f (.forced k s :: ps) := by
  obtain ⟨front, hfront⟩ := resumes
  refine ⟨front, ?_⟩
  rw [committedOf_cons, ← hfront, append_assoc]
  show front ++ f = front ++ (f.take k ++ (f.drop k).take s.length)
  have hdrop : (f.drop k).take s.length = f.drop k :=
    take_of_length_le (by rw [length_drop]; omega)
  rw [hdrop, take_append_drop]

/-- the next forced id extends the unfinished run -/
theorem Spelled.push (h : Spelled f (some i) ps) (sampled token : Token) (ht : f[i]? = some token) :
    ∃ ps', Spelled f (if i + 1 < f.length then some (i + 1) else none) ps' ∧
      sampledOf ps' = sampledOf ps ++ [sampled] ∧ committedOf f ps' = committedOf f ps ++ [token] ∧
      (¬ i + 1 < f.length → f <:+ committedOf f ps') := by
  cases h with
  | @forced k s ps h resumes unfinished =>
    have hlen : k + (s ++ [sampled]).length = k + s.length + 1 := by
      rw [length_append, length_singleton]
      omega
    have hs : sampledOf (.forced k (s ++ [sampled]) :: ps) =
        sampledOf (.forced k s :: ps) ++ [sampled] := by
      rw [sampledOf_cons, sampledOf_cons, append_assoc]
      rfl
    have hcom : committedOf f (.forced k (s ++ [sampled]) :: ps) =
        committedOf f (.forced k s :: ps) ++ [token] := by
      rw [committedOf_cons, committedOf_cons, append_assoc]
      show _ ++ (f.drop k).take (s ++ [sampled]).length = _ ++ ((f.drop k).take s.length ++ [token])
      rw [length_append, length_singleton, take_add_one, getElem?_drop, ht]
      rfl
    refine ⟨.forced k (s ++ [sampled]) :: ps, ?_, hs, hcom, fun hlt => ?_⟩
    · split
      · next hlt =>
        rw [← hlen]
        exact .forced h resumes (by omega)
      · exact .done h resumes (by omega) (by omega)
    · exact Spelled.suffix resumes (by omega)

/-! ### Arming -/

theorem resume_suffix (f out : List Token) : f.take (ThinkCtl.resume f out) <:+ out := by
  unfold ThinkCtl.resume
  cases hf : (List.range' 1 (f.length - 1)).reverse.find? fun k => (f.take k).isSuffixOf out with
  | none => simp
  | some k =>
    have h1 := find?_some hf
    exact isSuffixOf_iff_suffix.mp h1

theorem resume_lt (out : List Token) (hf : f ≠ []) : ThinkCtl.resume f out < f.length := by
  have hpos := length_pos_of_ne_nil hf
  unfold ThinkCtl.resume
  cases hk : (List.range' 1 (f.length - 1)).reverse.find? fun k => (f.take k).isSuffixOf out with
  | none => exact hpos
  | some k =>
    have h1 := mem_reverse.mp (mem_of_find?_eq_some hk)
    have h2 := (mem_range'_1.mp h1).2
    show k < f.length
    omega

/-! ### The generation -/

/-- A generation: the controller, the committed output, the sampled ids, the tokens the current
block holds, how many of them came late, and whether the output ends inside a character. -/
structure Track where
  ctl : ThinkCtl
  out : List Token
  sampled : List Token
  held : Nat
  late : Nat
  pending : Bool

def Track.start (m : ThinkMarkers) (lim : ThinkLimits) (opened : Bool) : Track :=
  ⟨.new m lim opened, [], [], 0, 0, false⟩

def labelTail (t : ThinkCtl) (e : Event) : Bool :=
  t.channel.isSome && e.text.drop (ThinkCtl.letters e.text).length != [0x0a]

/-- The tokens held by the current block after a token that is not forced: `t` before it, `t'` after
it. -/
def heldAfter (t t' : ThinkCtl) (e : Event) (held : Nat) : Nat :=
  if t'.phase = .trace then
    if t.phase = .trace then held + 1 else if labelTail t e then 1 else 0
  else 0

def lateAfter (t t' : ThinkCtl) (pending : Bool) (late : Nat) : Nat :=
  if t'.phase = .trace ∧ t.phase = .trace then if t.due ∧ pending then late + 1 else late else 0

def Track.tick (s : Track) (e : Event) : Option Track :=
  match (s.ctl.hear e).commit e.sampled e.text with
  | none => none
  | some (t', c) =>
    let out := s.out ++ [c.token]
    let free := s.ctl.forcing = none
    some
      { ctl := t'.arm out e.utf8Pending
        out := out
        sampled := s.sampled ++ [e.sampled]
        held := if free then heldAfter s.ctl t' e s.held else s.held
        late := if free then lateAfter s.ctl t' s.pending s.late else s.late
        pending := e.utf8Pending }

def Counted (s : Track) (e : Event) : Prop :=
  ¬ (s.ctl.phase = .trace ∧ s.ctl.forcing = none ∧ s.ctl.m.channelLabel.isSome = true ∧
    (e.sampled = s.ctl.m.openId ∨ s.ctl.channel.isSome = true))

instance (s : Track) (e : Event) : Decidable (Counted s e) := by
  unfold Counted
  infer_instance

/-! ### The count of a block -/

/-- A block that is not forced yet: `limit` is its budget with the grace. -/
structure Block (limit : Nat) (t : ThinkCtl) (held late : Nat) : Prop where
  channel : t.channel = none
  held : held = t.traceN
  early : t.due = false → late = 0 ∧ t.traceN < limit
  due : t.due = true → t.traceN ≤ limit + late

variable {t t' : ThinkCtl} {b held late limit : Nat} {e : Event} {sampled : Token}
  {text : List UInt8} {pending : Bool}

theorem traceToken_due (hb : t.lim.budget = some b)
    (h : (t.traceToken sampled).due = false) : t.due = false ∧ t.traceN + 1 < b + t.lim.grace := by
  have h1 : ((t.due || (t.traceToken sampled).cut.any (· ≤ t.traceN + 1)) ||
      t.lim.budget.any fun b =>
        b ≤ t.traceN + 1 && (b + t.lim.grace ≤ t.traceN + 1 || t.m.endsLine sampled)) = false := h
  rw [hb] at h1
  simp only [Bool.or_eq_false_iff, any_some, Bool.and_eq_false_iff, decide_eq_false_iff_not] at h1
  obtain ⟨⟨h2, -⟩, h3⟩ := h1
  refine ⟨h2, ?_⟩
  rcases h3 with h3 | ⟨h3, -⟩
  · omega
  · omega

theorem Block.traceToken (sampled : Token) (hb : t.lim.budget = some b)
    (h : Block (b + t.lim.grace) t held late) (pending : Bool) (hp : t.due = true → pending = true) :
    Block (b + t.lim.grace) (t.traceToken sampled) (held + 1)
      (if t.due ∧ pending then late + 1 else late) := by
  refine ⟨h.channel, by rw [h.held]; rfl, fun hd => ?_, fun _ => ?_⟩
  · obtain ⟨h1, h2⟩ := traceToken_due hb hd
    rw [if_neg (by simp [h1])]
    exact ⟨(h.early h1).1, h2⟩
  · show t.traceN + 1 ≤ _
    cases hd : t.due with
    | true =>
      have h1 := h.due hd
      rw [if_pos ⟨rfl, hp hd⟩]
      omega
    | false =>
      have h1 := (h.early hd).2
      omega

theorem Block.openBlock (hpos : 0 < limit) (hc : t.channel = none) : Block limit t.openBlock 0 0 :=
  ⟨hc, rfl, fun _ => ⟨rfl, hpos⟩, fun h => by cases h⟩

def Labelled (t : ThinkCtl) : Prop := t.m.channelLabel = none → t.channel = none

theorem Block.phaseStep (hb : t.lim.budget = some b) (hp : t.phase = .trace)
    (h : Block (b + t.lim.grace) t held late) (hpend : t.due = true → pending = true)
    (ht : (t.phaseStep sampled).1.phase = .trace) :
    Block (b + t.lim.grace) (t.phaseStep sampled).1 (held + 1)
      (if t.due ∧ pending then late + 1 else late) := by
  unfold ThinkCtl.phaseStep at ht ⊢
  simp only [hp] at ht ⊢
  split at ht
  · cases ht
  · next hs =>
    rw [if_neg hs]
    exact h.traceToken _ hb _ hpend

theorem freeStep_inside (hb : t.lim.budget = some b)
    (hp : t.phase = .trace) (h : Block (b + t.lim.grace) t held late)
    (hpend : t.due = true → pending = true)
    (hcount : ¬ (t.m.channelLabel.isSome = true ∧ (sampled = t.m.openId ∨ t.channel.isSome = true)))
    (ht : (t.freeStep sampled text).1.phase = .trace) :
    Block (b + t.lim.grace) (t.freeStep sampled text).1 (held + 1)
      (if t.due ∧ pending then late + 1 else late) := by
  have same : t.freeStep sampled text = t.phaseStep sampled := by
    unfold ThinkCtl.freeStep
    split
    · rfl
    · next label hl =>
      have hopen : ¬ sampled = t.m.openId := fun hs => hcount ⟨by rw [hl]; rfl, .inl hs⟩
      have hsame : ({ t with channel := none } : ThinkCtl) = t := by rw [← h.channel]
      have hlabel : t.labelStep label sampled text = (t, false) := by
        unfold ThinkCtl.labelStep
        rw [if_neg hopen, hsame, h.channel]
        split <;> rfl
      rw [hlabel]
  rw [same] at ht ⊢
  exact h.phaseStep hb hp hpend ht

theorem phaseStep_opens (hp : t.phase ≠ .trace) (ht : (t.phaseStep sampled).1.phase = .trace) :
    (t.phaseStep sampled).1 = t.openBlock ∧ sampled = t.m.openId := by
  unfold ThinkCtl.phaseStep at ht ⊢
  split at ht
  · next hp' => exact absurd hp' hp
  · split at ht
    · next ho =>
      rw [if_pos ho]
      exact ⟨rfl, ho⟩
    · split at ht
      · cases ht
      · cases ht

theorem Block.opened (hb : t.lim.budget = some b) (hpos : 0 < b + t.lim.grace)
    (hc : t.channel = none) (hs : sampled ≠ t.m.closeId) :
    Block (b + t.lim.grace) (t.openBlock.phaseStep sampled).1 1 0 := by
  have h0 := Block.openBlock hpos hc
  have h1 := h0.traceToken (t := t.openBlock) sampled hb false
    fun hd => by cases hd
  unfold ThinkCtl.phaseStep
  show Block _ (if sampled = t.m.closeId then _ else _ : ThinkCtl × Bool).1 1 0
  rw [if_neg hs]
  exact h1

/-- a free token outside a block opens one with none of its tokens, or with its label's tail -/
theorem freeStep_outside (hb : t.lim.budget = some b) (hp : t.phase ≠ .trace)
    (hpos : 0 < b + t.lim.grace) (hl : Labelled t)
    (ht : (t.freeStep e.sampled e.text).1.phase = .trace) :
    Block (b + t.lim.grace) (t.freeStep e.sampled e.text).1 (if labelTail t e then 1 else 0) 0 := by
  unfold ThinkCtl.freeStep at ht ⊢
  split at ht
  · next hlab =>
    have hch := hl hlab
    have htail : labelTail t e = false := by
      unfold labelTail
      rw [hch]
      rfl
    rw [(phaseStep_opens hp ht).1, htail]
    exact Block.openBlock hpos hch
  · next label _ =>
    unfold ThinkCtl.labelStep at ht ⊢
    by_cases hopen : e.sampled = t.m.openId
    · rw [if_pos hopen] at ht
      exact absurd ht hp
    · by_cases hclose : e.sampled = t.m.closeId
      · rw [if_neg hopen, if_pos hclose] at ht
        exact absurd (phaseStep_opens (t := { t with channel := none }) hp ht).2 hopen
      · rw [if_neg hopen, if_neg hclose] at ht ⊢
        cases hch : t.channel with
        | none =>
          rw [hch] at ht
          exact absurd (phaseStep_opens hp ht).2 hopen
        | some x =>
          obtain ⟨n, good⟩ := x
          simp only [hch] at ht ⊢
          by_cases hw : (ThinkCtl.letters e.text).length = e.text.length
          · rw [if_pos hw] at ht
            exact absurd ht hp
          · rw [if_neg hw] at ht ⊢
            have htail : labelTail t e =
                !(e.text.drop (ThinkCtl.letters e.text).length == [0x0a]) := by
              unfold labelTail
              rw [hch]
              rfl
            rw [htail]
            generalize (good && ThinkCtl.labelAt label n (ThinkCtl.letters e.text) &&
              n + (ThinkCtl.letters e.text).length == label.length) = whole at ht ⊢
            cases whole with
            | false =>
              -- another label: the token is a reply
              cases hr : e.text.drop (ThinkCtl.letters e.text).length == [0x0a] with
              | true =>
                rw [hr] at ht
                cases ht
              | false =>
                rw [hr] at ht
                refine absurd (phaseStep_opens ?_ ht).2 hopen
                exact nofun
            | true =>
              have hopens : ({ t with channel := none } : ThinkCtl).labelEnd true =
                  ({ t with channel := none } : ThinkCtl).openBlock := by
                unfold ThinkCtl.labelEnd
                rw [if_pos rfl]
                exact if_neg hp
              rw [hopens]
              cases e.text.drop (ThinkCtl.letters e.text).length == [0x0a] with
              | true => exact Block.openBlock hpos rfl
              | false =>
                exact Block.opened (t := { t with channel := none }) hb hpos rfl hclose

theorem Block.bound (h : Block limit t held late) : held ≤ limit + late := by
  rw [h.held]
  cases hd : t.due with
  | true => exact h.due hd
  | false => exact Nat.le_trans (Nat.le_of_lt (h.early hd).2) (Nat.le_add_right _ _)

theorem Labelled.freeStep (h : Labelled t) : Labelled (t.freeStep sampled text).1 := by
  intro hlab
  rw [(ThinkCtl.freeStep_frame t sampled text).m] at hlab
  have hc := h hlab
  unfold ThinkCtl.freeStep
  rw [hlab]
  show (t.phaseStep sampled).1.channel = none
  unfold ThinkCtl.phaseStep
  split <;> (repeat' split) <;> exact hc

theorem arm_cases (t : ThinkCtl) (out : List Token) (p : Bool) :
    (t.arm out p = t ∧
        (t.due = true → t.phase = .trace → t.forcing = none → t.channel = none → p = true)) ∨
      (t.phase = .trace ∧ t.forcing = none ∧ t.arm out p = { t with
        due := false
        forcing := some (ThinkCtl.resume t.lim.forcedEnd out)
        forced := t.forced + 1 }) := by
  unfold ThinkCtl.arm
  split
  · next h =>
    refine .inl ⟨rfl, fun hd hp hf hc => ?_⟩
    simpa [hd, hp, hf, hc] using h
  · next h =>
    simp only [Bool.or_eq_true, Bool.not_eq_true', not_or, bne_iff_ne, ne_eq, not_not] at h
    exact .inr ⟨h.1.1.2, by simpa using h.1.2, rfl⟩

/-! ### Every run -/

/-- The invariant of a generation with a budget. -/
structure Sound (m : ThinkMarkers) (lim : ThinkLimits) (limit : Nat) (s : Track) : Prop where
  markers : s.ctl.m = m
  limits : s.ctl.lim = lim
  labelled : Labelled s.ctl
  block : s.ctl.phase = .trace → s.ctl.forcing = none →
    Block limit s.ctl s.held s.late ∧ (s.ctl.due = true → s.pending = true)
  bound : s.ctl.phase = .trace → s.held ≤ limit + s.late
  forcing : ∀ i, s.ctl.forcing = some i → s.ctl.phase = .trace
  spelled : ∃ ps, s.sampled = sampledOf ps ∧ s.out = committedOf lim.forcedEnd ps ∧
    Spelled lim.forcedEnd s.ctl.forcing ps

variable {m : ThinkMarkers} {lim : ThinkLimits} {opened : Bool} {s₁ s₂ : Track}

theorem Sound.start (hpos : 0 < limit) : Sound m lim limit (.start m lim opened) where
  markers := rfl
  limits := rfl
  labelled := fun _ => rfl
  block := fun _ _ => ⟨⟨rfl, rfl, fun _ => ⟨rfl, hpos⟩, nofun⟩, nofun⟩
  bound := fun _ => Nat.zero_le _
  forcing := fun i h => by cases h
  spelled := ⟨[], rfl, rfl, .nil⟩

/-- a token committed as sampled -/
theorem Sound.free (hb : lim.budget = some b) (hpos : 0 < b + lim.grace) (hf : lim.forcedEnd ≠ [])
    (h : Sound m lim (b + lim.grace) s₁) (hfree : s₁.ctl.forcing = none) (hc : Counted s₁ e)
    (ht : s₁.tick e = some s₂) : Sound m lim (b + lim.grace) s₂ := by
  obtain ⟨u, hu⟩ : ∃ u : ThinkCtl, u = { s₁.ctl.hear e with lineEnd := false } := ⟨_, rfl⟩
  obtain ⟨t', ht'⟩ : ∃ t' : ThinkCtl, t' = (u.freeStep e.sampled e.text).1 := ⟨_, rfl⟩
  have hcommit := @ThinkCtl.commit_free (s₁.ctl.hear e) e.sampled e.text hfree
  rw [← hu, ← ht'] at hcommit
  unfold Track.tick at ht
  simp only [hcommit, hfree, if_true, some.injEq] at ht
  subst ht
  have hframe := ThinkCtl.freeStep_frame u e.sampled e.text
  rw [← ht'] at hframe
  have hlim : t'.lim = lim := by rw [hframe.lim, hu]; exact h.limits
  have hforce : t'.forcing = none := by rw [hframe.forcing, hu]; exact hfree
  have hbu : u.lim.budget = some b := by rw [hu]; show s₁.ctl.lim.budget = some b; rw [h.limits, hb]
  have hgu : u.lim.grace = lim.grace := by rw [hu]; show s₁.ctl.lim.grace = lim.grace; rw [h.limits]
  have hlab : Labelled u := by rw [hu]; exact h.labelled
  have hblock : t'.phase = .trace → Block (b + lim.grace) t' (heldAfter s₁.ctl t' e s₁.held)
      (lateAfter s₁.ctl t' s₁.pending s₁.late) := by
    intro hp'
    unfold heldAfter lateAfter
    rw [if_pos hp']
    by_cases hp : s₁.ctl.phase = .trace
    · obtain ⟨hB, hpend⟩ := h.block hp hfree
      rw [if_pos hp, if_pos ⟨hp', hp⟩]
      have hBu : Block (b + u.lim.grace) u s₁.held s₁.late := by
        rw [hgu, hu]
        exact ⟨hB.channel, hB.held, hB.early, hB.due⟩
      have hcount : ¬ (u.m.channelLabel.isSome = true ∧
          (e.sampled = u.m.openId ∨ u.channel.isSome = true)) := by
        rw [hu]
        rintro ⟨h1, h2⟩
        exact hc ⟨hp, hfree, h1, h2⟩
      have hpendu : u.due = true → s₁.pending = true := by rw [hu]; exact hpend
      have h1 := freeStep_inside hbu (by rw [hu]; exact hp) hBu hpendu hcount (by rwa [← ht'])
      rw [← ht', hgu, show u.due = s₁.ctl.due by rw [hu]; rfl] at h1
      exact h1
    · have hn : ¬ (t'.phase = .trace ∧ s₁.ctl.phase = .trace) := fun hx => hp hx.2
      rw [if_neg hp, if_neg hn]
      have h1 := freeStep_outside (e := e) hbu (by rw [hu]; exact hp) (by rwa [hgu]) hlab
        (by rwa [← ht'])
      rw [← ht', hgu, show labelTail u e = labelTail s₁.ctl e by rw [hu]; rfl] at h1
      exact h1
  obtain ⟨ps, hs1, hs2, hs3⟩ := h.spelled
  rw [hfree] at hs3
  have hsampled : s₁.sampled ++ [e.sampled] = sampledOf (.free e.sampled :: ps) := by
    rw [sampledOf_cons, hs1]
    rfl
  have hout : s₁.out ++ [e.sampled] = committedOf lim.forcedEnd (.free e.sampled :: ps) := by
    rw [committedOf_cons, hs2]
    rfl
  have hlab' : Labelled t' := by rw [ht']; exact hlab.freeStep
  have hm : t'.m = m := by rw [hframe.m, hu]; exact h.markers
  rcases arm_cases t' (s₁.out ++ [e.sampled]) e.utf8Pending with ⟨ha, hpend⟩ | ⟨hp', -, ha⟩
  · rw [ha]
    exact
      { markers := hm, limits := hlim, labelled := hlab',
        block := fun hp _ => ⟨hblock hp, fun hd => hpend hd hp hforce (hblock hp).channel⟩,
        bound := fun hp => (hblock hp).bound,
        forcing := fun i hi => absurd (hforce.symm.trans hi) nofun,
        spelled := ⟨_, hsampled, hout, by rw [hforce]; exact hs3.free _⟩ }
  · rw [ha, hlim]
    refine
      { markers := hm, limits := rfl, labelled := hlab', block := fun _ => nofun,
        bound := fun _ => (hblock hp').bound, forcing := fun _ _ => hp',
        spelled := ⟨.forced (ThinkCtl.resume lim.forcedEnd (s₁.out ++ [e.sampled])) [] ::
          .free e.sampled :: ps, ?_, ?_, ?_⟩ }
    · rw [sampledOf_cons, ← hsampled]
      exact (append_nil _).symm
    · rw [committedOf_cons, ← hout]
      exact (append_nil _).symm
    · refine Spelled.forced (s := []) (hs3.free _) ?_ (resume_lt _ hf)
      rw [← hout]
      exact resume_suffix _ _

/-- a forced token -/
theorem Sound.force (h : Sound m lim limit s₁) (hi : s₁.ctl.forcing = some i)
    (ht : s₁.tick e = some s₂) : Sound m lim limit s₂ := by
  obtain ⟨ps, hs1, hs2, hs3⟩ := h.spelled
  rw [hi] at hs3
  unfold Track.tick at ht
  have hfor : ¬ s₁.ctl.forcing = none := by rw [hi]; exact nofun
  cases htok : lim.forcedEnd[i]? with
  | none =>
    have hcommit : (s₁.ctl.hear e).commit e.sampled e.text = none := by
      unfold ThinkCtl.commit
      simp only [show (s₁.ctl.hear e).forcing = some i from hi,
        show (s₁.ctl.hear e).lim = lim from h.limits, htok]
    rw [hcommit] at ht
    cases ht
  | some token =>
    obtain ⟨ps', hp1, hp2, hp3, -⟩ := hs3.push e.sampled token htok
    have hcommit : (s₁.ctl.hear e).commit e.sampled e.text =
        some (if i + 1 < lim.forcedEnd.length then
            { s₁.ctl.hear e with lineEnd := false, forcing := some (i + 1) }
          else { s₁.ctl.hear e with lineEnd := false, forcing := none, phase := .reply },
          ⟨token, token != e.sampled, false⟩) := by
      unfold ThinkCtl.commit
      simp only [show (s₁.ctl.hear e).forcing = some i from hi,
        show (s₁.ctl.hear e).lim = lim from h.limits, htok]
    simp only [hcommit, hfor, if_false, some.injEq] at ht
    have hsp : s₁.sampled ++ [e.sampled] = sampledOf ps' ∧
        s₁.out ++ [token] = committedOf lim.forcedEnd ps' := by
      rw [hp2, hp3, hs1, hs2]
      exact ⟨rfl, rfl⟩
    by_cases hlt : i + 1 < lim.forcedEnd.length
    · rw [if_pos hlt] at ht hp1
      subst ht
      have harm : ThinkCtl.arm { s₁.ctl.hear e with lineEnd := false, forcing := some (i + 1) }
          (s₁.out ++ [token]) e.utf8Pending =
          { s₁.ctl.hear e with lineEnd := false, forcing := some (i + 1) } := by
        simp [ThinkCtl.arm]
      simp only [harm]
      exact
        { markers := h.markers, limits := h.limits, labelled := h.labelled, block := fun _ => nofun,
          bound := h.bound, forcing := fun _ _ => h.forcing i hi,
          spelled := ⟨ps', hsp.1, hsp.2, hp1⟩ }
    · rw [if_neg hlt] at ht hp1
      subst ht
      have harm : ThinkCtl.arm { s₁.ctl.hear e with lineEnd := false, forcing := none, phase := .reply }
          (s₁.out ++ [token]) e.utf8Pending =
          { s₁.ctl.hear e with lineEnd := false, forcing := none, phase := .reply } := by
        simp [ThinkCtl.arm]
      simp only [harm]
      exact
        { markers := h.markers, limits := h.limits, labelled := h.labelled, block := nofun, bound := nofun,
          forcing := fun _ => nofun, spelled := ⟨ps', hsp.1, hsp.2, hp1⟩ }

end Plow.Think
