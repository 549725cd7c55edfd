import Plow.Reasoning.Chunks

/-!
# Where every character of a generation goes

A generation is read as a list of pieces: reasoning, content, markers, white space trimmed next to a
marker (`framing`), and white space trimmed at the end of a trace that never closes (`tail`).
`Placed` says which piece may stand where; the reasoning is the reasoning pieces joined by newlines,
one for a trace block, and the content is the content pieces.

The account of a whole generation is made along the scan, one turn of the splitter at a time.
-/

namespace Plow.Reasoning

open Plow.Lib Plow.Lib.Text List

inductive Piece
  | reasoning (w : List Char)
  | content (w : List Char)
  | opener (w : List Char)
  | closer (w : List Char)
  | framing (w : List Char)
  | tail (w : List Char)

def Piece.text : Piece → List Char
  | .reasoning w | .content w | .opener w | .closer w | .framing w | .tail w => w

def Piece.isMark : Piece → Bool
  | .opener _ | .closer _ => true
  | _ => false

def Piece.reasoning? : Piece → Option (List Char)
  | .reasoning w => some w
  | _ => none

def Piece.content? : Piece → Option (List Char)
  | .content w => some w
  | _ => none

def Marks.IsSwitch (m : Marks) (w : List Char) : Prop :=
  ∃ chan label l, m.chan = some (chan, label) ∧ l.all isLetter = true ∧ l ≠ label ∧
    (w = chan ++ l ∨ w = chan ++ l ++ ['\n'])

def Blank (w : List Char) : Prop := ∀ c ∈ w, isWhitespace c = true

/-- the pieces may follow each other, inside a trace or not, with a marker before them or not -/
def Placed (m : Marks) : Bool → Bool → List Piece → Prop
  | _, _, [] => True
  | trace, _, .reasoning w :: ps => trace = true ∧ w ≠ [] ∧ Placed m trace false ps
  | trace, _, .content _ :: ps => trace = false ∧ Placed m trace false ps
  | trace, _, .opener w :: ps => trace = false ∧ w = m.opener ∧ Placed m true true ps
  | _, _, .closer w :: ps => (w = m.closer ∨ m.IsSwitch w) ∧ Placed m false true ps
  | trace, near, .framing w :: ps =>
      Blank w ∧ (near = true ∨ ps.head?.any Piece.isMark = true) ∧ Placed m trace false ps
  | trace, _, .tail w :: ps => trace = true ∧ Blank w ∧ ps = []

def blocks (started : Bool) (ws : List (List Char)) : List Char :=
  if started then ws.flatMap ('\n' :: ·) else ['\n'].intercalate ws

/-- the pieces of `x` account for what an output grows by -/
def Accounts (m : Marks) (trace near started : Bool) (x : List Char) (o o' : Sink) : Prop :=
  ∃ ps : List Piece, (ps.map Piece.text).flatten = x ∧ Placed m trace near ps ∧
    o'.r = o.r ++ blocks started (ps.filterMap Piece.reasoning?) ∧
    o'.c = o.c ++ (ps.filterMap Piece.content?).flatten

variable {m : Marks} {q q' : Split × Sink} {x y r w lead : List Char} {i n : ℕ} {near started : Bool}
  {o' o : Sink}

theorem blocks_nil (started : Bool) : blocks started [] = [] := by
  cases started <;> rfl

theorem blocks_cons (started : Bool) (w : List Char) (ws : List (List Char)) :
    blocks started (w :: ws) = (if started then '\n' :: w else w) ++ blocks true ws := by
  cases started with
  | true => rfl
  | false =>
    show ['\n'].intercalate (w :: ws) = w ++ ws.flatMap ('\n' :: ·)
    induction ws generalizing w with
    | nil => simp [intercalate]
    | cons v ws ih =>
      have h : ['\n'].intercalate (w :: v :: ws) = w ++ '\n' :: ['\n'].intercalate (v :: ws) := by
        simp [intercalate, intersperse]
      rw [h, ih v, flatMap_cons]
      rfl

/-- a splitter between two turns of a scan that started with all the text -/
structure Whole (q : Split × Sink) (near : Bool) : Prop where
  block : q.1.state = .opened → q.1.newBlock = true ∧ near = true
  fresh : q.1.state = .deciding → q.1.hadTrace = false
  answer : q.1.state = .answer → q.1.hadTrace = true → q.1.startedAnswer = false → near = true

theorem Whole.of_opened {q : Split × Sink} (hs : q.1.state = .opened) (hb : q.1.newBlock = true) :
    Whole q true := by
  refine ⟨fun _ => ⟨hb, rfl⟩, fun h => ?_, fun h => ?_⟩ <;> cases hs.symm.trans h

theorem Whole.of_answer {q : Split × Sink} {near : Bool} (hs : q.1.state = .answer)
    (ha : q.1.hadTrace = true → q.1.startedAnswer = false → near = true) : Whole q near := by
  refine ⟨fun h => ?_, fun h => ?_, fun _ => ha⟩ <;> cases hs.symm.trans h

/-! ### Putting pieces in front -/

theorem Accounts.closer {trace : Bool}
    (hw : w = m.closer ∨ m.IsSwitch w) (h : Accounts m false true started x o o') :
    Accounts m trace near started (w ++ x) o o' := by
  obtain ⟨ps, ht, hp, hr, hc⟩ := h
  exact ⟨.closer w :: ps, by rw [map_cons, flatten_cons, ht]; rfl, ⟨hw, hp⟩, hr, hc⟩

theorem Accounts.opener (h : Accounts m true true started x o o') :
    Accounts m false near started (m.opener ++ x) o o' := by
  obtain ⟨ps, ht, hp, hr, hc⟩ := h
  exact ⟨.opener m.opener :: ps, by rw [map_cons, flatten_cons, ht]; rfl,
    ⟨rfl, rfl, hp⟩, hr, hc⟩

theorem Accounts.framed_opener (hw : Blank w) (h : Accounts m true true started x o o') :
    Accounts m false near started (w ++ (m.opener ++ x)) o o' := by
  obtain ⟨ps, ht, hp, hr, hc⟩ := h
  refine ⟨.framing w :: .opener m.opener :: ps, ?_, ⟨hw, .inr rfl, rfl, rfl, hp⟩, hr, hc⟩
  rw [map_cons, map_cons, flatten_cons, flatten_cons, ht]
  rfl

theorem Accounts.answer (hl : Blank lead)
    (hn : lead = [] ∨ near = true) (h : Accounts m false false started x ⟨o.r, o.c ++ w⟩ o') :
    Accounts m false near started (lead ++ w ++ x) o o' := by
  obtain ⟨ps, ht, hp, hr, hc⟩ := h
  rw [append_assoc] at hc
  rcases hn with rfl | hn
  · refine ⟨.content w :: ps, ?_, ⟨rfl, hp⟩, hr, hc⟩
    rw [map_cons, flatten_cons, ht]
    rfl
  · refine ⟨.framing lead :: .content w :: ps, ?_, ⟨hl, .inl hn, rfl, hp⟩, hr, hc⟩
    rw [map_cons, map_cons, flatten_cons, flatten_cons, ht, append_assoc]
    rfl

/-- the text of a trace block up to what ends it: white space, reasoning, white space -/
structure Cut (q : Split × Sink) (y lead core trail : List Char) : Prop where
  text : y = lead ++ core ++ trail
  blank : Blank lead ∧ Blank trail
  ends : core = [] → trail = []
  emit : emitReasoning q (trimEnd y) = if core = [] then q else
    ({ q.1 with newBlock := false, startedReasoning := true },
      ⟨q.2.r ++ if q.1.startedReasoning then '\n' :: core else core, q.2.c⟩)

theorem cut_exists (hq : q.1.newBlock = true) (y : List Char) :
    ∃ lead core trail, Cut q y lead core trail := by
  obtain ⟨s, o⟩ := q
  replace hq : s.newBlock = true := hq
  obtain ⟨lead, hlead, hsplit⟩ := trimStart_split (trimEnd y)
  obtain ⟨trail, htrail, hend⟩ := trimEnd_split y
  by_cases hc : trimStart (trimEnd y) = []
  · refine ⟨y, [], [], by simp, ⟨?_, nofun⟩, fun _ => rfl, ?_⟩
    · intro c hy
      rw [hend, hsplit, hc, append_nil] at hy
      rcases mem_append.mp hy with h | h
      · exact hlead c h
      · exact htrail c h
    · simp only [emitReasoning, hq, if_true, hc]
  · refine ⟨lead, trimStart (trimEnd y), trail, ?_, ⟨hlead, htrail⟩, fun h => absurd h hc, ?_⟩
    · rw [← hsplit]
      exact hend
    · simp only [emitReasoning, hq, if_true, if_neg hc, Bool.true_and]
      cases s.startedReasoning <;> simp

theorem Accounts.block {core trail : List Char} (hy : Cut q y lead core trail)
    (hw : w = m.closer ∨ m.IsSwitch w)
    (h : Accounts m false true (emitReasoning q (trimEnd y)).1.startedReasoning x
      (emitReasoning q (trimEnd y)).2 o') :
    Accounts m true true q.1.startedReasoning (y ++ (w ++ x)) q.2 o' := by
  obtain ⟨ps, ht, hp, hr, hc⟩ := h
  rw [hy.emit] at hr hc
  by_cases hcore : core = []
  · rw [if_pos hcore] at hr hc
    refine ⟨.framing y :: .closer w :: ps, ?_, ⟨?_, .inl rfl, hw, hp⟩, hr, hc⟩
    · rw [map_cons, map_cons, flatten_cons, flatten_cons, ht]
      rfl
    · rw [hy.text, hcore, hy.ends hcore, append_nil, append_nil]
      exact hy.blank.1
  · rw [if_neg hcore] at hr hc
    refine ⟨.framing lead :: .reasoning core :: .framing trail :: .closer w :: ps, ?_,
      ⟨hy.blank.1, .inl rfl, rfl, hcore, hy.blank.2, .inr rfl, hw, hp⟩, ?_, hc⟩
    · simp only [map_cons, flatten_cons, ht, hy.text, Piece.text, append_assoc]
    · rw [hr, append_assoc]
      exact congrArg _ (blocks_cons _ core _).symm

theorem Accounts.unclosed {core trail : List Char} (hy : Cut q y lead core trail) :
    Accounts m true true q.1.startedReasoning y q.2 (emitReasoning q (trimEnd y)).2 := by
  rw [hy.emit]
  by_cases hcore : core = []
  · rw [if_pos hcore]
    refine ⟨[.tail y], append_nil y, ⟨rfl, ?_, rfl⟩, ?_, (append_nil _).symm⟩
    · rw [hy.text, hcore, hy.ends hcore, append_nil, append_nil]
      exact hy.blank.1
    · exact (congrArg _ (blocks_nil _)).trans (append_nil _) |>.symm
  · rw [if_neg hcore]
    refine ⟨[.framing lead, .reasoning core, .tail trail], ?_,
      ⟨hy.blank.1, .inl rfl, rfl, hcore, rfl, hy.blank.2, rfl⟩, ?_, (append_nil _).symm⟩
    · simp only [map_cons, map_nil, flatten_cons, flatten_nil, hy.text,
        Piece.text, append_assoc, append_nil]
    · exact congrArg _ ((blocks_cons _ core []).trans (append_nil _)).symm

theorem accounts_nil (m : Marks) (trace near started : Bool) (o : Sink) :
    Accounts m trace near started [] o o :=
  ⟨[], rfl, trivial, by rw [filterMap_nil, blocks_nil, append_nil],
    (append_nil _).symm⟩

theorem emitAnswer_pieces (q : Split × Sink) (near : Bool)
    (hq : q.1.hadTrace = true → q.1.startedAnswer = false → near = true)
    (y : List Char) : ∃ lead w, y = lead ++ w ∧ Blank lead ∧ (lead = [] ∨ near = true) ∧
      (emitAnswer q y).2 = ⟨q.2.r, q.2.c ++ w⟩ ∧
      (emitAnswer q y).1.startedReasoning = q.1.startedReasoning := by
  obtain ⟨s, o⟩ := q
  by_cases ht : s.hadTrace = true
  · cases hs : s.startedAnswer with
    | true =>
      refine ⟨[], y, rfl, nofun, .inl rfl, ?_⟩
      by_cases hy : y = []
      · simp [emitAnswer, ht, hs, hy]
      · simp [emitAnswer, ht, hs, hy]
    | false =>
      obtain ⟨lead, hlead, hsplit⟩ := trimStart_split y
      refine ⟨lead, trimStart y, hsplit, hlead, .inr (hq ht hs), ?_⟩
      by_cases hy : trimStart y = []
      · simp [emitAnswer, ht, hs, hy]
      · simp [emitAnswer, ht, hs, hy]
  · refine ⟨[], y, rfl, nofun, .inl rfl, ?_⟩
    simp [emitAnswer, ht]

/-! ### A whole generation -/

theorem traceEnd_closer (h : traceEnd m x = some (i, n)) :
    i ≤ x.length ∧ x = x.take i ++ ((x.drop i).take n ++ x.drop (i + n)) ∧
      ((x.drop i).take n = m.closer ∨ m.IsSwitch ((x.drop i).take n)) := by
  rw [traceEnd_eq_first] at h
  obtain ⟨hi, hat, -⟩ := first_eq_some.mp h
  refine ⟨hi, ?_, ?_⟩
  · rw [← drop_drop, take_append_drop, take_append_drop]
  · unfold endAt closeAt at hat
    by_cases hc : m.closer <+: x.drop i
    · rw [(wordAt_eq_some (u := ())).mpr hc] at hat
      obtain rfl : m.closer.length = n := Option.some.inj hat
      exact .inl (prefix_iff_eq_take.mp hc).symm
    · rw [wordAt_eq_none.mpr hc] at hat
      obtain ⟨q, hq, hsw⟩ := Option.bind_eq_some_iff.mp hat
      obtain ⟨chan, label⟩ := q
      obtain ⟨z, hz⟩ := switchAt_isPrefix hsw
      unfold switchAt at hsw
      rw [← hz] at hsw ⊢
      rw [if_pos (List.isPrefixOf_iff_prefix.mpr (prefix_append _ _)), drop_left] at hsw
      simp only at hsw
      split at hsw
      · cases hsw
      · split at hsw
        · next hlab =>
          cases hsw
          refine .inr ⟨chan, label, z.take (letters z), hq, ?_, hlab, ?_⟩
          · rw [letters, ← prefix_iff_eq_take.mp (List.takeWhile_prefix isLetter), all_eq_true]
            exact fun c hc => mem_takeWhile_imp hc
          · rw [Nat.add_assoc, take_length_add_append]
            split
            · next hnl =>
              obtain ⟨u, hu⟩ := isPrefixOf_iff_prefix.mp hnl
              refine .inr ?_
              rw [take_add, ← hu, append_assoc]
              rfl
            · exact .inl rfl
        · cases hsw

theorem accounts_total (q : Split × Sink) (x : List Char) : ∀ near, Whole q near →
    Accounts m (q.1.state = .opened) near q.1.startedReasoning x q.2 ((splitter m).total q x) := by
  induction q, x using Scanner.scan_induct (M := splitter m) with
  | hw q x q' r h =>
    intro near hq
    replace h : step m q x = .wait q' r := h
    cases hs : q.1.state with
    | deciding =>
      have hx : (splitter m).total q x = (emitAnswer q x).2 := by
        rw [Scanner.total_wait (M := splitter m) h]
        simp only [step, hs, stepDeciding] at h
        split at h
        · cases h
        · split at h
          · cases h
            show finishInto q x = _
            simp only [finishInto, hs]
          · cases h
      obtain ⟨lead, w, rfl, hl, hn, he, -⟩ := emitAnswer_pieces q near
        (fun ht => absurd ht (by rw [hq.fresh hs]; exact Bool.false_ne_true)) x
      rw [hx, he, ← append_nil (lead ++ w)]
      exact Accounts.answer hl hn (accounts_nil m _ _ _ _)
    | opened =>
      obtain ⟨hb, rfl⟩ := hq.block hs
      obtain ⟨lead, core, trail, hy⟩ := cut_exists hb x
      rw [total_opened hs]
      cases hf : first (endAt m) x with
      | none => exact Accounts.unclosed hy
      | some p =>
        rw [← traceEnd_eq_first] at hf
        simp only [step, hs, stepOpened, hf] at h
        cases h
    | answer =>
      obtain ⟨lead, w, hy, hl, hn, he, -⟩ := emitAnswer_pieces _ _ (hq.answer hs) x
      have hx : (splitter m).total q x = (emitAnswer q x).2 := by
        by_cases hr : m.reenter = true
        · rw [total_reenter hs hr]
          cases hf : first (markAt m) x with
          | none => rfl
          | some p =>
            simp only [step, hs, hr, if_true, stepReenter_eq, hf] at h
            cases h
        · exact total_answer hs hr x
      rw [hx, he, hy, ← append_nil (lead ++ w)]
      exact Accounts.answer hl hn (accounts_nil m _ _ _ _)
  | hg q x q' r h ih =>
    intro near hq
    rw [Scanner.total_go h]
    replace h : step m q x = .go q' r := h
    unfold step at h
    cases hs : q.1.state with
    | deciding =>
      simp only [hs, stepDeciding] at h
      split at h
      · next ho =>
        obtain ⟨lead, hlead, hsplit⟩ := trimStart_split x
        obtain ⟨u, hu⟩ := isPrefixOf_iff_prefix.mp ho
        cases h
        rw [← hu, drop_left] at ih ⊢
        rw [hsplit, ← hu]
        exact Accounts.framed_opener hlead (ih true (.of_opened rfl rfl))
      · split at h
        · cases h
        · cases h
          exact ih near (.of_answer rfl fun ht => absurd ht (by
            show ¬ q.1.hadTrace = true
            rw [hq.fresh hs]
            exact Bool.false_ne_true))
    | opened =>
      obtain ⟨hb, rfl⟩ := hq.block hs
      simp only [hs, stepOpened] at h
      cases he : traceEnd m x with
      | none => simp only [he] at h; cases h
      | some p =>
        obtain ⟨i, n⟩ := p
        simp only [he] at h
        cases h
        obtain ⟨-, hx, hw⟩ := traceEnd_closer he
        obtain ⟨lead, core, trail, hy⟩ := cut_exists hb (x.take i)
        have := Accounts.block hy hw (ih true (.of_answer rfl fun _ _ => rfl))
        rw [← hx] at this
        exact this
    | answer =>
      simp only [hs] at h
      split at h
      · rw [stepReenter_eq] at h
        cases hf : first (markAt m) x with
        | none => simp only [hf] at h; cases h
        | some p =>
          obtain ⟨i, v⟩ := p
          simp only [hf] at h
          cases h
          obtain ⟨hi, hat, -⟩ := first_eq_some.mp hf
          obtain ⟨lead, w, hy, hl, hn, hem, hst⟩ := emitAnswer_pieces _ _ (hq.answer hs) (x.take i)
          have htext (k : List Char) (hk : k <+: x.drop i) :
              x = lead ++ w ++ (k ++ x.drop (i + k.length)) := by
            rw [← drop_drop, ← hy]
            conv_rhs => rw [prefix_iff_eq_take.mp hk]
            rw [length_take, Nat.min_eq_left hk.length_le, take_append_drop,
              take_append_drop]
          cases v with
          | true =>
            have hih : Accounts m true true q.1.startedReasoning (x.drop (i + m.opener.length))
                ⟨q.2.r, q.2.c ++ w⟩ ((splitter m).total (markTurn m q x i true).1 (x.drop (i + m.opener.length))) := by
              rw [← hst, ← hem]
              exact ih true (.of_opened rfl rfl)
            have := Accounts.answer hl hn hih.opener
            rw [← htext m.opener (markAt_cases hat).1] at this
            exact this
          | false =>
            have hstate : (emitAnswer q (x.take i)).1.state = .answer := by rw [emitAnswer_state, hs]
            have hih : Accounts m false true q.1.startedReasoning (x.drop (i + m.closer.length))
                ⟨q.2.r, q.2.c ++ w⟩ ((splitter m).total (markTurn m q x i false).1 (x.drop (i + m.closer.length))) := by
              have := ih true (.of_answer hstate fun _ _ => rfl)
              rw [← hst, ← hem]
              simp only [markTurn, hstate] at this
              exact this
            have := Accounts.answer hl hn (hih.closer (.inl rfl))
            rw [← htext m.closer (markAt_cases' hat)] at this
            exact this
      · cases h

/-- the splitter reads the pieces of a generation as it reads the whole, and every character of it is
reasoning, content, part of a marker, or white space trimmed at a marker or at the end of a trace -/
theorem reasoning_split (mode : ReasoningMode) (reenter promptOpens : Bool)
    (hm : (mode.marks reenter).Apart) (pieces : List (List Char)) :
    splitText mode reenter promptOpens pieces = splitText mode reenter promptOpens [pieces.flatten] ∧
    ∃ ps : List Piece, (ps.map Piece.text).flatten = pieces.flatten ∧
      Placed (mode.marks reenter) ((mode.init promptOpens).state = .opened)
        ((mode.init promptOpens).state = .opened) ps ∧
      (splitText mode reenter promptOpens pieces).r = ['\n'].intercalate (ps.filterMap Piece.reasoning?) ∧
      (splitText mode reenter promptOpens pieces).c = (ps.filterMap Piece.content?).flatten := by
  refine ⟨splitText_pieces hm promptOpens pieces, ?_⟩
  rw [splitText_total hm]
  have hq : Whole (mode.init promptOpens, ⟨[], []⟩) ((mode.init promptOpens).state = .opened) := by
    refine ⟨fun h => ⟨rfl, decide_eq_true h⟩, fun h => ?_, fun h ht => ?_⟩
    · show decide _ = false
      rw [decide_eq_false_iff_not]
      intro ho
      exact absurd (ho.symm.trans h) nofun
    · exact absurd ((of_decide_eq_true ht).symm.trans h) nofun
  obtain ⟨ps, ht, hp, hr, hc⟩ := accounts_total (m := mode.marks reenter) _ pieces.flatten _ hq
  exact ⟨ps, ht, hp, hr.trans (nil_append _), hc.trans (nil_append _)⟩

def channelMode : ReasoningMode :=
  .tags "<|channel>thought".toList "<channel|>".toList (by decide) (by decide)

theorem reasoning_split_sample :
    splitText channelMode true false ["<|chan".toList, "nel>thought a b<chan".toList, "nel|>c".toList] =
      splitText channelMode true false
        [["<|chan".toList, "nel>thought a b<chan".toList, "nel|>c".toList].flatten] := by
  refine (reasoning_split channelMode true false ⟨?_, ?_, ?_, ?_⟩ _).1
  all_goals decide

def NoOverlap (a b : List Char) : Prop :=
  (∀ w ∈ a.tails, w ≠ [] → ¬ w <+: b) ∧ (∀ w ∈ b.tails, w ≠ [] → ¬ w <+: a)

def letterMode : ReasoningMode := .tags "<c>t".toList "end".toList (by decide) (by decide)

/-- a close marker of letters is taken for one inside a label that is still being written, and the
white space at the end of a trace that no marker closes is dropped -/
theorem reasoning_split_exceptions :
    (¬ "<c>t".toList <:+: "end".toList ∧ ¬ "end".toList <:+: "<c>t".toList ∧
      NoOverlap "<c>t".toList "end".toList ∧
      splitText letterMode true true ["a<c>end".toList, "x y".toList] = ⟨"a<c>".toList, "x y".toList⟩ ∧
      splitText letterMode true true ["a<c>endx y".toList] = ⟨"a".toList, "y".toList⟩) ∧
    (splitText .thinkTag false true ["a ".toList] = ⟨"a".toList, []⟩ ∧
      ¬ CLOSE <:+: "a ".toList ∧ ¬ OPEN <:+: "a ".toList) := by
  unfold NoOverlap
  decide

end Plow.Reasoning
