import Plow.Reasoning.Markers

/-!
# The pieces of a generation do not matter

The splitter is a resumable scanner (`splitter`). Its decisions are stable and its waits resume, for
any two markers that are `Apart`, so what comes out in the end depends on the generation alone and
not on the pieces it arrives in (`splitText_pieces`).

The reason is one lemma for each side that emits: `emitReasoning` and `emitAnswer` of a text in two
parts are those of the parts, one after the other.
-/

namespace Plow.Reasoning

open Plow.Lib Plow.Lib.Text List Option

variable {m : Marks} {q q' : Split × Sink} {a b s t x r : List Char} {i j n : ℕ}
  {p : (Split × Sink) × List Char} {mode : ReasoningMode} {reenter v : Bool}

/-! ### Emitting -/

theorem emitReasoning_nil (q : Split × Sink) : emitReasoning q [] = q := by
  unfold emitReasoning
  simp [trimStart]

theorem emitAnswer_nil (q : Split × Sink) : emitAnswer q [] = q := by
  obtain ⟨s, o⟩ := q
  by_cases ht : s.hadTrace = true
  · simp [emitAnswer, ht, trimStart]
  · simp [emitAnswer, ht]

theorem emitReasoning_append (q : Split × Sink) (a b : List Char) :
    emitReasoning q (a ++ b) = emitReasoning (emitReasoning q a) b := by
  obtain ⟨s, o⟩ := q
  by_cases hn : s.newBlock = true
  · by_cases ha : trimStart a = []
    · rw [show emitReasoning (s, o) a = (s, o) by simp [emitReasoning, hn, ha]]
      simp only [emitReasoning, hn, if_true, trimStart_append_nil ha]
    · simp only [emitReasoning, hn, if_true, trimStart_append ha, ha,
        append_eq_nil_iff, false_and, if_false, Bool.false_eq_true]
      by_cases hb : b = []
      · simp only [hb, if_true, append_nil]
      · simp only [hb, Bool.false_and, Bool.false_eq_true, if_false, append_assoc]
  · by_cases ha : a = []
    · rw [ha, nil_append, emitReasoning_nil]
    · simp only [emitReasoning, hn, if_false, ha, append_eq_nil_iff, false_and,
        Bool.false_eq_true, Bool.false_and]
      by_cases hb : b = []
      · simp only [hb, if_true, append_nil]
      · simp only [hb, if_false, append_assoc]

theorem emitAnswer_append (q : Split × Sink) (a b : List Char) :
    emitAnswer q (a ++ b) = emitAnswer (emitAnswer q a) b := by
  obtain ⟨s, o⟩ := q
  by_cases ht : s.hadTrace = true
  · by_cases hs : s.startedAnswer = true
    · by_cases ha : a = []
      · rw [ha, nil_append, emitAnswer_nil]
      · simp only [emitAnswer, ht, hs, if_true, ha, append_eq_nil_iff, false_and,
          Bool.not_true, Bool.false_eq_true, if_false]
        by_cases hb : b = []
        · simp only [hb, if_true, append_nil]
        · simp only [hb, if_false, append_assoc]
    · by_cases ha : trimStart a = []
      · rw [show emitAnswer (s, o) a = (s, o) by simp [emitAnswer, ht, hs, ha]]
        simp only [emitAnswer, ht, hs, trimStart_append_nil ha, Bool.not_true, Bool.false_eq_true,
          if_false]
      · simp only [emitAnswer, ht, hs, trimStart_append ha, ha, append_eq_nil_iff,
          false_and, Bool.not_true, Bool.false_eq_true, if_false, if_true]
        by_cases hb : b = []
        · simp only [hb, if_true, append_nil]
        · simp only [hb, if_false, append_assoc]
  · simp only [emitAnswer, ht, Bool.not_false, if_true, append_assoc]

@[simp] theorem emitReasoning_state (q : Split × Sink) (a : List Char) :
    (emitReasoning q a).1.state = q.1.state := by
  unfold emitReasoning
  simp only
  split
  · split <;> rfl
  · split <;> rfl

@[simp] theorem emitAnswer_state (q : Split × Sink) (a : List Char) :
    (emitAnswer q a).1.state = q.1.state := by
  unfold emitAnswer
  simp only
  split
  · rfl
  · split
    · split <;> rfl
    · split <;> rfl

/-! ### The answer of a re-entrant splitter -/

/-- a marker stands here: an open one (`true`) or a stray close one -/
def markAt (m : Marks) (x : List Char) : Option Bool :=
  ((wordAt m.closer x).map (fun _ => false)).orElse (fun _ => (wordAt m.opener x).map (fun _ => true))

theorem markAt_eq_none : markAt m x = none ↔ ¬ m.closer <+: x ∧ ¬ m.opener <+: x := by
  unfold markAt
  rw [← wordAt_eq_none, ← wordAt_eq_none]
  cases wordAt m.closer x <;> cases wordAt m.opener x <;> simp

theorem markAt_closer (h : m.closer <+: x) : markAt m x = some false := by
  unfold markAt
  rw [(wordAt_eq_some (u := ())).mpr h]
  rfl

theorem markAt_opener (h : m.opener <+: x) (hc : ¬ m.closer <+: x) : markAt m x = some true := by
  unfold markAt
  rw [wordAt_eq_none.mpr hc, (wordAt_eq_some (u := ())).mpr h]
  rfl

theorem markAt_cases (h : markAt m x = some true) : m.opener <+: x ∧ ¬ m.closer <+: x := by
  by_cases hc : m.closer <+: x
  · rw [markAt_closer hc] at h
    cases h
  · refine ⟨?_, hc⟩
    by_contra ho
    rw [markAt_eq_none.mpr ⟨hc, ho⟩] at h
    cases h

theorem markAt_cases' (h : markAt m x = some false) : m.closer <+: x := by
  by_contra hc
  by_cases ho : m.opener <+: x
  · rw [markAt_opener ho hc] at h
    cases h
  · rw [markAt_eq_none.mpr ⟨hc, ho⟩] at h
    cases h

/-- what a re-entrant answer does at the first marker in its text -/
def markTurn (m : Marks) (q : Split × Sink) (x : List Char) (i : ℕ) : Bool → (Split × Sink) × List Char
  | true => (openBlock (emitAnswer q (x.take i)), x.drop (i + m.opener.length))
  | false => (emitAnswer q (x.take i), x.drop (i + m.closer.length))

def keep (m : Marks) (x : List Char) : ℕ := max (prefixTail x m.opener) (prefixTail x m.closer)

theorem first_markAt (m : Marks) (x : List Char) : first (markAt m) x =
    match find m.opener x, find m.closer x with
    | some o, none => some (o, true)
    | some o, some c => if o < c then some (o, true) else some (c, false)
    | none, some c => some (c, false)
    | none, none => none := by
  have h (w : List Char) (v : Bool) :
      first (fun y => (wordAt w y).map (fun _ => v)) x = (find w x).map (fun i => (i, v)) := by
    unfold find
    rw [first_map, Option.map_map]
    rfl
  show first (fun y => ((wordAt m.closer y).map (fun _ => false)).orElse
    (fun _ => (wordAt m.opener y).map (fun _ => true))) x = _
  rw [first_orElse, h, h]
  cases find m.opener x <;> cases find m.closer x <;> rfl

theorem stepReenter_eq (m : Marks) (q : Split × Sink) (x : List Char) : stepReenter m q x =
    match first (markAt m) x with
    | some (i, b) => .go (markTurn m q x i b).1 (markTurn m q x i b).2
    | none => .wait (emitAnswer q (x.take (x.length - keep m x))) (x.drop (x.length - keep m x)) := by
  rw [first_markAt]
  unfold stepReenter
  cases find m.opener x with
  | none => cases find m.closer x <;> rfl
  | some o =>
    cases find m.closer x with
    | none => rfl
    | some c => by_cases h : o < c <;> simp only [h, if_true, if_false] <;> rfl

theorem first_markAt_append (hm : m.Apart) (h : first (markAt m) x = some (i, v))
    (t : List Char) : first (markAt m) (x ++ t) = some (i, v) := by
  obtain ⟨hi, hat, hbefore⟩ := first_eq_some.mp h
  have hnew : ∀ j ≤ i, ∀ w w' : List Char, w' <+: x.drop i → ¬ w' <:+: w →
      ¬ w <+: x.drop j → ¬ w <+: x.drop j ++ t := by
    intro j hj w w' hw' hin hno hw
    apply hin
    have hpre := (word_append hw hno).1
    rw [← Nat.add_sub_of_le hj, ← drop_drop] at hw'
    exact (hw'.isInfix.trans (drop_suffix _ _).isInfix).trans hpre.isInfix
  have hsame : ∀ j < i, ∀ w : List Char, w <+: x.drop i → ¬ w <+: x.drop j →
      ¬ w <+: x.drop j ++ t := by
    intro j hj w hwi hno hw
    have h1 := (word_append hw hno).2
    have h2 := hwi.length_le
    simp only [length_drop] at h1 h2
    omega
  cases v with
  | false =>
    have hc := markAt_cases' hat
    refine first_append h (markAt_closer (hc.trans (prefix_append _ _))) (fun j hj => ?_)
    obtain ⟨h1, h2⟩ := markAt_eq_none.mp (hbefore j hj)
    exact markAt_eq_none.mpr ⟨hsame j hj _ hc h1, hnew j hj.le _ _ hc hm.closer_opener h2⟩
  | true =>
    obtain ⟨ho, hc⟩ := markAt_cases hat
    refine first_append h (markAt_opener (ho.trans (prefix_append _ _))
      (hnew i le_rfl _ _ ho hm.opener_closer hc)) (fun j hj => ?_)
    obtain ⟨h1, h2⟩ := markAt_eq_none.mp (hbefore j hj)
    exact markAt_eq_none.mpr ⟨hnew j hj.le _ _ ho hm.opener_closer h1, hsame j hj _ ho h2⟩

theorem markAt_before_keep (h : first (markAt m) x = none) (hj : j < x.length - keep m x)
    (t : List Char) : markAt m (x.drop j ++ t) = none := by
  obtain ⟨hc, ho⟩ := markAt_eq_none.mp (first_eq_none.mp h j (by omega))
  have hk : ∀ w : List Char, prefixTail x w ≤ keep m x → ¬ w <+: x.drop j → ¬ w <+: x.drop j ++ t := by
    intro w hle hno hw
    obtain ⟨h1, h2⟩ := word_append hw hno
    have := le_prefixTail h1 h2 (by omega)
    omega
  exact markAt_eq_none.mpr ⟨hk _ (Nat.le_max_right _ _) hc, hk _ (Nat.le_max_left _ _) ho⟩

/-! ### The scanner -/

theorem switchAt_le {chan label : List Char} (h : switchAt chan label x = some n) : n ≤ x.length := by
  have hle := (switchAt_isPrefix h).length_le
  unfold switchAt at h
  rw [if_pos (List.isPrefixOf_iff_prefix.mpr (switchAt_isPrefix h))] at h
  simp only at h
  split at h
  · cases h
  · next hl =>
    have hlt := Nat.lt_of_le_of_ne (letters_le _) hl
    rw [length_drop] at hlt
    split at h
    · cases h
      split <;> omega
    · cases h

theorem endAt_le (h : endAt m x = some n) : n ≤ x.length := by
  unfold endAt closeAt at h
  by_cases hc : m.closer <+: x
  · rw [(wordAt_eq_some (u := ())).mpr hc] at h
    obtain rfl : m.closer.length = n := Option.some.inj h
    exact hc.length_le
  · rw [wordAt_eq_none.mpr hc] at h
    obtain ⟨q, -, hsw⟩ := bind_eq_some_iff.mp h
    exact switchAt_le hsw

theorem traceEnd_take (h : traceEnd m s = some (i, n)) : 0 < n ∧ i < s.length := by
  rw [traceEnd_eq_first] at h
  obtain ⟨-, hat, -⟩ := first_eq_some.mp h
  have hne : 0 < n ∧ s.drop i ≠ [] := by
    by_cases hc : m.closer <+: s.drop i
    · unfold endAt closeAt at hat
      rw [(wordAt_eq_some (u := ())).mpr hc] at hat
      obtain rfl : m.closer.length = n := Option.some.inj hat
      refine ⟨length_pos_of_ne_nil m.closer_ne, ?_⟩
      rintro he
      rw [he] at hc
      exact m.closer_ne (prefix_nil.mp hc)
    · unfold endAt closeAt at hat
      rw [wordAt_eq_none.mpr hc] at hat
      obtain ⟨q, hq, hsw⟩ := bind_eq_some_iff.mp hat
      obtain ⟨-, ⟨c, hqc, -⟩, -⟩ := @chan_spec q.1 q.2 m hq
      have hpre := switchAt_isPrefix hsw
      have hpos : 0 < q.1.length := by rw [hqc]; simp
      constructor
      · unfold switchAt at hsw
        rw [if_pos (List.isPrefixOf_iff_prefix.mpr hpre)] at hsw
        simp only at hsw
        split at hsw
        · cases hsw
        · split at hsw
          · cases hsw
            omega
          · cases hsw
      · rintro he
        rw [he] at hpre
        have := hpre.length_le
        rw [length_nil] at this
        omega
  refine ⟨hne.1, ?_⟩
  by_contra hge
  exact hne.2 (drop_eq_nil_of_le (by omega))

theorem markTurn_size (h : first (markAt m) x = some (i, v)) :
    (markTurn m q x i v).2.length < x.length := by
  obtain ⟨-, hat, -⟩ := first_eq_some.mp h
  have hlen : ∀ w : List Char, w ≠ [] → w <+: x.drop i → (x.drop (i + w.length)).length < x.length := by
    intro w hw hp
    have h1 := length_pos_of_ne_nil hw
    have h2 := hp.length_le
    rw [length_drop] at h2 ⊢
    omega
  cases v with
  | true => exact hlen _ m.opener_ne (markAt_cases hat).1
  | false => exact hlen _ m.closer_ne (markAt_cases' hat)

def left (q : Split × Sink) (x : List Char) : ℕ :=
  x.length + if q.1.state = .deciding then 1 else 0

theorem trimStart_length_le (x : List Char) : (trimStart x).length ≤ x.length :=
  (dropWhile_suffix _).length_le

theorem step_shrinks (h : step m q x = .go q' r) : left q' r < left q x := by
  unfold step at h
  cases hs : q.1.state with
  | deciding =>
    simp only [hs, stepDeciding] at h
    have hle := trimStart_length_le x
    split at h
    · cases h
      simp only [left, openBlock, hs, length_drop, reduceCtorEq, if_false, if_true]
      omega
    · split at h
      · cases h
      · cases h
        simp only [left, settle, hs, reduceCtorEq, if_false, if_true]
        omega
  | opened =>
    simp only [hs, stepOpened] at h
    cases he : traceEnd m x with
    | none => simp only [he] at h; cases h
    | some p =>
      obtain ⟨i, n⟩ := p
      obtain ⟨hn, hi⟩ := traceEnd_take he
      simp only [he] at h
      cases h
      simp only [left, settle, hs, reduceCtorEq, if_false, length_drop]
      omega
  | answer =>
    simp only [hs] at h
    split at h
    · rw [stepReenter_eq] at h
      cases hf : first (markAt m) x with
      | none => simp only [hf] at h; cases h
      | some p =>
        obtain ⟨i, v⟩ := p
        have := markTurn_size (q := q) hf
        simp only [hf] at h
        cases h
        have hst : (markTurn m q x i v).1.1.state ≠ .deciding := by
          cases v <;> simp [markTurn, openBlock, hs]
        simp only [left, hs, hst, reduceCtorEq, if_false]
        omega
    · cases h

def splitter (m : Marks) : Scanner (Split × Sink) Char Sink :=
  ⟨step m, finishInto, left, step_shrinks⟩

/-! ### Decisions are stable, waits resume -/

theorem splitter_stable (hm : m.Apart) : (splitter m).Stable := by
  intro q x q' r h t
  show step m q (x ++ t) = _
  replace h : step m q x = .go q' r := h
  unfold step at h ⊢
  cases hs : q.1.state with
  | deciding =>
    simp only [hs, stepDeciding] at h ⊢
    split at h
    · next ho =>
      rw [List.isPrefixOf_iff_prefix] at ho
      have hne : trimStart x ≠ [] := by
        intro he
        rw [he] at ho
        exact m.opener_ne (prefix_nil.mp ho)
      cases h
      rw [trimStart_append hne, if_pos (List.isPrefixOf_iff_prefix.mpr
        (ho.trans (prefix_append _ _))), drop_append_of_le_length ho.length_le]
    · next ho =>
      split at h
      · cases h
      · next hw =>
        rw [List.isPrefixOf_iff_prefix] at ho
        simp only [Bool.or_eq_true, decide_eq_true_eq, not_or, isPrefixOf_iff_prefix] at hw
        obtain ⟨hne, hpre⟩ := hw
        cases h
        have ho' : ¬ m.opener <+: trimStart x ++ t := fun h => hpre (word_append h ho).1
        rw [trimStart_append hne, if_neg (by rwa [List.isPrefixOf_iff_prefix]), if_neg]
        simp only [Bool.or_eq_true, decide_eq_true_eq, not_or, isPrefixOf_iff_prefix]
        exact ⟨fun he => hne (append_eq_nil_iff.mp he).1,
          fun h => hpre ((prefix_append _ _).trans h)⟩
  | opened =>
    simp only [hs, stepOpened] at h ⊢
    cases he : traceEnd m x with
    | none => simp only [he] at h; cases h
    | some p =>
      obtain ⟨i, n⟩ := p
      have hle : i + n ≤ x.length := by
        rw [traceEnd_eq_first] at he
        obtain ⟨hi, hat, -⟩ := first_eq_some.mp he
        have := endAt_le hat
        rw [length_drop] at this
        omega
      simp only [he] at h
      cases h
      rw [traceEnd_append hm he t]
      simp only
      rw [take_append_of_le_length (by omega), drop_append_of_le_length hle]
  | answer =>
    simp only [hs] at h ⊢
    split at h
    · next hr =>
      rw [if_pos hr]
      rw [stepReenter_eq] at h ⊢
      cases hf : first (markAt m) x with
      | none => simp only [hf] at h; cases h
      | some p =>
        obtain ⟨i, v⟩ := p
        simp only [hf] at h
        cases h
        rw [first_markAt_append hm hf t]
        have hi := first_le hf
        obtain ⟨-, hat, -⟩ := first_eq_some.mp hf
        cases v with
        | true =>
          have := (markAt_cases hat).1.length_le
          rw [length_drop] at this
          have := length_pos_of_ne_nil m.opener_ne
          simp only [markTurn]
          rw [take_append_of_le_length hi, drop_append_of_le_length (by omega)]
        | false =>
          have := (markAt_cases' hat).length_le
          rw [length_drop] at this
          have := length_pos_of_ne_nil m.closer_ne
          simp only [markTurn]
          rw [take_append_of_le_length hi, drop_append_of_le_length (by omega)]
    · cases h

theorem total_opened (hq : q.1.state = .opened) (x : List Char) : (splitter m).total q x =
    match first (endAt m) x with
    | some (i, n) =>
      (splitter m).total (settle (emitReasoning q (trimEnd (x.take i)))) (x.drop (i + n))
    | none => (emitReasoning q (trimEnd x)).2 := by
  rw [← traceEnd_eq_first]
  cases he : traceEnd m x with
  | some p =>
    obtain ⟨i, n⟩ := p
    refine Scanner.total_go (M := splitter m) ?_
    show step m q x = _
    simp only [step, hq, stepOpened, he]
  | none =>
    have hstep : (splitter m).step q x
        = .wait (emitReasoning q (x.take (traceCut m x))) (x.drop (traceCut m x)) := by
      show step m q x = _
      simp only [step, hq, stepOpened, he]
    rw [Scanner.total_wait hstep]
    show finishInto _ _ = _
    simp only [finishInto, emitReasoning_state, hq]
    have htrim : trimEnd (x.take (traceCut m x)) = x.take (traceCut m x) := by
      rw [traceCut_eq, trimEnd_trimEnd]
    rw [← emitReasoning_append, ← trimEnd_append htrim, take_append_drop]

theorem total_reenter (hq : q.1.state = .answer) (hr : m.reenter = true) (x : List Char) :
    (splitter m).total q x =
      match first (markAt m) x with
      | some (i, v) => (splitter m).total (markTurn m q x i v).1 (markTurn m q x i v).2
      | none => (emitAnswer q x).2 := by
  have hstep : (splitter m).step q x = stepReenter m q x := by
    show step m q x = _
    simp only [step, hq, hr, if_true]
  rw [stepReenter_eq] at hstep
  cases hf : first (markAt m) x with
  | some p =>
    rw [hf] at hstep
    exact Scanner.total_go hstep
  | none =>
    rw [hf] at hstep
    rw [Scanner.total_wait hstep]
    show finishInto _ _ = _
    simp only [finishInto, emitAnswer_state, hq]
    rw [← emitAnswer_append, take_append_drop]

theorem total_answer (hq : q.1.state = .answer) (hr : ¬ m.reenter = true) (x : List Char) :
    (splitter m).total q x = (emitAnswer q x).2 := by
  have hstep : (splitter m).step q x = .wait (emitAnswer q x) [] := by
    show step m q x = _
    simp only [step, hq, if_neg hr]
  rw [Scanner.total_wait hstep]
  show finishInto _ _ = _
  simp only [finishInto, emitAnswer_state, hq, emitAnswer_nil]

theorem take_past {x t : List Char} (h : n ≤ x.length) (i : ℕ) :
    (x ++ t).take (i + n) = x.take n ++ (x.drop n ++ t).take i := by
  rw [Nat.add_comm, take_add, take_append_of_le_length h, drop_append_of_le_length h]

theorem drop_past {x t : List Char} (h : n ≤ x.length) (i k : ℕ) :
    (x ++ t).drop (i + n + k) = (x.drop n ++ t).drop (i + k) := by
  rw [← drop_append_of_le_length h, drop_drop]
  congr 1
  omega

theorem splitter_resumes (m : Marks) : (splitter m).Resumes := by
  intro q x q' r h t
  replace h : step m q x = .wait q' r := h
  unfold step at h
  cases hs : q.1.state with
  | deciding =>
    simp only [hs, stepDeciding] at h
    split at h
    · cases h
    · split at h
      · cases h
        rfl
      · cases h
  | opened =>
    simp only [hs, stepOpened] at h
    cases he : traceEnd m x with
    | some p => simp only [he] at h; cases h
    | none =>
      simp only [he] at h
      cases h
      have hle := traceCut_le m x
      have htrim : trimEnd (x.take (traceCut m x)) = x.take (traceCut m x) := by
        rw [traceCut_eq, trimEnd_trimEnd]
      rw [total_opened hs, total_opened (by simpa using hs),
        first_drop (p := endAt m) (x := x ++ t) (n := traceCut m x)
          (by rw [length_append]; omega) (fun j hj => by
            rw [drop_append_of_le_length (by omega)]
            exact endAt_before_cut he hj t),
        drop_append_of_le_length hle]
      cases hf : first (endAt m) (x.drop (traceCut m x) ++ t) with
      | none =>
        simp only [map_none]
        rw [← emitReasoning_append, ← trimEnd_append htrim, ← append_assoc,
          take_append_drop]
      | some p =>
        simp only [map_some]
        rw [← emitReasoning_append, ← trimEnd_append htrim, take_past hle, drop_past hle]
  | answer =>
    simp only [hs] at h
    split at h
    · next hr =>
      rw [stepReenter_eq] at h
      cases hf : first (markAt m) x with
      | some p => simp only [hf] at h; cases h
      | none =>
        simp only [hf] at h
        cases h
        have hle : x.length - keep m x ≤ x.length := Nat.sub_le _ _
        generalize hn : x.length - keep m x = n at hle
        rw [total_reenter hs hr, total_reenter (by simpa using hs) hr,
          first_drop (p := markAt m) (x := x ++ t) (n := n)
            (by rw [length_append]; omega) (fun j hj => by
              rw [drop_append_of_le_length (by omega)]
              exact markAt_before_keep hf (hn ▸ hj) t),
          drop_append_of_le_length hle]
        cases hf' : first (markAt m) (x.drop n ++ t) with
        | none =>
          simp only [map_none]
          rw [← emitAnswer_append, ← append_assoc, take_append_drop]
        | some p =>
          obtain ⟨i, v⟩ := p
          simp only [map_some]
          cases v with
          | true => simp only [markTurn, take_past hle, drop_past hle, emitAnswer_append]
          | false => simp only [markTurn, take_past hle, drop_past hle, emitAnswer_append]
    · next hr =>
      cases h
      rw [total_answer hs hr, total_answer (by simpa using hs) hr, nil_append, emitAnswer_append]

/-! ### Pushing a generation in pieces -/

/-- `push_into`: the splitter with what it holds, after one more piece -/
def pushInto (m : Marks) (p : (Split × Sink) × List Char) (text : List Char) :
    (Split × Sink) × List Char :=
  if p.1.1.state = .answer ∧ m.reenter = false then (emitAnswer p.1 text, p.2)
  else (splitter m).feed p text

/-- the reasoning and the content after all pieces and `finish` -/
def splitText (mode : ReasoningMode) (reenter promptOpens : Bool) (pieces : List (List Char)) : Sink :=
  let p := pieces.foldl (pushInto (mode.marks reenter)) ((mode.init promptOpens, ⟨[], []⟩), [])
  finishInto p.1 p.2

def Settled (m : Marks) (p : (Split × Sink) × List Char) : Prop :=
  p.1.1.state = .answer → m.reenter = false → p.2 = []

theorem scan_settled (q : Split × Sink) (x : List Char) : Settled m ((splitter m).scan q x) := by
  induction q, x using Scanner.scan_induct (M := splitter m) with
  | hg q x q' r h ih =>
    rw [Scanner.scan_go h]
    exact ih
  | hw q x q' r h =>
    rw [Scanner.scan_wait h]
    intro hs hr
    replace h : step m q x = .wait q' r := h
    unfold step at h
    cases hq : q.1.state with
    | deciding =>
      simp only [hq, stepDeciding] at h
      split at h
      · cases h
      · split at h
        · cases h
          rw [hq] at hs
          cases hs
        · cases h
    | opened =>
      simp only [hq, stepOpened] at h
      cases he : traceEnd m x with
      | some p => simp only [he] at h; cases h
      | none =>
        simp only [he] at h
        cases h
        rw [emitReasoning_state, hq] at hs
        cases hs
    | answer =>
      simp only [hq, hr, Bool.false_eq_true, if_false] at h
      cases h
      rfl

theorem pushInto_eq_feed (hp : Settled m p) (text : List Char) :
    pushInto m p text = (splitter m).feed p text := by
  unfold pushInto
  split
  · next h =>
    have hstep : (splitter m).step p.1 (p.2 ++ text) = .wait (emitAnswer p.1 text) [] := by
      show step m p.1 (p.2 ++ text) = _
      simp only [step, h.1, h.2, Bool.false_eq_true, if_false, hp h.1 h.2, nil_append]
    rw [Scanner.feed, Scanner.scan_wait hstep, hp h.1 h.2]
  · rfl

theorem foldl_pushInto (hp : Settled m p)
    (pieces : List (List Char)) : pieces.foldl (pushInto m) p = pieces.foldl (splitter m).feed p := by
  induction pieces generalizing p with
  | nil => rfl
  | cons x pieces ih =>
    rw [foldl_cons, foldl_cons, pushInto_eq_feed hp]
    exact ih (scan_settled _ _)

theorem first_endAt_nil (m : Marks) : first (endAt m) [] = none := by
  rw [← traceEnd_eq_first]
  cases h : traceEnd m [] with
  | none => rfl
  | some p => exact absurd (traceEnd_take h).2 (Nat.not_lt_zero _)

theorem rested_nil (m : Marks) (q : Split × Sink) : (splitter m).Rested (q, []) := by
  show finishInto q [] = (splitter m).total q []
  cases hq : q.1.state with
  | deciding =>
    have hstep : (splitter m).step q [] = .wait q [] := by
      show step m q [] = _
      have ho : ¬ m.opener.isPrefixOf [] = true := by
        rw [List.isPrefixOf_iff_prefix, prefix_nil]
        exact m.opener_ne
      simp only [step, hq, stepDeciding, trimStart, dropWhile_nil, if_neg ho, decide_true,
        Bool.true_or, if_true]
    rw [Scanner.total_wait hstep]
    rfl
  | opened =>
    rw [total_opened hq, first_endAt_nil]
    simp only [finishInto, hq]
  | answer =>
    by_cases hr : m.reenter = true
    · have hf : first (markAt m) [] = none :=
        first_eq_none.mpr (fun j _ => markAt_eq_none.mpr (by
          rw [drop_nil, prefix_nil, prefix_nil]
          exact ⟨m.closer_ne, m.opener_ne⟩))
      rw [total_reenter hq hr, hf]
      simp only [finishInto, hq]
    · rw [total_answer hq hr]
      simp only [finishInto, hq]

theorem splitText_total (hm : (mode.marks reenter).Apart)
    (promptOpens : Bool) (pieces : List (List Char)) : splitText mode reenter promptOpens pieces
      = (splitter (mode.marks reenter)).total (mode.init promptOpens, ⟨[], []⟩) pieces.flatten := by
  unfold splitText
  rw [foldl_pushInto (fun _ _ => rfl)]
  exact Scanner.finish_feeds (splitter_stable hm) (splitter_resumes _) (rested_nil _ _) pieces

theorem splitText_pieces (hm : (mode.marks reenter).Apart)
    (promptOpens : Bool) (pieces : List (List Char)) :
    splitText mode reenter promptOpens pieces = splitText mode reenter promptOpens [pieces.flatten] := by
  rw [splitText_total hm, splitText_total hm, flatten_singleton]

end Plow.Reasoning
