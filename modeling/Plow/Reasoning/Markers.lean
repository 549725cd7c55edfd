import Plow.Reasoning.Split

/-!
# Where a trace ends

`traceEnd` combines two searches of the whole text, one for the close marker and one for a channel
token with another label. Both are the leftmost place of a test that only looks at the text from the
place on (`traceEnd_eq_first`), so text before a cut with no such place can be forgotten.

More text could only change what was found in two ways, both ruled out by `Marks.Apart`:

* the close marker ends a channel token and its label, so it is found in a label still being written;
* the close marker holds a channel switch, which is found before the close marker is complete.
-/

namespace Plow.Reasoning

open Plow.Lib Plow.Lib.Text List Option

/-! ### The channel token -/

variable {o chan label s t x c w : List Char} {m : Marks} {i j n k : ℕ} {z : Char}

theorem channelOf_spec (h : channelOf o = some (chan, label)) :
    o = chan ++ label ∧ (∃ c, chan = c ++ ['>'] ∧ '>' ∉ c) ∧ label.all isLetter = true := by
  simp only [channelOf, filter_eq_some_iff, map_eq_some_iff] at h
  obtain ⟨⟨i, hi, hq⟩, hl⟩ := h
  obtain ⟨hlt, hat, hbefore⟩ := findIdx?_eq_some_iff_getElem.mp hi
  simp only [splitAt_eq, Prod.mk.injEq] at hq
  obtain ⟨rfl, rfl⟩ := hq
  simp only [Bool.and_eq_true] at hl
  refine ⟨(take_append_drop _ _).symm, ⟨o.take i, ?_, ?_⟩, hl.2⟩
  · rw [take_add_one, getElem?_eq_getElem hlt]
    simp only [decide_eq_true_eq] at hat
    rw [hat, toList_some]
  · intro hmem
    obtain ⟨k, hk, hko⟩ := getElem_of_mem hmem
    rw [length_take] at hk
    have := hbefore k (by omega)
    rw [getElem_take] at hko
    simp [hko] at this

theorem chan_spec (h : m.chan = some (chan, label)) :
    m.opener = chan ++ label ∧ (∃ c, chan = c ++ ['>'] ∧ '>' ∉ c) ∧ label.all isLetter = true := by
  unfold Marks.chan at h
  split at h
  · exact channelOf_spec h
  · cases h

theorem word_apart (hz : z ∉ c) (hi : (c ++ [z]) <+: s.drop i)
    (hj : (c ++ [z]) <+: s.drop j) (hij : i < j) : i + c.length + 1 ≤ j := by
  by_contra hlt
  obtain ⟨u, hu⟩ := hi
  obtain ⟨v, hv⟩ := hj
  have h1 : s[i + c.length]? = some z := by
    have := congrArg (·[c.length]?) hu
    simp only [append_assoc, getElem?_drop] at this
    rw [← this]
    simp
  have h2 : s[i + c.length]? = (c)[i + c.length - j]? := by
    have := congrArg (·[i + c.length - j]?) hv
    simp only [append_assoc, getElem?_drop] at this
    rw [show j + (i + c.length - j) = i + c.length by omega] at this
    rw [← this, getElem?_append_left (by omega)]
  exact hz (mem_of_getElem? (h2.symm.trans h1))

/-! ### Channel switches -/

/-- the channel token stands here with a label other than its own: the length of the two -/
def switchAt (chan label x : List Char) : Option ℕ :=
  if chan.isPrefixOf x then
    let after := x.drop chan.length
    let n := letters after
    if n = after.length then none
    else if after.take n ≠ label then
      some (chan.length + n + if ['\n'].isPrefixOf (after.drop n) then 1 else 0)
    else none
  else none

def Pending (chan x : List Char) : Prop :=
  chan <+: x ∧ letters (x.drop chan.length) = (x.drop chan.length).length

/-- nothing from here to `i` is a switch or a pending label -/
def Plain (chan label s : List Char) (i : ℕ) : Prop :=
  ∀ j < i, switchAt chan label (s.drop j) = none ∧ ¬ Pending chan (s.drop j)

theorem switchAt_none (h : ¬ chan <+: x) : switchAt chan label x = none := by
  rw [switchAt, if_neg (by rwa [List.isPrefixOf_iff_prefix])]

theorem switchAt_isPrefix (h : switchAt chan label x = some n) : chan <+: x := by
  by_contra hn
  rw [switchAt_none hn] at h
  cases h

theorem plain_of_no_word (hp : Plain c label s i)
    (hno : ∀ j, i ≤ j → j < k → ¬ c <+: s.drop j) : Plain c label s k := by
  intro j hj
  by_cases hji : j < i
  · exact hp j hji
  · have := hno j (by omega) hj
    exact ⟨switchAt_none this, fun h => this h.1⟩

theorem no_word_beyond (hc : chan ≠ []) (hj : s.length ≤ j) : ¬ chan <+: s.drop j := by
  intro h
  rw [drop_eq_nil_of_le hj] at h
  exact hc (prefix_nil.mp h)

/-- what the loop of `channel_switch` finds -/
def Found (chan label s : List Char) : Option (Except ℕ (ℕ × ℕ)) → Prop
  | none => ∀ k, Plain chan label s k
  | some (.error j) => j ≤ s.length ∧ Plain chan label s j ∧ Pending chan (s.drop j)
  | some (.ok (j, n)) => j ≤ s.length ∧ Plain chan label s j ∧
      switchAt chan label (s.drop j) = some n

theorem channelScan_found (hz : z ∉ c) (hch : chan = c ++ [z])
    (fuel start : ℕ) (hf : s.length < start + fuel) (hp : Plain chan label s start) :
    Found chan label s (channelScan chan label s fuel start) := by
  have hne : chan ≠ [] := by rw [hch]; exact concat_ne_nil z c
  have hpos : 0 < chan.length := length_pos_of_ne_nil hne
  induction fuel generalizing start with
  | zero => exact fun k => plain_of_no_word hp (fun j hj _ => no_word_beyond hne (by omega))
  | succ fuel ih =>
    unfold channelScan
    cases hfind : find chan (s.drop start) with
    | none =>
      intro k
      refine plain_of_no_word hp (fun j hj _ => ?_)
      by_cases hjs : s.length ≤ j
      · exact no_word_beyond hne hjs
      · have := first_eq_none.mp (find_eq_none.mp hfind) (j - start)
          (by rw [length_drop]; omega)
        rwa [drop_drop, show start + (j - start) = j by omega, wordAt_eq_none] at this
    | some k =>
      obtain ⟨hk, hat, hbefore⟩ := first_eq_some.mp (find_eq_some.mp hfind)
      rw [drop_drop] at hat
      have hat' : chan <+: s.drop (start + k) := wordAt_eq_some.mp hat
      have hjs : start + k < s.length := by
        by_contra hge
        exact no_word_beyond hne (by omega) hat'
      have hpj : Plain chan label s (start + k) := by
        refine plain_of_no_word hp (fun j hj hjk => ?_)
        have := hbefore (j - start) (by omega)
        rwa [drop_drop, show start + (j - start) = j by omega, wordAt_eq_none] at this
      have hafter : s.drop (start + k + chan.length) = (s.drop (start + k)).drop chan.length := by
        rw [drop_drop]
      simp only
      split
      · next hl =>
        rw [hafter] at hl
        exact ⟨hjs.le, hpj, hat', hl⟩
      · next hl =>
        split
        · next hlab =>
          rw [hafter] at hl hlab ⊢
          refine ⟨hjs.le, hpj, ?_⟩
          rw [switchAt, if_pos (List.isPrefixOf_iff_prefix.mpr hat')]
          simp only [if_neg hl, if_pos hlab]
        · next hlab =>
          rw [hafter] at hl hlab
          refine ih (start + k + chan.length) (by omega) ?_
          refine plain_of_no_word (i := start + k + 1) ?_ ?_
          · intro j hj
            rcases Nat.lt_succ_iff_lt_or_eq.mp hj with hj | rfl
            · exact hpj j hj
            · refine ⟨?_, fun h => hl h.2⟩
              rw [switchAt, if_pos (List.isPrefixOf_iff_prefix.mpr hat')]
              simp only [if_neg hl, if_neg hlab]
          · intro j hj hjk hw
            rw [hch] at hat' hw
            have := word_apart hz hat' hw (by omega)
            rw [hch, length_append, length_singleton] at hjk
            omega

theorem channelSwitch_found (h : m.chan = some (chan, label)) (s : List Char) :
    Found chan label s (channelSwitch m s) := by
  obtain ⟨-, ⟨c, hc, hz⟩, -⟩ := chan_spec h
  simp only [channelSwitch, h]
  exact channelScan_found hz hc _ 0 (by omega) (fun j hj => absurd hj (Nat.not_lt_zero j))

theorem pending_last (hc : chan = c ++ ['>']) (hz : '>' ∉ c)
    (h : Pending chan (s.drop i)) (hij : i < j) : ¬ chan <+: s.drop j := by
  intro hw
  have hle : i + chan.length ≤ j := by
    have hi := h.1
    rw [hc] at hi hw ⊢
    rw [length_append, length_singleton]
    exact word_apart hz hi hw hij
  have hletters : ∀ a ∈ s.drop (i + chan.length), isLetter a = true := by
    have hl := h.2
    rw [drop_drop, letters] at hl
    rw [← takeWhile_eq_self_iff]
    exact (List.takeWhile_prefix isLetter).eq_of_length hl
  have hmem : '>' ∈ s.drop j := hw.subset (by rw [hc]; simp)
  have hsub : s.drop j <:+ s.drop (i + chan.length) := by
    rw [show j = i + chan.length + (j - (i + chan.length)) by omega, ← drop_drop]
    exact drop_suffix _ _
  exact absurd (hletters _ (hsub.subset hmem)) (by decide)

theorem first_switchAt (h : m.chan = some (chan, label)) (s : List Char) :
    first (switchAt chan label) s =
      match channelSwitch m s with
      | some (.ok sw) => some sw
      | _ => none := by
  have hf := channelSwitch_found h s
  obtain ⟨-, ⟨c, hc, hz⟩, -⟩ := chan_spec h
  cases hs : channelSwitch m s with
  | none =>
    rw [hs] at hf
    exact first_eq_none.mpr (fun j _ => (hf (j + 1) j (Nat.lt_succ_self j)).1)
  | some e =>
    rw [hs] at hf
    cases e with
    | ok sw => exact first_eq_some.mpr ⟨hf.1, hf.2.2, fun j hj => (hf.2.1 j hj).1⟩
    | error j =>
      refine first_eq_none.mpr (fun k _ => ?_)
      rcases lt_trichotomy k j with hk | rfl | hk
      · exact (hf.2.1 k hk).1
      · have hp := hf.2.2
        rw [switchAt, if_pos (List.isPrefixOf_iff_prefix.mpr hp.1)]
        exact if_pos hp.2
      · exact switchAt_none (pending_last hc hz hf.2.2 hk)

/-! ### The end of a trace -/

def closeAt (m : Marks) (x : List Char) : Option ℕ :=
  (wordAt m.closer x).map (fun _ => m.closer.length)

def endAt (m : Marks) (x : List Char) : Option ℕ :=
  (closeAt m x).orElse (fun _ => m.chan.bind (fun q => switchAt q.1 q.2 x))

theorem first_closeAt (m : Marks) (s : List Char) :
    first (closeAt m) s = (find m.closer s).map (fun i => (i, m.closer.length)) := by
  unfold closeAt find
  rw [first_map, Option.map_map]
  rfl

theorem traceEnd_eq_first (m : Marks) (s : List Char) : traceEnd m s = first (endAt m) s := by
  show _ = first (fun x => (closeAt m x).orElse (fun _ => m.chan.bind (fun q => switchAt q.1 q.2 x))) s
  rw [first_orElse, first_closeAt]
  unfold traceEnd
  cases hc : m.chan with
  | none =>
    have hn : first (fun x => (none : Option (List Char × List Char)).bind
        (fun q => switchAt q.1 q.2 x)) s = none :=
      first_eq_none.mpr (fun _ _ => rfl)
    rw [hn]
    simp only [channelSwitch, hc]
    cases find m.closer s <;> rfl
  | some q =>
    have hq : first (fun x => (some q).bind (fun q => switchAt q.1 q.2 x)) s
        = first (switchAt q.1 q.2) s := rfl
    rw [hq, first_switchAt hc s]
    cases channelSwitch m s with
    | none => cases find m.closer s <;> rfl
    | some e =>
      cases e with
      | error j => cases find m.closer s <;> rfl
      | ok sw =>
        cases find m.closer s with
        | none => rfl
        | some i => simp [all]

theorem endAt_eq_none : endAt m x = none ↔
    ¬ m.closer <+: x ∧ ∀ q ∈ m.chan, switchAt q.1 q.2 x = none := by
  unfold endAt closeAt
  rw [← wordAt_eq_none]
  cases wordAt m.closer x with
  | some u => simp
  | none => cases m.chan <;> simp

/-- the markers cannot be mistaken for each other, whole or in part -/
structure Marks.Apart (m : Marks) : Prop where
  opener_closer : ¬ m.opener <:+: m.closer
  closer_opener : ¬ m.closer <:+: m.opener
  /-- without its last letters the close marker is not an end of the channel token -/
  label : ∀ q ∈ m.chan, ¬ m.closer.rdropWhile isLetter <:+ q.1.tail
  /-- no channel switch is complete before the close marker it stands in -/
  switch : ∀ q ∈ m.chan, first (switchAt q.1 q.2) m.closer.dropLast = none

theorem letters_append (h : letters x ≠ x.length) : letters (x ++ t) = letters x := by
  unfold letters at h ⊢
  rw [takeWhile_append, if_neg h]

theorem letters_le (x : List Char) : letters x ≤ x.length :=
  (List.takeWhile_prefix isLetter).length_le

theorem switchAt_append (h : chan <+: x) (hl : letters (x.drop chan.length) ≠ (x.drop chan.length).length) :
    switchAt chan label (x ++ t) = switchAt chan label x := by
  have hle := h.length_le
  have hlt := Nat.lt_of_le_of_ne (letters_le _) hl
  unfold switchAt
  rw [if_pos (List.isPrefixOf_iff_prefix.mpr h),
    if_pos (List.isPrefixOf_iff_prefix.mpr (h.trans (prefix_append x t))),
    drop_append_of_le_length hle]
  simp only [letters_append hl, length_append]
  rw [if_neg hl, if_neg (by omega), take_append_of_le_length hlt.le,
    drop_append_of_le_length hlt.le]
  have hne : (x.drop chan.length).drop (letters (x.drop chan.length)) ≠ [] := by
    rw [ne_eq, drop_eq_nil_iff]
    omega
  obtain ⟨a, y, hy⟩ := exists_cons_of_ne_nil hne
  rw [hy]
  rfl

theorem switchAt_settled (h : switchAt chan label x = some n) :
    letters (x.drop chan.length) ≠ (x.drop chan.length).length := by
  intro hl
  unfold switchAt at h
  rw [if_pos (List.isPrefixOf_iff_prefix.mpr (switchAt_isPrefix h))] at h
  simp only [if_pos hl] at h
  cases h

theorem switchAt_mono (h : switchAt chan label x = some n) : switchAt chan label (x ++ t) = some n :=
  (switchAt_append (switchAt_isPrefix h) (switchAt_settled h)).trans h

theorem switchAt_new (h : switchAt chan label (x ++ t) = some n) (hx : switchAt chan label x = none) :
    (x <+: chan ∧ x.length < chan.length) ∨ Pending chan x := by
  by_cases hw : chan <+: x
  · refine .inr ⟨hw, ?_⟩
    by_contra hl
    rw [switchAt_append hw hl, hx] at h
    cases h
  · exact .inl (word_append (switchAt_isPrefix h) hw)

theorem drop_drop_of_lt (hij : i < j) : s.drop j = (s.drop i).drop (j - i) := by
  rw [drop_drop, Nat.add_sub_of_le hij.le]

/-- a close marker in a pending label ends the channel token -/
theorem close_in_label (hm : m.Apart) (hch : m.chan = some (chan, label))
    (hp : Pending chan (s.drop i)) (hij : i < j) : ¬ m.closer <+: s.drop j := by
  intro hw
  obtain ⟨ho, ⟨c, hc, hz⟩, -⟩ := chan_spec hch
  obtain ⟨l, hl⟩ := hp.1
  have hletters : ∀ a ∈ l, isLetter a = true := by
    have := hp.2
    rw [← hl, drop_left] at this
    rw [← takeWhile_eq_self_iff]
    exact (List.takeWhile_prefix isLetter).eq_of_length this
  obtain ⟨d, rfl⟩ : ∃ d, j = i + (d + 1) := ⟨j - i - 1, by omega⟩
  have hdrop : s.drop (i + (d + 1)) = chan.tail.drop d ++ l.drop (d - chan.tail.length) := by
    rw [← drop_drop, ← hl, drop_append, ← drop_tail]
    congr 2
    rw [hc]
    simp only [length_append, length_singleton, length_tail]
    omega
  rw [hdrop] at hw
  have hsub : chan.tail.drop d <:+ chan.tail := drop_suffix d _
  have hnot := hm.label _ (by rw [hch]; rfl)
  have hin : ¬ m.closer <+: chan.tail.drop d := fun h => hm.closer_opener (by
    rw [ho]
    exact (h.isInfix.trans (hsub.isInfix.trans (tail_suffix _).isInfix)).trans
      (prefix_append _ _).isInfix)
  obtain ⟨hv, -⟩ := word_append hw hin
  obtain ⟨l', hl'⟩ := hv
  have hl'letters : ∀ a ∈ l', isLetter a = true := by
    intro a ha
    rw [← hl', prefix_append_right_inj] at hw
    exact hletters a (drop_subset _ _ (hw.subset ha))
  apply hnot
  rw [← hl']
  have htail : (chan.tail.drop d ++ l').rdropWhile isLetter = (chan.tail.drop d).rdropWhile isLetter := by
    unfold rdropWhile
    rw [reverse_append, dropWhile_append, if_pos]
    rw [List.isEmpty_iff, dropWhile_eq_nil_iff]
    exact fun a ha => hl'letters a (mem_reverse.mp ha)
  rw [htail]
  by_cases he : chan.tail.drop d = []
  · rw [he]
    exact nil_suffix
  · suffices h : (chan.tail.drop d).rdropWhile isLetter = chan.tail.drop d by rwa [h]
    rw [rdropWhile_eq_self_iff]
    intro hne
    have hlast : (chan.tail.drop d).getLast hne = '>' := by
      have := hsub.trans (tail_suffix chan)
      rw [this.getLast hne]
      simp [hc]
    rw [hlast]
    decide

/-- an end of the trace stays the first one when more text comes -/
theorem traceEnd_append (hm : m.Apart) (h : traceEnd m s = some (i, n)) (t : List Char) :
    traceEnd m (s ++ t) = some (i, n) := by
  rw [traceEnd_eq_first] at h ⊢
  obtain ⟨hi, hat, hbefore⟩ := first_eq_some.mp h
  -- what ends the trace at `i` is a close marker or a channel switch
  have hend : m.closer <+: s.drop i ∨
      ∃ q ∈ m.chan, switchAt q.1 q.2 (s.drop i) = some n ∧ ¬ m.closer <+: s.drop i := by
    by_cases hc : m.closer <+: s.drop i
    · exact .inl hc
    · unfold endAt closeAt at hat
      rw [wordAt_eq_none.mpr hc] at hat
      obtain ⟨q, hq, hsw⟩ := bind_eq_some_iff.mp hat
      exact .inr ⟨q, hq, hsw, hc⟩
  -- a switch at `i` cannot stand in a close marker that is still open there
  have hinside : ∀ j ≤ i, ∀ q ∈ m.chan, switchAt q.1 q.2 (s.drop i) = some n →
      s.drop j <+: m.closer → (s.drop j).length < m.closer.length → False := by
    intro j hj q hq hsw hpre hlen
    have hpre' : s.drop j <+: m.closer.dropLast := by
      rw [dropLast_eq_take]
      exact prefix_take_iff.mpr ⟨hpre, by omega⟩
    obtain ⟨u, hu⟩ := hpre'
    have hfirst := first_eq_none.mp (hm.switch q hq) (i - j) (by
      have := congrArg length hu
      rw [length_append, length_drop] at this
      omega)
    rw [← hu, drop_append_of_le_length (by rw [length_drop]; omega), drop_drop,
      Nat.add_sub_of_le hj, switchAt_mono hsw] at hfirst
    cases hfirst
  refine first_append h ?_ (fun j hj => ?_)
  · rcases hend with hc | ⟨q, hq, hsw, hc⟩
    · have hc' : m.closer <+: s.drop i ++ t := hc.trans (prefix_append _ _)
      unfold endAt closeAt at hat ⊢
      rw [(wordAt_eq_some (u := ())).mpr hc] at hat
      rw [(wordAt_eq_some (u := ())).mpr hc']
      exact hat
    · have hc' : ¬ m.closer <+: s.drop i ++ t := by
        intro hw
        obtain ⟨h1, h2⟩ := word_append hw hc
        exact hinside i le_rfl q hq hsw h1 h2
      unfold endAt closeAt
      rw [wordAt_eq_none.mpr hc', hq]
      exact switchAt_mono hsw
  · obtain ⟨hjc, hjs⟩ := endAt_eq_none.mp (hbefore j hj)
    refine endAt_eq_none.mpr ⟨fun hw => ?_, fun q hq => ?_⟩
    · obtain ⟨h1, h2⟩ := word_append hw hjc
      rcases hend with hc | ⟨q, hq, hsw, -⟩
      · have := hc.length_le
        simp only [length_drop] at this h2
        omega
      · exact hinside j hj.le q hq hsw h1 h2
    · by_contra hne
      obtain ⟨k, hk⟩ := ne_none_iff_exists'.mp hne
      obtain ⟨ho, ⟨c, hc, hz⟩, -⟩ := @chan_spec q.1 q.2 m hq
      rcases switchAt_new hk (hjs q hq) with ⟨h1, h2⟩ | hp
      · rcases hend with hcl | ⟨q', hq', hsw, -⟩
        · have hin : m.closer <:+: q.1 := by
            rw [drop_drop_of_lt hj] at hcl
            exact (hcl.isInfix.trans (drop_suffix _ _).isInfix).trans h1.isInfix
          exact hm.closer_opener (hin.trans (by rw [ho]; exact (prefix_append _ _).isInfix))
        · obtain rfl : q' = q := some.inj (hq'.symm.trans hq)
          have := (switchAt_isPrefix hsw).length_le
          simp only [length_drop] at this h2
          omega
      · rcases hend with hcl | ⟨q', hq', hsw, -⟩
        · exact close_in_label hm hq hp hj hcl
        · obtain rfl : q' = q := some.inj (hq'.symm.trans hq)
          exact pending_last hc hz hp hj (switchAt_isPrefix hsw)

/-! ### What can be taken off -/

theorem find?_range_rev {P : ℕ → Bool} (hk : k < n) (hP : P k = true) :
    k ≤ ((range n).reverse.find? P).getD 0 := by
  induction n with
  | zero => exact absurd hk (Nat.not_lt_zero k)
  | succ n ih =>
    rw [range_succ, reverse_append, reverse_singleton, singleton_append,
      find?_cons]
    cases hn : P n with
    | true => exact Nat.le_of_lt_succ hk
    | false =>
      refine ih (Nat.lt_of_le_of_ne (Nat.le_of_lt_succ hk) ?_)
      rintro rfl
      rw [hn] at hP
      cases hP

theorem prefixTail_le (s w : List Char) : prefixTail s w ≤ s.length := by
  unfold prefixTail
  cases h : (range (min w.length (s.length + 1))).reverse.find? _ with
  | none => exact Nat.zero_le _
  | some k =>
    have := mem_of_find?_eq_some h
    rw [mem_reverse, mem_range] at this
    simp only [getD_some]
    omega

theorem le_prefixTail (h : s.drop j <+: w) (hl : (s.drop j).length < w.length)
    (hj : j < s.length) : s.length - j ≤ prefixTail s w := by
  rw [length_drop] at hl
  unfold prefixTail
  refine find?_range_rev (P := fun k => 0 < k && (s.drop (s.length - k)).isPrefixOf w)
    (k := s.length - j) (by omega) ?_
  simp only [Nat.sub_sub_self hj.le, Bool.and_eq_true, decide_eq_true_eq, isPrefixOf_iff_prefix]
  exact ⟨by omega, h⟩

/-- the place `trace_cut` trims back from -/
def rawCut (m : Marks) (s : List Char) : ℕ :=
  let cut := cutAt (byteLen m.closer - 1) s
  match m.chan with
  | none => cut
  | some (chan, _) =>
    let cut := min cut (s.length - prefixTail s chan)
    match channelSwitch m s with
    | some (.error j) => min cut j
    | _ => cut

theorem traceCut_eq (m : Marks) (s : List Char) :
    s.take (traceCut m s) = trimEnd (s.take (rawCut m s)) := by
  have h : traceCut m s = (trimEnd (s.take (rawCut m s))).length := rfl
  have hle := (trimEnd_length_le (s.take (rawCut m s))).trans (length_take_le _ _)
  have htake := trimEnd_eq_take (s.take (rawCut m s))
  rwa [take_take, min_eq_left hle, ← h] at htake

theorem rawCut_le_cutAt (m : Marks) (s : List Char) :
    rawCut m s ≤ cutAt (byteLen m.closer - 1) s := by
  unfold rawCut
  split
  · exact le_rfl
  · split
    · exact (min_le_left _ _).trans (min_le_left _ _)
    · exact min_le_left _ _

theorem traceCut_le_rawCut (m : Marks) (s : List Char) : traceCut m s ≤ rawCut m s :=
  (trimEnd_length_le _).trans (length_take_le _ _)

theorem traceCut_le (m : Marks) (s : List Char) : traceCut m s ≤ s.length :=
  (traceCut_le_rawCut m s).trans ((rawCut_le_cutAt m s).trans (cutAt_le _ s))

/-- no more text opens an end of the trace before the cut -/
theorem endAt_before_cut (h : traceEnd m s = none) (hj : j < traceCut m s) (t : List Char) :
    endAt m (s.drop j ++ t) = none := by
  have hcut := lt_of_lt_of_le hj (traceCut_le_rawCut m s)
  have hbyte := lt_of_lt_of_le hcut (rawCut_le_cutAt m s)
  have hjs : j < s.length := lt_of_lt_of_le hbyte (cutAt_le _ s)
  rw [traceEnd_eq_first] at h
  obtain ⟨hc, hsw⟩ := endAt_eq_none.mp (first_eq_none.mp h j hjs.le)
  refine endAt_eq_none.mpr ⟨fun hw => ?_, fun q hq => ?_⟩
  · obtain ⟨⟨u, hu⟩, hl⟩ := word_append hw hc
    have hlt := lt_byteLen_of_lt_cutAt hbyte
    have hu0 : 0 < byteLen u := byteLen_pos (by
      rintro rfl
      rw [append_nil] at hu
      rw [hu] at hl
      exact lt_irrefl _ hl)
    rw [← hu, byteLen_append] at hlt
    omega
  · by_contra hne
    obtain ⟨k, hk⟩ := ne_none_iff_exists'.mp hne
    have hq' : m.chan = some (q.1, q.2) := hq
    have hcut' : rawCut m s ≤ s.length - prefixTail s q.1 := by
      simp only [rawCut, hq']
      split
      · exact (min_le_left _ _).trans (min_le_right _ _)
      · exact min_le_right _ _
    rcases switchAt_new hk (hsw q hq) with ⟨h1, h2⟩ | hp
    · have := le_prefixTail h1 h2 hjs
      have := prefixTail_le s q.1
      omega
    · have hf := @channelSwitch_found q.1 q.2 m hq s
      cases hcs : channelSwitch m s with
      | none =>
        rw [hcs] at hf
        exact (hf (j + 1) j (Nat.lt_succ_self j)).2 hp
      | some e =>
        rw [hcs] at hf
        cases e with
        | error j' =>
          have : rawCut m s ≤ j' := by
            simp only [rawCut, hq', hcs]
            exact min_le_right _ _
          exact (hf.2.1 j (by omega)).2 hp
        | ok sw =>
          have := (endAt_eq_none.mp (first_eq_none.mp h sw.1 hf.1)).2 q hq
          rw [hf.2.2] at this
          cases this

end Plow.Reasoning
