import Plow.Lib.Erase
import Plow.Tools.Stream

/-!
# Special-token text

`strip` removes the text of special tokens, longest first, and `stripStream` does it over a stream of
pieces, holding back a tail that may begin a token.  A stream comes out as the whole text does when no
token that the scan takes reaches into what is held back (`strip_stream_clean`); tokens of which none
ends in the beginning of another keep to that.

A text is the list of its bytes; the first byte of a token is never a continuation byte, so every slice
the source takes of a string is at a character boundary.  The letters are any type, and over characters
the tables are those of `SpecialText` (`Wf.stripStream_text`).
-/

namespace Plow.Tools
open Plow.Lib List Option

/-- `SpecialText` with its tables: the letters that tokens begin with, and the longest token -/
structure SpecialTable (A : Type) where
  /-- longest first, so a token that prefixes another does not cut it short -/
  tokens : List (List A)
  first : A → Bool
  longest : ℕ

namespace SpecialTable

variable {A : Type} [DecidableEq A]

def new (tokens : List (List A)) : SpecialTable A :=
  let tokens := ((tokens.filter (· ≠ [])).insertionSort (fun s t => t.length ≤ s.length)).destutter (· ≠ ·)
  ⟨tokens, fun b => tokens.any fun t => t.head? = some b, (tokens.head?.map List.length).getD 0⟩

variable (st : SpecialTable A)

/-- the loop of `strip_into` on a text whose first byte may begin a token -/
def stripLoop : ℕ → List A → List A
  | 0, _ => []
  | _ + 1, [] => []
  | fuel + 1, b :: rest =>
    match if st.first b then st.tokens.find? (·.isPrefixOf (b :: rest)) else none with
    | some t => stripLoop fuel ((b :: rest).drop t.length)
    | none =>
      -- up to the next byte that may begin a token
      let next := ((rest.findIdx? st.first).map (1 + ·)).getD (1 + rest.length)
      (b :: rest).take next ++ stripLoop fuel ((b :: rest).drop next)

def stripInto (s out : List A) : List A :=
  match s.findIdx? st.first with
  | none => out ++ s
  | some first => out ++ s.take first ++ st.stripLoop (s.length + 1) (s.drop first)

def strip (s : List A) : List A := st.stripInto s []

/-- bytes at the end of `s` that are a proper prefix of some token -/
def partialTail (s : List A) : ℕ :=
  let start := s.length - (st.longest - 1)
  match (List.range' start (s.length - start)).find? fun p => (s[p]?).any st.first &&
      st.tokens.any fun t => (s.drop p).length < t.length && (s.drop p).isPrefixOf t with
  | some p => s.length - p
  | none => 0

/-- what is held and the output, one piece later -/
def stripStream (hold s out : List A) (last : Bool) : List A × List A :=
  if hold = [] then
    let keep := if last then 0 else st.partialTail s
    (hold ++ s.drop (s.length - keep), st.stripInto (s.take (s.length - keep)) out)
  else
    let w := hold ++ s
    let keep := if last then 0 else st.partialTail w
    (w.drop (w.length - keep), st.stripInto (w.take (w.length - keep)) out)

def stream (pieces : List (List A)) (last : List A) : List A :=
  let c := pieces.foldl (fun c s => st.stripStream c.1 s c.2 false) ([], [])
  (st.stripStream c.1 last c.2 true).2

def Clean : List A → List (List A) → Prop
  | _, [] => True
  | hold, s :: rest =>
    Uncut st.tokens (hold ++ s) ((hold ++ s).length - st.partialTail (hold ++ s)) ∧
      Clean (st.stripStream hold s [] false).1 rest

/-! ### The tokens -/

/-- what `new` makes of its tokens -/
structure Wf : Prop where
  nonempty : [] ∉ st.tokens
  first : ∀ b, st.first b = true ↔ ∃ t ∈ st.tokens, t.head? = some b
  longest : ∀ t ∈ st.tokens, t.length ≤ st.longest

theorem wf_new (tokens : List (List A)) : (new tokens).Wf := by
  have hsub : (new tokens).tokens.Sublist ((tokens.filter (· ≠ [])).insertionSort fun s t => t.length ≤ s.length) :=
    destutter_sublist _ _
  constructor
  · intro hmem
    have hin := (perm_insertionSort _ _).subset (hsub.subset hmem)
    exact absurd rfl (of_decide_eq_true (mem_filter.mp hin).2)
  · intro b
    show any _ _ = true ↔ _
    rw [List.any_eq_true]
    simp only [decide_eq_true_iff]
    exact Iff.rfl
  · intro t ht
    have hsorted : (new tokens).tokens.Pairwise fun s t => t.length ≤ s.length := by
      have : Std.Total fun s t : List A => t.length ≤ s.length := ⟨fun s t => le_total _ _⟩
      have : IsTrans (List A) fun s t => t.length ≤ s.length := ⟨fun _ _ _ h h' => h'.trans h⟩
      exact (pairwise_insertionSort _ _).sublist hsub
    show t.length ≤ ((new tokens).tokens.head?.map length).getD 0
    revert ht hsorted
    cases (new tokens).tokens with
    | nil => exact fun ht _ => absurd ht not_mem_nil
    | cons u rest =>
      intro ht hsorted
      rcases mem_cons.mp ht with rfl | ht
      · exact le_rfl
      · exact (pairwise_cons.mp hsorted).1 t ht

theorem tokens_new {tokens : List (List A)} {t : List A} (h : t ∈ (new tokens).tokens) : t ∈ tokens := by
  have hin := (destutter_sublist _ _).subset h
  exact (mem_filter.mp ((perm_insertionSort _ _).subset hin)).1

variable {st} {s hold out : List A} {b : A}

theorem Wf.first_of_prefix (h : st.Wf) {t : List A} (ht : t ∈ st.tokens) (hb : (b :: s) <+: t) :
    st.first b = true := by
  obtain ⟨r, rfl⟩ := hb
  exact (h.first b).mpr ⟨_, ht, rfl⟩

theorem Wf.wordHere_eq (h : st.Wf) (b : A) (rest : List A) :
    (if st.first b then st.tokens.find? (·.isPrefixOf (b :: rest)) else none) = wordHere st.tokens (b :: rest) := by
  by_cases hb : st.first b = true
  · rw [if_pos hb]
    rfl
  · rw [if_neg hb]
    refine (wordHere_none.mpr fun t ht hp => ?_).symm
    cases t with
    | nil => exact h.nonempty ht
    | cons c t =>
      obtain ⟨rfl, -⟩ := cons_prefix_cons.mp hp
      exact hb ((h.first c).mpr ⟨_, ht, rfl⟩)

theorem Wf.wordHere_first (h : st.Wf) (hb : st.first b = false) : wordHere st.tokens (b :: s) = none := by
  rw [← h.wordHere_eq, hb]
  rfl

/-! ### The text without tokens -/

theorem Wf.erase_kept (h : st.Wf) {k : ℕ} (hk : k ≤ s.length) (hfirst : ∀ (i : ℕ) (c : A), i < k →
    s[i]? = some c → st.first c = false) : erase st.tokens 0 s = s.take k ++ erase st.tokens 0 (s.drop k) := by
  refine Plow.Lib.erase_kept hk fun i hi => ?_
  have hlt : i < s.length := lt_of_lt_of_le hi hk
  rw [drop_eq_getElem_cons hlt]
  exact h.wordHere_first (hfirst i _ hi (getElem?_eq_getElem hlt))

theorem Wf.erase_jump (h : st.Wf) (hnone : wordHere st.tokens (b :: s) = none) :
    erase st.tokens 0 (b :: s) = (b :: s).take (((s.findIdx? st.first).map (1 + ·)).getD (1 + s.length)) ++
      erase st.tokens 0 ((b :: s).drop (((s.findIdx? st.first).map (1 + ·)).getD (1 + s.length))) := by
  rw [erase_other hnone]
  cases hi : s.findIdx? st.first with
  | none =>
    have hnot := findIdx?_eq_none_iff.mp hi
    rw [map_none, getD_none, Nat.add_comm, take_succ_cons, drop_succ_cons, cons_append,
      h.erase_kept le_rfl fun i c _ hc => hnot c (mem_of_getElem? hc)]
  | some i =>
    obtain ⟨hlt, -, hbefore⟩ := findIdx?_eq_some_iff_getElem.mp hi
    rw [map_some, getD_some, Nat.add_comm, take_succ_cons, drop_succ_cons, cons_append,
      h.erase_kept hlt.le fun j c hj hc => ?_]
    have hnot := hbefore j hj
    rw [getElem?_eq_getElem (hj.trans hlt)] at hc
    cases hc
    exact Bool.not_eq_true _ ▸ hnot

theorem Wf.stripLoop_eq (h : st.Wf) (fuel : ℕ) (hf : s.length < fuel) : st.stripLoop fuel s = erase st.tokens 0 s := by
  induction fuel generalizing s with
  | zero => cases hf
  | succ fuel ih =>
    cases s with
    | nil => rfl
    | cons b rest =>
      rw [length_cons] at hf
      unfold stripLoop
      rw [h.wordHere_eq]
      cases hw : wordHere st.tokens (b :: rest) with
      | some t =>
        have ht : t ≠ [] := fun h0 => h.nonempty (h0 ▸ (wordHere_some hw).1)
        have hpos : 0 < t.length := length_pos_iff.mpr ht
        rw [erase_word hw ht]
        exact ih (by rw [length_drop, length_cons]; omega)
      | none =>
        dsimp only
        rw [ih, ← h.erase_jump hw]
        rw [length_drop, length_cons]
        cases rest.findIdx? st.first with
        | none =>
          rw [map_none, getD_none]
          omega
        | some i =>
          rw [map_some, getD_some]
          omega

theorem Wf.stripInto_eq (h : st.Wf) (s out : List A) : st.stripInto s out = out ++ erase st.tokens 0 s := by
  unfold stripInto
  cases hi : s.findIdx? st.first with
  | none =>
    have hnot := findIdx?_eq_none_iff.mp hi
    rw [h.erase_kept le_rfl fun i c _ hc => hnot c (mem_of_getElem? hc), take_length,
      drop_length, Lib.erase_nil, append_nil]
  | some i =>
    obtain ⟨hlt, -, hbefore⟩ := findIdx?_eq_some_iff_getElem.mp hi
    have hkeep := h.erase_kept hlt.le fun j c hj hc => by
      have hnot := hbefore j hj
      rw [getElem?_eq_getElem (hj.trans hlt)] at hc
      cases hc
      exact Bool.not_eq_true _ ▸ hnot
    dsimp only
    rw [h.stripLoop_eq, hkeep, append_assoc]
    rw [length_drop]
    omega

/-! ### What is held back -/

/-- The tail held back begins a longer token, and no longer tail does. -/
theorem Wf.partialTail_spec (h : st.Wf) (s : List A) :
    (s.length - st.partialTail s < s.length → Grows st.tokens (s.drop (s.length - st.partialTail s))) ∧
      ∀ i < s.length - st.partialTail s, ¬ Grows st.tokens (s.drop i) := by
  -- the search looks at every place a token may go on from
  have hplace : ∀ i < s.length, ((s[i]?).any st.first && st.tokens.any fun t =>
      (s.drop i).length < t.length && (s.drop i).isPrefixOf t) = false → ¬ Grows st.tokens (s.drop i) := by
    rintro i hi hno ⟨t, ht, hp, hlt⟩
    have hfirst : st.first s[i] = true := h.first_of_prefix (s := s.drop (i + 1)) ht
      (by rwa [← drop_eq_getElem_cons hi])
    have hany : (st.tokens.any fun t => (s.drop i).length < t.length && (s.drop i).isPrefixOf t) = true :=
      any_eq_true.mpr ⟨t, ht, by rw [Bool.and_eq_true, decide_eq_true_iff]; exact ⟨hlt,
        isPrefixOf_iff_prefix.mpr hp⟩⟩
    rw [getElem?_eq_getElem hi, any_some, hfirst, hany] at hno
    cases hno
  have hshort : ∀ i < s.length - (st.longest - 1), ¬ Grows st.tokens (s.drop i) := by
    rintro i hi ⟨t, ht, -, hlt⟩
    have := h.longest t ht
    rw [length_drop] at hlt
    omega
  unfold partialTail
  dsimp only
  cases hf : (range' (s.length - (st.longest - 1)) (s.length - (s.length - (st.longest - 1)))).find?
      fun p => (s[p]?).any st.first && st.tokens.any fun t => (s.drop p).length < t.length &&
        (s.drop p).isPrefixOf t with
  | none =>
    dsimp only
    refine ⟨fun hlt => absurd hlt (by omega), fun i hi => ?_⟩
    rcases lt_or_ge i (s.length - (st.longest - 1)) with hlt | hge
    · exact hshort i hlt
    · refine hplace i (by omega) (Bool.not_eq_true _ ▸ find?_eq_none.mp hf i ?_)
      rw [mem_range'_1]
      omega
  | some p =>
    dsimp only
    obtain ⟨hp, hin, hbefore⟩ := find?_range'_eq_some.mp hf
    rw [mem_range'_1] at hin
    have hcut : s.length - (s.length - p) = p := by omega
    rw [hcut]
    constructor
    · intro _
      obtain ⟨-, hany⟩ := Bool.and_eq_true_iff.mp hp
      obtain ⟨t, ht, hgrow⟩ := any_eq_true.mp hany
      rw [Bool.and_eq_true, decide_eq_true_iff, isPrefixOf_iff_prefix] at hgrow
      exact ⟨t, ht, hgrow.2, hgrow.1⟩
    · intro i hi
      rcases lt_or_ge i (s.length - (st.longest - 1)) with hlt | hge
      · exact hshort i hlt
      · have hno := hbefore i hge hi
        rw [Bool.not_eq_true'] at hno
        exact hplace i (by omega) hno

/-! ### The stream -/

theorem stripStream_eq (hold s out : List A) : st.stripStream hold s out false =
    ((hold ++ s).drop ((hold ++ s).length - st.partialTail (hold ++ s)),
      st.stripInto ((hold ++ s).take ((hold ++ s).length - st.partialTail (hold ++ s))) out) := by
  unfold stripStream
  split
  · next h =>
    subst h
    rfl
  · rfl

theorem Wf.stripStream_last (h : st.Wf) (hold s out : List A) :
    (st.stripStream hold s out true).2 = out ++ erase st.tokens 0 (hold ++ s) := by
  unfold stripStream
  dsimp only
  split
  · next h0 =>
    subst h0
    rw [if_pos rfl, Nat.sub_zero, take_length, h.stripInto_eq]
    rfl
  · rw [if_pos rfl, Nat.sub_zero, take_length, h.stripInto_eq]

theorem Wf.stripStream_step (h : st.Wf)
    (hcut : Uncut st.tokens (hold ++ s) ((hold ++ s).length - st.partialTail (hold ++ s))) (more : List A) :
    (st.stripStream hold s out false).2 ++ erase st.tokens 0 ((st.stripStream hold s out false).1 ++ more) =
      out ++ erase st.tokens 0 (hold ++ s ++ more) := by
  rw [stripStream_eq]
  dsimp only
  rw [h.stripInto_eq, append_assoc, erase_append hcut (h.partialTail_spec _).2]

theorem stripStream_hold (hold s out : List A) :
    (st.stripStream hold s out false).1 = (st.stripStream hold s [] false).1 := by
  rw [stripStream_eq, stripStream_eq]

theorem Wf.foldl_stripStream (h : st.Wf) {pieces : List (List A)} (hclean : st.Clean hold pieces) (out more : List A) :
    (pieces.foldl (fun c s => st.stripStream c.1 s c.2 false) (hold, out)).2 ++ erase st.tokens 0
        ((pieces.foldl (fun c s => st.stripStream c.1 s c.2 false) (hold, out)).1 ++ more) =
      out ++ erase st.tokens 0 (hold ++ pieces.flatten ++ more) := by
  induction pieces generalizing hold out with
  | nil =>
    rw [flatten_nil, append_nil]
    rfl
  | cons s pieces ih =>
    obtain ⟨hcut, hclean⟩ := hclean
    rw [← stripStream_hold hold s out] at hclean
    have hstep := @Wf.stripStream_step A _ st s hold out h hcut (pieces.flatten ++ more)
    rw [foldl_cons, ih hclean, append_assoc, hstep, flatten_cons]
    simp only [append_assoc]

theorem Wf.clean_of_apart (h : st.Wf) (hapart : Apart st.tokens) (hold : List A) (pieces : List (List A)) :
    st.Clean hold pieces := by
  induction pieces generalizing hold with
  | nil => exact True.intro
  | cons s pieces ih =>
    exact ⟨hapart.uncut h.nonempty (Nat.sub_le _ _) (h.partialTail_spec _).1, ih _⟩

/-! ### Characters -/

theorem stripFuel_eq {tokens : List (List Char)} (h : [] ∉ tokens) {s : List Char} (n : ℕ) (hn : s.length ≤ n) :
    (SpecialText.mk tokens).stripFuel n s = erase tokens 0 s := by
  induction n generalizing s with
  | zero =>
    obtain rfl := length_eq_zero_iff.mp (Nat.le_zero.mp hn)
    rfl
  | succ n ih =>
    cases s with
    | nil => rfl
    | cons c s =>
      rw [length_cons] at hn
      unfold SpecialText.stripFuel
      dsimp only
      rw [show tokens.find? (·.isPrefixOf (c :: s)) = wordHere tokens (c :: s) from rfl]
      cases hw : wordHere tokens (c :: s) with
      | some t =>
        have ht : t ≠ [] := fun h0 => h (h0 ▸ (wordHere_some hw).1)
        have hpos : 0 < t.length := length_pos_iff.mpr ht
        rw [erase_word hw ht]
        exact ih (by rw [length_drop, length_cons]; omega)
      | none =>
        rw [erase_other hw]
        exact congrArg (c :: ·) (ih (by omega))

/-- what is held back is the longest tail that a token goes on from -/
theorem Wf.partialTail_text {st : SpecialTable Char} (h : st.Wf) (s : List Char) :
    st.partialTail s = (SpecialText.mk st.tokens).partialTail s := by
  obtain ⟨htail, hlong⟩ := h.partialTail_spec s
  have hlow : st.partialTail s ≤ s.length := by
    unfold partialTail
    dsimp only
    split
    · exact Nat.sub_le _ _
    · exact Nat.zero_le _
  have hgrows : ∀ i, (st.tokens.any fun t => (s.drop i).isPrefixOf t && (s.drop i).length < t.length) = true ↔
      Grows st.tokens (s.drop i) := by
    intro i
    unfold Grows
    simp only [List.any_eq_true, Bool.and_eq_true, isPrefixOf_iff_prefix, decide_eq_true_iff]
  unfold SpecialText.partialTail
  cases hf : (range s.length).find? fun p => st.tokens.any fun t =>
      (s.drop p).isPrefixOf t && (s.drop p).length < t.length with
  | none =>
    have hnone : ∀ i < s.length, ¬ Grows st.tokens (s.drop i) := fun i hi hg =>
      find?_eq_none.mp hf i (mem_range.mpr hi) ((hgrows i).mpr hg)
    rw [map_none, getD_none]
    by_contra hne
    exact hnone _ (by omega) (htail (by omega))
  | some p =>
    obtain ⟨hp, hin, hbefore⟩ := find?_range_eq_some.mp hf
    rw [mem_range] at hin
    have hgp := (hgrows p).mp hp
    rw [map_some, getD_some]
    rcases lt_trichotomy p (s.length - st.partialTail s) with hlt | heq | hgt
    · exact absurd hgp (hlong p hlt)
    · omega
    · have hno := hbefore _ hgt
      rw [Bool.not_eq_true', ← Bool.not_eq_true, hgrows] at hno
      exact absurd (htail (by omega)) hno

theorem Wf.stripStream_text {st : SpecialTable Char} (h : st.Wf) (hold s out : List Char) (last : Bool) :
    st.stripStream hold s out last = (((SpecialText.mk st.tokens).stripStream hold s last).1,
      out ++ ((SpecialText.mk st.tokens).stripStream hold s last).2) := by
  have hstrip : ∀ w : List Char, st.stripInto w out = out ++ (SpecialText.mk st.tokens).strip w := fun w => by
    rw [h.stripInto_eq, SpecialText.strip, stripFuel_eq h.nonempty _ le_rfl]
  unfold stripStream SpecialText.stripStream
  dsimp only
  split
  · next h0 =>
    subst h0
    rw [nil_append, nil_append, hstrip, h.partialTail_text]
  · rw [hstrip, h.partialTail_text]

/-! ### The whole stream -/

/-- A stream none of whose pieces cuts a token comes out as the whole text does, and tokens of which
none ends in the beginning of another are never cut. -/
theorem strip_stream_clean (tokens : List (List A)) :
    (∀ (pieces : List (List A)) (last : List A), (new tokens).Clean [] pieces →
      (new tokens).stream pieces last = (new tokens).strip (pieces.flatten ++ last)) ∧
    (Apart tokens → ∀ pieces, (new tokens).Clean [] pieces) := by
  have h := wf_new tokens
  constructor
  · intro pieces last hclean
    unfold stream strip
    dsimp only
    rw [h.stripStream_last, h.stripInto_eq, h.foldl_stripStream hclean]
    rfl
  · intro hapart pieces
    refine h.clean_of_apart ?_ [] pieces
    exact fun w hw w' hw' => hapart w (tokens_new hw) w' (tokens_new hw')

/-- `<a>` over two pieces is removed. -/
theorem strip_stream_clean_split : (new [[60, 97, 62]] : SpecialTable UInt8).stream [[120, 60, 97]] [62, 121] =
    (new [[60, 97, 62]]).strip ([[120, 60, 97]].flatten ++ [62, 121]) := by
  refine (strip_stream_clean [[60, 97, 62]]).1 [[120, 60, 97]] [62, 121] ((strip_stream_clean _).2 ?_ _)
  intro w hw w' hw' u v r huv hu hv hr heq
  obtain rfl := mem_singleton.mp hw
  obtain rfl := mem_singleton.mp hw'
  -- a beginning of the token starts with its first byte, which no end does
  obtain ⟨c, v, rfl⟩ := exists_cons_of_ne_nil hv
  obtain ⟨d, u, rfl⟩ := exists_cons_of_ne_nil hu
  have hc : c = 60 := (cons.inj heq).1.symm
  have hin : c ∈ ([97, 62] : List UInt8) := by
    rw [(cons.inj huv).2]
    exact mem_append_right _ mem_cons_self
  rw [hc] at hin
  exact absurd hin (by decide)

/-- With the tokens `<s` and `s>` the text `<s>` is `>`, and in the pieces `<s` and `>` it is `<`. -/
theorem strip_stream_cut : ¬ ∀ (tokens pieces : List (List UInt8)) (last : List UInt8),
    (new tokens).stream pieces last = (new tokens).strip (pieces.flatten ++ last) := by
  intro h
  exact absurd (h [[60, 115], [115, 62]] [[60, 115]] [62]) (by decide)

end SpecialTable

end Plow.Tools
