import Mathlib

/-!
# Erasing words from a text

A scan from the start of a text takes the first of a list of words that stands where it is, and leaves
it out; where none stands one letter is kept.  Cutting the text in two changes nothing where no word
that the scan takes lies across the cut (`Uncut`) and no word before it goes on past the end of the text
(`erase_append`).
-/

namespace Plow.Lib

open List

variable {A : Type*} [DecidableEq A]

def wordHere (words : List (List A)) (s : List A) : Option (List A) := words.find? (·.isPrefixOf s)

/-- the text without the words that the scan takes, after `skip` letters of the last one -/
def erase (words : List (List A)) : ℕ → List A → List A
  | _, [] => []
  | skip + 1, _ :: s => erase words skip s
  | 0, a :: s =>
    match wordHere words (a :: s) with
    | some w => erase words (w.length - 1) s
    | none => a :: erase words 0 s

/-- No word that the scan takes lies across the place `n`. -/
inductive Uncut (words : List (List A)) : List A → ℕ → Prop
  | start {s : List A} : Uncut words s 0
  | word {s w : List A} {n : ℕ} : wordHere words s = some w → w ≠ [] → Uncut words (s.drop w.length) n →
      Uncut words s (w.length + n)
  | other {a : A} {s : List A} {n : ℕ} : wordHere words (a :: s) = none → Uncut words s n →
      Uncut words (a :: s) (n + 1)

def Grows (words : List (List A)) (s : List A) : Prop := ∃ w ∈ words, s <+: w ∧ s.length < w.length

def Apart (words : List (List A)) : Prop :=
  ∀ w ∈ words, ∀ w' ∈ words, ∀ u v r : List A, w = u ++ v → u ≠ [] → v ≠ [] → r ≠ [] → w' ≠ v ++ r

variable {words : List (List A)} {s t w : List A} {a : A} {n k : ℕ}

/-! ### The word at a place -/

theorem wordHere_some (h : wordHere words s = some w) : w ∈ words ∧ w <+: s :=
  ⟨mem_of_find?_eq_some h, isPrefixOf_iff_prefix.mp
    (find?_some (p := fun w : List A => w.isPrefixOf s) h)⟩

theorem wordHere_none : wordHere words s = none ↔ ∀ w ∈ words, ¬ w <+: s := by
  unfold wordHere
  rw [find?_eq_none]
  simp only [List.isPrefixOf_iff_prefix]

theorem wordHere_append (h : ¬ Grows words s) (t : List A) : wordHere words (s ++ t) = wordHere words s := by
  unfold wordHere
  have hsame : ∀ w ∈ words, w.isPrefixOf (s ++ t) = w.isPrefixOf s := by
    intro w hw
    rw [Bool.eq_iff_iff, isPrefixOf_iff_prefix, isPrefixOf_iff_prefix]
    constructor
    · intro hp
      rcases prefix_or_prefix_of_prefix hp (prefix_append s t) with hws | hsw
      · exact hws
      · rcases lt_or_ge s.length w.length with hlt | hge
        · exact absurd ⟨w, hw, hsw, hlt⟩ h
        · rw [hsw.eq_of_length_le hge]
    · exact fun hp => hp.trans (prefix_append s t)
  exact find?_congr hsame

theorem wordHere_take (h : wordHere words s = some w) (hn : w.length ≤ n) : wordHere words (s.take n) = some w := by
  unfold wordHere at h ⊢
  obtain ⟨hw, before, after, hwords, hbefore⟩ := find?_eq_some_iff_append.mp h
  refine find?_eq_some_iff_append.mpr ⟨?_, before, after, hwords, fun x hx => ?_⟩
  · rw [List.isPrefixOf_iff_prefix] at hw ⊢
    exact prefix_take_iff.mpr ⟨hw, hn⟩
  · have hnot := hbefore x hx
    rw [Bool.not_eq_true', ← Bool.not_eq_true, isPrefixOf_iff_prefix] at hnot ⊢
    exact fun hp => hnot (hp.trans (List.take_prefix n s))

theorem wordHere_take_none (h : wordHere words s = none) : wordHere words (s.take n) = none := by
  rw [wordHere_none] at h ⊢
  exact fun w hw hp => h w hw (hp.trans (List.take_prefix n s))

/-! ### Erasing -/

theorem erase_nil (words : List (List A)) (k : ℕ) : erase words k [] = [] := by cases k <;> rfl

theorem erase_skip (words : List (List A)) (k : ℕ) (s : List A) : erase words k s = erase words 0 (s.drop k) := by
  induction k generalizing s with
  | zero => rfl
  | succ k ih =>
    cases s with
    | nil => rfl
    | cons a s => exact ih s

theorem erase_word (h : wordHere words s = some w) (hw : w ≠ []) :
    erase words 0 s = erase words 0 (s.drop w.length) := by
  obtain ⟨b, w, rfl⟩ := exists_cons_of_ne_nil hw
  cases s with
  | nil => exact absurd (prefix_nil.mp (wordHere_some h).2) hw
  | cons a s =>
    show (match wordHere words (a :: s) with
      | some w => erase words (w.length - 1) s
      | none => a :: erase words 0 s) = _
    rw [h]
    exact erase_skip words w.length s

theorem erase_other (h : wordHere words (a :: s) = none) : erase words 0 (a :: s) = a :: erase words 0 s := by
  show (match wordHere words (a :: s) with
    | some w => erase words (w.length - 1) s
    | none => a :: erase words 0 s) = _
  rw [h]

theorem erase_kept (hk : k ≤ s.length) (h : ∀ i < k, wordHere words (s.drop i) = none) :
    erase words 0 s = s.take k ++ erase words 0 (s.drop k) := by
  induction k generalizing s with
  | zero => rfl
  | succ k ih =>
    cases s with
    | nil => cases hk
    | cons a s =>
      have hrest := ih (s := s) (Nat.le_of_succ_le_succ hk) fun i hi => h (i + 1) (Nat.succ_lt_succ hi)
      rw [erase_other (h 0 (Nat.succ_pos k)), hrest]
      rfl

/-- A text cut where no word lies is erased part by part, whatever comes behind it. -/
theorem erase_append (h : Uncut words s n) (hlong : ∀ i < n, ¬ Grows words (s.drop i)) (t : List A) :
    erase words 0 (s ++ t) = erase words 0 (s.take n) ++ erase words 0 (s.drop n ++ t) := by
  induction h with
  | start => rfl
  | @word s w n hw hne _ ih =>
    have hpos : 0 < w.length := length_pos_iff.mpr hne
    have hlen := (wordHere_some hw).2.length_le
    have hwt : wordHere words (s ++ t) = some w := by
      rw [wordHere_append (s := s) (hlong 0 (by omega)), hw]
    have htake : wordHere words (s.take (w.length + n)) = some w := wordHere_take hw (Nat.le_add_right _ _)
    have hrest := ih fun i hi => by
      rw [drop_drop]
      exact hlong (w.length + i) (by omega)
    rw [erase_word hwt hne, erase_word htake hne, drop_append_of_le_length hlen, hrest, drop_take,
      drop_drop, Nat.add_sub_cancel_left]
  | @other a s n hnone _ ih =>
    have hat : wordHere words (a :: s ++ t) = none := by
      rw [wordHere_append (s := a :: s) (hlong 0 (Nat.succ_pos n)), hnone]
    have htake : wordHere words (a :: s.take n) = none := wordHere_take_none (n := n + 1) hnone
    have hrest := ih fun i hi => hlong (i + 1) (Nat.succ_lt_succ hi)
    have hkeep : erase words 0 (a :: (s ++ t)) = a :: erase words 0 (s ++ t) := erase_other hat
    rw [cons_append, hkeep, hrest, take_succ_cons, erase_other htake]
    rfl

/-- Where words are apart a cut in front of letters that a longer word begins with cuts none. -/
theorem Apart.uncut (h : Apart words) (hne : [] ∉ words) (hn : n ≤ s.length)
    (htail : n < s.length → Grows words (s.drop n)) : Uncut words s n := by
  induction n using Nat.strong_induction_on generalizing s with
  | _ n ih =>
    cases n with
    | zero => exact .start
    | succ n =>
      cases s with
      | nil => cases hn
      | cons a s =>
        cases hw : wordHere words (a :: s) with
        | none => exact .other hw (ih n (Nat.lt_succ_self n) (Nat.le_of_succ_le_succ hn) fun hlt =>
            htail (Nat.succ_lt_succ hlt))
        | some w =>
          obtain ⟨hmem, hpre⟩ := wordHere_some hw
          have hwne : w ≠ [] := fun h0 => hne (h0 ▸ hmem)
          have hpos : 0 < w.length := length_pos_iff.mpr hwne
          rcases lt_or_ge (n + 1) w.length with hlt | hge
          · -- the word lies across: its end begins the longer one
            obtain ⟨w', hmem', hpre', hlen'⟩ := htail (hlt.trans_le hpre.length_le)
            obtain ⟨r, hr⟩ := hpre'
            obtain ⟨x, hx⟩ := hpre
            have hdrop : (a :: s).drop (n + 1) = w.drop (n + 1) ++ x := by
              rw [← hx, drop_append_of_le_length hlt.le]
            have hsplit : w' = w.drop (n + 1) ++ (x ++ r) := by
              rw [← append_assoc, ← hdrop, hr]
            refine absurd hsplit (h w hmem w' hmem' (w.take (n + 1)) (w.drop (n + 1)) (x ++ r)
              (take_append_drop _ _).symm ?_ ?_ ?_)
            · exact fun h0 => by
                have := congrArg length h0
                rw [length_take, length_nil] at this
                omega
            · exact fun h0 => by
                have := congrArg length h0
                rw [length_drop, length_nil] at this
                omega
            · intro h0
              obtain ⟨-, rfl⟩ := append_eq_nil_iff.mp h0
              rw [append_nil] at hr
              rw [hr] at hlen'
              exact lt_irrefl _ hlen'
          · obtain ⟨m, hm⟩ := Nat.exists_eq_add_of_le hge
            rw [hm] at hn htail ⊢
            refine .word hw hwne (ih m (by omega) ?_ fun hlt => ?_)
            · rw [length_drop]
              omega
            · rw [length_drop] at hlt
              rw [drop_drop]
              exact htail (by omega)

end Plow.Lib
