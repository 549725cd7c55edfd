import Plow.Lib.Stream

/-!
# Text

Text is a list of characters; its length in bytes is that of its UTF-8 form. These are the methods
of a string that a marker scan needs: `trimStart` and `trimEnd` (white space is the Unicode
`White_Space` property), `find` (the first occurrence of a word), and `cutAt`, the first character
boundary from which at most so many bytes are left.
-/

namespace Plow.Lib.Text

open List

def isWhitespace (c : Char) : Bool :=
  let n := c.toNat
  (9 ≤ n && n ≤ 13) || n == 0x20 || n == 0x85 || n == 0xa0 || n == 0x1680 ||
    (0x2000 ≤ n && n ≤ 0x200a) || n == 0x2028 || n == 0x2029 || n == 0x202f || n == 0x205f ||
    n == 0x3000

def trimStart (s : List Char) : List Char := s.dropWhile isWhitespace

def trimEnd (s : List Char) : List Char := s.rdropWhile isWhitespace

def trim (s : List Char) : List Char := trimEnd (trimStart s)

def byteLen (s : List Char) : ℕ := (s.map Char.utf8Size).sum

/-- the first place from which at most `n` bytes are left -/
def cutAt (n : ℕ) : List Char → ℕ
  | [] => 0
  | c :: s => if byteLen (c :: s) ≤ n then 0 else cutAt n s + 1

def wordAt (w x : List Char) : Option Unit := if w.isPrefixOf x then some () else none

def find (w s : List Char) : Option ℕ := (first (wordAt w) s).map Prod.fst

variable {a b s t w x : List Char} {i j n : ℕ}

/-! ### White space -/

theorem trimStart_append (h : trimStart a ≠ []) : trimStart (a ++ b) = trimStart a ++ b := by
  unfold trimStart at h ⊢
  rw [dropWhile_append, if_neg (by rwa [List.isEmpty_iff])]

theorem trimStart_append_nil (h : trimStart a = []) : trimStart (a ++ b) = trimStart b := by
  unfold trimStart at h ⊢
  rw [dropWhile_append, if_pos (by rwa [List.isEmpty_iff])]

theorem trimEnd_append (h : trimEnd a = a) : trimEnd (a ++ b) = a ++ trimEnd b := by
  unfold trimEnd rdropWhile at h ⊢
  rw [reverse_append, dropWhile_append]
  by_cases hb : (b.reverse.dropWhile isWhitespace).isEmpty
  · rw [if_pos hb, h, isEmpty_iff.mp hb, reverse_nil, append_nil]
  · rw [if_neg hb, reverse_append, reverse_reverse]

theorem trimEnd_trimEnd (a : List Char) : trimEnd (trimEnd a) = trimEnd a :=
  rdropWhile_idempotent _ _

theorem trimEnd_eq_take (a : List Char) : a.take (trimEnd a).length = trimEnd a :=
  (prefix_iff_eq_take.mp (List.rdropWhile_prefix isWhitespace a)).symm

theorem trimEnd_length_le (a : List Char) : (trimEnd a).length ≤ a.length :=
  (List.rdropWhile_prefix isWhitespace a).length_le

theorem trimStart_split (a : List Char) :
    ∃ w, (∀ c ∈ w, isWhitespace c = true) ∧ a = w ++ trimStart a :=
  ⟨a.takeWhile isWhitespace, fun _ h => mem_takeWhile_imp h, takeWhile_append_dropWhile.symm⟩

theorem trimEnd_split (a : List Char) :
    ∃ w, (∀ c ∈ w, isWhitespace c = true) ∧ a = trimEnd a ++ w := by
  refine ⟨a.rtakeWhile isWhitespace, fun c h => mem_rtakeWhile_imp h, ?_⟩
  have := takeWhile_append_dropWhile (p := isWhitespace) (l := a.reverse)
  apply reverse_injective
  rw [reverse_append, trimEnd, rdropWhile, rtakeWhile, reverse_reverse,
    reverse_reverse, this]

/-! ### Bytes -/

theorem byteLen_append (a b : List Char) : byteLen (a ++ b) = byteLen a + byteLen b := by
  simp only [byteLen, map_append, sum_append]

theorem byteLen_pos (h : a ≠ []) : 0 < byteLen a := by
  obtain ⟨c, s, rfl⟩ := exists_cons_of_ne_nil h
  have := Char.utf8Size_pos c
  simp only [byteLen, map_cons, sum_cons]
  omega

theorem cutAt_le (n : ℕ) (s : List Char) : cutAt n s ≤ s.length := by
  induction s with
  | nil => exact Nat.le_refl 0
  | cons c s ih =>
    simp only [cutAt, length_cons]
    split <;> omega

theorem lt_byteLen_of_lt_cutAt (h : i < cutAt n s) : n < byteLen (s.drop i) := by
  induction s generalizing i with
  | nil => exact absurd h (Nat.not_lt_zero i)
  | cons c s ih =>
    simp only [cutAt] at h
    split at h
    · exact absurd h (Nat.not_lt_zero i)
    · next hn =>
      rcases i with _ | i
      · exact Nat.lt_of_not_le hn
      · exact ih (Nat.lt_of_succ_lt_succ h)

/-! ### Words -/

theorem wordAt_eq_some {u : Unit} : wordAt w x = some u ↔ w <+: x := by
  unfold wordAt
  rw [← isPrefixOf_iff_prefix]
  split <;> simp_all

theorem wordAt_eq_none : wordAt w x = none ↔ ¬ w <+: x := by
  unfold wordAt
  rw [← isPrefixOf_iff_prefix]
  split <;> simp_all

theorem find_eq_some : find w s = some i ↔ first (wordAt w) s = some (i, ()) := by
  simp only [find, Option.map_eq_some_iff, Prod.exists, exists_and_right, exists_eq_right]
  exact ⟨fun ⟨_, h⟩ => h, fun h => ⟨(), h⟩⟩

theorem find_eq_none : find w s = none ↔ first (wordAt w) s = none := by
  simp only [find, Option.map_eq_none_iff]

theorem word_append (h : w <+: s ++ t) (hs : ¬ w <+: s) : s <+: w ∧ s.length < w.length := by
  obtain hp | hp := prefix_or_prefix_of_prefix h (prefix_append s t)
  · exact absurd hp hs
  · refine ⟨hp, Nat.lt_of_le_of_ne hp.length_le ?_⟩
    intro hl
    exact hs (IsPrefix.eq_of_length hp hl ▸ prefix_refl s)

end Plow.Lib.Text
