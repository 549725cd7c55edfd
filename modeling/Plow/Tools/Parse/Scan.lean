import Plow.Lib.Text

/-!
# Markers and values in a text

What the call parsers look for in a text that may go on: the next of several markers (`scan`), a
word that must stand here (`starts`), the end of a JSON value (`JsonScan`). Offsets are in
characters; all markers and delimiters are ASCII, at least at the front, so a byte offset the source
cuts at is always that of a character.
-/

namespace Plow.Tools
open Plow.Lib.Text List

/-- where the next marker begins -/
inductive Hit
  /-- a whole marker at this offset -/
  | found (j k : ℕ)
  /-- no marker before this offset; the rest may begin one -/
  | need (j : ℕ)
  deriving DecidableEq

def Hit.next : Hit → Hit
  | .found j k => .found (j + 1) k
  | .need j => .need (j + 1)

def scan (markers : List (List Char)) : List Char → Hit
  | [] => .need 0
  | c :: s =>
    if markers.any (·.head? = some c) then
      match markers.findIdx? (·.isPrefixOf (c :: s)) with
      | some k => .found 0 k
      | none =>
        if markers.any fun m => (c :: s).isPrefixOf m then .need 0 else (scan markers s).next
    else (scan markers s).next

/-- whether `s` starts with `m`; `none`: it still could -/
def starts (s m : List Char) (eof : Bool) : Option Bool :=
  if m.isPrefixOf s then some true
  else if !eof && s.isPrefixOf m then none
  else some false

def isAsciiWhitespace (c : Char) : Bool :=
  c = ' ' || c = '\t' || c = '\n' || c = '\x0c' || c = '\r'

def findAny (cs s : List Char) : List Char × List Char := s.span fun c => !cs.elem c

/-! ### JSON values -/

/-- scans one JSON value from its first character -/
structure JsonScan where
  depth : ℕ
  inStr : Bool
  esc : Bool
  began : Bool
  scalar : Bool
  deriving DecidableEq

/-- where a value ends: not yet, behind this character, before it -/
inductive Stop
  | goes
  | behind
  | before

namespace JsonScan

def new : JsonScan := ⟨0, false, false, false, false⟩

def next (j : JsonScan) (c : Char) : JsonScan × Stop :=
  if !j.began then
    let j := { j with began := true }
    if c = '{' || c = '[' then ({ j with depth := 1 }, .goes)
    else if c = '"' then ({ j with inStr := true }, .goes)
    else ({ j with scalar := true }, .goes)
  else if j.inStr then
    if j.esc then ({ j with esc := false }, .goes)
    else if c = '\\' then ({ j with esc := true }, .goes)
    else if c = '"' then
      ({ j with inStr := false }, if j.depth = 0 then .behind else .goes)
    else (j, .goes)
  else if j.scalar then
    if c = ',' || c = '}' || c = ']' || c = ';' || isAsciiWhitespace c then (j, .before)
    else (j, .goes)
  else if c = '"' then ({ j with inStr := true }, .goes)
  else if c = '{' || c = '[' then ({ j with depth := j.depth + 1 }, .goes)
  else if c = '}' || c = ']' then
    ({ j with depth := j.depth - 1 }, if j.depth - 1 = 0 then .behind else .goes)
  else (j, .goes)

/-- the text behind the value as far as it is there, and whether the value ended -/
def feed (j : JsonScan) : List Char → JsonScan × List Char × Bool
  | [] => (j, [], false)
  | c :: s =>
    match j.next c with
    | (j, .goes) => j.feed s
    | (j, .behind) => (j, s, true)
    | (j, .before) => (j, c :: s, true)

end JsonScan

/-! ### Strings -/

def hexDigit (n : ℕ) : Char := "0123456789abcdef".toList.getD n '0'

def escapeChar (c : Char) : List Char :=
  if c = '"' then ['\\', '"']
  else if c = '\\' then ['\\', '\\']
  else if c = '\n' then ['\\', 'n']
  else if c = '\r' then ['\\', 'r']
  else if c = '\t' then ['\\', 't']
  else if c = '\x08' then ['\\', 'b']
  else if c = '\x0c' then ['\\', 'f']
  else if c.toNat < 0x20 then
    ['\\', 'u', '0', '0', hexDigit (c.toNat / 16), hexDigit (c.toNat % 16)]
  else [c]

/-- `escape_into`: the inside of a JSON string -/
def escape (s : List Char) : List Char := s.flatMap escapeChar

/-- up to the closing quote: what stands before it, the text from it on, and whether the text ended
behind a backslash -/
def quoteScan : Bool → List Char → List Char × List Char × Bool
  | esc, [] => ([], [], esc)
  | esc, c :: s =>
    if esc then let q := quoteScan false s; (c :: q.1, q.2)
    else if c = '\\' then let q := quoteScan true s; (c :: q.1, q.2)
    else if c = '"' then ([], c :: s, false)
    else let q := quoteScan false s; (c :: q.1, q.2)

theorem quoteScan_append (esc : Bool) (s : List Char) :
    (quoteScan esc s).1 ++ (quoteScan esc s).2.1 = s := by
  induction s generalizing esc with
  | nil => rfl
  | cons c s ih =>
    unfold quoteScan
    split
    · exact congrArg (c :: ·) (ih false)
    · split
      · exact congrArg (c :: ·) (ih true)
      · split
        · rfl
        · exact congrArg (c :: ·) (ih false)

theorem JsonScan.feed_suffix (j : JsonScan) (s : List Char) : (j.feed s).2.1 <:+ s := by
  induction s generalizing j with
  | nil => exact suffix_refl []
  | cons c s ih =>
    unfold JsonScan.feed
    split
    · next j' _ => exact (ih j').trans (suffix_cons c s)
    · exact suffix_cons c s
    · exact suffix_refl _

theorem findAny_suffix (cs s : List Char) : (findAny cs s).2 <:+ s := by
  rw [findAny, span_eq_takeWhile_dropWhile]
  exact dropWhile_suffix _

/-! ### What a scan says -/

variable {markers : List (List Char)} {m s t x : List Char} {c : Char} {j k : ℕ}

theorem scan_found (h : scan markers s = .found j k) :
    ∃ m ∈ markers, markers[k]? = some m ∧ m <+: s.drop j := by
  induction s generalizing j with
  | nil => cases h
  | cons c s ih =>
    have next : (scan markers s).next = .found j k →
        ∃ m ∈ markers, markers[k]? = some m ∧ m <+: (c :: s).drop j := by
      intro hn
      cases hs : scan markers s with
      | need i => rw [hs] at hn; cases hn
      | found i k' =>
        rw [hs] at hn
        obtain ⟨rfl, rfl⟩ : i + 1 = j ∧ k' = k := by
          simpa only [Hit.next, Hit.found.injEq] using hn
        exact ih hs
    unfold scan at h
    split at h
    · split at h
      · next i hi =>
        obtain ⟨rfl, rfl⟩ : 0 = j ∧ i = k := by simpa only [Hit.found.injEq] using h
        obtain ⟨hlt, hm, -⟩ := findIdx?_eq_some_iff_getElem.mp hi
        exact ⟨markers[i], getElem_mem hlt, getElem?_eq_getElem hlt,
          isPrefixOf_iff_prefix.mp hm⟩
      · split at h
        · cases h
        · exact next h
    · exact next h

theorem scan_need_le (h : scan markers s = .need j) : j ≤ s.length := by
  induction s generalizing j with
  | nil => cases h; exact Nat.le_refl 0
  | cons c s ih =>
    have next : (scan markers s).next = .need j → j ≤ (c :: s).length := by
      intro hn
      cases hs : scan markers s with
      | found i k => rw [hs] at hn; cases hn
      | need i =>
        rw [hs] at hn
        obtain rfl : i + 1 = j := by simpa only [Hit.next, Hit.need.injEq] using hn
        exact Nat.succ_le_succ (ih hs)
    unfold scan at h
    split at h
    · split at h
      · cases h
      · split at h
        · cases h; exact Nat.zero_le _
        · exact next h
    · exact next h

theorem scan_found_le (h : scan markers s = .found j k) (hm : markers[k]? = some m) :
    j + m.length ≤ s.length ∨ m = [] := by
  obtain ⟨m', -, hk, hp⟩ := scan_found h
  obtain rfl : m' = m := Option.some.inj (hk.symm.trans hm)
  have := hp.length_le
  rw [length_drop] at this
  by_cases hl : m'.length = 0
  · exact .inr (length_eq_zero_iff.mp hl)
  · exact .inl (by omega)

theorem scan_found_lt (hm : [] ∉ markers) (h : scan markers s = .found j k) : j < s.length := by
  obtain ⟨m, hmem, -, hp⟩ := scan_found h
  by_contra hge
  rw [drop_eq_nil_of_le (Nat.le_of_not_lt hge)] at hp
  exact hm (prefix_nil.mp hp ▸ hmem)

/-- one character further -/
theorem scan_cons_next (markers : List (List Char)) (c : Char) (s : List Char) :
    (∃ k, scan markers (c :: s) = .found 0 k) ∨
      scan markers (c :: s) = .need 0 ∧ (∀ m ∈ markers, ¬ m <+: c :: s) ∧
        (∃ m ∈ markers, c :: s <+: m) ∨ scan markers (c :: s) = (scan markers s).next ∧
        ∀ m ∈ markers, m ≠ [] → ¬ m <+: c :: s ∧ ¬ c :: s <+: m := by
  have none_of (h : markers.findIdx? (·.isPrefixOf (c :: s)) = none) :
      ∀ m ∈ markers, ¬ m <+: c :: s := by
    intro m hm hp
    have := findIdx?_eq_none_iff.mp h m hm
    rw [List.isPrefixOf_iff_prefix.mpr hp] at this
    cases this
  rw [scan]
  by_cases hg : markers.any (·.head? = some c) = true
  · rw [if_pos hg]
    cases hi : markers.findIdx? (·.isPrefixOf (c :: s)) with
    | some k => exact .inl ⟨k, rfl⟩
    | none =>
      have hno := none_of hi
      by_cases hp : (markers.any fun m => (c :: s).isPrefixOf m) = true
      · obtain ⟨m, hm, hp'⟩ := any_eq_true.mp hp
        exact .inr (.inl ⟨if_pos hp, hno, m, hm, isPrefixOf_iff_prefix.mp hp'⟩)
      · refine .inr (.inr ⟨if_neg hp, fun m hm _ => ⟨hno m hm, fun h => hp ?_⟩⟩)
        exact any_eq_true.mpr ⟨m, hm, isPrefixOf_iff_prefix.mpr h⟩
  · rw [if_neg hg]
    refine .inr (.inr ⟨rfl, fun m hm hne => ?_⟩)
    have hhead : m.head? ≠ some c := by
      intro h
      exact hg (any_eq_true.mpr ⟨m, hm, by simpa using h⟩)
    obtain ⟨a, m, rfl⟩ := exists_cons_of_ne_nil hne
    refine ⟨fun h => hhead ?_, fun h => hhead ?_⟩
    · rw [(cons_prefix_cons.mp h).1]
      rfl
    · rw [(cons_prefix_cons.mp h).1]
      rfl

def Hit.place : Hit → ℕ
  | .found j _ => j
  | .need j => j

theorem scan_clear (hne : [] ∉ markers) {i : ℕ} (hi : i < (scan markers s).place) (hm : m ∈ markers)
    (t : List Char) : ¬ m <+: s.drop i ++ t := by
  induction s generalizing i with
  | nil => exact absurd hi (Nat.not_lt_zero i)
  | cons c s ih =>
    have hne' : m ≠ [] := fun h => hne (h ▸ hm)
    obtain ⟨k, h⟩ | ⟨h, -, -⟩ | ⟨h, hno⟩ := scan_cons_next markers c s
    · rw [h] at hi
      exact absurd hi (Nat.not_lt_zero i)
    · rw [h] at hi
      exact absurd hi (Nat.not_lt_zero i)
    · cases i with
      | zero =>
        intro hp
        obtain hp | hp := prefix_or_prefix_of_prefix hp (prefix_append (c :: s) t)
        · exact (hno m hm hne').1 hp
        · exact (hno m hm hne').2 hp
      | succ i =>
        rw [h] at hi
        refine ih (i := i) ?_
        cases hs : scan markers s with
        | found j k =>
          rw [hs] at hi
          exact Nat.lt_of_succ_lt_succ hi
        | need j =>
          rw [hs] at hi
          exact Nat.lt_of_succ_lt_succ hi

theorem scan_need_rest (h : scan markers s = .need j) :
    s.drop j = [] ∨ (∀ m ∈ markers, ¬ m <+: s.drop j) ∧ ∃ m ∈ markers, s.drop j <+: m := by
  induction s generalizing j with
  | nil => exact .inl (drop_nil)
  | cons c s ih =>
    obtain ⟨k, h'⟩ | ⟨h', hno, hp⟩ | ⟨h', -⟩ := scan_cons_next markers c s
    · rw [h'] at h
      cases h
    · rw [h'] at h
      cases h
      exact .inr ⟨hno, hp⟩
    · rw [h'] at h
      cases hs : scan markers s with
      | found i k =>
        rw [hs] at h
        cases h
      | need i =>
        rw [hs] at h
        obtain rfl : i + 1 = j := by simpa only [Hit.next, Hit.need.injEq] using h
        exact ih hs

theorem starts_true {eof : Bool} (h : starts s m eof = some true) : m <+: s := by
  unfold starts at h
  split at h
  · next hp => exact isPrefixOf_iff_prefix.mp hp
  · split at h <;> cases h

end Plow.Tools
