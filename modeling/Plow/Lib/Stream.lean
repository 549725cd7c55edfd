import Mathlib

/-!
# Resumable scanners

A scanner reads a text that arrives in pieces. One step looks at the text it holds and either is
decided (`go`: a new state and the text that is left) or has to see more (`wait`: it may take some
text off, the rest is held). `scan` steps until it waits; `feed` adds a piece to the held text and
scans; `finish` settles what is held when no more text comes.

A decision is `Stable` when more text cannot change it, and waiting `Resumes` when the text taken off
makes no difference to what comes out in the end. Then

* `total_scan`     scanning a piece first and the rest later gives what scanning both at once gives;
* `finish_feeds`   so the pieces a text is cut into do not matter.

`first p` is the leftmost place of a text where a local test `p` says yes; `first_append` and
`first_drop` are the two facts that make decisions stable and waits resume, and `first_orElse`
finds the leftmost place of two tests from that of each.
-/

namespace Plow.Lib

open List Option

variable {S A O B : Type*}

inductive Turn (S A : Type*)
  | go (s : S) (rest : List A)
  | wait (s : S) (rest : List A)

structure Scanner (S A O : Type*) where
  step : S → List A → Turn S A
  finish : S → List A → O
  /-- how many decisions a state and a text leave at most -/
  size : S → List A → ℕ
  shrinks : ∀ {s x s' r}, step s x = .go s' r → size s' r < size s x

namespace Scanner

variable (M : Scanner S A O)

def loop : ℕ → S → List A → S × List A
  | 0, s, x => (s, x)
  | n + 1, s, x =>
    match M.step s x with
    | .go s' r => loop n s' r
    | .wait s' r => (s', r)

def scan (s : S) (x : List A) : S × List A := M.loop (M.size s x + 1) s x

/-- what comes out when `x` is all the text there is -/
def total (s : S) (x : List A) : O := M.finish (M.scan s x).1 (M.scan s x).2

def feed (c : S × List A) (piece : List A) : S × List A := M.scan c.1 (c.2 ++ piece)

def Stable : Prop := ∀ s x s' r, M.step s x = .go s' r → ∀ t, M.step s (x ++ t) = .go s' (r ++ t)

def Resumes : Prop := ∀ s x s' r, M.step s x = .wait s' r → ∀ t, M.total s (x ++ t) = M.total s' (r ++ t)

variable {M} {s s' : S} {x r : List A}

theorem loop_fuel {n m : ℕ} (hn : M.size s x < n) (hm : M.size s x < m) :
    M.loop n s x = M.loop m s x := by
  induction n generalizing m s x with
  | zero => omega
  | succ n ih =>
    obtain ⟨m, rfl⟩ := Nat.exists_eq_succ_of_ne_zero (by omega : m ≠ 0)
    show (match M.step s x with | .go s' r => M.loop n s' r | .wait s' r => (s', r))
      = (match M.step s x with | .go s' r => M.loop m s' r | .wait s' r => (s', r))
    cases h : M.step s x with
    | go s' r =>
      have := M.shrinks h
      exact ih (by omega) (by omega)
    | wait s' r => rfl

theorem scan_go (h : M.step s x = .go s' r) : M.scan s x = M.scan s' r := by
  have := M.shrinks h
  unfold scan
  rw [show M.loop (M.size s x + 1) s x = M.loop (M.size s x) s' r by simp only [loop, h]]
  exact loop_fuel this (Nat.lt_succ_self _)

theorem scan_wait (h : M.step s x = .wait s' r) : M.scan s x = (s', r) := by
  simp only [scan, loop, h]

theorem total_go (h : M.step s x = .go s' r) : M.total s x = M.total s' r := by
  simp only [total, scan_go h]

theorem total_wait (h : M.step s x = .wait s' r) : M.total s x = M.finish s' r := by
  simp only [total, scan_wait h]

theorem scan_induct {P : S → List A → Prop} (hw : ∀ s x s' r, M.step s x = .wait s' r → P s x)
    (hg : ∀ s x s' r, M.step s x = .go s' r → P s' r → P s x) (s : S) (x : List A) : P s x := by
  induction h : M.size s x using Nat.strong_induction_on generalizing s x with
  | _ n ih =>
    subst h
    cases hs : M.step s x with
    | wait s' r => exact hw s x s' r hs
    | go s' r => exact hg s x s' r hs (ih _ (M.shrinks hs) s' r rfl)

theorem total_scan (hst : M.Stable) (hre : M.Resumes) (s : S) (x t : List A) :
    M.total (M.scan s x).1 ((M.scan s x).2 ++ t) = M.total s (x ++ t) := by
  induction s, x using scan_induct (M := M) with
  | hw s x s' r h =>
    rw [scan_wait h]
    exact (hre s x s' r h t).symm
  | hg s x s' r h ih =>
    rw [scan_go h, total_go (hst s x s' r h t)]
    exact ih

theorem total_feeds (hst : M.Stable) (hre : M.Resumes) (pieces : List (List A)) (c : S × List A) :
    M.total (pieces.foldl M.feed c).1 (pieces.foldl M.feed c).2
      = M.total c.1 (c.2 ++ pieces.flatten) := by
  induction pieces generalizing c with
  | nil => rw [flatten_nil, append_nil]; rfl
  | cons p pieces ih =>
    rw [foldl_cons, ih (M.feed c p), flatten_cons, ← append_assoc]
    exact total_scan hst hre c.1 (c.2 ++ p) pieces.flatten

variable (M) in
def Rested (c : S × List A) : Prop := M.finish c.1 c.2 = M.total c.1 c.2

theorem rested_scan (hst : M.Stable) (hre : M.Resumes) (s : S) (x : List A) :
    M.Rested (M.scan s x) := by
  have h := total_scan hst hre s x []
  rw [append_nil, append_nil] at h
  exact h.symm

theorem finish_feeds (hst : M.Stable) (hre : M.Resumes) {c : S × List A} (hc : M.Rested c)
    (pieces : List (List A)) : M.finish (pieces.foldl M.feed c).1 (pieces.foldl M.feed c).2
      = M.total c.1 (c.2 ++ pieces.flatten) := by
  have hr : M.Rested (pieces.foldl M.feed c) := by
    clear * - hst hre hc
    induction pieces generalizing c with
    | nil => exact hc
    | cons p pieces ih => exact ih (rested_scan hst hre c.1 (c.2 ++ p))
  rw [← total_feeds hst hre pieces c]
  exact hr

end Scanner

/-- the first suffix that passes the test, with its distance from the front -/
def first (p : List A → Option B) : List A → Option (ℕ × B)
  | [] => (p []).map (fun b => (0, b))
  | a :: x =>
    match p (a :: x) with
    | some b => some (0, b)
    | none => (first p x).map (fun q => (q.1 + 1, q.2))

variable {p : List A → Option B} {x t : List A} {i : ℕ} {b : B}

theorem first_eq_none : first p x = none ↔ ∀ j ≤ x.length, p (x.drop j) = none := by
  induction x with
  | nil => simp [first]
  | cons a x ih =>
    cases h : p (a :: x) with
    | some b =>
      simp only [first, h, reduceCtorEq, false_iff]
      intro hj
      exact absurd (hj 0 (Nat.zero_le _)) (by simp [h])
    | none =>
      simp only [first, h, map_eq_none_iff, ih]
      constructor
      · rintro hx (_ | j) hj
        · exact h
        · exact hx j (Nat.le_of_succ_le_succ hj)
      · intro hx j hj
        exact hx (j + 1) (Nat.succ_le_succ hj)

theorem first_eq_some : first p x = some (i, b) ↔
    i ≤ x.length ∧ p (x.drop i) = some b ∧ ∀ j < i, p (x.drop j) = none := by
  induction x generalizing i with
  | nil =>
    simp only [first, map_eq_some_iff, Prod.mk.injEq, drop_nil, length_nil,
      Nat.le_zero]
    constructor
    · rintro ⟨b', hb, rfl, rfl⟩
      exact ⟨rfl, hb, fun j hj => absurd hj (Nat.not_lt_zero j)⟩
    · rintro ⟨rfl, hb, -⟩
      exact ⟨b, hb, rfl, rfl⟩
  | cons a x ih =>
    cases h : p (a :: x) with
    | some b' =>
      simp only [first, h, some.injEq, Prod.mk.injEq]
      constructor
      · rintro ⟨rfl, rfl⟩
        exact ⟨Nat.zero_le _, h, fun j hj => absurd hj (Nat.not_lt_zero j)⟩
      · rintro ⟨-, hb, hlt⟩
        rcases i with _ | i
        · exact ⟨rfl, some.inj (h.symm.trans hb)⟩
        · exact absurd (hlt 0 (Nat.succ_pos i)) (by simp [h])
    | none =>
      simp only [first, h, map_eq_some_iff, Prod.mk.injEq, Prod.exists]
      constructor
      · rintro ⟨i', b', hx, rfl, rfl⟩
        obtain ⟨hi, hb, hlt⟩ := ih.mp hx
        refine ⟨Nat.succ_le_succ hi, hb, ?_⟩
        rintro (_ | j) hj
        · exact h
        · exact hlt j (by omega)
      · rintro ⟨hi, hb, hlt⟩
        rcases i with _ | i
        · exact absurd (h.symm.trans hb) nofun
        · exact ⟨i, b, ih.mpr ⟨Nat.le_of_succ_le_succ hi, hb,
            fun j hj => hlt (j + 1) (Nat.succ_lt_succ hj)⟩, rfl, rfl⟩

theorem first_le (h : first p x = some (i, b)) : i ≤ x.length := (first_eq_some.mp h).1

theorem first_map {C : Type*} (p : List A → Option B) (f : B → C) (x : List A) :
    first (fun y => (p y).map f) x = (first p x).map (fun q => (q.1, f q.2)) := by
  induction x with
  | nil => simp only [first]; cases p [] <;> rfl
  | cons a x ih =>
    simp only [first]
    cases p (a :: x) with
    | some b => rfl
    | none =>
      show Option.map _ (first (fun y => (p y).map f) x) = _
      rw [ih]
      cases first p x <;> rfl

theorem first_orElse (p q : List A → Option B) (x : List A) :
    first (fun y => (p y).orElse (fun _ => q y)) x =
      match first p x, first q x with
      | none, o => o
      | some a, none => some a
      | some a, some b => if b.1 < a.1 then some b else some a := by
  induction x with
  | nil =>
    simp only [first]
    cases p [] with
    | none => cases q [] <;> rfl
    | some a => cases q [] <;> rfl
  | cons a x ih =>
    simp only [first]
    cases hp : p (a :: x) with
    | some b =>
      cases hq : q (a :: x) with
      | some b' => rfl
      | none => cases first q x <;> rfl
    | none =>
      cases hq : q (a :: x) with
      | some b' => cases first p x <;> rfl
      | none =>
        show Option.map _ (first (fun y => (p y).orElse (fun _ => q y)) x) = _
        rw [ih]
        cases first p x with
        | none => rfl
        | some c =>
          cases first q x with
          | none => rfl
          | some d =>
            simp only [map_some]
            by_cases h : d.1 < c.1
            · rw [if_pos h, if_pos (Nat.succ_lt_succ h)]; rfl
            · rw [if_neg h, if_neg (fun h' => h (Nat.lt_of_succ_lt_succ h'))]; rfl

theorem first_append (h : first p x = some (i, b)) (hb : p (x.drop i ++ t) = some b)
    (hlt : ∀ j < i, p (x.drop j ++ t) = none) : first p (x ++ t) = some (i, b) := by
  have hi := first_le h
  refine first_eq_some.mpr ⟨by rw [length_append]; omega, ?_, ?_⟩
  · rwa [drop_append_of_le_length hi]
  · intro j hj
    rw [drop_append_of_le_length (by omega)]
    exact hlt j hj

theorem first_drop {n : ℕ} (hn : n ≤ x.length) (hlt : ∀ j < n, p (x.drop j) = none) :
    first p x = (first p (x.drop n)).map (fun q => (q.1 + n, q.2)) := by
  cases h : first p (x.drop n) with
  | none =>
    rw [map_none, first_eq_none]
    intro j hj
    by_cases hjn : j < n
    · exact hlt j hjn
    · have := first_eq_none.mp h (j - n) (by rw [length_drop]; omega)
      rwa [drop_drop, show n + (j - n) = j by omega] at this
  | some q =>
    obtain ⟨i, b⟩ := q
    obtain ⟨hi, hb, hi'⟩ := first_eq_some.mp h
    rw [length_drop] at hi
    rw [drop_drop] at hb
    refine first_eq_some.mpr ⟨by omega, by rwa [Nat.add_comm] at hb, ?_⟩
    intro j hj
    by_cases hjn : j < n
    · exact hlt j hjn
    · have := hi' (j - n) (by simp only at hj; omega)
      rwa [drop_drop, show n + (j - n) = j by omega] at this

end Plow.Lib
