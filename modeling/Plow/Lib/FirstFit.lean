import Mathlib

/-!
# First fit in space and time

A `Hold` is a range of bytes held over an interval of time.  `freeAt` is the lowest offset from
`base` on at which a new hold is apart from every hold that it meets in time: it walks those in
the order of their offsets, and a hold in the way moves the offset behind it (`freeAt_apart`).
-/

namespace Plow.Lib
open List

structure Hold where
  off : Nat
  size : Nat
  start : Nat
  stop : Nat
  deriving DecidableEq, Repr

variable {up : Nat → Nat} {size off base start stop : Nat} {holds : List Hold} {p : Hold}

/-- the hold is in use at some time of `start .. stop` -/
def Hold.meets (p : Hold) (start stop : Nat) : Bool := p.start < stop && start < p.stop

/-- the walk over the holds in the order of their offsets -/
def firstFit (up : Nat → Nat) (size : Nat) : List Hold → Nat → Nat
  | [], off => off
  | p :: ps, off =>
    if p.off + p.size ≤ off then firstFit up size ps off
    else if off + size ≤ p.off then off
    else firstFit up size ps (up (p.off + p.size))

theorem le_firstFit (hup : ∀ n, n ≤ up n) : off ≤ firstFit up size holds off := by
  induction holds generalizing off with
  | nil => exact le_rfl
  | cons p ps ih =>
    unfold firstFit
    split
    · exact ih
    · next h1 =>
      split
      · exact le_rfl
      · have h2 := hup (p.off + p.size)
        have h3 : up (p.off + p.size) ≤ firstFit up size ps (up (p.off + p.size)) := ih
        omega

theorem firstFit_apart (hup : ∀ n, n ≤ up n) (hs : holds.Pairwise fun p q => p.off ≤ q.off)
    (hp : p ∈ holds) : p.off + p.size ≤ firstFit up size holds off ∨
      firstFit up size holds off + size ≤ p.off := by
  induction holds generalizing off with
  | nil => cases hp
  | cons q ps ih =>
    obtain ⟨hq, hs⟩ := pairwise_cons.mp hs
    unfold firstFit
    split
    · next h1 =>
      rcases mem_cons.mp hp with rfl | hp
      · exact Or.inl (le_trans h1 (le_firstFit hup))
      · exact ih hs hp
    · split
      · next h2 =>
        -- the holds behind begin no earlier
        right
        rcases mem_cons.mp hp with rfl | hp
        · exact h2
        · exact le_trans h2 (hq p hp)
      · rcases mem_cons.mp hp with rfl | hp
        · exact Or.inl (le_trans (hup _) (le_firstFit hup))
        · exact ih hs hp

/-- the offset of a new hold among `holds` -/
def freeAt (up : Nat → Nat) (base : Nat) (holds : List Hold) (size start stop : Nat) : Nat :=
  firstFit up size ((holds.filter fun p => p.meets start stop).insertionSort fun p q => p.off ≤ q.off)
    base

theorem le_freeAt (hup : ∀ n, n ≤ up n) : base ≤ freeAt up base holds size start stop :=
  le_firstFit hup

theorem freeAt_apart (hup : ∀ n, n ≤ up n) (hp : p ∈ holds) (hm : p.meets start stop) :
    p.off + p.size ≤ freeAt up base holds size start stop ∨
      freeAt up base holds size start stop + size ≤ p.off := by
  have : Std.Total fun p q : Hold => p.off ≤ q.off := ⟨fun p q => le_total p.off q.off⟩
  have : IsTrans Hold fun p q => p.off ≤ q.off := ⟨fun _ _ _ => le_trans⟩
  refine firstFit_apart hup (pairwise_insertionSort _ _) ?_
  exact (mem_insertionSort _).mpr (mem_filter.mpr ⟨hp, hm⟩)

end Plow.Lib
