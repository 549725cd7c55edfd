import Mathlib

/-!
# Climbing to a fixed point

`climb next` follows an increasing function until it stays where it is.  A function that only ever
moves to one of finitely many values comes to rest within one step more than there are values
(`climb_some`).
-/

namespace Plow.Lib
open List

variable {next : Nat → Nat} {vals : List Nat} {fuel s t : Nat}

/-- the fixed point of `next` at or above a number, `none` if the fuel runs out -/
def climb (next : Nat → Nat) : Nat → Nat → Option Nat
  | 0, _ => none
  | fuel + 1, s => if next s = s then some s else climb next fuel (next s)

theorem le_climb (hle : ∀ s, s ≤ next s) (h : climb next fuel s = some t) : s ≤ t := by
  induction fuel generalizing s with
  | zero => cases h
  | succ fuel ih =>
    unfold climb at h
    split at h
    · cases h
      exact Nat.le_refl _
    · exact Nat.le_trans (hle s) (ih h)

theorem climb_fixed (h : climb next fuel s = some t) : next t = t := by
  induction fuel generalizing s with
  | zero => cases h
  | succ fuel ih =>
    unfold climb at h
    split at h
    · next he =>
      cases h
      exact he
    · exact ih h

theorem climb_le {v : Nat} (hnext : ∀ s ≤ v, next s ≤ v) (hs : s ≤ v) (h : climb next fuel s = some t) : t ≤ v := by
  induction fuel generalizing s with
  | zero => cases h
  | succ fuel ih =>
    unfold climb at h
    split at h
    · cases h
      exact hs
    · exact ih (hnext s hs) h

theorem climb_some (hle : ∀ s, s ≤ next s) (hvals : ∀ s, next s = s ∨ next s ∈ vals)
    (hfuel : vals.countP (fun v => s < v) < fuel) : ∃ t, climb next fuel s = some t := by
  induction fuel generalizing s with
  | zero => omega
  | succ fuel ih =>
    unfold climb
    by_cases he : next s = s
    · exact ⟨s, if_pos he⟩
    · rw [if_neg he]
      refine ih ?_
      have hlt : s < next s := Nat.lt_of_le_of_ne (hle s) (Ne.symm he)
      have hmem := (hvals s).resolve_left he
      -- the value that is reached is not above itself
      have hcount : vals.countP (fun v => next s < v) < vals.countP (fun v => s < v) := by
        obtain ⟨front, behind, rfl⟩ := append_of_mem hmem
        have hmono : ∀ l : List Nat, l.countP (fun v => next s < v) ≤ l.countP (fun v => s < v) := by
          intro l
          apply countP_mono_left
          intro v _ hv
          rw [decide_eq_true_eq] at hv ⊢
          omega
        have h1 := hmono front
        have h2 := hmono behind
        rw [countP_append, countP_append, countP_cons_of_neg (by simp),
          countP_cons_of_pos (by simpa using hlt)]
        omega
      omega

end Plow.Lib
