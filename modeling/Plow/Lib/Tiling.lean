import Mathlib

/-!
# Tilings: runs laid one after the other

`lens` are the lengths of runs that lie one after the other from zero on; the run `k` begins at
`tileStart lens k`.  Every position below the total lies in exactly one run, and a search for the
last run that begins at or before a position finds it: as the count of a monotone predicate
(`length_takeWhile_tile`) and by halving (`bisect_eq`).
-/

namespace Plow.Lib

open List

/-- where the run `k` begins -/
def tileStart (lens : List Nat) (k : Nat) : Nat := (lens.take k).sum

variable {lens : List Nat} {k k' i i' row : Nat}

@[simp] theorem tileStart_zero : tileStart lens 0 = 0 := by simp [tileStart]

@[simp] theorem tileStart_cons (l : Nat) : tileStart (l :: lens) (k + 1) = l + tileStart lens k := by
  simp [tileStart]

theorem tileStart_length : tileStart lens lens.length = lens.sum := by simp [tileStart]

theorem tileStart_succ (h : k < lens.length) : tileStart lens (k + 1) = tileStart lens k + lens[k] := by
  simp only [tileStart, take_add_one, getElem?_eq_getElem h, Option.toList_some,
    sum_append, sum_cons, sum_nil, add_zero]

theorem tileStart_mono (h : k ≤ k') : tileStart lens k ≤ tileStart lens k' := by
  obtain ⟨d, rfl⟩ := Nat.exists_eq_add_of_le h
  rw [tileStart, tileStart, take_add, sum_append]
  omega

theorem tileStart_le_sum (k : Nat) : tileStart lens k ≤ lens.sum := by
  have h := sum_take_add_sum_drop lens k
  rw [tileStart]
  omega

theorem tile_le (h : k < lens.length) : tileStart lens k + lens[k] ≤ lens.sum := by
  rw [← tileStart_succ h]
  exact tileStart_le_sum (k + 1)

theorem tile_before (h : k < lens.length) (hk : k < k') :
    tileStart lens k + lens[k] ≤ tileStart lens k' := by
  rw [← tileStart_succ h]
  exact tileStart_mono hk

theorem exists_tile (h : row < lens.sum) :
    ∃ k, ∃ hk : k < lens.length, ∃ i, i < lens[k] ∧ row = tileStart lens k + i := by
  induction lens generalizing row with
  | nil => simp at h
  | cons l ls ih =>
    by_cases hl : row < l
    · exact ⟨0, by simp, row, by simpa using hl, by simp⟩
    · rw [sum_cons] at h
      have h' : row - l < ls.sum := by omega
      obtain ⟨k, hk, i, hi, he⟩ := ih h'
      refine ⟨k + 1, by simpa using hk, i, by simpa using hi, ?_⟩
      rw [tileStart_cons]
      omega

theorem tile_unique (hk : k < lens.length) (hk' : k' < lens.length) (hi : i < lens[k])
    (hi' : i' < lens[k']) (h : tileStart lens k + i = tileStart lens k' + i') :
    k = k' ∧ i = i' := by
  rcases lt_trichotomy k k' with hlt | rfl | hlt
  · have := tile_before hk hlt
    omega
  · exact ⟨rfl, by omega⟩
  · have := tile_before hk' hlt
    omega

theorem tileStart_le_iff (hk : k < lens.length) (hi : i < lens[k]) :
    tileStart lens k' ≤ tileStart lens k + i ↔ k' ≤ k := by
  constructor
  · intro h
    by_contra hc
    have := tile_before hk (Nat.lt_of_not_le hc)
    omega
  · intro h
    have : tileStart lens k' ≤ tileStart lens k := tileStart_mono h
    omega

theorem getElem?_flatMap_tile {α β : Type} {f : α → List β} {as : List α} {a : α}
    (h : as[k]? = some a) (hi : i < (f a).length) :
    (as.flatMap f)[tileStart (as.map fun a => (f a).length) k + i]? = (f a)[i]? := by
  induction as generalizing k with
  | nil => simp at h
  | cons a' as ih =>
    cases k with
    | zero =>
      cases h
      rw [tileStart_zero, zero_add, flatMap_cons, getElem?_append_left hi]
    | succ k =>
      rw [map_cons, tileStart_cons, flatMap_cons, getElem?_append_right (by omega)]
      have e : (f a').length + tileStart (as.map fun a => (f a).length) k + i - (f a').length =
        tileStart (as.map fun a => (f a).length) k + i := by omega
      rw [e]
      exact ih h

theorem getElem?_flatMap_block {α β : Type} {f : α → List β} {as : List α} {a : α} {c : Nat}
    (hf : ∀ a ∈ as, (f a).length = c) (h : as[k]? = some a) (hi : i < c) :
    (as.flatMap f)[c * k + i]? = (f a)[i]? := by
  induction as generalizing k with
  | nil => simp at h
  | cons a' as ih =>
    obtain ⟨h0, hf⟩ := forall_mem_cons.mp hf
    cases k with
    | zero =>
      cases h
      rw [mul_zero, zero_add, flatMap_cons, getElem?_append_left (by omega)]
    | succ k =>
      rw [Nat.mul_succ, flatMap_cons, getElem?_append_right (by omega), h0]
      have e : c * k + c + i - c = c * k + i := by omega
      rw [e]
      exact ih hf h

theorem length_takeWhile {α : Type} {p : α → Bool} {xs : List α} {m : Nat} (hm : m ≤ xs.length)
    (h1 : ∀ k, (h : k < xs.length) → k < m → p xs[k] = true)
    (h2 : (h : m < xs.length) → p xs[m] = false) : (xs.takeWhile p).length = m := by
  induction xs generalizing m with
  | nil =>
    have h0 : m = 0 := by simpa using hm
    simp [h0]
  | cons x xs ih =>
    cases m with
    | zero =>
      have h0 : p x = false := h2 (by simp)
      simp [h0]
    | succ m =>
      have h0 : p x = true := h1 0 (by simp) (by omega)
      rw [takeWhile_cons_of_pos h0, length_cons]
      rw [ih (by simpa using hm) (fun k hk hkm => h1 (k + 1) (by simpa using hk) (by omega))
        (fun hk => h2 (by simpa using hk))]

/-- halving: the first index in `[lo, hi)` where the predicate fails, or `hi` -/
def bisect (p : Nat → Bool) (lo hi : Nat) : Nat :=
  if lo < hi then
    let mid := lo + (hi - lo) / 2
    if p mid then bisect p (mid + 1) hi else bisect p lo mid
  else lo
termination_by hi - lo

theorem bisect_eq {p : Nat → Bool} {m lo hi : Nat} (h1 : ∀ k, k < m → p k = true)
    (h2 : ∀ k, m ≤ k → k < hi → p k = false) (hl : lo ≤ m) (hh : m ≤ hi) : bisect p lo hi = m := by
  fun_induction bisect p lo hi with
  | case1 lo hi hlt mid hp ih =>
    have hmid : mid < m := by
      by_contra hc
      have := h2 mid (by omega) (by omega)
      rw [hp] at this
      exact absurd this (by decide)
    exact ih h2 (by omega) hh
  | case2 lo hi hlt mid hp ih =>
    have hmid : m ≤ mid := by
      by_contra hc
      exact hp (h1 mid (by omega))
    exact ih (fun k hk hkm => h2 k hk (by omega)) hl hmid
  | case3 lo hi hlt => omega

end Plow.Lib
