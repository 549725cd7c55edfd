import Mathlib

/-!
# Copies between places of a memory

A memory is a set of places, each with cells at offsets.  A copy moves the cells of a run at one place
to another place.  After a list of copies a cell holds what the copies that write it agree on, as long
as no copy reads a place that another one writes (`runCopies_get`), and a cell that none writes is as
before (`runCopies_frame`).

Two buffers are such a memory (`Copy.copyAll_get`): copies that stay inside them move their items.
-/

namespace Plow.Lib

open List

structure Copy (P : Type) where
  dst : P
  dstOff : ℕ
  src : P
  srcOff : ℕ
  len : ℕ

variable {P V : Type} [DecidableEq P]

namespace Copy

def Writes (k : Copy P) (p : P) (o : ℕ) : Prop := p = k.dst ∧ k.dstOff ≤ o ∧ o < k.dstOff + k.len

instance (k : Copy P) (p : P) (o : ℕ) : Decidable (k.Writes p o) := by
  unfold Writes
  infer_instance

def run (k : Copy P) (m : P → ℕ → V) : P → ℕ → V := fun p o =>
  if k.Writes p o then m k.src (k.srcOff + (o - k.dstOff)) else m p o

end Copy

def runCopies (ks : List (Copy P)) (m : P → ℕ → V) : P → ℕ → V := ks.foldl (fun m k => k.run m) m

variable {ks : List (Copy P)} {m : P → ℕ → V} {p : P} {o : ℕ}

theorem runCopies_frame (h : ∀ k ∈ ks, ¬ k.Writes p o) : runCopies ks m p o = m p o := by
  induction ks generalizing m with
  | nil => rfl
  | cons k ks ih =>
    obtain ⟨hk, hks⟩ := forall_mem_cons.mp h
    calc runCopies (k :: ks) m p o = runCopies ks (k.run m) p o := rfl
      _ = k.run m p o := ih hks
      _ = m p o := if_neg hk

/-- the writers of a cell agree on its value, and there is one -/
theorem runCopies_get (hsep : ∀ k ∈ ks, ∀ k' ∈ ks, k.src ≠ k'.dst) {x : V}
    (hval : ∀ k ∈ ks, k.Writes p o → m k.src (k.srcOff + (o - k.dstOff)) = x)
    (hex : ∃ k ∈ ks, k.Writes p o) : runCopies ks m p o = x := by
  induction ks generalizing m with
  | nil =>
    obtain ⟨k, hk, -⟩ := hex
    cases hk
  | cons k ks ih =>
    have hstep : runCopies (k :: ks) m p o = runCopies ks (k.run m) p o := rfl
    rw [hstep]
    have hsep' : ∀ k ∈ ks, ∀ k' ∈ ks, k.src ≠ k'.dst := fun a ha b hb =>
      hsep a (mem_cons_of_mem k ha) b (mem_cons_of_mem k hb)
    -- what the first copy writes is no source of a later one
    have hsrc : ∀ k' ∈ ks, ∀ o', k.run m k'.src o' = m k'.src o' := fun k' hk' o' =>
      if_neg fun hw => hsep k' (mem_cons_of_mem k hk') k mem_cons_self hw.1
    by_cases hrest : ∃ k' ∈ ks, k'.Writes p o
    · refine ih hsep' (fun k' hk' hw => ?_) hrest
      rw [hsrc k' hk']
      exact hval k' (mem_cons_of_mem k hk') hw
    · rw [runCopies_frame fun k' hk' hw => hrest ⟨k', hk', hw⟩]
      obtain ⟨k', hk', hw⟩ := hex
      rcases mem_cons.mp hk' with rfl | hk'
      · exact (if_pos hw).trans (hval k' mem_cons_self hw)
      · exact absurd ⟨k', hk', hw⟩ hrest

/-! ### From one buffer to another -/

inductive Side
  | src
  | dst
  deriving DecidableEq

namespace Copy

variable {B : Type} {src dst : List B} {k : Copy Side} {ks : List (Copy Side)}

def copyOnto (src dst : List B) (k : Copy Side) : List B :=
  dst.take k.dstOff ++ (src.drop k.srcOff).take k.len ++ dst.drop (k.dstOff + k.len)

def copyAll (src : List B) (ks : List (Copy Side)) (dst : List B) : List B :=
  ks.foldl (copyOnto src) dst

/-- a copy from the source to the destination, inside buffers of these lengths -/
structure Inside (k : Copy Side) (srcLen dstLen : ℕ) : Prop where
  src : k.src = .src
  dst : k.dst = .dst
  src_le : k.srcOff + k.len ≤ srcLen
  dst_le : k.dstOff + k.len ≤ dstLen

def buffers [Inhabited B] (src dst : List B) : Side → ℕ → B
  | .src, o => src.getD o default
  | .dst, o => dst.getD o default

theorem length_copyOnto (h : k.Inside src.length dst.length) :
    (copyOnto src dst k).length = dst.length := by
  have h1 := h.src_le
  have h2 := h.dst_le
  simp only [copyOnto, length_append, length_take, length_drop]
  omega

theorem length_copyAll (h : ∀ k ∈ ks, k.Inside src.length dst.length) :
    (copyAll src ks dst).length = dst.length := by
  induction ks generalizing dst with
  | nil => rfl
  | cons k ks ih =>
    obtain ⟨hk, hks⟩ := forall_mem_cons.mp h
    have hl := length_copyOnto hk
    rw [← hl] at hks
    exact (ih hks).trans hl

theorem buffers_copyOnto [Inhabited B] (h : k.Inside src.length dst.length) :
    buffers src (copyOnto src dst k) = k.run (buffers src dst) := by
  have h1 := h.src_le
  have h2 := h.dst_le
  funext p o
  cases p with
  | src => exact (if_neg fun hw => by cases hw.1.trans h.dst).symm
  | dst =>
    have hw : k.Writes .dst o ↔ k.dstOff ≤ o ∧ o < k.dstOff + k.len := by
      rw [Writes, h.dst]
      simp only [true_and]
    show (copyOnto src dst k).getD o default = if k.Writes .dst o then _ else dst.getD o default
    rw [copyOnto, h.src]
    by_cases ho : o < k.dstOff
    · rw [if_neg (fun h => by have := (hw.mp h).1; omega), append_assoc,
        getD_append _ _ _ _ (by rw [length_take]; omega)]
      simp only [getD_eq_getElem?_getD, getElem?_take, ho, if_true]
    · by_cases ho' : o < k.dstOff + k.len
      · rw [if_pos (hw.mpr ⟨by omega, ho'⟩), append_assoc,
          getD_append_right _ _ _ _ (by rw [length_take]; omega), length_take,
          getD_append _ _ _ _ (by rw [length_take, length_drop]; omega),
          Nat.min_eq_left (by omega)]
        show _ = src.getD (k.srcOff + (o - k.dstOff)) default
        simp only [getD_eq_getElem?_getD, getElem?_take, getElem?_drop,
          show o - k.dstOff < k.len by omega, if_true]
      · rw [if_neg (fun h => by have := (hw.mp h).2; omega),
          getD_append_right _ _ _ _
            (by simp only [length_append, length_take, length_drop]; omega)]
        simp only [getD_eq_getElem?_getD, getElem?_drop, length_append,
          length_take, length_drop]
        congr 2
        omega

section

variable (h : ∀ k ∈ ks, k.Inside src.length dst.length)
include h

theorem buffers_copyAll [Inhabited B] :
    buffers src (copyAll src ks dst) = runCopies ks (buffers src dst) := by
  induction ks generalizing dst with
  | nil => rfl
  | cons k ks ih =>
    obtain ⟨hk, hks⟩ := forall_mem_cons.mp h
    rw [← length_copyOnto hk] at hks
    calc buffers src (copyAll src (k :: ks) dst)
        = buffers src (copyAll src ks (copyOnto src dst k)) := rfl
      _ = runCopies ks (buffers src (copyOnto src dst k)) := ih hks
      _ = runCopies ks (k.run (buffers src dst)) := by rw [buffers_copyOnto hk]

theorem copyAll_get [Inhabited B] {o : ℕ} {x : B}
    (hval : ∀ k ∈ ks, k.Writes .dst o → src.getD (k.srcOff + (o - k.dstOff)) default = x)
    (hex : ∃ k ∈ ks, k.Writes .dst o) : (copyAll src ks dst).getD o default = x := by
  have hr := congrFun (congrFun (buffers_copyAll h) .dst) o
  refine hr.trans (runCopies_get (fun k hk k' hk' hs => ?_) (fun k hk hw => ?_) hex)
  · rw [(h k hk).src, (h k' hk').dst] at hs
    cases hs
  · rw [(h k hk).src]
    exact hval k hk hw

theorem copyAll_frame [Inhabited B] {o : ℕ}
    (hno : ∀ k ∈ ks, ¬ k.Writes .dst o) :
    (copyAll src ks dst).getD o default = dst.getD o default :=
  (congrFun (congrFun (buffers_copyAll h) .dst) o).trans (runCopies_frame hno)

end

end Copy

end Plow.Lib
