import Mathlib

/-!
# Sliding rings

One ring of `size` rows for each slot: a value at a position goes to the row `position % size` of
its slot's ring.  A window of `window` positions behind a frontier `φ` is `Held` when the ring
still has, for each of its positions, the value last written there, and that value is `ok`.

`Batch` says what one batch of writes does: it writes positions from each slot's frontier on, not
more than fit the ring beside the window, and every position up to the new frontier gets an `ok`
value.  `Batch.held` and `Batch.reads`: the window stays held, and every read of a batch finds the
value last written.
-/

namespace Plow.Lib
open List

theorem ring_row_inj {size p q : Nat} (h : p % size = q % size) (hpq : p < q + size)
    (hqp : q < p + size) : p = q := by
  have hp := Nat.div_add_mod p size
  have hq := Nat.div_add_mod q size
  rcases Nat.lt_trichotomy (p / size) (q / size) with lt | eq | gt
  · have := Nat.mul_le_mul_left size (Nat.succ_le_of_lt lt)
    rw [Nat.mul_succ] at this
    omega
  · rw [eq] at hp
    omega
  · have := Nat.mul_le_mul_left size (Nat.succ_le_of_lt gt)
    rw [Nat.mul_succ] at this
    omega

variable {σ ν : Type} [DecidableEq σ]

/-- one row written -/
structure RingWrite (σ ν : Type) where
  slot : σ
  position : Nat
  value : ν

/-- The rings, and for every slot and position the value last written for it. -/
structure Rings (σ ν : Type) where
  row : σ → Nat → Option ν
  last : σ → Nat → Option ν

namespace Rings

def empty : Rings σ ν := ⟨fun _ _ => none, fun _ _ => none⟩

def write (size : Nat) (m : Rings σ ν) (w : RingWrite σ ν) : Rings σ ν where
  row := fun s y => if s = w.slot ∧ y = w.position % size then some w.value else m.row s y
  last := fun s x => if s = w.slot ∧ x = w.position then some w.value else m.last s x

def writeAll (size : Nat) (m : Rings σ ν) (ws : List (RingWrite σ ν)) : Rings σ ν :=
  ws.foldl (write size) m

/-- the ring has the value last written for the position, and it is `ok` -/
def Good (size : Nat) (ok : σ → Nat → ν → Prop) (m : Rings σ ν) (s : σ) (x : Nat) : Prop :=
  m.row s (x % size) = m.last s x ∧ ∃ v, m.last s x = some v ∧ ok s x v

def Held (size window : Nat) (ok : σ → Nat → ν → Prop) (φ : σ → Nat) (m : Rings σ ν) : Prop :=
  ∀ s x, x < φ s → φ s < x + window → Good size ok m s x

variable {size window : Nat} {ok : σ → Nat → ν → Prop} {φ φ' len : σ → Nat} {m : Rings σ ν}
  {ws : List (RingWrite σ ν)} {s : σ} {x : Nat} {w : RingWrite σ ν}

@[simp] theorem writeAll_nil : m.writeAll size [] = m := rfl

@[simp] theorem writeAll_cons : m.writeAll size (w :: ws) = (m.write size w).writeAll size ws := rfl

theorem row_writeAll_of_ne {y : Nat}
    (h : ∀ w ∈ ws, w.slot = s → w.position % size ≠ y) : (m.writeAll size ws).row s y = m.row s y := by
  induction ws generalizing m with
  | nil => rfl
  | cons w ws ih =>
    obtain ⟨h0, h⟩ := forall_mem_cons.mp h
    rw [writeAll_cons, ih h]
    exact if_neg fun hc => h0 hc.1.symm hc.2.symm

theorem last_writeAll_of_ne (h : ∀ w ∈ ws, w.slot = s → w.position ≠ x) :
    (m.writeAll size ws).last s x = m.last s x := by
  induction ws generalizing m with
  | nil => rfl
  | cons w ws ih =>
    obtain ⟨h0, h⟩ := forall_mem_cons.mp h
    rw [writeAll_cons, ih h]
    exact if_neg fun hc => h0 hc.1.symm hc.2.symm

def Separate (size : Nat) (ws : List (RingWrite σ ν)) : Prop :=
  ws.Pairwise fun v w => v.slot = w.slot → v.position % size ≠ w.position % size

theorem writeAll_of_mem (hsep : Separate size ws) (hw : w ∈ ws) :
    (m.writeAll size ws).row w.slot (w.position % size) = some w.value ∧
      (m.writeAll size ws).last w.slot w.position = some w.value := by
  induction ws generalizing m with
  | nil => cases hw
  | cons v ws ih =>
    obtain ⟨h0, hsep⟩ := pairwise_cons.mp hsep
    rw [writeAll_cons]
    rcases mem_cons.mp hw with rfl | hw
    · rw [row_writeAll_of_ne fun u hu he => (h0 u hu he.symm).symm,
        last_writeAll_of_ne fun u hu he hp => h0 u hu he.symm (by rw [hp])]
      exact ⟨if_pos ⟨rfl, rfl⟩, if_pos ⟨rfl, rfl⟩⟩
    · exact ih hsep hw

/-- What one batch of writes does: `len s` positions from the frontier `φ s` on are written, and
the new frontier is `φ' s`. -/
structure Batch (size window : Nat) (ok : σ → Nat → ν → Prop) (φ φ' len : σ → Nat)
    (ws : List (RingWrite σ ν)) : Prop where
  range : ∀ w ∈ ws, φ w.slot ≤ w.position ∧ w.position < φ w.slot + len w.slot
  distinct : ws.Pairwise fun v w => v.slot = w.slot → v.position ≠ w.position
  /-- every position up to the new frontier gets an `ok` value -/
  covers : ∀ s x, φ s ≤ x → x < φ' s → ∃ w ∈ ws, w.slot = s ∧ w.position = x ∧ ok s x w.value
  step : ∀ s, φ s ≤ φ' s ∧ φ' s ≤ φ s + len s
  /-- the positions written and the window before them have rows of their own -/
  fits : ∀ s x y, φ s < x + window → x < φ s + len s → φ s ≤ y → y < φ s + len s →
    x % size = y % size → x = y

namespace Batch
variable (b : Batch size window ok φ φ' len ws)

include b

omit [DecidableEq σ] in
theorem separate (hwin : 0 < window) : Separate size ws := by
  refine Pairwise.imp_of_mem ?_ b.distinct
  intro v w hv hw hd hs heq
  obtain ⟨v1, v2⟩ := b.range v hv
  obtain ⟨w1, w2⟩ := b.range w hw
  rw [← hs] at w1 w2
  exact hd hs (b.fits v.slot v.position w.position (by omega) v2 w1 w2 heq)

theorem good_before (hx : x < φ s) (hwx : φ s < x + window) (h : Good size ok m s x) :
    Good size ok (m.writeAll size ws) s x := by
  have hlast : (m.writeAll size ws).last s x = m.last s x := by
    apply last_writeAll_of_ne
    rintro w hw rfl rfl
    have := (b.range w hw).1
    omega
  have hrow : (m.writeAll size ws).row s (x % size) = m.row s (x % size) := by
    apply row_writeAll_of_ne
    rintro w hw rfl he
    obtain ⟨h1, h2⟩ := b.range w hw
    have := b.fits w.slot x w.position hwx (by omega) h1 h2 he.symm
    omega
  unfold Good
  rw [hlast, hrow]
  exact h

theorem good_after (hwin : 0 < window) (h1 : φ s ≤ x) (h2 : x < φ' s) :
    Good size ok (m.writeAll size ws) s x := by
  obtain ⟨w, hw, rfl, rfl, hok⟩ := b.covers s x h1 h2
  obtain ⟨e1, e2⟩ := @writeAll_of_mem _ _ _ size m ws w (b.separate hwin) hw
  exact ⟨e1.trans e2.symm, w.value, e2, hok⟩

theorem held (hwin : 0 < window) (h : Held size window ok φ m) :
    Held size window ok φ' (m.writeAll size ws) := by
  intro s x hx hw
  obtain ⟨h1, -⟩ := b.step s
  by_cases hlt : x < φ s
  · exact b.good_before hlt (by omega) (h s x hlt (by omega))
  · exact b.good_after hwin (Nat.le_of_not_lt hlt) hx

theorem reads (hwin : 0 < window) (h : Held size window ok φ m) {p : Nat} (hp : φ s ≤ p)
    (hp' : p < φ' s) (hx : x ≤ p) (hw : p < x + window) : Good size ok (m.writeAll size ws) s x := by
  by_cases hlt : x < φ s
  · exact b.good_before hlt (by omega) (h s x hlt (by omega))
  · exact b.good_after hwin (Nat.le_of_not_lt hlt) (by omega)

end Batch

theorem fits_of_le {n f y : Nat} (hwin : 0 < window) (h : window + n ≤ size + 1)
    (h1 : f < x + window) (h2 : x < f + n) (h3 : f ≤ y) (h4 : y < f + n) (he : x % size = y % size) : x = y :=
  ring_row_inj he (by omega) (by omega)

theorem fits_of_lt {y : Nat} (h1 : x < size) (h2 : y < size) (he : x % size = y % size) : x = y := by
  rwa [Nat.mod_eq_of_lt h1, Nat.mod_eq_of_lt h2] at he

omit [DecidableEq σ] in
theorem Held.restart {P : σ → Prop} [DecidablePred P] (h : Held size window ok φ m) :
    Held size window ok (fun s => if P s then 0 else φ s) m := by
  intro s x hx hw
  simp only at hx hw
  split at hx
  · exact absurd hx (Nat.not_lt_zero x)
  · next hs =>
    rw [if_neg hs] at hw
    exact h s x hx hw

end Rings

end Plow.Lib
