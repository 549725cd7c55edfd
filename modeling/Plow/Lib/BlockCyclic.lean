import Mathlib

/-!
# Block-cyclic partitions

The natural numbers are cut into blocks of `p`, and the blocks are dealt to `d` owners in turn.
`cyclicOwner` and `cyclicLocal` tell which owner a number goes to and where it stands there,
`cyclicGlobal` is the way back, and `cyclicCount` is how many numbers below `n` an owner gets: the
owner's numbers below `n` are those at its places below the count (`cyclicGlobal_lt_iff`).
-/

namespace Plow.Lib

open Finset

def cyclicOwner (p d i : ℕ) : ℕ := i / p % d

def cyclicLocal (p d i : ℕ) : ℕ := i / (p * d) * p + i % p

def cyclicGlobal (p d s l : ℕ) : ℕ := l / p * (p * d) + s * p + l % p

def cyclicCount (p d n s : ℕ) : ℕ :=
  n / p / d * p + if s < n / p % d then p else if s = n / p % d then n % p else 0

variable {p d n s l i : ℕ}

/-! ### Blocks -/

theorem block_div (hp : 0 < p) (a : ℕ) {x : ℕ} (hx : x < p) : (a * p + x) / p = a := by
  rw [add_comm, Nat.add_mul_div_right _ _ hp, Nat.div_eq_of_lt hx, zero_add]

theorem block_mod (a : ℕ) {x : ℕ} (hx : x < p) : (a * p + x) % p = x := by
  rw [add_comm, Nat.add_mul_mod_self_right, Nat.mod_eq_of_lt hx]

theorem block_lt_iff {a b x y : ℕ} (hx : x < p) (hy : y < p) :
    a * p + x < b * p + y ↔ a < b ∨ a = b ∧ x < y := by
  rcases lt_trichotomy a b with h | rfl | h
  · have hle : (a + 1) * p ≤ b * p := Nat.mul_le_mul_right p h
    rw [add_mul, one_mul] at hle
    exact iff_of_true (by omega) (Or.inl h)
  · simp
  · have hle : (b + 1) * p ≤ a * p := Nat.mul_le_mul_right p h
    rw [add_mul, one_mul] at hle
    exact iff_of_false (by omega) (by omega)

theorem block_eq_iff (hp : 0 < p) {a b x y : ℕ} (hx : x < p) (hy : y < p) :
    a * p + x = b * p + y ↔ a = b ∧ x = y := by
  constructor
  · intro h
    have hdiv := congrArg (· / p) h
    have hmod := congrArg (· % p) h
    simp only [block_div hp _ hx, block_div hp _ hy] at hdiv
    simp only [block_mod _ hx, block_mod _ hy] at hmod
    exact ⟨hdiv, hmod⟩
  · rintro ⟨rfl, rfl⟩
    rfl

/-! ### The map and its inverse -/

theorem cyclicGlobal_eq (p d s l : ℕ) : cyclicGlobal p d s l = (l / p * d + s) * p + l % p := by
  unfold cyclicGlobal
  ring

theorem cyclicOwner_lt (hd : 0 < d) (i : ℕ) : cyclicOwner p d i < d := Nat.mod_lt _ hd

theorem cyclicOwner_global (hp : 0 < p) (hs : s < d) : cyclicOwner p d (cyclicGlobal p d s l) = s := by
  rw [cyclicGlobal_eq, cyclicOwner, block_div hp _ (Nat.mod_lt l hp), block_mod _ hs]

theorem cyclicLocal_global (hp : 0 < p) (hs : s < d) : cyclicLocal p d (cyclicGlobal p d s l) = l := by
  have hd : 0 < d := Nat.zero_lt_of_lt hs
  rw [cyclicGlobal_eq, cyclicLocal, ← Nat.div_div_eq_div_mul, block_div hp _ (Nat.mod_lt l hp),
    block_div hd _ hs, block_mod _ (Nat.mod_lt l hp)]
  exact Nat.div_add_mod' l p

theorem cyclicGlobal_local (hp : 0 < p) (i : ℕ) :
    cyclicGlobal p d (cyclicOwner p d i) (cyclicLocal p d i) = i := by
  rw [cyclicGlobal_eq, cyclicLocal, block_div hp _ (Nat.mod_lt i hp), block_mod _ (Nat.mod_lt i hp),
    ← Nat.div_div_eq_div_mul, cyclicOwner, Nat.div_add_mod', Nat.div_add_mod']

/-- A number is its owner and its place there. -/
def cyclicEquiv (hp : 0 < p) (hd : 0 < d) : ℕ ≃ Fin d × ℕ where
  toFun i := (⟨cyclicOwner p d i, cyclicOwner_lt hd i⟩, cyclicLocal p d i)
  invFun q := cyclicGlobal p d q.1 q.2
  left_inv i := cyclicGlobal_local hp i
  right_inv q := by
    rcases q with ⟨⟨s, hs⟩, l⟩
    exact Prod.ext (Fin.ext (cyclicOwner_global hp hs)) (cyclicLocal_global hp hs)

/-! ### Counting -/

theorem cyclicGlobal_lt_iff (hp : 0 < p) (hs : s < d) :
    cyclicGlobal p d s l < n ↔ l < cyclicCount p d n s := by
  have hd : 0 < d := Nat.zero_lt_of_lt hs
  have hl : l % p < p := Nat.mod_lt l hp
  have hn : n % p < p := Nat.mod_lt n hp
  have hr : n / p % d < d := Nat.mod_lt _ hd
  have hcount : ∀ x, x ≤ p →
      (l < n / p / d * p + x ↔ l / p < n / p / d ∨ l / p = n / p / d ∧ l % p < x) := by
    intro x hx
    conv_lhs => rw [← Nat.div_add_mod' l p]
    rcases eq_or_lt_of_le hx with rfl | hx
    · have h := @block_lt_iff x (l / x) (n / x / d + 1) (l % x) 0 hl hp
      rw [add_zero, add_mul, one_mul] at h
      rw [h]
      omega
    · exact block_lt_iff hl hx
  rw [cyclicGlobal_eq]
  conv_lhs => rw [← Nat.div_add_mod' n p, ← Nat.div_add_mod' (n / p) d]
  rw [block_lt_iff hl hn, block_lt_iff hs hr, block_eq_iff hd hs hr, cyclicCount]
  split
  · rw [hcount p le_rfl]
    omega
  · split
    · rw [hcount _ hn.le]
      omega
    · rw [hcount 0 (Nat.zero_le p)]
      omega

theorem image_cyclicLocal (hp : 0 < p) (hs : s < d) (n : ℕ) :
    ((Finset.range n).filter (cyclicOwner p d · = s)).image (cyclicLocal p d) =
      Finset.range (cyclicCount p d n s) := by
  ext l
  rw [mem_image, mem_range, ← cyclicGlobal_lt_iff hp hs]
  constructor
  · rintro ⟨i, hi, rfl⟩
    obtain ⟨hin, rfl⟩ := mem_filter.mp hi
    rw [cyclicGlobal_local hp]
    exact mem_range.mp hin
  · intro hl
    refine ⟨cyclicGlobal p d s l, mem_filter.mpr ⟨mem_range.mpr hl, ?_⟩, ?_⟩
    · exact cyclicOwner_global hp hs
    · exact cyclicLocal_global hp hs

theorem card_cyclicOwner (hp : 0 < p) (hs : s < d) (n : ℕ) :
    ((Finset.range n).filter (cyclicOwner p d · = s)).card = cyclicCount p d n s := by
  rw [← card_range (cyclicCount p d n s), ← image_cyclicLocal hp hs n]
  refine (card_image_of_injOn fun i hi j hj hij => ?_).symm
  have hi : cyclicOwner p d i = s := (mem_filter.mp hi).2
  have hj : cyclicOwner p d j = s := (mem_filter.mp hj).2
  rw [← cyclicGlobal_local (d := d) hp i, ← cyclicGlobal_local (d := d) hp j, hi, hj, hij]

theorem sum_cyclicCount (hp : 0 < p) (hd : 0 < d) (n : ℕ) :
    ∑ s ∈ Finset.range d, cyclicCount p d n s = n := by
  have hmap : ∀ i ∈ Finset.range n, cyclicOwner p d i ∈ Finset.range d :=
    fun i _ => mem_range.mpr (cyclicOwner_lt hd i)
  have hcard := card_eq_sum_card_fiberwise hmap
  calc ∑ s ∈ Finset.range d, cyclicCount p d n s
      = ∑ s ∈ Finset.range d, ((Finset.range n).filter (cyclicOwner p d · = s)).card :=
        sum_congr rfl fun s hs => (card_cyclicOwner hp (mem_range.mp hs) n).symm
    _ = n := by rw [← hcard, card_range]

end Plow.Lib
