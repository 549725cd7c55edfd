import Mathlib

/-!
# Plain old data: values of a fixed size, byte for byte

`Pod α` says how a value of `α` lies in memory: `put` writes its `size` bytes and `get` reads them
back from the front of a byte list.  Reading what was written gives the value, writing what was
read gives the bytes, so a type with an instance has exactly one value for each run of `size`
bytes.  Words are little endian; products and arrays lie one field after the other, and
`Pod.ofEquiv` gives the instance of a record from the product of its fields.

`Has b i x`: the bytes `x` stand in `b` at the offset `i`.  A reader is described by the bytes that
it accepts there, and the rules for `Has` put such descriptions one after the other.
-/

namespace Plow.Lib

open List

/-- the low `k` bytes of `n`, least first -/
def leBytes : Nat → Nat → List UInt8
  | 0, _ => []
  | k + 1, n => UInt8.ofNat (n % 256) :: leBytes k (n / 256)

/-- the number in the first `k` bytes -/
def leNat : Nat → List UInt8 → Nat
  | 0, _ => 0
  | k + 1, b => (b.headD 0).toNat + 256 * leNat k b.tail

@[simp] theorem length_leBytes (k n : Nat) : (leBytes k n).length = k := by
  induction k generalizing n with
  | zero => rfl
  | succ k ih => simp [leBytes, ih]

theorem leNat_lt (k : Nat) (b : List UInt8) : leNat k b < 256 ^ k := by
  induction k generalizing b with
  | zero => simp [leNat]
  | succ k ih =>
    have h1 : (b.headD 0).toNat < 256 := UInt8.toNat_lt _
    have h2 := ih b.tail
    simp only [leNat, pow_succ]
    omega

theorem leNat_leBytes (k n : Nat) (r : List UInt8) (h : n < 256 ^ k) :
    leNat k (leBytes k n ++ r) = n := by
  induction k generalizing n with
  | zero => simp only [pow_zero] at h; simp only [leNat]; omega
  | succ k ih =>
    have hd : n / 256 < 256 ^ k := by
      rw [pow_succ, mul_comm] at h
      exact Nat.div_lt_of_lt_mul h
    have hb : (UInt8.ofNat (n % 256)).toNat = n % 256 := by simp
    simp only [leBytes, leNat, cons_append, headD_cons, tail_cons, ih _ hd, hb]
    omega

theorem leBytes_leNat (k : Nat) (b : List UInt8) (h : k ≤ b.length) :
    leBytes k (leNat k b) = b.take k := by
  induction k generalizing b with
  | zero => simp [leBytes]
  | succ k ih =>
    cases b with
    | nil => simp at h
    | cons x b =>
      have hx : x.toNat < 256 := UInt8.toNat_lt _
      have h1 : (x.toNat + 256 * leNat k b) % 256 = x.toNat := by omega
      have h2 : (x.toNat + 256 * leNat k b) / 256 = leNat k b := by omega
      simp only [leNat, leBytes, headD_cons, tail_cons, h1, h2, take_succ_cons,
        UInt8.ofNat_toNat, ih b (by simpa using h)]

/-- a type whose values are `size` bytes each -/
class Pod (α : Type) where
  size : Nat
  put : α → List UInt8
  get : List UInt8 → α
  length_put : ∀ a, (put a).length = size
  get_put : ∀ a r, get (put a ++ r) = a
  put_get : ∀ b, size ≤ b.length → put (get b) = b.take size

namespace Pod
variable {α β : Type}

attribute [simp] length_put get_put

instance : Pod UInt8 where
  size := 1
  put a := [a]
  get b := b.headD 0
  length_put _ := rfl
  get_put _ _ := rfl
  put_get b h := by
    cases b with
    | nil => simp at h
    | cons x b => simp

instance : Pod UInt16 where
  size := 2
  put a := leBytes 2 a.toNat
  get b := UInt16.ofNat (leNat 2 b)
  length_put _ := length_leBytes _ _
  get_put a r := by rw [leNat_leBytes 2 _ r (UInt16.toNat_lt a), UInt16.ofNat_toNat]
  put_get b h := by
    rw [UInt16.toNat_ofNat_of_lt' (leNat_lt 2 b), leBytes_leNat 2 b h]

instance : Pod UInt32 where
  size := 4
  put a := leBytes 4 a.toNat
  get b := UInt32.ofNat (leNat 4 b)
  length_put _ := length_leBytes _ _
  get_put a r := by rw [leNat_leBytes 4 _ r (UInt32.toNat_lt a), UInt32.ofNat_toNat]
  put_get b h := by
    rw [UInt32.toNat_ofNat_of_lt' (leNat_lt 4 b), leBytes_leNat 4 b h]

instance [Pod α] [Pod β] : Pod (α × β) where
  size := size α + size β
  put a := put a.1 ++ put a.2
  get b := (get b, get (b.drop (size α)))
  length_put a := by simp
  get_put a r := by
    have h : (put a.1 ++ put a.2 ++ r).drop (size α) = put a.2 ++ r := by
      rw [List.append_assoc, List.drop_left' (length_put a.1)]
    rw [h, get_put, List.append_assoc, get_put]
  put_get b h := by
    have h1 : size α ≤ b.length := by omega
    have h2 : size β ≤ (b.drop (size α)).length := by rw [List.length_drop]; omega
    rw [put_get b h1, put_get _ h2, List.take_add]

def putVec [Pod α] : {n : Nat} → List.Vector α n → List UInt8
  | 0, _ => []
  | _ + 1, v => put v.head ++ putVec v.tail

def getVec [Pod α] : (n : Nat) → List UInt8 → List.Vector α n
  | 0, _ => .nil
  | n + 1, b => .cons (get b) (getVec n (b.drop (size α)))

/-- an array `[α; n]` -/
instance [Pod α] (n : Nat) : Pod (List.Vector α n) where
  size := n * size α
  put := putVec
  get := getVec n
  length_put v := by
    induction n with
    | zero => simp [putVec]
    | succ n ih => simp [putVec, ih, Nat.succ_mul, Nat.add_comm]
  get_put v r := by
    induction n with
    | zero => exact Subsingleton.elim _ _
    | succ n ih =>
      rw [putVec, List.append_assoc, getVec, get_put, List.drop_left' (length_put _), ih,
        List.Vector.cons_head_tail]
  put_get b h := by
    induction n generalizing b with
    | zero => simp [putVec]
    | succ n ih =>
      have h1 : size α ≤ b.length := by rw [Nat.succ_mul] at h; omega
      have h2 : n * size α ≤ (b.drop (size α)).length := by
        rw [List.length_drop]; rw [Nat.succ_mul] at h; omega
      rw [getVec, putVec, List.Vector.head_cons, List.Vector.tail_cons, put_get b h1, ih _ h2,
        Nat.succ_mul, Nat.add_comm, List.take_add]

/-- the instance of a record, from the product of its fields -/
abbrev ofEquiv [Pod α] (fields : β → α) (mk : α → β) (h : ∀ x, mk (fields x) = x)
    (h' : ∀ a, fields (mk a) = a) : Pod β where
  size := size α
  put x := put (fields x)
  get b := mk (get b)
  length_put x := length_put (fields x)
  get_put x r := by rw [get_put, h]
  put_get b hb := by rw [h', put_get b hb]

theorem put_inj [Pod α] {a a' : α} (h : put a = put a') : a = a' := by
  have e := get_put a []
  rw [h, get_put] at e
  exact e.symm

theorem put_append_inj [Pod α] {a a' : α} {r r' : List UInt8} (h : put a ++ r = put a' ++ r') :
    a = a' ∧ r = r' := by
  obtain ⟨h1, h2⟩ := append_inj h (by simp)
  exact ⟨put_inj h1, h2⟩

end Pod

/-- the bytes `x` stand in `b` at the offset `i` -/
structure Has (b : List UInt8) (i : Nat) (x : List UInt8) : Prop where
  le : i ≤ b.length
  here : x <+: b.drop i

namespace Has
variable {b x y : List UInt8} {i : Nat} {α : Type} [Pod α]

theorem nil_iff : Has b i [] ↔ i ≤ b.length := ⟨Has.le, fun h => ⟨h, nil_prefix⟩⟩

theorem zero_iff : Has b 0 x ↔ x <+: b := ⟨Has.here, fun h => ⟨Nat.zero_le _, h⟩⟩

theorem length_le (h : Has b i x) : i + x.length ≤ b.length := by
  have h1 := h.here.length_le
  have h2 := h.le
  rw [length_drop] at h1
  omega

theorem append_iff : Has b i (x ++ y) ↔ Has b i x ∧ Has b (i + x.length) y := by
  constructor
  · intro h
    obtain ⟨r, hr⟩ := h.here
    have hl := h.length_le
    rw [length_append] at hl
    refine ⟨⟨h.le, y ++ r, by rw [← hr, append_assoc]⟩, by omega, r, ?_⟩
    rw [← drop_drop, ← hr, append_assoc, drop_left]
  · rintro ⟨h1, h2⟩
    obtain ⟨r, hr⟩ := h1.here
    obtain ⟨s, hs⟩ := h2.here
    refine ⟨h1.le, s, ?_⟩
    rw [← drop_drop, ← hr, drop_left] at hs
    rw [append_assoc, hs, hr]

theorem extend (h : Has b i x) (t : List UInt8) : Has (b ++ t) i x where
  le := by
    have := h.le
    rw [length_append]
    omega
  here := by
    rw [drop_append_of_le_length h.le]
    exact h.here.trans (prefix_append _ _)

theorem get {a : α} (h : Has b i (Pod.put a)) : Pod.get (b.drop i) = a := by
  obtain ⟨r, hr⟩ := h.here
  rw [← hr, Pod.get_put]

theorem room {a : α} (h : Has b i (Pod.put a)) : i + Pod.size α ≤ b.length := by
  have := h.length_le
  rwa [Pod.length_put] at this

theorem of_room (h : i + Pod.size α ≤ b.length) : Has b i (Pod.put (Pod.get (b.drop i) : α)) where
  le := by omega
  here := by
    rw [Pod.put_get _ (by rw [length_drop]; omega)]
    exact take_prefix _ _

end Has

namespace Pod
variable {α : Type} [Pod α] {b : List UInt8}

def puts (as : List α) : List UInt8 := as.flatMap put

@[simp] theorem puts_nil : puts ([] : List α) = [] := rfl

@[simp] theorem puts_cons (a : α) (as : List α) : puts (a :: as) = put a ++ puts as := rfl

@[simp] theorem length_puts (as : List α) : (puts as).length = as.length * size α := by
  induction as with
  | nil => simp
  | cons a as ih => simp [ih, Nat.succ_mul, Nat.add_comm]

/-- the values of the `n` fields from `i` on, as a reader that steps by the size sees them -/
def nth (α : Type) [Pod α] (b : List UInt8) (i j : Nat) : α := get (b.drop (i + j * size α))

theorem map_nth_iff {as : List α} {i : Nat} :
    i + as.length * size α ≤ b.length ∧ (range as.length).map (nth α b i) = as ↔
      Has b i (puts as) := by
  induction as generalizing i with
  | nil => simp [Has.nil_iff]
  | cons a as ih =>
    have hs : (range as.length).map (nth α b i ∘ Nat.succ) =
        (range as.length).map (nth α b (i + size α)) := by
      apply map_congr_left
      intro j _
      have e : i + (j + 1) * size α = i + size α + j * size α := by rw [Nat.succ_mul]; omega
      simp only [nth, Function.comp, Nat.succ_eq_add_one, e]
    have h0 : nth α b i 0 = get (b.drop i) := by simp [nth]
    rw [puts_cons, Has.append_iff, length_put, ← ih, length_cons, range_succ_eq_map,
      map_cons, map_map, hs, h0, Nat.succ_mul, cons.injEq]
    constructor
    · rintro ⟨h1, h2, h3⟩
      refine ⟨?_, by omega, h3⟩
      rw [← h2]
      exact Has.of_room (by omega)
    · rintro ⟨h1, h2, h3⟩
      exact ⟨by omega, h1.get, h3⟩

end Pod

end Plow.Lib
