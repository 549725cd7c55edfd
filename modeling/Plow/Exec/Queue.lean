import Plow.Lib.Ring

/-!
# The packet queue of an executor

A ring of `slots` between one producer and one consumer.  `tail` and `head` count pushes and pops and
wrap; a slot is found by masking them.  Every load and store is a step of its own, in one global
order: a thread in the middle of a call keeps what it loaded.  `pushed` and `popped` are the handles
that were published and taken, `full` and `empty` how many handles the queue held at the load that
made a push or a pop give up.
-/

namespace Plow.Exec

open List

abbrev PacketHandle := UInt64

structure PacketQueue where
  slots : List PacketHandle
  mask : UInt64
  tail : UInt64
  head : UInt64
  deriving DecidableEq, Repr

/-- `usize::next_power_of_two`, which wraps to 0 above the largest power -/
def next_power_of_two (n : UInt64) : ℕ := n.toNat.nextPowerOfTwo % 2 ^ 64

def PacketQueue.with_capacity (capacity : UInt64) : PacketQueue :=
  let cap := max (next_power_of_two capacity) 2
  ⟨List.replicate cap 0, UInt64.ofNat cap - 1, 0, 0⟩

def PacketQueue.capacity (q : PacketQueue) : UInt64 := q.mask + 1

/-- where a `push` is -/
inductive Producer where
  | idle
  | loadedTail (handle tail : UInt64)
  /-- there was room at the load of `head` -/
  | room (handle tail : UInt64)
  | stored (handle tail : UInt64)
  deriving DecidableEq, Repr

/-- where a `pop` is -/
inductive Consumer where
  | idle
  | loadedHead (head : UInt64)
  /-- there was a handle at the load of `tail` -/
  | found (head : UInt64)
  | read (head handle : UInt64)
  deriving DecidableEq, Repr

structure Sys where
  queue : PacketQueue
  producer : Producer
  consumer : Consumer
  pushed : List PacketHandle
  popped : List PacketHandle
  full : List ℕ
  empty : List ℕ
  deriving DecidableEq, Repr

/-- One step of a thread.  `push` and `pop` start a call, which is their first load. -/
inductive Event where
  | push (handle : PacketHandle)
  | produce
  | pop
  | consume
  deriving DecidableEq, Repr

namespace Sys

def new (capacity : UInt64) : Sys := ⟨.with_capacity capacity, .idle, .idle, [], [], [], []⟩

def held (σ : Sys) : ℕ := σ.pushed.length - σ.popped.length

def push (σ : Sys) (handle : PacketHandle) : Sys :=
  match σ.producer with
  | .idle => { σ with producer := .loadedTail handle σ.queue.tail }
  | _ => σ

def produce (σ : Sys) : Sys :=
  let q := σ.queue
  match σ.producer with
  | .idle => σ
  | .loadedTail handle tail =>
    if q.capacity ≤ tail - q.head then { σ with producer := .idle, full := σ.held :: σ.full }
    else { σ with producer := .room handle tail }
  | .room handle tail =>
    { σ with
      queue := { q with slots := q.slots.set (tail &&& q.mask).toNat handle }
      producer := .stored handle tail }
  | .stored handle tail =>
    { σ with queue := { q with tail := tail + 1 }, producer := .idle, pushed := σ.pushed ++ [handle] }

def pop (σ : Sys) : Sys :=
  match σ.consumer with
  | .idle => { σ with consumer := .loadedHead σ.queue.head }
  | _ => σ

def consume (σ : Sys) : Sys :=
  let q := σ.queue
  match σ.consumer with
  | .idle => σ
  | .loadedHead head =>
    if head = q.tail then { σ with consumer := .idle, empty := σ.held :: σ.empty }
    else { σ with consumer := .found head }
  | .found head => { σ with consumer := .read head (q.slots.getD (head &&& q.mask).toNat 0) }
  | .read head handle =>
    { σ with queue := { q with head := head + 1 }, consumer := .idle, popped := σ.popped ++ [handle] }

def step (σ : Sys) : Event → Sys
  | .push handle => σ.push handle
  | .produce => σ.produce
  | .pop => σ.pop
  | .consume => σ.consume

def run (σ : Sys) (evs : List Event) : Sys := evs.foldl step σ

end Sys

/-! ### The capacity -/

theorem cap_pow (capacity : UInt64) : ∃ k, 1 ≤ k ∧ k ≤ 63 ∧ max (next_power_of_two capacity) 2 = 2 ^ k := by
  obtain ⟨k, hk⟩ := Nat.isPowerOfTwo_nextPowerOfTwo capacity.toNat
  rw [next_power_of_two, hk]
  by_cases hlt : k < 64
  · rw [Nat.mod_eq_of_lt (Nat.pow_lt_pow_right (by decide) hlt)]
    by_cases h0 : k = 0
    · exact ⟨1, le_rfl, by decide, by simp [h0]⟩
    · refine ⟨k, by omega, by omega, max_eq_left ?_⟩
      calc 2 = 2 ^ 1 := rfl
        _ ≤ 2 ^ k := Nat.pow_le_pow_right (by decide) (by omega)
  · -- the power wraps to 0
    have hmod : 2 ^ k % 2 ^ 64 = 0 := Nat.mod_eq_zero_of_dvd (Nat.pow_dvd_pow 2 (by omega))
    exact ⟨1, le_rfl, by decide, by rw [hmod]; rfl⟩

/-! ### The invariant -/

namespace Sys

variable {k : ℕ} {σ : Sys}

/-- What the producer may rely on until it publishes: its slot is free. -/
def ProducerOk (k : ℕ) (σ : Sys) : Prop :=
  match σ.producer with
  | .idle => True
  | .loadedTail _ tail => tail = σ.queue.tail
  | .room _ tail => tail = σ.queue.tail ∧ σ.pushed.length < σ.popped.length + 2 ^ k
  | .stored handle tail => tail = σ.queue.tail ∧ σ.pushed.length < σ.popped.length + 2 ^ k ∧
      σ.queue.slots[σ.pushed.length % 2 ^ k]? = some handle

/-- What the consumer may rely on until it takes: its slot is written. -/
def ConsumerOk (σ : Sys) : Prop :=
  match σ.consumer with
  | .idle => True
  | .loadedHead head => head = σ.queue.head
  | .found head => head = σ.queue.head ∧ σ.popped.length < σ.pushed.length
  | .read head handle => head = σ.queue.head ∧ σ.pushed[σ.popped.length]? = some handle

structure Inv (k : ℕ) (σ : Sys) : Prop where
  mask : σ.queue.mask.toNat = 2 ^ k - 1
  slots : σ.queue.slots.length = 2 ^ k
  tail : σ.queue.tail.toNat = σ.pushed.length % 2 ^ 64
  head : σ.queue.head.toNat = σ.popped.length % 2 ^ 64
  le : σ.popped.length ≤ σ.pushed.length
  bound : σ.pushed.length ≤ σ.popped.length + 2 ^ k
  order : σ.popped <+: σ.pushed
  live : ∀ i, σ.popped.length ≤ i → i < σ.pushed.length → σ.queue.slots[i % 2 ^ k]? = σ.pushed[i]?
  producer : ProducerOk k σ
  consumer : ConsumerOk σ
  full : ∀ n ∈ σ.full, n = 2 ^ k
  empty : ∀ n ∈ σ.empty, n = 0

theorem slot_index {c mask : UInt64} {n : ℕ} (hk : k ≤ 63) (hm : mask.toNat = 2 ^ k - 1)
    (hc : c.toNat = n % 2 ^ 64) : (c &&& mask).toNat = n % 2 ^ k := by
  rw [UInt64.toNat_and, hc, hm, Nat.and_two_pow_sub_one_eq_mod]
  exact Nat.mod_mod_of_dvd n (Nat.pow_dvd_pow 2 (by omega))

theorem succ_toNat {c : UInt64} {n : ℕ} (hc : c.toNat = n % 2 ^ 64) : (c + 1).toNat = (n + 1) % 2 ^ 64 := by
  rw [UInt64.toNat_add, hc, UInt64.toNat_one, Nat.mod_add_mod]

theorem sub_toNat {a b : UInt64} {m n : ℕ} (ha : a.toNat = m % 2 ^ 64) (hb : b.toNat = n % 2 ^ 64)
    (hle : n ≤ m) (hlt : m - n < 2 ^ 64) : (a - b).toNat = m - n := by
  rw [UInt64.toNat_sub, ha, hb]
  omega

theorem capacity_toNat (hk : k ≤ 63) (hm : σ.queue.mask.toNat = 2 ^ k - 1) :
    σ.queue.capacity.toNat = 2 ^ k := by
  have hpos : 0 < 2 ^ k := Nat.pow_pos (by decide)
  have hlt : 2 ^ k < 2 ^ 64 := Nat.pow_lt_pow_right (by decide) (by omega)
  rw [PacketQueue.capacity, UInt64.toNat_add, hm, UInt64.toNat_one, Nat.sub_add_cancel hpos,
    Nat.mod_eq_of_lt hlt]

theorem inv_new {capacity : UInt64} (hk : k ≤ 63) (hc : max (next_power_of_two capacity) 2 = 2 ^ k) :
    Inv k (new capacity) where
  mask := by
    have hpos : 0 < 2 ^ k := Nat.pow_pos (by decide)
    have hlt : 2 ^ k < 2 ^ 64 := Nat.pow_lt_pow_right (by decide) (by omega)
    show (UInt64.ofNat (max (next_power_of_two capacity) 2) - 1).toNat = _
    rw [hc, UInt64.toNat_sub, UInt64.toNat_ofNat', UInt64.toNat_one]
    omega
  slots := by
    show (List.replicate (max (next_power_of_two capacity) 2) 0).length = _
    rw [length_replicate, hc]
  tail := rfl
  head := rfl
  le := le_rfl
  bound := Nat.zero_le _
  order := prefix_rfl
  live := fun i _ hi => absurd hi (Nat.not_lt_zero i)
  producer := trivial
  consumer := trivial
  full := nofun
  empty := nofun

theorem Inv.push (I : Inv k σ) (handle : PacketHandle) : Inv k (σ.push handle) := by
  unfold Sys.push
  split
  · exact { I with producer := rfl }
  · exact I

theorem Inv.pop (I : Inv k σ) : Inv k σ.pop := by
  unfold Sys.pop
  split
  · exact { I with consumer := rfl }
  · exact I

theorem Inv.produce (hk : k ≤ 63) (I : Inv k σ) : Inv k σ.produce := by
  have hpow : 2 ^ k ≤ 2 ^ 63 := Nat.pow_le_pow_right (by decide) hk
  have hle := I.le
  have hbound := I.bound
  have hp := I.producer
  unfold Sys.produce
  cases hprod : σ.producer with
  | idle => exact I
  | loadedTail handle tail =>
    simp only [ProducerOk, hprod] at hp
    subst hp
    have hsub := sub_toNat I.tail I.head hle (by omega)
    have hcap := capacity_toNat hk I.mask
    dsimp only
    by_cases hfull : σ.queue.capacity ≤ σ.queue.tail - σ.queue.head
    · rw [if_pos hfull]
      rw [UInt64.le_iff_toNat_le, hsub, hcap] at hfull
      refine { I with producer := trivial, full := ?_ }
      rintro n hn
      rcases mem_cons.mp hn with rfl | hn
      · rw [held]
        omega
      · exact I.full n hn
    · rw [if_neg hfull]
      rw [UInt64.le_iff_toNat_le, hsub, hcap] at hfull
      refine { I with producer := ?_ }
      exact ⟨rfl, by show σ.pushed.length < σ.popped.length + 2 ^ k; omega⟩
  | room handle tail =>
    simp only [ProducerOk, hprod] at hp
    obtain ⟨rfl, hroom⟩ := hp
    dsimp only
    rw [slot_index hk I.mask I.tail]
    have hslot : σ.pushed.length % 2 ^ k < σ.queue.slots.length := by
      rw [I.slots]
      exact Nat.mod_lt _ (Nat.pow_pos (by decide))
    refine { I with slots := ?_, live := ?_, producer := ?_ }
    · exact length_set.trans I.slots
    · -- the other handles of the queue are at other slots
      intro i hlo hhi
      change σ.popped.length ≤ i at hlo
      change i < σ.pushed.length at hhi
      have hne : σ.pushed.length % 2 ^ k ≠ i % 2 ^ k := by
        intro heq
        have := Plow.Lib.ring_row_inj heq (by omega) (by omega)
        omega
      show (σ.queue.slots.set (σ.pushed.length % 2 ^ k) handle)[i % 2 ^ k]? = σ.pushed[i]?
      rw [getElem?_set_ne hne]
      exact I.live i hlo hhi
    · exact ⟨rfl, hroom, getElem?_set_self hslot⟩
  | stored handle tail =>
    simp only [ProducerOk, hprod] at hp
    obtain ⟨rfl, hroom, hslot⟩ := hp
    have hlen : (σ.pushed ++ [handle]).length = σ.pushed.length + 1 := length_append
    have hc := I.consumer
    dsimp only
    refine { I with
      tail := by rw [hlen]; exact succ_toNat I.tail
      le := hle.trans (by rw [hlen]; exact Nat.le_succ _)
      bound := by rw [hlen]; exact hroom
      order := I.order.trans (prefix_append _ _)
      live := ?_, producer := trivial, consumer := ?_ }
    · intro i hlo hhi
      rw [hlen] at hhi
      show σ.queue.slots[i % 2 ^ k]? = (σ.pushed ++ [handle])[i]?
      by_cases hi : i = σ.pushed.length
      · rw [hi, hslot, getElem?_append_right le_rfl, Nat.sub_self]
        rfl
      · have hi' : i < σ.pushed.length := by omega
        rw [getElem?_append_left hi']
        exact I.live i hlo hi'
    · unfold ConsumerOk at hc ⊢
      dsimp only
      cases hcons : σ.consumer with
      | idle => trivial
      | loadedHead head =>
        rw [hcons] at hc
        exact hc
      | found head =>
        rw [hcons] at hc
        exact ⟨hc.1, by rw [hlen]; exact Nat.lt_succ_of_lt hc.2⟩
      | read head x =>
        rw [hcons] at hc
        obtain ⟨hlt, -⟩ := List.getElem?_eq_some_iff.mp hc.2
        exact ⟨hc.1, (getElem?_append_left hlt).trans hc.2⟩

theorem Inv.consume (hk : k ≤ 63) (I : Inv k σ) : Inv k σ.consume := by
  have hpow : 2 ^ k ≤ 2 ^ 63 := Nat.pow_le_pow_right (by decide) hk
  have hle := I.le
  have hbound := I.bound
  have hc := I.consumer
  unfold Sys.consume
  cases hcons : σ.consumer with
  | idle => exact I
  | loadedHead head =>
    simp only [ConsumerOk, hcons] at hc
    subst hc
    -- the counters are less than a wrap apart
    have hsame : σ.queue.head = σ.queue.tail ↔ σ.popped.length = σ.pushed.length := by
      rw [← UInt64.toNat_inj, I.tail, I.head]
      omega
    dsimp only
    by_cases hempty : σ.queue.head = σ.queue.tail
    · rw [if_pos hempty]
      rw [hsame] at hempty
      refine { I with consumer := trivial, empty := ?_ }
      intro n hn
      rcases mem_cons.mp hn with rfl | hn
      · rw [held]
        omega
      · exact I.empty n hn
    · rw [if_neg hempty]
      rw [hsame] at hempty
      exact { I with consumer := ⟨rfl, by show σ.popped.length < σ.pushed.length; omega⟩ }
  | found head =>
    simp only [ConsumerOk, hcons] at hc
    obtain ⟨rfl, hlt⟩ := hc
    dsimp only
    rw [slot_index hk I.mask I.head, getD_eq_getElem?_getD, I.live _ le_rfl hlt]
    refine { I with consumer := ⟨rfl, ?_⟩ }
    show σ.pushed[σ.popped.length]? = some ((σ.pushed[σ.popped.length]?).getD 0)
    rw [getElem?_eq_getElem hlt]
    rfl
  | read head handle =>
    simp only [ConsumerOk, hcons] at hc
    obtain ⟨rfl, hread⟩ := hc
    obtain ⟨hlt, -⟩ := List.getElem?_eq_some_iff.mp hread
    have hlen : (σ.popped ++ [handle]).length = σ.popped.length + 1 := length_append
    have hp := I.producer
    dsimp only
    refine { I with
      head := by rw [hlen]; exact succ_toNat I.head
      le := by rw [hlen]; exact hlt
      bound := hbound.trans (by rw [hlen]; omega)
      order := ?_
      live := ?_
      producer := ?_
      consumer := trivial }
    · show σ.popped ++ [handle] <+: σ.pushed
      have htake : σ.popped ++ [handle] = σ.pushed.take (σ.popped.length + 1) := by
        rw [take_add_one, hread, ← prefix_iff_eq_take.mp I.order]
        rfl
      rw [htake]
      exact take_prefix _ _
    · intro i hlo hhi
      rw [hlen] at hlo
      exact I.live i (by omega) hhi
    · unfold ProducerOk at hp ⊢
      dsimp only
      cases hprod : σ.producer with
      | idle => trivial
      | loadedTail h tail =>
        rw [hprod] at hp
        exact hp
      | room h tail =>
        rw [hprod] at hp
        refine ⟨hp.1, ?_⟩
        rw [hlen]
        have := hp.2
        omega
      | stored h tail =>
        rw [hprod] at hp
        refine ⟨hp.1, ?_, hp.2.2⟩
        rw [hlen]
        have := hp.2.1
        omega

theorem Inv.step (hk : k ≤ 63) (I : Inv k σ) (ev : Event) : Inv k (σ.step ev) := by
  cases ev with
  | push handle => exact I.push handle
  | produce => exact I.produce hk
  | pop => exact I.pop
  | consume => exact I.consume hk

theorem Inv.run (hk : k ≤ 63) (I : Inv k σ) (evs : List Event) : Inv k (σ.run evs) := by
  induction evs generalizing σ with
  | nil => exact I
  | cons ev evs ih => exact ih (I.step hk ev)

/-- A bounded first-in first-out queue of `cap` handles. -/
structure Fifo (cap : ℕ) (σ : Sys) : Prop where
  /-- taken in the order of the pushes, none twice -/
  order : σ.popped <+: σ.pushed
  bound : σ.held ≤ cap
  /-- what is not taken yet is in the slots -/
  kept : ∀ i, σ.popped.length ≤ i → i < σ.pushed.length → σ.queue.slots[i % cap]? = σ.pushed[i]?
  /-- a handle that a `pop` has loaded is the next one, and was published before -/
  read : ∀ head handle, σ.consumer = .read head handle → σ.pushed[σ.popped.length]? = some handle
  full : ∀ n ∈ σ.full, n = cap
  empty : ∀ n ∈ σ.empty, n = 0

/-- The queue is a bounded FIFO in every interleaving of its two threads. -/
theorem bounded_fifo (capacity : UInt64) (evs : List Event) :
    Fifo ((new capacity).run evs).queue.capacity.toNat ((new capacity).run evs) := by
  obtain ⟨k, -, hk, hc⟩ := cap_pow capacity
  have I := (inv_new hk hc).run hk evs
  rw [capacity_toNat hk I.mask]
  have hbound := I.bound
  refine ⟨I.order, ?_, I.live, ?_, I.full, I.empty⟩
  · rw [held]
    omega
  · intro head handle hread
    have hcons := I.consumer
    rw [ConsumerOk, hread] at hcons
    exact hcons.2

end Sys

end Plow.Exec
