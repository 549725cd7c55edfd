import Plow.KvStore.Reclaim

/-!
# When `acquire` gives up

`device_slot` looks for a slot on the free list, in a chunk that the slab grows by and among the
blocks that may be reclaimed.  A failed call leaves the store as it was, apart from the tick, the
count of the chunk allocations and stale entries of the reclaim queues (`Unmoved`).  It should fail
only where none of the three has a slot (`Exhausted`); it does exactly where a block that may be
reclaimed is in its queue and the search gets there (`Searched`): an allocation that the backend
refuses ends the search, unless the growth hold has put the reclaim first (`acquire_exhausts`).
-/

namespace Plow.KvStore

open Lib Inner Function Option

namespace Inner

/-! ## sources of a slot -/

def CanGrow (I : Inner) (c : Nat) (e : DevEnv) : Prop :=
  (I.device c).grows (I.growBudget c e.freeBytes) = true ∧ e.alloc.isOk = true

def Reclaimable (I : Inner) (c : Nat) : Prop := ∃ id b, I.block id = some b ∧ b.cls = c ∧ Idle b

def ReclaimQueued (I : Inner) (c : Nat) : Prop := ∃ id ∈ I.reclaim c, ∃ b, I.block id = some b ∧ Idle b

/-- no source has a slot -/
structure Exhausted (I : Inner) (c : Nat) (e : DevEnv) : Prop where
  free : (I.device c).byFree = []
  grow : ¬ I.CanGrow c e
  reclaim : ¬ I.Reclaimable c

/-- `acquire` asks for a slot: the block is absent, or unheld on the host -/
def NeedsSlot (I : Inner) (c : Nat) (key : BlockKey) : Prop :=
  ∀ id, I.index (c, key) = some id → ∃ b, I.block id = some b ∧ OnHost b ∧ b.holds = 0

/-- Where the free list and the growth give none, the search finds the block that may be reclaimed:
it is queued, and no refused allocation comes before the queue.  A class of empty blocks is not
searched at all. -/
def Searched (I : Inner) (c : Nat) (e : DevEnv) : Prop :=
  (I.device c).byFree = [] →
    (0 < (I.device c).chunkBytes ∨ ¬ I.CanGrow c e ∧ ¬ I.Reclaimable c) ∧
    (¬ I.CanGrow c e → I.Reclaimable c → I.ReclaimQueued c ∧
      (I.growHeld e.now = true ∨ (I.device c).grows (I.growBudget c e.freeBytes) = false))

/-- what a failed call may leave behind -/
structure Unmoved (I J : Inner) : Prop where
  same : J = { I with tick := J.tick, deviceGrows := J.deviceGrows, reclaim := J.reclaim }
  sublist : ∀ c, (J.reclaim c).Sublist (I.reclaim c)
  kept : ∀ c, ∀ p : BlockId → Bool, (∀ id, p id = true → ¬ Stale I id) →
    (J.reclaim c).filter p = (I.reclaim c).filter p

/-- a failed `acquire` has tried every source -/
def AcquireExhausts (I : Inner) (c : Nat) (key : BlockKey) (e : DevEnv) (htod : Except Err Unit) :
    Prop :=
  (I.acquire c key e htod).2.isOk = false → I.Exhausted c e ∧ I.Unmoved (I.acquire c key e htod).1

variable {I J K : Inner} {d : List (Nat × Slot .dev)} {k : List (Nat × Slot .host)} {c : Nat}
  {id : BlockId} {e : DevEnv} {key : BlockKey}

/-! ## a failed call -/

namespace Unmoved

theorem of_tick (h : J = { I with tick := J.tick, deviceGrows := J.deviceGrows }) : Unmoved I J := by
  rw [h]
  exact ⟨rfl, fun _ => .refl _, fun _ _ _ => rfl⟩

theorem block_eq (h : Unmoved I J) : J.block = I.block := by
  rw [h.same]
  rfl

theorem device_eq (h : Unmoved I J) : J.device = I.device := by
  rw [h.same]

theorem trans (h : Unmoved I J) (h' : Unmoved J K) : Unmoved I K where
  same := by
    rw [h'.same, h.same]
  sublist c := (h'.sublist c).trans (h.sublist c)
  kept c p hp := by
    have hstale : ∀ id, p id = true → ¬ Stale J id := by
      intro id hid hs
      refine hp id hid fun b hb => hs b ?_
      rw [h.block_eq]
      exact hb
    rw [h'.kept c p hstale, h.kept c p hp]

end Unmoved

theorem unmoved_scan (hf : (I.reclaimScan (I.reclaim c)).2 = none) :
    Unmoved I (I.setReclaim c (I.reclaimScan (I.reclaim c)).1) := by
  have hq : I.reclaimScan (I.reclaim c) = scan I.reclaimVerdict (I.reclaim c) := reclaimScan_eq _
  refine ⟨rfl, fun c' => ?_, fun c' p hp => ?_⟩
  · show (update I.reclaim c _ c').Sublist _
    by_cases hc : c' = c
    · rw [hc, update_self, hq]
      exact scan_sublist _ _
    · rw [update_of_ne hc]
  · show (update I.reclaim c _ c').filter p = _
    by_cases hc : c' = c
    · rw [hc, update_self, hq]
      refine scan_filter _ _ p (fun id hid hs => hp id hid (stale_of_skip hs)) fun v hv => ?_
      rw [← hq, hf] at hv
      cases hv
    · rw [update_of_ne hc]

/-! ## the search -/

theorem reclaimSlot_spec (h : Own ⟨I, d, k⟩) (hq : QueueClass I) (c : Nat) :
    (I.ReclaimQueued c ∧ ∃ s, (I.reclaimSlot c).2 = .ok (some s)) ∨
      (¬ I.ReclaimQueued c ∧ (I.reclaimSlot c).2 = .ok none ∧ Unmoved I (I.reclaimSlot c).1) := by
  by_cases hr : I.ReclaimQueued c
  · obtain ⟨id, hm, b, hb, hi⟩ := hr
    obtain ⟨J, s, he, -⟩ := reclaimSlot_some h hq hm hb hi
    refine .inl ⟨⟨id, hm, b, hb, hi⟩, s, ?_⟩
    rw [he]
  · have hf : (I.reclaimScan (I.reclaim c)).2 = none := by
      rw [eq_none_iff_forall_ne_some]
      intro v hv
      rw [reclaimScan_eq] at hv
      obtain ⟨hm, hv⟩ := scan_found _ hv
      obtain ⟨b, hb, hi⟩ := verdict_take.mp hv
      exact hr ⟨v, hm, b, hb, hi⟩
    have he : I.reclaimSlot c = (I.setReclaim c (I.reclaimScan (I.reclaim c)).1, .ok none) := by
      unfold reclaimSlot
      simp only [hf]
    rw [he]
    exact .inr ⟨hr, rfl, unmoved_scan hf⟩

theorem take_of_full {t : Tier} {sl : Slab t} {budget : Nat} {grow : Nat → Except Err (Chunk t)}
    (hfree : sl.byFree = []) : sl.take budget grow =
      if sl.grows budget = true then
        match grow (sl.chunkSlots * sl.slotBytes) with
        | .error er => .error er
        | .ok chunk => .ok (some (sl.addChunk chunk))
      else .ok none := by
  unfold Slab.take Slab.grows
  rw [hfree]
  dsimp only [List.head?_nil]
  by_cases hb : budget < sl.chunkSlots * sl.slotBytes
  · simp [hb]
  · exact (if_neg hb).trans (if_pos (by simpa using Nat.not_lt.mp hb)).symm

/-- `device_slot` after the free list: it fails where the slab cannot grow and the queue has nothing
or is not asked. -/
theorem growSlot_spec (h : Own ⟨I, d, k⟩) (hq : QueueClass I) (hfree : (I.device c).byFree = [])
    (hold : Bool) : (I.CanGrow c e ∧ (I.growSlot c hold e).2.isOk = true) ∨
      (¬ I.CanGrow c e ∧ hold = false ∧ (I.device c).grows (I.growBudget c e.freeBytes) = false ∧
        I.ReclaimQueued c ∧ (I.growSlot c hold e).2.isOk = true) ∨
      (¬ I.CanGrow c e ∧ (hold = true ∨ ¬ I.ReclaimQueued c ∨
          (I.device c).grows (I.growBudget c e.freeBytes) = true) ∧
        (I.growSlot c hold e).2.isOk = false ∧ Unmoved I (I.growSlot c hold e).1) := by
  unfold growSlot CanGrow
  dsimp only
  rw [take_of_full hfree]
  cases hg : (I.device c).grows (I.growBudget c e.freeBytes) with
  | true =>
    rw [if_pos rfl, if_pos rfl]
    cases ha : e.alloc with
    | ok va => exact .inl ⟨⟨rfl, rfl⟩, rfl⟩
    | error er =>
      refine .inr (.inr ⟨fun hc => ?_, .inr (.inr rfl), rfl, ?_⟩)
      · cases hc.2
      · exact .of_tick rfl
  | false =>
    rw [if_neg Bool.false_ne_true, if_neg Bool.false_ne_true]
    cases hold with
    | true =>
      exact .inr (.inr ⟨fun hc => Bool.false_ne_true hc.1, .inl rfl, rfl, .of_tick rfl⟩)
    | false =>
      show _ ∨ (_ ∧ _ ∧ _ ∧ _ ∧ (I.takenSlot c false (.ok none)).2.isOk = true) ∨
        (_ ∧ _ ∧ (I.takenSlot c false (.ok none)).2.isOk = false ∧
          Unmoved I (I.takenSlot c false (.ok none)).1)
      unfold takenSlot
      rw [if_neg (by decide)]
      rcases reclaimSlot_spec h hq c with ⟨hr, s, hs⟩ | ⟨hr, hs, hu⟩
      · refine .inr (.inl ⟨fun hc => Bool.false_ne_true hc.1, rfl, rfl, hr, ?_⟩)
        cases hrs : I.reclaimSlot c with
        | mk J r =>
          rw [hrs] at hs
          change r = _ at hs
          rw [hs]
          rfl
      · refine .inr (.inr ⟨fun hc => Bool.false_ne_true hc.1, .inr (.inl hr), ?_⟩)
        cases hrs : I.reclaimSlot c with
        | mk J r =>
          rw [hrs] at hs hu
          change r = _ at hs
          rw [hs]
          exact ⟨rfl, hu⟩

theorem reclaimSlot_deviceGrows : (I.reclaimSlot c).1.deviceGrows = I.deviceGrows := by
  have hdrop : ∀ (J : Inner) (id : BlockId), (J.dropBlock id).deviceGrows = J.deviceGrows := by
    intro J id
    unfold dropBlock
    split
    · rfl
    · dsimp only
      split <;> split <;> rfl
  unfold reclaimSlot
  dsimp only
  split
  · rfl
  · split
    · exact hdrop _ _
    · exact hdrop _ _

theorem canGrow_unmoved (h : Unmoved I J) (ht : J.deviceGrows = I.deviceGrows) :
    (J.CanGrow c e ↔ I.CanGrow c e) ∧
      (J.device c).grows (J.growBudget c e.freeBytes) = (I.device c).grows (I.growBudget c e.freeBytes) := by
  have hb : J.growBudget c e.freeBytes = I.growBudget c e.freeBytes := by
    rw [h.same, ht]
    rfl
  have hd : J.device = I.device := by
    rw [h.same]
  unfold CanGrow
  rw [hb, hd]
  exact ⟨Iff.rfl, rfl⟩

/-- When `device_slot` fails, and what it leaves. -/
theorem deviceSlot_fails (h : Own ⟨I, d, k⟩) (hq : QueueClass I) (c : Nat) (e : DevEnv) :
    ((I.deviceSlot c e).2.isOk = false ↔ (I.device c).byFree = [] ∧
      ((I.device c).chunkBytes = 0 ∨ ¬ I.CanGrow c e ∧ ¬ (I.ReclaimQueued c ∧
        (I.growHeld e.now = true ∨ (I.device c).grows (I.growBudget c e.freeBytes) = false)))) ∧
      ((I.deviceSlot c e).2.isOk = false → Unmoved I (I.deviceSlot c e).1) := by
  by_cases hfree : (I.device c).byFree = []
  swap
  · obtain ⟨s, sl, ht⟩ := takeNoGrow_some (h.devOk c) hfree
    have he : I.deviceSlot c e = (I.setDevice c sl, .ok s) := by
      unfold deviceSlot
      rw [ht]
    rw [he]
    refine ⟨⟨nofun, fun hc => absurd hc.1 hfree⟩, nofun⟩
  by_cases hz : (I.device c).chunkBytes = 0
  · -- the search of the free list tries to grow
    have ht : takeNoGrow (I.device c) = .error .oom := by
      unfold takeNoGrow
      rw [take_of_full hfree, if_pos]
      unfold Slab.grows
      rw [hfree]
      simpa [Slab.chunkBytes] using hz
    have he : I.deviceSlot c e = (I, .error .oom) := by
      unfold deviceSlot
      rw [ht]
    rw [he]
    exact ⟨⟨fun _ => ⟨hfree, .inl hz⟩, fun _ => rfl⟩, fun _ => .of_tick rfl⟩
  have ht : takeNoGrow (I.device c) = .ok none := by
    unfold takeNoGrow
    rw [take_of_full hfree, if_neg]
    unfold Slab.grows
    rw [hfree]
    simpa [Slab.chunkBytes] using hz
  unfold deviceSlot
  rw [ht]
  cases hheld : I.growHeld e.now with
  | false =>
    rw [if_neg Bool.false_ne_true]
    rcases growSlot_spec h hq hfree false with
      ⟨hg, hok⟩ | ⟨hg, -, hno, hr, hok⟩ | ⟨hg, hor, hok, hu⟩
    · rw [hok]
      refine ⟨⟨nofun, fun hc => ?_⟩, nofun⟩
      exact absurd hg (hc.2.resolve_left hz).1
    · rw [hok]
      refine ⟨⟨nofun, fun hc => ?_⟩, nofun⟩
      exact absurd ⟨hr, .inr hno⟩ (hc.2.resolve_left hz).2
    · rw [hok]
      refine ⟨⟨fun _ => ⟨hfree, .inr ⟨hg, ?_⟩⟩, fun _ => rfl⟩, fun _ => hu⟩
      rintro ⟨hr, hc | hc⟩
      · cases hc
      · rcases hor with hor | hor | hor
        · cases hor
        · exact hor hr
        · rw [hc] at hor
          cases hor
  | true =>
    rw [if_pos rfl]
    rcases reclaimSlot_spec h hq c with ⟨hr, s, hs⟩ | ⟨hr, hs, hu⟩
    · cases hrs : I.reclaimSlot c with
      | mk J r =>
        rw [hrs] at hs
        change r = _ at hs
        rw [hs]
        refine ⟨⟨nofun, fun hc => ?_⟩, nofun⟩
        exact absurd ⟨hr, .inl rfl⟩ (hc.2.resolve_left hz).2
    · have hE := (reclaimSlot_edits (F := anyFacts) (c := c) h (fun _ _ => trivial)).1
      have hgrows := reclaimSlot_deviceGrows (I := I) (c := c)
      cases hrs : I.reclaimSlot c with
      | mk J r =>
        rw [hrs] at hs hu hE hgrows
        change r = _ at hs
        subst hs
        have hJ : Own ⟨J, d, k⟩ := h.edits hE
        have hfreeJ : (J.device c).byFree = [] := by
          have hdev : J.device = I.device := hu.device_eq
          rw [hdev]
          exact hfree
        obtain ⟨hcan, hgr⟩ := @canGrow_unmoved I J c e hu hgrows
        dsimp only
        rcases growSlot_spec hJ (hq.edits h hE) hfreeJ true with
          ⟨hg, hok⟩ | ⟨-, hno, -⟩ | ⟨hg, hor, hok, hu'⟩
        · rw [hok]
          refine ⟨⟨nofun, fun hc => ?_⟩, nofun⟩
          exact absurd (hcan.mp hg) (hc.2.resolve_left hz).1
        · cases hno
        · rw [hok]
          exact ⟨⟨fun _ => ⟨hfree, .inr ⟨fun hc => hg (hcan.mpr hc), fun hc => hr hc.1⟩⟩,
            fun _ => rfl⟩, fun _ => hu.trans hu'⟩

/-! ## the call -/

theorem acquirePresent_ok {b : Block} (hb : I.block id = some b) (va : Nat) (refill : Bool) :
    (I.acquirePresent id va refill).2.isOk = true := by
  unfold acquirePresent
  rw [hb]
  dsimp only
  split
  · rfl
  · split <;> rfl

theorem acquireNew_fails (c : Nat) (key : BlockKey) (e : DevEnv) :
    (I.acquireNew c key e).2.isOk = (I.deviceSlot c e).2.isOk ∧
      ((I.deviceSlot c e).2.isOk = false → (I.acquireNew c key e).1 = (I.deviceSlot c e).1) := by
  unfold acquireNew
  cases hr : I.deviceSlot c e with
  | mk J r =>
    cases r with
    | error er => exact ⟨rfl, fun _ => rfl⟩
    | ok s => exact ⟨rfl, nofun⟩

theorem acquireRefill_fails (h : Own ⟨I, d, k⟩) {b : Block} {x : Slot .host}
    (hb : I.block id = some b) (hp : b.place = .host x) (e : DevEnv) :
    (I.acquireRefill c id x e).2.isOk = (I.deviceSlot c e).2.isOk ∧
      ((I.deviceSlot c e).2.isOk = false → (I.acquireRefill c id x e).1 = (I.deviceSlot c e).1) := by
  have hS := (deviceSlot_edits (F := anyFacts) (c := c) h e (fun _ _ => trivial)).2
  unfold acquireRefill
  cases hr : I.deviceSlot c e with
  | mk J r =>
    rw [hr] at hS
    cases r with
    | error er => exact ⟨rfl, fun _ => rfl⟩
    | ok s =>
      refine ⟨?_, nofun⟩
      have hbJ : J.block id = some b := hS.block id b hb ⟨x, hp⟩
      dsimp only
      obtain ⟨K, hK⟩ : ∃ K, K = (J.setDevice c ((J.device c).assign s id)).setRefilling id (some x) :=
        ⟨_, rfl⟩
      have hbK : K.block id = some b := by
        rw [hK]
        exact hbJ
      rw [← hK, hbK]
      dsimp only
      have hbs : (K.setBlock id { b with place := .device s, state := .filling }).block id =
          some { b with place := .device s, state := .filling } := by
        rw [block_setBlock hbK, update_self]
      exact acquirePresent_ok hbs _ _

/-- When `acquire` fails, and what it leaves. -/
theorem acquire_fails (h : Own ⟨I, d, k⟩) (hq : QueueClass I) (hc : c < I.nClasses)
    (key : BlockKey) (e : DevEnv) (htod : Except Err Unit) :
    ((I.acquire c key e htod).2.isOk = false ↔ I.NeedsSlot c key ∧ (I.device c).byFree = [] ∧
      ((I.device c).chunkBytes = 0 ∨ ¬ I.CanGrow c e ∧ ¬ (I.ReclaimQueued c ∧
        (I.growHeld e.now = true ∨ (I.device c).grows (I.growBudget c e.freeBytes) = false)))) ∧
      ((I.acquire c key e htod).2.isOk = false → Unmoved I (I.acquire c key e htod).1) := by
  have hO : Own ⟨I.nextTick, d, k⟩ := h.same rfl rfl rfl rfl rfl rfl rfl rfl
  have hQ : QueueClass I.nextTick := ⟨hq.device, hq.host⟩
  obtain ⟨hiff, hu⟩ := deviceSlot_fails hO hQ c e
  have hu : (I.nextTick.deviceSlot c e).2.isOk = false → Unmoved I (I.nextTick.deviceSlot c e).1 :=
    fun hf => Unmoved.trans (.of_tick rfl) (hu hf)
  -- the answer is that of the search
  have hsearch : ∀ r : Inner × Except Err (BlockId × Nat × Bool), I.NeedsSlot c key →
      r.2.isOk = (I.nextTick.deviceSlot c e).2.isOk →
      ((I.nextTick.deviceSlot c e).2.isOk = false → r.1 = (I.nextTick.deviceSlot c e).1) →
      (r.2.isOk = false ↔ I.NeedsSlot c key ∧ (I.device c).byFree = [] ∧
        ((I.device c).chunkBytes = 0 ∨ ¬ I.CanGrow c e ∧ ¬ (I.ReclaimQueued c ∧
          (I.growHeld e.now = true ∨ (I.device c).grows (I.growBudget c e.freeBytes) = false)))) ∧
        (r.2.isOk = false → Unmoved I r.1) := by
    intro r hn hr he
    rw [hr, hiff]
    refine ⟨⟨fun hf => ⟨hn, hf⟩, And.right⟩, fun hf => ?_⟩
    have hf := hiff.mpr hf
    rw [he hf]
    exact hu hf
  -- no slot is asked for
  have hpresent : ∀ r : Inner × Except Err (BlockId × Nat × Bool), ¬ I.NeedsSlot c key →
      r.2.isOk = true → (r.2.isOk = false ↔ I.NeedsSlot c key ∧ (I.device c).byFree = [] ∧
        ((I.device c).chunkBytes = 0 ∨ ¬ I.CanGrow c e ∧ ¬ (I.ReclaimQueued c ∧
          (I.growHeld e.now = true ∨ (I.device c).grows (I.growBudget c e.freeBytes) = false)))) ∧
        (r.2.isOk = false → Unmoved I r.1) := by
    intro r hn hr
    rw [hr]
    exact ⟨⟨nofun, fun hf => absurd hf.1 hn⟩, nofun⟩
  unfold acquire
  dsimp only
  rw [if_neg (show ¬ I.nextTick.nClasses ≤ c from Nat.not_le.mpr hc)]
  cases hi : I.nextTick.index (c, key) with
  | none =>
    obtain ⟨h1, h2⟩ := acquireNew_fails (I := I.nextTick) c key e
    refine hsearch _ (fun id hid => ?_) h1 h2
    change I.index (c, key) = none at hi
    rw [hi] at hid
    cases hid
  | some id =>
    change I.index (c, key) = some id at hi
    have hkey : (I.block id).map (fun b => (b.cls, b.key)) = some (c, key) := (h.index (c, key) id).mp hi
    obtain ⟨b, hb, -⟩ := map_eq_some_iff.mp hkey
    have hbt : I.nextTick.block id = some b := hb
    have hneed : I.NeedsSlot c key ↔ OnHost b ∧ b.holds = 0 := by
      constructor
      · intro hn
        obtain ⟨b', hb', hho⟩ := hn id hi
        rw [hb] at hb'
        cases hb'
        exact hho
      · intro hho j hj
        rw [hi] at hj
        cases hj
        exact ⟨b, hb, hho⟩
    dsimp only
    rw [hbt]
    obtain ⟨cls, key', state, place, dependents, holds, tick⟩ := b
    cases place with
    | host x =>
      cases holds with
      | zero =>
        obtain ⟨h1, h2⟩ := acquireRefill_fails (c := c) hO hbt rfl e
        exact hsearch _ (hneed.mpr ⟨⟨x, rfl⟩, rfl⟩) h1 h2
      | succ n =>
        exact hpresent _ (fun hn => Nat.succ_ne_zero n (hneed.mp hn).2) (acquirePresent_ok hbt _ _)
    | device s =>
      refine hpresent _ (fun hn => ?_) ?_
      · obtain ⟨x, hx⟩ := (hneed.mp hn).1
        cases hx
      · unfold ensureDeviceLocked
        rw [hbt]
        exact acquirePresent_ok hbt _ _
    | spilling s x f =>
      refine hpresent _ (fun hn => ?_) ?_
      · obtain ⟨y, hy⟩ := (hneed.mp hn).1
        cases hy
      · unfold ensureDeviceLocked
        rw [hbt]
        exact acquirePresent_ok hbt _ _
    | restoring s x f =>
      refine hpresent _ (fun hn => ?_) ?_
      · obtain ⟨y, hy⟩ := (hneed.mp hn).1
        cases hy
      · unfold ensureDeviceLocked
        rw [hbt]
        exact acquirePresent_ok hbt _ _

end Inner

/-! ## in every state -/

theorem queueClass_exec {specs : List ClassSpec} {chunkBytes deviceCap hostCap : Nat} {ops : List Op}
    {s : Sys} (h : Sys.Runs specs chunkBytes deviceCap hostCap ops s) : SysOk s ∧ QueueClass s.inner :=
  exec_inv (P := fun s => SysOk s ∧ QueueClass s.inner)
    (fun s o _ hs hst => ⟨hs.1.step hst, hs.2.edits hs.1.own (hs.1.step_edits (Op.meets_any s o) hst)⟩)
    ⟨SysOk.new specs chunkBytes deviceCap hostCap, new_queueClass _ _ _ _⟩ h

/-- In every state of every run a failed `acquire` leaves the store as it was; it has tried every
source exactly if, where it needs a slot, the search finds what may be reclaimed. -/
theorem acquire_exhausts (specs : List ClassSpec) (chunkBytes deviceCap hostCap : Nat)
    (ops : List Op) (s : Sys) (h : Sys.Runs specs chunkBytes deviceCap hostCap ops s) (c : Nat)
    (hc : c < s.inner.nClasses) (key : BlockKey) (e : DevEnv) (htod : Except Err Unit) :
    ((s.inner.acquire c key e htod).2.isOk = false →
        s.inner.Unmoved (s.inner.acquire c key e htod).1) ∧
      (s.inner.AcquireExhausts c key e htod ↔ (s.inner.NeedsSlot c key → s.inner.Searched c e)) := by
  obtain ⟨hO, hq⟩ := queueClass_exec h
  obtain ⟨hiff, hu⟩ := acquire_fails hO.own hq hc key e htod
  refine ⟨hu, fun hx hn hfree => ⟨?_, fun hg hr => ?_⟩, fun hs hf => ?_⟩
  · rcases Nat.eq_zero_or_pos (s.inner.device c).chunkBytes with hz | hz
    · have := (hx (hiff.mpr ⟨hn, hfree, .inl hz⟩)).1
      exact .inr ⟨this.grow, this.reclaim⟩
    · exact .inl hz
  · by_contra hno
    exact (hx (hiff.mpr ⟨hn, hfree, .inr ⟨hg, hno⟩⟩)).1.reclaim hr
  · obtain ⟨hn, hfree, hcase⟩ := hiff.mp hf
    obtain ⟨hzero, hqueue⟩ := hs hn hfree
    rcases hcase with hz | ⟨hg, hno⟩
    · obtain ⟨hg, hr⟩ := hzero.resolve_left (by omega)
      exact ⟨⟨hfree, hg, hr⟩, hu hf⟩
    · exact ⟨⟨hfree, hg, fun hr => hno (hqueue hg hr)⟩, hu hf⟩

def fullRun : List Op :=
  [.acquire 0 ⟨1, 2, 3⟩ ⟨0, none, .ok 1024⟩ (.ok ()), .acquire 0 ⟨1, 2, 4⟩ ⟨0, none, .ok 2048⟩ (.ok ()),
    .sealIds [⟨0, 0⟩, ⟨1, 0⟩], .release [⟨0, 0⟩, ⟨1, 0⟩]]

/-- With no room to grow a third block takes the slot of the first. -/
theorem acquire_exhausts_full : ∃ s, Sys.Runs [⟨1, 4⟩] 8 8 0 fullRun s ∧
    s.inner.AcquireExhausts 0 ⟨1, 2, 5⟩ ⟨0, none, .ok 4096⟩ (.ok ()) := by
  obtain ⟨s, hs⟩ := isSome_iff_exists.mp
    (show (exec Sys.step (Sys.new [⟨1, 4⟩] 8 8 0) fullRun).isSome from rfl)
  have hv : (exec Sys.step (Sys.new [⟨1, 4⟩] 8 8 0) fullRun).map (fun s => (s.inner.nClasses,
      s.inner.block ⟨0, 0⟩, s.inner.reclaim 0, (s.inner.device 0).chunkBytes,
      (s.inner.device 0).grows (s.inner.growBudget 0 none))) =
      some (1, some ⟨0, ⟨1, 2, 3⟩, .ready, .device ⟨0⟩, 0, 0, 1⟩, [⟨0, 0⟩, ⟨1, 0⟩], 8, false) := rfl
  rw [hs] at hv
  simp only [map_some, Option.some.injEq, Prod.mk.injEq] at hv
  obtain ⟨hn, hb, hq, hbytes, hg⟩ := hv
  refine ⟨s, hs, (acquire_exhausts _ _ _ _ _ s hs 0 (by omega) _ _ _).2.mpr fun _ _ => ⟨?_, fun _ _ => ?_⟩⟩
  · omega
  · refine ⟨⟨⟨0, 0⟩, ?_, _, hb, rfl, rfl, nofun, _, rfl⟩, .inr hg⟩
    rw [hq]
    exact List.mem_cons_self

/-- With room to grow and no chunk from the backend it fails, the two blocks idle. -/
theorem acquire_refuses : ¬ ∀ specs chunkBytes deviceCap hostCap ops s,
    Sys.Runs specs chunkBytes deviceCap hostCap ops s → ∀ c < s.inner.nClasses, ∀ key e htod,
      s.inner.AcquireExhausts c key e htod := by
  intro h
  obtain ⟨s, hs⟩ := isSome_iff_exists.mp
    (show (exec Sys.step (Sys.new [⟨1, 4⟩] 8 16 0) fullRun).isSome from rfl)
  have hv : (exec Sys.step (Sys.new [⟨1, 4⟩] 8 16 0) fullRun).map (fun s => (s.inner.nClasses,
      s.inner.block ⟨0, 0⟩,
      (s.inner.acquire 0 ⟨1, 2, 5⟩ ⟨0, none, .error .oom⟩ (.ok ())).2.isOk)) =
      some (1, some ⟨0, ⟨1, 2, 3⟩, .ready, .device ⟨0⟩, 0, 0, 1⟩, false) := rfl
  rw [hs] at hv
  simp only [map_some, Option.some.injEq, Prod.mk.injEq] at hv
  obtain ⟨hn, hb, hf⟩ := hv
  have hx := (h _ _ _ _ _ s hs 0 (by omega) ⟨1, 2, 5⟩ ⟨0, none, .error .oom⟩ (.ok ()) hf).1
  exact hx.reclaim ⟨⟨0, 0⟩, _, hb, rfl, rfl, rfl, nofun, _, rfl⟩

end Plow.KvStore
