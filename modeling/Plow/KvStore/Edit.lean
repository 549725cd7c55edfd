import Plow.KvStore.Model

/-!
# What the store does to its state, in single edits

Every operation of the store is a run of edits: a slot taken off a slab, a slot put back, a block
made, moved, held, sealed, dropped.  `Edit F H H'` lists them, each with the conditions under
which the store performs it; the `Facts` say what the operation and the backend's answers allow.
Between two edits slots may be in hand (`Hands`): taken off a slab, with no block yet.

What an invariant needs is proved for one edit; `Ops` shows that the operations are runs of edits.
`Keeps` is the frame condition that all edits share: an id once issued keeps its class and key while
it lives and never comes back once it is gone.
-/

namespace Plow.KvStore

open Function

namespace Inner

/-! ## the block table -/

section
variable {T : Nat → Entry} {id : BlockId} {b : Block}

theorem gen_of_lookup (h : lookup T id = some b) : (T id.index).gen = id.gen := by
  unfold lookup at h
  split at h
  · next e => exact e
  · cases h

theorem entry_of_lookup (h : lookup T id = some b) : (T id.index).block = some b := by
  unfold lookup at h
  rwa [if_pos (gen_of_lookup h)] at h

theorem lookup_index_ne {j : BlockId} (hg : (T id.index).gen = id.gen) (hj : j ≠ id)
    (hi : j.index = id.index) : lookup T j = none := by
  unfold lookup
  rw [hi, hg, if_neg (fun hc => hj (by cases j; cases id; simp_all))]

theorem lookup_update (hg : (T id.index).gen = id.gen) (e : Entry)
    (he : e.gen = id.gen ∨ e.block = none) :
    lookup (update T id.index e) = update (lookup T) id e.block := by
  funext j
  by_cases hj : j = id
  · rw [hj, update_self]
    unfold lookup
    rw [update_self]
    rcases he with h | h
    · rw [if_pos h]
    · rw [h, ite_self]
  · rw [update_of_ne hj]
    by_cases hi : j.index = id.index
    · rw [lookup_index_ne hg hj hi]
      unfold lookup
      rw [hi, update_self]
      rcases he with h | h
      · rw [h, if_neg (fun hc => hj (by cases j; cases id; simp_all))]
      · rw [h, ite_self]
    · unfold lookup
      rw [update_of_ne hi]

end

section
variable {I : Inner} {id : BlockId} {b : Block}

theorem block_setBlock (h : I.block id = some b) (b' : Block) :
    (I.setBlock id b').block = update I.block id (some b') :=
  lookup_update (gen_of_lookup h) ⟨id.gen, some b'⟩ (Or.inl rfl)

theorem block_clearEntry (h : I.block id = some b) :
    (I.clearEntry id).block = update I.block id none :=
  lookup_update (gen_of_lookup h) ⟨_, none⟩ (Or.inr rfl)

end

/-- the entry numbers: the free ones are empty, and none is used twice -/
structure Entries (I : Inner) : Prop where
  nodup : I.freeEntries.Nodup
  free : ∀ i ∈ I.freeEntries, i < I.nBlocks ∧ (I.blocks i).block = none
  past : ∀ i, I.nBlocks ≤ i → (I.blocks i).block = none

def Issued (I : Inner) (id : BlockId) : Prop :=
  id.index < I.nBlocks ∧ (id.gen < (I.blocks id.index).gen ∨
    (id.gen = (I.blocks id.index).gen ∧ id.index ∉ I.freeEntries))

theorem Entries.issued {I : Inner} (h : I.Entries) {id : BlockId} {b : Block}
    (hb : I.block id = some b) : I.Issued id := by
  have he := entry_of_lookup hb
  refine ⟨?_, Or.inr ⟨(gen_of_lookup hb).symm, fun hm => ?_⟩⟩
  · by_contra hc
    rw [h.past _ (Nat.le_of_not_lt hc)] at he
    cases he
  · rw [(h.free _ hm).2] at he
    cases he

def freshId (I : Inner) : BlockId := ⟨I.entryIx, (I.blocks I.entryIx).gen⟩

theorem Entries.not_issued {I : Inner} (h : I.Entries) : ¬ I.Issued I.freshId := by
  rintro ⟨hlt, hg | ⟨_, hn⟩⟩
  · exact absurd hg (lt_irrefl _)
  · revert hlt hn
    unfold freshId entryIx
    cases hf : I.freeEntries with
    | nil => intro hlt _; exact absurd hlt (lt_irrefl _)
    | cons i rest => intro _ hn; exact hn List.mem_cons_self

theorem Entries.block_freshId {I : Inner} (h : I.Entries) : I.block I.freshId = none := by
  by_contra hc
  obtain ⟨b, hb⟩ := Option.ne_none_iff_exists'.mp hc
  exact h.not_issued (h.issued hb)

theorem block_addBlock (I : Inner) (c : Nat) (key : BlockKey) (s : Slot .dev) :
    (I.addBlock c key s).2.block =
      update I.block I.freshId (some ⟨c, key, .filling, .device s, 1, 0, I.tick⟩) :=
  @lookup_update I.blocks I.freshId rfl ⟨I.freshId.gen, _⟩ (Or.inl rfl)

def toHost (I : Inner) (id : BlockId) (b : Block) (x : Slot .host) : Inner :=
  let I := I.setBlock id { b with place := .host x, state := .ready }
  if b.dependents = 0 then I.pushHostReclaim b.cls id else I

/-- an entry of the queue that `reclaim_slot` skips for good -/
def Stale (I : Inner) (id : BlockId) : Prop :=
  ∀ b, I.block id = some b → 0 < b.dependents ∨ ∃ s, b.place = .host s

def StaleHost (I : Inner) (id : BlockId) : Prop :=
  ∀ b, I.block id = some b → 0 < b.dependents ∨ ∀ s, b.place ≠ .host s

/-- the parts of the state that slots, blocks and queues depend on -/
structure Same (I J : Inner) : Prop where
  nClasses : J.nClasses = I.nClasses
  spec : J.spec = I.spec
  device : J.device = I.device
  host : J.host = I.host
  nBlocks : J.nBlocks = I.nBlocks
  blocks : J.blocks = I.blocks
  freeEntries : J.freeEntries = I.freeEntries
  index : J.index = I.index
  reclaim : J.reclaim = I.reclaim
  hostReclaim : J.hostReclaim = I.hostReclaim
  refilling : J.refilling = I.refilling
  leaked : J.leaked = I.leaked
  trace : J.trace = I.trace

end Inner

/-! ## edits -/

/-- the store with the slots in hand: taken off a slab, with no block yet -/
structure Hands where
  inner : Inner
  dev : List (Nat × Slot .dev)
  host : List (Nat × Slot .host)

/-- what an operation may do -/
structure Facts where
  /-- the backend reported the fence done -/
  done : Nat → Prop
  /-- a host block with these counts may be copied back at once -/
  ensure : Block → Prop
  /-- the restore of the block may land -/
  restored : Inner → BlockId → Prop
  /-- the fill of the block may end well -/
  fill : Inner → BlockId → Prop
  /-- the fill of the block may fail -/
  unfill : Inner → BlockId → Prop
  /-- a copy may be queued behind this fence -/
  start : Nat → Prop
  /-- the slot in hand belongs to a plan made before -/
  planned : Nat × Slot .dev → Prop
  /-- holds may drop -/
  unpin : Prop
  /-- a dependent of the block may leave -/
  idle : Inner → BlockId → Prop
  /-- `device_slot` may drop this block of this class for its slot -/
  reclaim : Nat → BlockId → Prop

open Inner in
inductive Edit (F : Facts) : Hands → Hands → Prop where
  | frame {I J : Inner} {d k} (h : Same I J) : Edit F ⟨I, d, k⟩ ⟨J, d, k⟩
  | perm {I : Inner} {d d' k k'} (hd : d.Perm d') (hk : k.Perm k') :
      Edit F ⟨I, d, k⟩ ⟨I, d', k'⟩
  | takeDev {I : Inner} {d k c s sl} (h : Slab.Took (I.device c) s sl) :
      Edit F ⟨I, d, k⟩ ⟨I.setDevice c sl, (c, s) :: d, k⟩
  | takeHost {I : Inner} {d k c s sl} (h : Slab.Took (I.host c) s sl) :
      Edit F ⟨I, d, k⟩ ⟨I.setHost c sl, d, (c, s) :: k⟩
  | putDev {I : Inner} {d k c s} (hn : ¬ F.planned (c, s)) :
      Edit F ⟨I, (c, s) :: d, k⟩ ⟨I.putDevice c s, d, k⟩
  | putHost {I : Inner} {d k c s} : Edit F ⟨I, d, (c, s) :: k⟩ ⟨I.putHost c s, d, k⟩
  /-- chunks whose slots are all free are released -/
  | retire {I : Inner} {d k c sl} (h : Slab.Released (I.device c) sl) :
      Edit F ⟨I, d, k⟩ ⟨I.setDevice c sl, d, k⟩
  /-- only stale entries leave the queue -/
  | trim {I : Inner} {d k c q} (hs : q.Sublist (I.reclaim c))
      (hq : ∀ p : BlockId → Bool, (∀ id, p id = true → ¬ Stale I id) →
        q.filter p = (I.reclaim c).filter p) :
      Edit F ⟨I, d, k⟩ ⟨I.setReclaim c q, d, k⟩
  | trimHost {I : Inner} {d k c q} (hs : q.Sublist (I.hostReclaim c))
      (hq : ∀ p : BlockId → Bool, (∀ id, p id = true → ¬ StaleHost I id) →
        q.filter p = (I.hostReclaim c).filter p) :
      Edit F ⟨I, d, k⟩ ⟨I.setHostReclaim c q, d, k⟩
  | logReclaim {I : Inner} {d k c id} (hF : F.reclaim c id) : Edit F ⟨I, d, k⟩ ⟨I.log (.reclaim c id), d, k⟩
  /-- a copy into a slot in hand that fails -/
  | logHtod {I : Inner} {d k c h s} (hn : ¬ F.planned (c, s)) :
      Edit F ⟨I, (c, s) :: d, k⟩ ⟨I.log (.htod c h s false), (c, s) :: d, k⟩
  | tick {I : Inner} {d k id b} (n : Nat) (h : I.block id = some b) :
      Edit F ⟨I, d, k⟩ ⟨I.setBlock id { b with tick := n }, d, k⟩
  | depend {I : Inner} {d k id b} (n : Nat) (h : I.block id = some b) :
      Edit F ⟨I, d, k⟩
        ⟨I.setBlock id { b with dependents := b.dependents + 1, tick := n }, d, k⟩
  /-- a failed block is filled again -/
  | again {I : Inner} {d k id b} (n : Nat) (h : I.block id = some b) (hs : b.state = .failed) :
      Edit F ⟨I, d, k⟩ ⟨I.setBlock id
        { b with dependents := b.dependents + 1, tick := n, state := .filling }, d, k⟩
  | hold {I : Inner} {d k id b} (n : Nat) (h : I.block id = some b) :
      Edit F ⟨I, d, k⟩ ⟨I.setBlock id { b with holds := b.holds + 1, tick := n }, d, k⟩
  | unhold {I : Inner} {d k id b} (h : I.block id = some b) (hF : F.unpin) :
      Edit F ⟨I, d, k⟩ ⟨I.setBlock id { b with holds := b.holds - 1 }, d, k⟩
  | leave {I : Inner} {d k id b} (h : I.block id = some b) (hd : 1 < b.dependents)
      (hF : F.idle I id) :
      Edit F ⟨I, d, k⟩ ⟨I.setBlock id { b with dependents := b.dependents - 1 }, d, k⟩
  /-- nothing depends on the block any more: it is queued -/
  | idleDev {I : Inner} {d k id b} (h : I.block id = some b) (hd : b.dependents ≤ 1)
      (hp : ∀ s, b.place ≠ .host s) (hF : F.idle I id) :
      Edit F ⟨I, d, k⟩ ⟨((if b.dependents = 1 then I.log (.idle id) else I).setBlock id
        { b with dependents := 0 }).pushReclaim b.cls id, d, k⟩
  | idleHost {I : Inner} {d k id b s} (h : I.block id = some b) (hd : b.dependents ≤ 1)
      (hp : b.place = .host s) (hF : F.idle I id) :
      Edit F ⟨I, d, k⟩ ⟨((if b.dependents = 1 then I.log (.idle id) else I).setBlock id
        { b with dependents := 0 }).pushHostReclaim b.cls id, d, k⟩
  | sealed {I : Inner} {d k id b} (h : I.block id = some b) (hs : b.state = .filling)
      (hr : I.refilling id = none) (hF : F.fill I id) :
      Edit F ⟨I, d, k⟩
        ⟨(I.log (.seal b.cls b.key b.place)).setBlock id { b with state := .ready }, d, k⟩
  /-- a refill is sealed: the host slot it kept is freed -/
  | sealedRefill {I : Inner} {d k id b x} (h : I.block id = some b) (hs : b.state = .filling)
      (hr : I.refilling id = some x) (hF : F.fill I id) :
      Edit F ⟨I, d, k⟩ ⟨(((I.log (.seal b.cls b.key b.place)).setBlock id
        { b with state := .ready }).setRefilling id none).putHost b.cls x, d, k⟩
  | fail {I : Inner} {d k id b} (h : I.block id = some b) (hr : I.refilling id = none)
      (hF : F.unfill I id) :
      Edit F ⟨I, d, k⟩ ⟨I.setBlock id { b with state := .failed }, d, k⟩
  /-- a failed refill is back on the host -/
  | back {I : Inner} {d k id b s x} (h : I.block id = some b) (hr : I.refilling id = some x)
      (hp : b.place = .device s) (hF : F.unfill I id) :
      Edit F ⟨I, d, k⟩ ⟨((I.setRefilling id none).toHost id b x).putDevice b.cls s, d, k⟩
  /-- the same, its device slot lost -/
  | backLeak {I : Inner} {d k id b s x} (h : I.block id = some b) (hr : I.refilling id = some x)
      (hp : b.place = .device s) (hF : F.unfill I id) :
      Edit F ⟨I, d, k⟩ ⟨((I.leakDevice b.cls s).setRefilling id none).toHost id b x, d, k⟩
  /-- a block under a fill is forgotten, its device slot lost -/
  | forget {I : Inner} {d k id b s} (h : I.block id = some b) (hr : I.refilling id = none)
      (hp : b.place = .device s) (hF : F.unfill I id) :
      Edit F ⟨I, d, k⟩
        ⟨((I.leakDevice b.cls s).clearEntry id).clearIndex b.cls b.key, d, k⟩
  | dropDev {I : Inner} {d k id b s} (h : I.block id = some b) (hp : b.place = .device s)
      (hd : b.dependents = 0) (hh : b.holds = 0) (hs : b.state ≠ .filling) :
      Edit F ⟨I, d, k⟩ ⟨I.dropBlock id, d, k⟩
  | dropHost {I : Inner} {d k id b s} (h : I.block id = some b) (hp : b.place = .host s)
      (hd : b.dependents = 0) (hh : b.holds = 0) :
      Edit F ⟨I, d, k⟩ ⟨I.dropBlock id, d, k⟩
  | fresh {I : Inner} {d k c key s} (h : I.index (c, key) = none) (hn : ¬ F.planned (c, s)) :
      Edit F ⟨I, (c, s) :: d, k⟩ ⟨(I.addBlock c key s).2, d, k⟩
  /-- a host block is filled again on the device, its host slot kept meanwhile -/
  | refill {I : Inner} {d k id b s x} (n : Nat) (h : I.block id = some b)
      (hp : b.place = .host x) (hh : b.holds = 0) (hn : ¬ F.planned (b.cls, s)) :
      Edit F ⟨I, (b.cls, s) :: d, k⟩
        ⟨((I.setDevice b.cls ((I.device b.cls).assign s id)).setRefilling id (some x)).setBlock id
          { b with
            place := .device s, state := .filling, dependents := b.dependents + 1, tick := n },
          d, k⟩
  /-- a host block is copied back, its host slot freed -/
  | ensure {I : Inner} {d k id b s x} (h : I.block id = some b) (hp : b.place = .host x)
      (hF : F.ensure b) (hn : ¬ F.planned (b.cls, s)) :
      Edit F ⟨I, (b.cls, s) :: d, k⟩
        ⟨(((if b.state = .ready then I.log (.htod b.cls x s true) else I).setDevice b.cls
          ((I.device b.cls).assign s id)).putHost b.cls x).setBlock id
          { b with place := .device s }, d, k⟩
  | restore {I : Inner} {d k id b s x f} (h : I.block id = some b) (hp : b.place = .host x)
      (hs : b.state = .ready) (hF : F.start f) (hn : ¬ F.planned (b.cls, s)) :
      Edit F ⟨I, (b.cls, s) :: d, k⟩
        ⟨((I.log (.restore b.cls x s f)).setDevice b.cls
          ((I.device b.cls).assign s id)).setBlock id { b with place := .restoring s x f }, d, k⟩
  | spill {I : Inner} {d k id b s x f} (h : I.block id = some b) (hp : b.place = .device s)
      (hs : b.state = .ready) (hh : b.holds = 0) (hF : F.start f) :
      Edit F ⟨I, d, (b.cls, x) :: k⟩
        ⟨(I.log (.spill b.cls s x f)).setBlock id { b with place := .spilling s x f }, d, k⟩
  | landRestore {I : Inner} {d k id b s x f} (h : I.block id = some b)
      (hp : b.place = .restoring s x f) (hh : b.holds = 0) (hf : F.done f)
      (hF : F.restored I id) :
      Edit F ⟨I, d, k⟩ ⟨I.landRestore id b s x, d, k⟩
  | landSpill {I : Inner} {d k id b s x f} (h : I.block id = some b)
      (hp : b.place = .spilling s x f) (hh : b.holds = 0) (hf : F.done f) :
      Edit F ⟨I, d, k⟩ ⟨I.landSpill id b s x, d, k⟩
  /-- a compaction move lands: the block changes its device slot -/
  | move {I : Inner} {d k id b s s'} (h : I.block id = some b) (hp : b.place = .device s)
      (hh : b.holds = 1) (hF : F.unpin) (hn : ¬ F.planned (b.cls, s')) :
      Edit F ⟨I, (b.cls, s') :: d, k⟩
        ⟨(I.setDevice b.cls (((I.device b.cls).assign s' id).put s)).setBlock id
          { b with place := .device s', holds := b.holds - 1 }, d, k⟩

abbrev Edits (F : Facts) : Hands → Hands → Prop := Relation.ReflTransGen (Edit F)

end Plow.KvStore
