import Plow.KvStore.Ops

/-!
# Runs of the KV block store

`Sys` is the store with the calls that are between two lock holds: shrinks whose copies run, host
grows whose allocation runs, and the hold guards that are alive.  `Sys.step` is one lock hold of one
operation; its answers from the backend are part of the operation.  `spill` is one step for each of
its blocks.

* `SysOk.step`, `SysOk.exec` : slot ownership holds in every state a run reaches;
* `slots_owned` : so every slot of a live chunk is in exactly one place.
-/

namespace Plow.KvStore

open Lib Inner List Option

/-- a shrink between its two lock holds -/
structure Job where
  released : Nat
  plan : Option CompactionPlan

structure Sys where
  inner : Inner
  jobs : List Job
  /-- host chunks being allocated: class and bytes -/
  grows : List (Nat × Nat)
  guards : List (List BlockId)

inductive Op where
  | acquire (cls : Nat) (key : BlockKey) (e : DevEnv) (htod : Except Err Unit)
  | sealIds (ids : List BlockId)
  | failIds (ids : List BlockId)
  | quarantineIds (ids : List BlockId)
  | release (ids : List BlockId)
  | hold (ids : List BlockId)
  | holdSources (ids : List BlockId)
  /-- the guard at this position is dropped -/
  | unhold (guard : Nat)
  | abandon (guard : Nat)
  | gatherSrc (id : BlockId)
  | restoreAsync (id : BlockId) (e : DevEnv) (htod : Except Err Unit) (fence : Except Err Nat)
  | ensureDevice (id : BlockId) (e : DevEnv) (htod : Except Err Unit)
  | evict (ids : List BlockId)
  | spillOne (id : BlockId) (fence : Except Err Nat)
  | reap (query : Nat → Except Err Bool)
  | reapRestores (query : Nat → Except Err Bool)
  | shrinkBegin (bytes : Nat)
  | shrinkEnd (job : Nat) (copied : Bool) (now : Nat)
  | growPick (avail : Option Nat)
  | growLand (grow : Nat) (ptr : Except Err Nat)
  | setDeviceCap (bytes : Nat)
  | setDeviceFloor (bytes : Nat)
  | setHostReserve (bytes : Nat)

namespace Sys

def new (specs : List ClassSpec) (chunkBytes deviceCap hostCap : Nat) : Sys :=
  ⟨Inner.new specs chunkBytes deviceCap hostCap, [], [], []⟩

def planned (s : Sys) : List (Nat × Slot .dev) := s.jobs.flatMap (fun j => gotPlan j.plan [])

def step (s : Sys) : Op → Option Sys
  | .acquire c key e htod => some { s with inner := (s.inner.acquire c key e htod).1 }
  | .sealIds ids => some { s with inner := ids.foldl sealId s.inner }
  | .failIds ids => some { s with inner := ids.foldl failId s.inner }
  | .quarantineIds ids => some { s with inner := s.inner.quarantineIds ids }
  | .release ids => some { s with inner := s.inner.release ids }
  | .hold ids => some { s with inner := s.inner.hold ids, guards := ids :: s.guards }
  | .holdSources ids =>
    let (I, r) := s.inner.holdSources ids
    some { s with inner := I, guards := if r.isOk then ids :: s.guards else s.guards }
  | .unhold i => s.guards[i]?.map (fun ids =>
      { s with inner := s.inner.unhold ids, guards := s.guards.eraseIdx i })
  | .abandon i => s.guards[i]?.map (fun _ => { s with guards := s.guards.eraseIdx i })
  | .gatherSrc id => some { s with inner := (s.inner.gatherSrc id).1 }
  | .restoreAsync id e htod fence =>
    some { s with inner := (s.inner.restoreAsync id e htod fence).1 }
  | .ensureDevice id e htod => some { s with inner := (s.inner.ensureDevice id e htod).1 }
  | .evict ids => some { s with inner := s.inner.evict ids }
  | .spillOne id fence => some { s with inner := s.inner.spillOne id fence }
  | .reap query => some { s with inner := s.inner.reap query }
  | .reapRestores query => some { s with inner := s.inner.reapRestores query }
  | .shrinkBegin bytes =>
    let (I, freed, plan) := s.inner.shrinkBegin bytes
    some { s with inner := I, jobs := ⟨(freed.map Chunk.bytes).sum, plan⟩ :: s.jobs }
  | .shrinkEnd i copied now => s.jobs[i]?.map (fun j =>
      { s with
        inner := (s.inner.shrinkEnd j.released j.plan copied now).1
        jobs := s.jobs.eraseIdx i })
  | .growPick avail =>
    let (I, pick) := s.inner.growPick avail
    some { s with inner := I, grows := pick.toList ++ s.grows }
  | .growLand i ptr => s.grows[i]?.map (fun g =>
      { s with inner := s.inner.growLand g.1 g.2 ptr, grows := s.grows.eraseIdx i })
  | .setDeviceCap bytes => some { s with inner := s.inner.setDeviceCap bytes }
  | .setDeviceFloor bytes => some { s with inner := s.inner.setDeviceFloor bytes }
  | .setHostReserve bytes => some { s with inner := s.inner.setHostReserve bytes }

abbrev Runs (specs : List ClassSpec) (chunkBytes deviceCap hostCap : Nat) (ops : List Op)
    (s : Sys) : Prop :=
  exec step (new specs chunkBytes deviceCap hostCap) ops = some s

end Sys

/-- conditions on the blocks that an operation releases, whose restore it lands, whose fill it ends -/
structure Conds where
  leaves : Inner → BlockId → Prop
  lands : Inner → BlockId → Prop
  seals : Inner → BlockId → Prop
  fails : Inner → BlockId → Prop

/-- every such block meets the condition in the state in which its turn comes -/
def Op.Meets (C : Conds) (s : Sys) : Op → Prop
  | .release ids => Each (fun I id => some (I.releaseId id)) C.leaves s.inner ids
  | .reap query => Lands C.lands query s.inner.restoring.length s.inner
  | .reapRestores query => Lands C.lands query s.inner.restoring.length s.inner
  | .sealIds ids => Each (fun I id => some (I.sealId id)) C.seals s.inner ids
  | .failIds ids => Each (fun I id => some (I.failId id)) C.fails s.inner ids
  | .quarantineIds ids => Each (fun I id => some (I.quarantineId id)) C.fails s.inner ids
  | _ => True

/-- what the operation may do from `s`, if its blocks meet the conditions -/
def Op.facts (C : Conds) (s : Sys) (o : Op) : Facts where
  done f := match o with
    | .reap query => query f = .ok true
    | .reapRestores query => query f = .ok true
    | _ => False
  ensure b := match o with
    | .ensureDevice id _ _ => s.inner.block id = some b
    | .restoreAsync id _ _ _ => b.state ≠ .ready ∧
      ∃ n, s.inner.block id = some { b with tick := n }
    | _ => False
  restored := C.lands
  fill I id := match o with
    | .sealIds _ => C.seals I id
    | _ => False
  unfill I id := match o with
    | .failIds _ => C.fails I id
    | .quarantineIds _ => C.fails I id
    | _ => False
  start f := match o with
    | .restoreAsync _ _ _ fence => fence = .ok f
    | .spillOne _ fence => fence = .ok f
    | _ => False
  planned x := match o with
    | .shrinkEnd i _ _ => x ∈ (s.jobs.eraseIdx i).flatMap (fun j => gotPlan j.plan [])
    | _ => x ∈ s.planned
  unpin := match o with
    | .unhold _ => True
    | .shrinkEnd _ _ _ => True
    | _ => False
  idle := C.leaves
  reclaim c id := match o with
    | .acquire _ _ _ _ => (s.inner.reclaimScan (s.inner.reclaim c)).2 = some id
    | .restoreAsync _ _ _ _ => (s.inner.reclaimScan (s.inner.reclaim c)).2 = some id
    | .ensureDevice _ _ _ => (s.inner.reclaimScan (s.inner.reclaim c)).2 = some id
    | _ => False

def anyBlock (_ : Inner) (_ : BlockId) : Prop := True

def Conds.any : Conds := ⟨anyBlock, anyBlock, anyBlock, anyBlock⟩

def anyFacts : Facts :=
  ⟨fun _ => True, fun _ => True, anyBlock, anyBlock, anyBlock, fun _ => True, fun _ => False, True,
    anyBlock, fun _ _ => True⟩

theorem Op.meets_any (s : Sys) (o : Op) : o.Meets .any s := by
  cases o with
  | release ids => exact each_true _ _
  | sealIds ids => exact each_true _ _
  | failIds ids => exact each_true _ _
  | quarantineIds ids => exact each_true _ _
  | reap query => exact lands_true query _
  | reapRestores query => exact lands_true query _
  | _ => trivial

/-- slot ownership, with the planned destinations in transit -/
structure SysOk (s : Sys) : Prop where
  own : Own ⟨s.inner, s.planned, []⟩
  plans : ∀ j ∈ s.jobs, PlanOk s.inner j.plan

theorem block_new (specs : List ClassSpec) (chunkBytes deviceCap hostCap : Nat) (id : BlockId) :
    (Inner.new specs chunkBytes deviceCap hostCap).block id = none := by
  simp [block, Inner.lookup, Inner.new]

theorem new_own (specs : List ClassSpec) (chunkBytes deviceCap hostCap : Nat) :
    Own ⟨Inner.new specs chunkBytes deviceCap hostCap, [], []⟩ where
  dev := Ledger.of_empty (fun x => by unfold slotLive Slab.live; simp [Inner.new, Slab.new])
    (fun _ => rfl) (fun id => by unfold devUse; rw [block_new]; rfl)
  host := Ledger.of_empty (fun x => by unfold slotLive Slab.live; simp [Inner.new, Slab.new])
    (fun _ => rfl) (fun id => by unfold hostUse; rw [block_new]; rfl)
  devOk c := Slab.new_ok _ _
  hostOk c := Slab.new_ok _ _
  owner x u := by
    unfold devUse
    rw [block_new]
    constructor <;> intro h <;> cases h
  hostOwner c s := rfl
  index x u := by
    unfold keyUse
    rw [block_new]
    constructor <;> intro h <;> cases h
  entries := ⟨nodup_nil, fun _ h => absurd h not_mem_nil, fun _ _ => rfl⟩
  refill id x h := by cases h

/-! ## one step -/

theorem gotPlan_nil (o : Option CompactionPlan) (d : List (Nat × Slot .dev)) :
    gotPlan o d = gotPlan o [] ++ d := by
  cases o with
  | none => rfl
  | some p => simp [gotPlan]

theorem planned_perm {s : Sys} {i : Nat} {j : Job} (h : s.jobs[i]? = some j) :
    s.planned.Perm (gotPlan j.plan ((s.jobs.eraseIdx i).flatMap (fun j => gotPlan j.plan []))) := by
  obtain ⟨hi, hj⟩ := List.getElem?_eq_some_iff.mp h
  have hp : s.jobs.Perm (j :: s.jobs.eraseIdx i) := by
    rw [← hj]
    exact (getElem_cons_eraseIdx_perm hi).symm
  rw [gotPlan_nil]
  exact hp.flatMap_right _

namespace SysOk

theorem new (specs : List ClassSpec) (chunkBytes deviceCap hostCap : Nat) :
    SysOk (Sys.new specs chunkBytes deviceCap hostCap) :=
  ⟨new_own specs chunkBytes deviceCap hostCap, fun j hj => by cases hj⟩

variable {s s' : Sys} {o : Op}

/-- one step is a run of edits -/
theorem step_edits {C : Conds} (h : SysOk s) (hC : o.Meets C s) (hs : s.step o = some s') :
    Edits (o.facts C s) ⟨s.inner, s.planned, []⟩ ⟨s'.inner, s'.planned, []⟩ := by
  cases o with
  | acquire c key e htod =>
    cases hs
    exact acquire_edits h.own key e htod (fun _ _ hv => hv) (fun _ hx => hx)
  | sealIds ids =>
    cases hs
    exact foldl_edits ids hC (fun id _ hid hI => sealId_edits hI hid) h.own
  | failIds ids =>
    cases hs
    exact foldl_edits ids hC (fun id _ hid hI => failId_edits hI hid) h.own
  | quarantineIds ids =>
    cases hs
    exact foldl_edits ids hC (fun id _ hid hI => quarantineId_edits hI hid) h.own
  | release ids =>
    cases hs
    exact foldl_edits ids hC (fun id _ hid _ => releaseId_edits hid) h.own
  | hold ids =>
    cases hs
    exact foldl_edits ids (each_true _ _) (fun id _ _ _ => holdId_edits) h.own
  | holdSources ids => cases hs; exact holdSources_edits ids
  | unhold i =>
    obtain ⟨ids, _, rfl⟩ := map_eq_some_iff.mp hs
    exact foldl_edits ids (each_true _ _) (fun id _ _ _ => unholdId_edits trivial) h.own
  | abandon i =>
    obtain ⟨ids, _, rfl⟩ := map_eq_some_iff.mp hs
    exact .refl
  | gatherSrc id => cases hs; exact gatherSrc_edits
  | restoreAsync id e htod fence =>
    cases hs
    exact restoreAsync_edits h.own e htod fence (fun b x n hb _ hs => ⟨hs, b.tick, hb⟩)
      (fun _ _ hv => hv) (fun _ hx => hx) (fun _ hf => hf)
  | ensureDevice id e htod =>
    cases hs
    exact ensureDevice_edits h.own e htod (fun b x hb _ => hb) (fun _ _ hv => hv)
      (fun _ hx => hx)
  | evict ids =>
    cases hs
    exact foldl_edits ids (each_true _ _) (fun id _ _ _ => evictId_edits) h.own
  | spillOne id fence => cases hs; exact spillOne_edits h.own fence (fun _ hf => hf)
  | reap query =>
    cases hs
    exact reap_edits query (fun _ hf => hf) hC
  | reapRestores query =>
    cases hs
    exact reapRestores_edits query (fun _ hf => hf) hC
  | shrinkBegin bytes =>
    cases hs
    have hE := (shrinkBegin_edits (F := (Op.shrinkBegin bytes).facts C s) bytes h.own).1
    rw [gotPlan_nil] at hE
    exact hE
  | shrinkEnd i copied now =>
    obtain ⟨j, hj, rfl⟩ := map_eq_some_iff.mp hs
    have hp := Edits.one (F := (Op.shrinkEnd i copied now).facts C s)
      (.perm (I := s.inner) (planned_perm hj) (.refl []))
    have hm : j ∈ s.jobs := mem_of_getElem? hj
    exact hp.trans (shrinkEnd_edits j.released j.plan copied now (h.own.edits hp) (h.plans j hm)
      trivial (fun _ hx => hx))
  | growPick avail => cases hs; exact growPick_edits avail
  | growLand i ptr =>
    obtain ⟨g, _, rfl⟩ := map_eq_some_iff.mp hs
    exact growLand_edits g.1 g.2 ptr
  | setDeviceCap bytes =>
    cases hs
    exact Edits.one (.frame ⟨rfl, rfl, rfl, rfl, rfl, rfl, rfl, rfl, rfl, rfl, rfl, rfl, rfl⟩)
  | setDeviceFloor bytes =>
    cases hs
    exact Edits.one (.frame ⟨rfl, rfl, rfl, rfl, rfl, rfl, rfl, rfl, rfl, rfl, rfl, rfl, rfl⟩)
  | setHostReserve bytes =>
    cases hs
    exact Edits.one (.frame ⟨rfl, rfl, rfl, rfl, rfl, rfl, rfl, rfl, rfl, rfl, rfl, rfl, rfl⟩)

theorem step_plans (h : SysOk s) (hs : s.step o = some s') (j : Job) (hj : j ∈ s'.jobs) :
    j ∈ s.jobs ∨ PlanOk s'.inner j.plan := by
  cases o with
  | shrinkBegin bytes =>
    cases hs
    rcases mem_cons.mp hj with rfl | hj
    · obtain ⟨hE, hM⟩ := shrinkBegin_edits (F := (Op.shrinkBegin bytes).facts .any s) bytes h.own
      exact .inr (hM.ok (h.own.edits hE).entries)
    · exact .inl hj
  | shrinkEnd i copied now =>
    obtain ⟨_, _, rfl⟩ := map_eq_some_iff.mp hs
    exact .inl (mem_of_mem_eraseIdx hj)
  | unhold i => obtain ⟨_, _, rfl⟩ := map_eq_some_iff.mp hs; exact Or.inl hj
  | abandon i => obtain ⟨_, _, rfl⟩ := map_eq_some_iff.mp hs; exact Or.inl hj
  | growLand i ptr => obtain ⟨_, _, rfl⟩ := map_eq_some_iff.mp hs; exact Or.inl hj
  | _ => obtain rfl := Option.some.inj hs; exact Or.inl hj

theorem step (h : SysOk s) (hs : s.step o = some s') : SysOk s' := by
  have hE := h.step_edits (Op.meets_any s o) hs
  have hk : Keeps s.inner s'.inner := Keeps.edits h.own hE
  refine ⟨h.own.edits hE, fun j hj => ?_⟩
  rcases h.step_plans hs j hj with hj | hj
  · exact fun p hp m hm => (h.plans j hj p hp m hm).keeps hk
  · exact hj

theorem exec {ops : List Op} (h : SysOk s) (he : Lib.exec Sys.step s ops = some s') : SysOk s' :=
  exec_inv (fun _ _ _ h hs => h.step hs) h he

end SysOk

/-! ## where the slots are -/

/-- where a slot of a live device chunk is -/
inductive DevPlace where
  | free
  | block (id : BlockId)
  /-- the destination of the planned move at this position -/
  | move (i : Nat)
  | leaked

inductive HostPlace where
  | free
  | block (id : BlockId)
  /-- the slot kept for the refill of the block -/
  | refill (id : BlockId)

def Sys.devAt (s : Sys) (c : Nat) (x : Slot .dev) : DevPlace → Prop
  | .free => x ∈ (s.inner.device c).free ((s.inner.device c).chunkOf x)
  | .block id => ∃ b, s.inner.block id = some b ∧ b.cls = c ∧ b.place.dev? = some x
  | .move i => s.planned[i]? = some (c, x)
  | .leaked => (c, x) ∈ s.inner.leaked

def Sys.hostAt (s : Sys) (c : Nat) (x : Slot .host) : HostPlace → Prop
  | .free => x ∈ (s.inner.host c).free ((s.inner.host c).chunkOf x)
  | .block id => ∃ b, s.inner.block id = some b ∧ b.cls = c ∧ b.place.host? = some x
  | .refill id => ∃ b, s.inner.block id = some b ∧ b.cls = c ∧ s.inner.refilling id = some x

/-- each slot of a live chunk is in one place, and the slabs' tables agree -/
structure Sys.SlotsOwned (s : Sys) : Prop where
  device : ∀ c x, (s.inner.device c).live x → ∃! p, s.devAt c x p
  host : ∀ c x, (s.inner.host c).live x → ∃! p, s.hostAt c x p
  deviceOnce : ∀ c x, (s.inner.device c).count x ≤ 1
  hostOnce : ∀ c x, (s.inner.host c).count x ≤ 1
  deviceOk : ∀ c, (s.inner.device c).Ok
  hostOk : ∀ c, (s.inner.host c).Ok
  owner : ∀ c x id, (s.inner.device c).owner x = some id ↔ s.devAt c x (.block id)
  hostOwner : ∀ c x, (s.inner.host c).owner x = none

section
variable {s : Sys} {c : Nat}

variable {id : BlockId} {x : Slot .dev}

theorem devAt_block : s.devAt c x (.block id) ↔ devUse s.inner id = some (c, x) := by
  constructor
  · rintro ⟨b, hb, rfl, hx⟩
    rw [devUse_of_block hb, hx]
    rfl
  · intro h
    cases hb : s.inner.block id with
    | none =>
      unfold devUse at h
      rw [hb] at h
      cases h
    | some b =>
      rw [devUse_of_block hb] at h
      obtain ⟨y, hy, e⟩ := map_eq_some_iff.mp h
      obtain ⟨e1, rfl⟩ := Prod.mk.inj e
      exact ⟨b, hb, e1, hy⟩

theorem devAt_free : s.devAt c x .free ↔ slotFree s.inner.device (c, x) ≠ 0 := by
  show x ∈ _ ↔ List.count x _ ≠ 0
  rw [← count_pos_iff, Nat.pos_iff_ne_zero]

variable {x : Slot .host}

theorem hostAt_free : s.hostAt c x .free ↔ slotFree s.inner.host (c, x) ≠ 0 := by
  show x ∈ _ ↔ List.count x _ ≠ 0
  rw [← count_pos_iff, Nat.pos_iff_ne_zero]

theorem SysOk.device_unique (h : SysOk s) (x : Slot .dev) (hl : (s.inner.device c).live x) :
    ∃! p, s.devAt c x p := by
  have L : Ledger (slotLive s.inner.device) (slotFree s.inner.device) (devUse s.inner)
    (s.planned ++ s.inner.leaked) := h.own.dev
  -- two places of one slot are the same
  have huniq : ∀ p q, s.devAt c x p → s.devAt c x q → p = q := by
    have hout : ∀ p, s.devAt c x p → (∃ i, p = .move i) ∨ p = .leaked →
        (c, x) ∈ s.planned ++ s.inner.leaked := by
      rintro p hp (⟨i, rfl⟩ | rfl)
      · exact mem_append_left _ (mem_of_getElem? hp)
      · exact mem_append_right _ hp
    have hfo : s.devAt c x .free → (c, x) ∉ s.planned ++ s.inner.leaked := fun hf hm =>
      devAt_free.mp hf (L.free_zero_of_out hm)
    have hfb : ∀ id, s.devAt c x .free → ¬ s.devAt c x (.block id) := fun id hf hb =>
      devAt_free.mp hf (L.used id _ (devAt_block.mp hb)).1
    have hbo : ∀ id, s.devAt c x (.block id) → (c, x) ∉ s.planned ++ s.inner.leaked :=
      fun id hb => (L.used id _ (devAt_block.mp hb)).2
    have hnd := nodup_append.mp L.nodup_out
    have hml : ∀ i, s.devAt c x (.move i) → ¬ s.devAt c x .leaked :=
      fun i hm hlk => hnd.2.2 _ (mem_of_getElem? hm) _ hlk rfl
    intro p q hp hq
    cases p with
    | free =>
      cases q with
      | free => rfl
      | block id => exact absurd hq (hfb id hp)
      | move i => exact absurd (hout _ hq (.inl ⟨i, rfl⟩)) (hfo hp)
      | leaked => exact absurd (hout _ hq (.inr rfl)) (hfo hp)
    | block id =>
      cases q with
      | free => exact absurd hp (hfb id hq)
      | block id' => rw [L.inj id id' _ (devAt_block.mp hp) (devAt_block.mp hq)]
      | move i => exact absurd (hout _ hq (.inl ⟨i, rfl⟩)) (hbo id hp)
      | leaked => exact absurd (hout _ hq (.inr rfl)) (hbo id hp)
    | move i =>
      cases q with
      | free => exact absurd (hout _ hp (.inl ⟨i, rfl⟩)) (hfo hq)
      | block id => exact absurd (hout _ hp (.inl ⟨i, rfl⟩)) (hbo id hq)
      | move i' =>
        have hi : s.planned[i]? = some (c, x) := hp
        have hlt := (List.getElem?_eq_some_iff.mp hi).1
        rw [(getElem?_inj hlt hnd.1).mp (hi.trans hq.symm)]
      | leaked => exact absurd hq (hml i hp)
    | leaked =>
      cases q with
      | free => exact absurd (hout _ hp (.inr rfl)) (hfo hq)
      | block id => exact absurd (hout _ hp (.inr rfl)) (hbo id hq)
      | move i => exact absurd hp (hml i hq)
      | leaked => rfl
  have hex : ∃ p, s.devAt c x p := by
    rcases L.full (c, x) hl with hf | hm | ⟨id, hu⟩
    · exact ⟨.free, devAt_free.mpr (by omega)⟩
    · rcases mem_append.mp hm with hm | hm
      · obtain ⟨i, hi⟩ := getElem?_of_mem hm
        exact ⟨.move i, hi⟩
      · exact ⟨.leaked, hm⟩
    · exact ⟨.block id, devAt_block.mpr hu⟩
  obtain ⟨p, hp⟩ := hex
  exact ⟨p, hp, fun q hq => huniq q p hq hp⟩

theorem hostAt_block (h : SysOk s) :
    s.hostAt c x (.block id) ↔ hostUse s.inner id = some (c, x) ∧ s.inner.refilling id = none := by
  constructor
  · rintro ⟨b, hb, rfl, hx⟩
    have hr := h.own.refilling_none hb (.inl (fun y e => by rw [e] at hx; cases hx))
    refine ⟨?_, hr⟩
    rw [hostUse_of_block hb, hr, hx]
    rfl
  · rintro ⟨hu, hr⟩
    cases hb : s.inner.block id with
    | none =>
      unfold hostUse at hu
      rw [hb] at hu
      cases hu
    | some b =>
      rw [hostUse_of_block hb, hr] at hu
      obtain ⟨y, hy, e⟩ := map_eq_some_iff.mp hu
      obtain ⟨e1, rfl⟩ := Prod.mk.inj e
      exact ⟨b, hb, e1, hy⟩

theorem hostAt_refill (h : SysOk s) :
    s.hostAt c x (.refill id) ↔ hostUse s.inner id = some (c, x) ∧ s.inner.refilling id ≠ none := by
  constructor
  · rintro ⟨b, hb, rfl, hx⟩
    refine ⟨?_, by rw [hx]; exact nofun⟩
    rw [hostUse_of_block hb, hx]
    rfl
  · rintro ⟨hu, hr⟩
    obtain ⟨y, hy⟩ := ne_none_iff_exists'.mp hr
    obtain ⟨b, _, hb, _⟩ := h.own.refill id y hy
    have hb : s.inner.block id = some b := hb
    rw [hostUse_of_block hb, hy] at hu
    obtain ⟨e1, rfl⟩ := Prod.mk.inj (Option.some.inj hu)
    exact ⟨b, hb, e1, hy⟩

theorem SysOk.host_unique (h : SysOk s) (x : Slot .host) (hl : (s.inner.host c).live x) :
    ∃! p, s.hostAt c x p := by
  have L : Ledger (slotLive s.inner.host) (slotFree s.inner.host) (hostUse s.inner) [] := h.own.host
  have hfu : ∀ id, s.hostAt c x .free → hostUse s.inner id ≠ some (c, x) := fun id hf hu =>
    hostAt_free.mp hf (L.used id _ hu).1
  have huniq : ∀ p q, s.hostAt c x p → s.hostAt c x q → p = q := by
    intro p q hp hq
    cases p with
    | free =>
      cases q with
      | free => rfl
      | block id => exact absurd ((hostAt_block h).mp hq).1 (hfu id hp)
      | refill id => exact absurd ((hostAt_refill h).mp hq).1 (hfu id hp)
    | block id =>
      have hp := (hostAt_block h).mp hp
      cases q with
      | free => exact absurd hp.1 (hfu id hq)
      | block id' => rw [L.inj id id' _ hp.1 ((hostAt_block h).mp hq).1]
      | refill id' =>
        have hq := (hostAt_refill h).mp hq
        rw [L.inj id id' _ hp.1 hq.1] at hp
        exact absurd hp.2 hq.2
    | refill id =>
      have hp := (hostAt_refill h).mp hp
      cases q with
      | free => exact absurd hp.1 (hfu id hq)
      | block id' =>
        have hq := (hostAt_block h).mp hq
        rw [L.inj id id' _ hp.1 hq.1] at hp
        exact absurd hq.2 hp.2
      | refill id' => rw [L.inj id id' _ hp.1 ((hostAt_refill h).mp hq).1]
  have hex : ∃ p, s.hostAt c x p := by
    rcases L.full (c, x) hl with hf | hm | ⟨id, hu⟩
    · exact ⟨.free, hostAt_free.mpr (by omega)⟩
    · cases hm
    · by_cases hr : s.inner.refilling id = none
      · exact ⟨.block id, (hostAt_block h).mpr ⟨hu, hr⟩⟩
      · exact ⟨.refill id, (hostAt_refill h).mpr ⟨hu, hr⟩⟩
  obtain ⟨p, hp⟩ := hex
  exact ⟨p, hp, fun q hq => huniq q p hq hp⟩

theorem SysOk.slotsOwned (h : SysOk s) : s.SlotsOwned where
  device _ x hl := h.device_unique x hl
  host _ x hl := h.host_unique x hl
  deviceOnce c x := h.own.dev.free_le (c, x)
  hostOnce c x := h.own.host.free_le (c, x)
  deviceOk := h.own.devOk
  hostOk := h.own.hostOk
  owner c x id := (h.own.owner (c, x) id).trans devAt_block.symm
  hostOwner := h.own.hostOwner

end

/-- In every state of every run each slot of a live chunk is in exactly one place. -/
theorem slots_owned (specs : List ClassSpec) (chunkBytes deviceCap hostCap : Nat) (ops : List Op)
    (s : Sys) (h : Sys.Runs specs chunkBytes deviceCap hostCap ops s) : s.SlotsOwned :=
  ((SysOk.new specs chunkBytes deviceCap hostCap).exec h).slotsOwned

/-- a run that fills, seals and spills a block -/
theorem slots_owned_spill : ∃ s, Sys.Runs [⟨1, 4⟩] 8 64 64
    [.growPick none, .growLand 0 (.ok 4096), .acquire 0 ⟨1, 2, 3⟩ ⟨0, none, .ok 1024⟩ (.ok ()),
      .sealIds [⟨0, 0⟩], .spillOne ⟨0, 0⟩ (.ok 7), .reap (fun _ => .ok true)] s ∧ s.SlotsOwned := by
  obtain ⟨s, hs⟩ := isSome_iff_exists.mp (show (exec Sys.step (Sys.new [⟨1, 4⟩] 8 64 64)
    [.growPick none, .growLand 0 (.ok 4096), .acquire 0 ⟨1, 2, 3⟩ ⟨0, none, .ok 1024⟩ (.ok ()),
      .sealIds [⟨0, 0⟩], .spillOne ⟨0, 0⟩ (.ok 7), .reap (fun _ => .ok true)]).isSome from rfl)
  exact ⟨s, hs, slots_owned _ _ _ _ _ s hs⟩

end Plow.KvStore
