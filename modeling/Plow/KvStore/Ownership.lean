import Plow.KvStore.Edit
import Plow.Lib.Ledger

/-!
# Slot ownership in the KV block store

The device slots of all classes form one ledger whose users are the blocks, and so do the host
slots.  In transit are the slots in hand (for the device also the leaked ones).  `Own` says that both
ledgers are right, that every slab is well formed, and that `owner`, the index, the entry numbers and
the side map of refills agree with the block table.

* `Own.edit` : every edit keeps `Own`;
* `Keeps.edit` : an issued id keeps its class and key while it lives and never comes back.
-/

namespace Plow.KvStore

open Lib List Function Option

/-! ## the slots of all classes of one tier -/

section
variable {t : Tier} {D : Nat → Slab t} {c : Nat} {s : Slot t} {sl : Slab t} {U : Type*}
  {use : U → Option (Nat × Slot t)} {out : List (Nat × Slot t)}

def slotLive (D : Nat → Slab t) (x : Nat × Slot t) : Prop := (D x.1).live x.2

def slotFree (D : Nat → Slab t) (x : Nat × Slot t) : Nat := (D x.1).count x.2

theorem slotLive_update (x : Nat × Slot t) :
    slotLive (update D c sl) x ↔ if x.1 = c then sl.live x.2 else slotLive D x := by
  unfold slotLive
  by_cases h : x.1 = c
  · rw [h, update_self, if_pos rfl]
  · rw [update_of_ne h, if_neg h]

theorem slotFree_update (x : Nat × Slot t) :
    slotFree (update D c sl) x = if x.1 = c then sl.count x.2 else slotFree D x := by
  unfold slotFree
  by_cases h : x.1 = c
  · rw [h, update_self, if_pos rfl]
  · rw [update_of_ne h, if_neg h]

theorem update_ok (h : ∀ c, (D c).Ok) (hs : sl.Ok) (c' : Nat) : (update D c sl c').Ok := by
  by_cases e : c' = c
  · rw [e, update_self]
    exact hs
  · rw [update_of_ne e]
    exact h c'

theorem ledger_same (sl : Slab t) (L : Ledger (slotLive D) (slotFree D) use out)
    (hl : ∀ x, sl.live x ↔ (D c).live x) (hf : ∀ x, sl.count x = (D c).count x) :
    Ledger (slotLive (update D c sl)) (slotFree (update D c sl)) use out := by
  apply L.congr _ _ (fun _ => rfl) (.refl _)
  · intro x
    rw [slotLive_update]
    split
    · next h => rw [hl, ← h]; rfl
    · rfl
  · intro x
    rw [slotFree_update]
    split
    · next h => rw [hf, ← h]; rfl
    · rfl

theorem ledger_took (L : Ledger (slotLive D) (slotFree D) use out) (h : Slab.Took (D c) s sl) :
    Ledger (slotLive (update D c sl)) (slotFree (update D c sl)) use ((c, s) :: out) := by
  -- the slots of a new chunk are free first, the one that is taken too
  have hG : Ledger (slotLive (update D c sl))
      (fun x => if x = (c, s) then 1 else slotFree (update D c sl) x) use out := by
    apply L.grow
    · intro x hx
      rw [slotLive_update, slotFree_update]
      by_cases e : x.1 = c
      · rw [if_pos e]
        unfold slotLive at hx
        rw [e] at hx
        refine ⟨(h.keep x.2 hx).1, ?_⟩
        split
        · next e' => rw [e']; exact (h.was (by rw [e'] at hx; exact hx)).symm
        · next e' =>
          rw [(h.keep x.2 hx).2 (fun hc => e' (Prod.ext e hc))]
          unfold slotFree
          rw [e]
      · rw [if_neg e, if_neg e, if_neg (fun hc => e (by rw [hc]))]
        exact ⟨hx, rfl⟩
    · intro x hx hx'
      rw [slotLive_update] at hx'
      rw [slotFree_update]
      by_cases e : x.1 = c
      · rw [if_pos e] at hx' ⊢
        unfold slotLive at hx
        rw [e] at hx
        split
        · rfl
        · next e' => exact h.fresh x.2 hx hx' (fun hc => e' (Prod.ext e hc))
      · rw [if_neg e] at hx'
        exact absurd hx' hx
    · intro x hx
      rw [slotLive_update] at hx
      rw [slotFree_update]
      by_cases e : x.1 = c
      · rw [if_pos e] at hx
        rw [if_neg (fun hc => hx (by rw [hc]; exact h.liveSlot)), if_pos e]
        by_contra hc
        exact hx (h.ok.live_of_count hc)
      · rw [if_neg e] at hx
        rw [if_neg (fun hc => e (by rw [hc])), if_neg e]
        by_contra hc
        exact hx (L.live_of_free hc)
  apply hG.take (if_pos rfl)
  · rw [slotFree_update]
    simp only [↓reduceIte]
    exact h.gone
  · intro x hx
    rw [if_neg hx]

theorem ledger_put (L : Ledger (slotLive D) (slotFree D) use ((c, s) :: out)) :
    Ledger (slotLive (update D c ((D c).put s))) (slotFree (update D c ((D c).put s))) use out := by
  have h0 : (D c).count s = 0 := L.free_zero_of_out mem_cons_self
  have hP : Ledger (slotLive D) (slotFree (update D c ((D c).put s))) use out := by
    apply L.put
    · rw [slotFree_update]
      simp only [↓reduceIte]
      exact Slab.count_put_self h0
    · intro x hx
      rw [slotFree_update]
      by_cases e : x.1 = c
      · rw [if_pos e, Slab.count_put_of_ne (fun hc => hx (Prod.ext e hc))]
        unfold slotFree
        rw [e]
      · rw [if_neg e]
  apply hP.congr _ (fun _ => rfl) (fun _ => rfl) (.refl _)
  intro x
  rw [slotLive_update]
  split
  · next h => unfold slotLive; rw [h]; rfl
  · rfl

theorem put_slab_ok (h : ∀ c, (D c).Ok) (L : Ledger (slotLive D) (slotFree D) use ((c, s) :: out)) :
    ((D c).put s).Ok :=
  Slab.put_ok (h c) (L.live_of_out mem_cons_self) (L.free_zero_of_out mem_cons_self)

theorem ledger_released (L : Ledger (slotLive D) (slotFree D) use out)
    (h : Slab.Released (D c) sl) :
    Ledger (slotLive (update D c sl)) (slotFree (update D c sl)) use out := by
  apply L.retire
  · intro x hx
    rw [slotLive_update] at hx
    rw [slotFree_update]
    by_cases e : x.1 = c
    · rw [if_pos e] at hx ⊢
      unfold slotLive slotFree
      rw [e]
      exact h.keep x.2 hx
    · rw [if_neg e] at hx ⊢
      exact ⟨hx, rfl⟩
  · intro x hx
    rw [slotLive_update] at hx
    rw [slotFree_update]
    by_cases e : x.1 = c
    · rw [if_pos e] at hx ⊢
      by_contra hc
      exact hx (h.ok.live_of_count hc)
    · rw [if_neg e] at hx ⊢
      by_contra hc
      exact hx (L.live_of_free hc)
  · intro x hx hx'
    rw [slotLive_update] at hx'
    by_cases e : x.1 = c
    · rw [if_pos e] at hx'
      unfold slotLive at hx
      unfold slotFree
      rw [e] at hx ⊢
      exact h.ended x.2 hx hx'
    · rw [if_neg e] at hx'
      exact absurd hx hx'

end

/-! ## the store's tables -/

namespace Inner

def devUse (I : Inner) (id : BlockId) : Option (Nat × Slot .dev) :=
  (I.block id).bind (fun b => b.place.dev?.map (Prod.mk b.cls))

def hostUse (I : Inner) (id : BlockId) : Option (Nat × Slot .host) :=
  (I.block id).bind (fun b => ((I.refilling id).or b.place.host?).map (Prod.mk b.cls))

def keyUse (I : Inner) (id : BlockId) : Option (Nat × BlockKey) :=
  (I.block id).map (fun b => (b.cls, b.key))

def devOwner (I : Inner) (x : Nat × Slot .dev) : Option BlockId := (I.device x.1).owner x.2

section
variable {I J : Inner} {id : BlockId} {b b' : Block}

theorem devUse_of_block (h : I.block id = some b) :
    devUse I id = b.place.dev?.map (Prod.mk b.cls) := by
  unfold devUse
  rw [h]
  rfl

theorem hostUse_of_block (h : I.block id = some b) :
    hostUse I id = ((I.refilling id).or b.place.host?).map (Prod.mk b.cls) := by
  unfold hostUse
  rw [h]
  rfl

variable {o : Option Block}

theorem devUse_update (hb : J.block = update I.block id o) :
    devUse J = update (devUse I) id (o.bind (fun b => b.place.dev?.map (Prod.mk b.cls))) := by
  funext j
  unfold devUse
  rw [hb]
  by_cases hj : j = id
  · rw [hj, update_self, update_self]
  · rw [update_of_ne hj, update_of_ne hj]

theorem hostUse_update {r : Option (Slot .host)}
    (hb : J.block = update I.block id o) (hr : J.refilling = update I.refilling id r) :
    hostUse J = update (hostUse I) id
      (o.bind (fun b => (r.or b.place.host?).map (Prod.mk b.cls))) := by
  funext j
  unfold hostUse
  rw [hb, hr]
  by_cases hj : j = id
  · rw [hj, update_self, update_self, update_self]
  · rw [update_of_ne hj, update_of_ne hj, update_of_ne hj]

theorem keyUse_update (hb : J.block = update I.block id o) :
    keyUse J = update (keyUse I) id (o.map (fun b => (b.cls, b.key))) := by
  funext j
  unfold keyUse
  rw [hb]
  by_cases hj : j = id
  · rw [hj, update_self, update_self]
  · rw [update_of_ne hj, update_of_ne hj]

theorem block_congr (h : J.blocks = I.blocks) : J.block = I.block := by
  funext j
  unfold block
  rw [h]

theorem Entries.congr (h : I.Entries) (hb : J.blocks = I.blocks)
    (hf : J.freeEntries = I.freeEntries) (hn : J.nBlocks = I.nBlocks) : J.Entries :=
  ⟨hf ▸ h.nodup, fun i hi => by rw [hb, hn]; exact h.free i (hf ▸ hi),
    fun i hi => by rw [hb]; exact h.past i (hn ▸ hi)⟩

theorem Entries.setBlock (h : I.Entries) (hb : I.block id = some b) (b' : Block) :
    (I.setBlock id b').Entries where
  nodup := h.nodup
  free i hi := by
    have hne : i ≠ id.index := fun e => by
      have he := entry_of_lookup hb
      rw [← e, (h.free i hi).2] at he
      cases he
    refine ⟨(h.free i hi).1, ?_⟩
    show (update I.blocks id.index _ i).block = none
    rw [update_of_ne hne]
    exact (h.free i hi).2
  past i hi := by
    have hne : i ≠ id.index := fun e => by
      have he := entry_of_lookup hb
      rw [← e, h.past i hi] at he
      cases he
    show (update I.blocks id.index _ i).block = none
    rw [update_of_ne hne]
    exact h.past i hi

theorem Entries.clearEntry (h : I.Entries) (hb : I.block id = some b) :
    (I.clearEntry id).Entries := by
  have hlt := (h.issued hb).1
  have hfree : id.index ∉ I.freeEntries := fun hm => by
    have he := entry_of_lookup hb
    rw [(h.free _ hm).2] at he
    cases he
  have hent : ∀ (g i : Nat), (I.blocks i).block = none →
      (update I.blocks id.index ⟨g, none⟩ i).block = none := by
    intro g i hi
    by_cases e : i = id.index
    · rw [e, update_self]
    · rw [update_of_ne e]
      exact hi
  refine ⟨?_, fun i hi => ?_, fun i hi => hent _ i (h.past i hi)⟩
  · show (if id.gen < u32Max then id.index :: I.freeEntries else I.freeEntries).Nodup
    split
    · exact nodup_cons.mpr ⟨hfree, h.nodup⟩
    · exact h.nodup
  · have hm : i = id.index ∨ i ∈ I.freeEntries := by
      change i ∈ (if id.gen < u32Max then id.index :: I.freeEntries else I.freeEntries) at hi
      split at hi
      · exact mem_cons.mp hi
      · exact .inr hi
    rcases hm with e | hm
    · refine ⟨e ▸ hlt, ?_⟩
      show (update I.blocks id.index _ i).block = none
      rw [e, update_self]
    · exact ⟨(h.free i hm).1, hent _ i (h.free i hm).2⟩

theorem Entries.addBlock (h : I.Entries) (c : Nat) (key : BlockKey) (s : Slot .dev) :
    (I.addBlock c key s).2.Entries where
  nodup := h.nodup.tail
  free i hi := by
    have hm : i ∈ I.freeEntries := mem_of_mem_tail hi
    have hne : i ≠ I.entryIx := by
      revert hi
      unfold entryIx
      show i ∈ I.freeEntries.tail → _
      cases hf : I.freeEntries with
      | nil => intro hi; cases hi
      | cons a rest =>
        rintro hi rfl
        exact (nodup_cons.mp (hf ▸ h.nodup)).1 hi
    refine ⟨?_, ?_⟩
    · show i < if I.freeEntries = [] then I.nBlocks + 1 else I.nBlocks
      rw [if_neg (ne_nil_of_mem hm)]
      exact (h.free i hm).1
    · show (update I.blocks I.entryIx _ i).block = none
      rw [update_of_ne hne]
      exact (h.free i hm).2
  past i hi := by
    change (if I.freeEntries = [] then I.nBlocks + 1 else I.nBlocks) ≤ i at hi
    have hne : i ≠ I.entryIx := by
      revert hi
      unfold entryIx
      cases hf : I.freeEntries with
      | nil => intro hi e; rw [headD_nil] at e; simp at hi; omega
      | cons a rest =>
        have := (h.free a (by rw [hf]; exact mem_cons_self)).1
        intro hi e
        rw [headD_cons] at e
        simp at hi
        omega
    show (update I.blocks I.entryIx _ i).block = none
    rw [update_of_ne hne]
    exact h.past i (by split at hi <;> omega)

end

end Inner

open Inner

/-! ## one tier -/

section
variable {t : Tier} {D : Nat → Slab t} {use own : BlockId → Option (Nat × Slot t)}
  {out l : List (Nat × Slot t)} {c : Nat} {s : Slot t} {sl : Slab t} {id : BlockId}
  {o : Option (Nat × Slot t)}

def slotOwner (D : Nat → Slab t) (x : Nat × Slot t) : Option BlockId := (D x.1).owner x.2

/-- the slots of a tier: `use` says what the blocks use, `own` what is recorded as owned -/
structure Side (D : Nat → Slab t) (use own : BlockId → Option (Nat × Slot t))
    (out : List (Nat × Slot t)) : Prop where
  ledger : Ledger (slotLive D) (slotFree D) use out
  ok : ∀ c, (D c).Ok
  owner : Inverse (slotOwner D) own

abbrev DevSide (D : Nat → Slab t) (use : BlockId → Option (Nat × Slot t))
    (out : List (Nat × Slot t)) : Prop := Side D use use out

/-- Host slots have no recorded owner. -/
abbrev HostSide (D : Nat → Slab t) (use : BlockId → Option (Nat × Slot t))
    (out : List (Nat × Slot t)) : Prop := Side D use (fun _ => none) out

theorem slotOwner_same (hs : sl.owner = (D c).owner) : slotOwner (update D c sl) = slotOwner D := by
  funext x
  unfold slotOwner
  by_cases hx : x.1 = c
  · rw [hx, update_self, hs]
  · rw [update_of_ne hx]

theorem slotOwner_set {i : Option BlockId} (hs : sl.owner = update (D c).owner s i) :
    slotOwner (update D c sl) = update (slotOwner D) (c, s) i := by
  funext x
  unfold slotOwner
  by_cases hx : x.1 = c
  · rw [hx, update_self, hs]
    by_cases hx' : x.2 = s
    · rw [hx', update_self, show x = (c, s) from Prod.ext hx hx', update_self]
    · rw [update_of_ne hx', update_of_ne (fun e => hx' (by rw [e])), hx]
  · rw [update_of_ne hx, update_of_ne (fun e => hx (by rw [e]))]

namespace Side

theorem took (h : Side D use own out) (ht : Slab.Took (D c) s sl) :
    Side (update D c sl) use own ((c, s) :: out) :=
  ⟨ledger_took h.ledger ht, update_ok h.ok ht.ok, by rw [slotOwner_same ht.owner]; exact h.owner⟩

theorem released (h : Side D use own out) (ht : Slab.Released (D c) sl) :
    Side (update D c sl) use own out :=
  ⟨ledger_released h.ledger ht, update_ok h.ok ht.ok,
    by rw [slotOwner_same ht.owner]; exact h.owner⟩

theorem put (h : Side D use own ((c, s) :: out)) (hn : ∀ v, own v ≠ some (c, s)) :
    Side (update D c ((D c).put s)) use own out :=
  ⟨ledger_put h.ledger, update_ok h.ok (put_slab_ok h.ok h.ledger),
    by rw [slotOwner_set rfl]; exact h.owner.clear_free hn⟩

/-- what is used is not in transit -/
theorem ne_out (h : Side D use own ((c, s) :: out)) (v : BlockId) : use v ≠ some (c, s) :=
  fun hv => (h.ledger.used v _ hv).2 mem_cons_self

theorem keep (h : DevSide D use out) (hu : use id = o) : DevSide D (update use id o) out := by
  rw [← hu, update_eq_self]
  exact h

theorem keepHost (h : HostSide D use out) (hu : use id = o) : HostSide D (update use id o) out := by
  rw [← hu, update_eq_self]
  exact h

theorem freed (h : DevSide D use out) (hu : use id = some (c, s)) :
    DevSide (update D c ((D c).put s)) (update use id none) out := by
  have L := Ledger.detach_update h.ledger hu
  refine ⟨ledger_put L, update_ok h.ok (put_slab_ok h.ok L), ?_⟩
  rw [slotOwner_set rfl]
  exact h.owner.clear hu

theorem freedHost (h : HostSide D use out) (hu : use id = some (c, s)) :
    HostSide (update D c ((D c).put s)) (update use id none) out :=
  put ⟨Ledger.detach_update h.ledger hu, h.ok, h.owner⟩ nofun

theorem given (h : DevSide D use ((c, s) :: out)) (hu : use id = none) :
    DevSide (update D c ((D c).assign s id)) (update use id (some (c, s))) out := by
  refine ⟨?_, update_ok h.ok (Slab.assign_ok (h.ok c) s id), ?_⟩
  · exact ledger_same _ (Ledger.assign_update h.ledger hu) (fun _ => Iff.rfl) (fun _ => rfl)
  · rw [slotOwner_set rfl]
    exact h.owner.set h.ne_out hu

theorem givenHost (h : HostSide D use ((c, s) :: out)) (hu : use id = none) :
    HostSide D (update use id (some (c, s))) out :=
  ⟨Ledger.assign_update h.ledger hu, h.ok, h.owner⟩

theorem leaked (h : DevSide D use (out ++ l)) (hu : use id = some (c, s)) :
    DevSide (update D c ((D c).leak s)) (update use id none) (out ++ (c, s) :: l) := by
  have L := Ledger.detach_update h.ledger hu
  refine ⟨?_, update_ok h.ok (Slab.leak_ok (h.ok c) s), ?_⟩
  · exact (ledger_same ((D c).leak s) L (fun _ => Iff.rfl) (fun _ => rfl)).perm perm_middle.symm
  · rw [slotOwner_set rfl]
    exact h.owner.clear hu

theorem moved {s' : Slot t} (h : DevSide D use ((c, s') :: out)) (hu : use id = some (c, s)) :
    DevSide (update D c (((D c).assign s' id).put s)) (update use id (some (c, s'))) out := by
  have hne : s' ≠ s := fun e => h.ne_out id (e ▸ hu)
  have h2 := (h.freed hu).given (update_self ..)
  rw [update_idem, update_self, update_idem] at h2
  -- the block may as well leave its old slot before it takes the one in hand
  have e : ((D c).assign s' id).put s = ((D c).put s).assign s' id :=
    congrArg (fun o => ({ (D c).put s with owner := o } : Slab t))
      (show update (update (D c).owner s' (some id)) s none = update (update (D c).owner s none) s'
        (some id) from update_comm hne ..)
  rw [e]
  exact h2

end Side

end

/-- every slot of a live chunk is in one place, and all tables agree -/
structure Own (H : Hands) : Prop where
  dev : Ledger (slotLive H.inner.device) (slotFree H.inner.device) (devUse H.inner)
    (H.dev ++ H.inner.leaked)
  host : Ledger (slotLive H.inner.host) (slotFree H.inner.host) (hostUse H.inner) H.host
  devOk : ∀ c, (H.inner.device c).Ok
  hostOk : ∀ c, (H.inner.host c).Ok
  owner : Inverse (devOwner H.inner) (devUse H.inner)
  hostOwner : ∀ c s, (H.inner.host c).owner s = none
  index : Inverse H.inner.index (keyUse H.inner)
  entries : H.inner.Entries
  refill : ∀ id x, H.inner.refilling id = some x →
    ∃ b s, H.inner.block id = some b ∧ b.place = .device s ∧ b.state = .filling

namespace Own
variable {I J : Inner} {d d' : List (Nat × Slot .dev)} {k k' : List (Nat × Slot .host)} {c : Nat}
  {id : BlockId} {b a : Block} {s : Slot .dev} {x : Slot .host} {r : Option (Slot .host)}
  {w : Where} {F : Facts}

theorem devSide (h : Own ⟨I, d, k⟩) : DevSide I.device (devUse I) (d ++ I.leaked) :=
  ⟨h.dev, h.devOk, h.owner⟩

theorem hostSide (h : Own ⟨I, d, k⟩) : HostSide I.host (hostUse I) k :=
  ⟨h.host, h.hostOk, fun x u => iff_of_false (fun e => by cases (h.hostOwner x.1 x.2).symm.trans e)
    nofun⟩

theorem of_sides (dev : DevSide J.device (devUse J) (d' ++ J.leaked))
    (host : HostSide J.host (hostUse J) k') (index : Inverse J.index (keyUse J))
    (entries : J.Entries) (refill : ∀ id x, J.refilling id = some x →
      ∃ b s, J.block id = some b ∧ b.place = .device s ∧ b.state = .filling) : Own ⟨J, d', k'⟩ :=
  ⟨dev.ledger, host.ledger, dev.ok, host.ok, dev.owner,
    fun c s => host.owner.eq_none (s := (c, s)) nofun, index, entries, refill⟩

section

variable (h : Own ⟨I, d, k⟩)
include h

/-- only the slabs change -/
theorem slabs {D : Nat → Slab .dev} {H : Nat → Slab .host}
    (dev : DevSide D (devUse I) (d' ++ I.leaked)) (host : HostSide H (hostUse I) k') :
    Own ⟨{ I with device := D, host := H }, d', k'⟩ :=
  of_sides dev host h.index (h.entries.congr rfl rfl rfl) h.refill

theorem same (hd : J.device = I.device) (hh : J.host = I.host)
    (hn : J.nBlocks = I.nBlocks) (hb : J.blocks = I.blocks) (hf : J.freeEntries = I.freeEntries)
    (hi : J.index = I.index) (hr : J.refilling = I.refilling) (hl : J.leaked = I.leaked) :
    Own ⟨J, d, k⟩ := by
  cases I
  cases J
  dsimp only at hd hh hn hb hf hi hr hl
  subst hd hh hn hb hf hi hr hl
  exact of_sides h.devSide h.hostSide h.index (h.entries.congr rfl rfl rfl)
    h.refill

theorem not_used {x : Nat × Slot .dev} (hx : x ∈ d) (j : BlockId) :
    devUse I j ≠ some x :=
  fun hj => (h.dev.used j x hj).2 (mem_append_left _ hx)

section

variable (hb : I.block id = some b)
include hb

/-- one block is replaced: its slots change as the ledgers say -/
theorem replace
    (hblocks : J.blocks = (I.setBlock id a).blocks) (hf : J.freeEntries = I.freeEntries)
    (hn : J.nBlocks = I.nBlocks) (hcls : a.cls = b.cls) (hkey : a.key = b.key)
    (hidx : J.index = I.index) (href : J.refilling = update I.refilling id r)
    (dev : DevSide J.device (update (devUse I) id (a.place.dev?.map (Prod.mk b.cls)))
      (d' ++ J.leaked))
    (host : HostSide J.host (update (hostUse I) id ((r.or a.place.host?).map (Prod.mk b.cls))) k')
    (hr : ∀ x, r = some x → ∃ s, a.place = .device s ∧ a.state = .filling) : Own ⟨J, d', k'⟩ := by
  have hJ := (block_congr hblocks).trans (block_setBlock hb a)
  refine of_sides ?_ ?_ ?_ ((h.entries.setBlock hb a).congr hblocks hf hn) fun j x hx => ?_
  · rw [devUse_update hJ, bind_some, hcls]
    exact dev
  · rw [hostUse_update hJ href, bind_some, hcls]
    exact host
  · rw [keyUse_update hJ, map_some, hcls, hkey, hidx]
    have e : update (keyUse I) id (some (b.cls, b.key)) = keyUse I := by
      apply update_eq_self_iff.mpr
      unfold keyUse
      rw [hb]
      rfl
    rw [e]
    exact h.index
  · rw [href] at hx
    rw [hJ]
    by_cases hj : j = id
    · rw [hj, update_self] at hx
      obtain ⟨s, hs, hst⟩ := hr x hx
      exact ⟨a, s, by rw [hj, update_self], hs, hst⟩
    · rw [update_of_ne hj] at hx
      rw [update_of_ne hj]
      exact h.refill j x hx

theorem refilling_none
    (hp : (∀ s, b.place ≠ .device s) ∨ b.state ≠ .filling) : I.refilling id = none := by
  cases hr : I.refilling id with
  | none => rfl
  | some x =>
    obtain ⟨b₁, s, hb₁, hs, hst⟩ := h.refill id x hr
    cases hb.symm.trans hb₁
    rcases hp with hp | hp
    · exact absurd hs (hp s)
    · exact absurd hst hp

/-- A block that is on its way or on the host is not refilled. -/
theorem refilling_none_of_place
    (hp : b.place = w) (hw : ∀ s, w ≠ .device s) : I.refilling id = none :=
  h.refilling_none hb (.inl (hp ▸ hw))

theorem setBlock (hcls : a.cls = b.cls)
    (hkey : a.key = b.key) (hp : a.place = b.place)
    (hr : ∀ x, I.refilling id = some x → a.state = .filling) : Own ⟨I.setBlock id a, d, k⟩ := by
  refine h.replace hb rfl rfl rfl hcls hkey rfl (update_eq_self id I.refilling).symm
    ?_ ?_ fun x hx => ?_
  · rw [hp]
    exact h.devSide.keep (devUse_of_block hb)
  · rw [hp]
    exact h.hostSide.keepHost (hostUse_of_block hb)
  · obtain ⟨b₁, s, hb₁, hs, _⟩ := h.refill id x hx
    cases hb.symm.trans hb₁
    exact ⟨s, hp.trans hs, hr x hx⟩

theorem touch (hcls : a.cls = b.cls)
    (hkey : a.key = b.key) (hp : a.place = b.place) (hs : a.state = b.state) :
    Own ⟨I.setBlock id a, d, k⟩ := by
  apply h.setBlock hb hcls hkey hp
  intro x hx
  obtain ⟨b₁, _, hb₁, _, hst⟩ := h.refill id x hx
  cases hb.symm.trans hb₁
  exact hs.trans hst

end

/-! ### slots -/

theorem takeDev {sl} (ht : Slab.Took (I.device c) s sl) :
    Own ⟨I.setDevice c sl, (c, s) :: d, k⟩ := h.slabs (h.devSide.took ht) h.hostSide

theorem takeHost {sl} (ht : Slab.Took (I.host c) x sl) :
    Own ⟨I.setHost c sl, d, (c, x) :: k⟩ := h.slabs h.devSide (h.hostSide.took ht)

theorem putDev (hd : d = (c, s) :: d') : Own ⟨I.putDevice c s, d', k⟩ := by
  subst hd
  exact h.slabs (h.devSide.put h.devSide.ne_out) h.hostSide

end

theorem putHost (h : Own ⟨I, d, (c, x) :: k⟩) : Own ⟨I.putHost c x, d, k⟩ :=
  h.slabs h.devSide (h.hostSide.put nofun)

theorem retire (h : Own ⟨I, d, k⟩) {sl} (ht : Slab.Released (I.device c) sl) :
    Own ⟨I.setDevice c sl, d, k⟩ := h.slabs (h.devSide.released ht) h.hostSide

/-! ### blocks that come, go and change their place -/

/-- the block is gone -/
theorem remove (h : Own ⟨I, d, k⟩) (hb : I.block id = some b) (hr : I.refilling id = none)
    (hblocks : J.blocks = (I.clearEntry id).blocks)
    (hf : J.freeEntries = (I.clearEntry id).freeEntries) (hn : J.nBlocks = I.nBlocks)
    (hidx : J.index = update I.index (b.cls, b.key) none) (href : J.refilling = I.refilling)
    (dev : DevSide J.device (update (devUse I) id none) (d' ++ J.leaked))
    (host : HostSide J.host (update (hostUse I) id none) k') : Own ⟨J, d', k'⟩ := by
  have hJ := (block_congr hblocks).trans (block_clearEntry hb)
  refine of_sides ?_ ?_ ?_ ((h.entries.clearEntry hb).congr hblocks hf hn) fun j x hx => ?_
  · rw [devUse_update hJ]
    exact dev
  · rw [hostUse_update hJ (href.trans (update_eq_self id I.refilling).symm)]
    exact host
  · rw [keyUse_update hJ, hidx]
    have hk : keyUse I id = some (b.cls, b.key) := by
      unfold keyUse
      rw [hb]
      rfl
    exact h.index.clear hk
  · rw [href] at hx
    have hj : j ≠ id := fun e => by rw [e, hr] at hx; cases hx
    rw [hJ, update_of_ne hj]
    exact h.refill j x hx

theorem devUse_place (hb : I.block id = some b) (hp : b.place = w) :
    devUse I id = w.dev?.map (Prod.mk b.cls) := hp ▸ devUse_of_block hb

theorem hostUse_place (hb : I.block id = some b) (hr : I.refilling id = none)
    (hp : b.place = w) : hostUse I id = w.host?.map (Prod.mk b.cls) := by
  rw [hostUse_of_block hb, hr, none_or, hp]

theorem dropBlock (h : Own ⟨I, d, k⟩) (hb : I.block id = some b) (hr : I.refilling id = none)
    (hp : (∃ s, b.place = .device s) ∨ ∃ s, b.place = .host s) : Own ⟨I.dropBlock id, d, k⟩ := by
  have hr' : ((I.clearEntry id).clearIndex b.cls b.key).refilling id = none := hr
  rcases hp with ⟨s, hs⟩ | ⟨s, hs⟩
  · have e : I.dropBlock id =
        ((I.clearEntry id).clearIndex b.cls b.key).putDevice b.cls s := by
      simp only [Inner.dropBlock, hb, hr', hs]
    rw [e]
    exact h.remove hb hr rfl rfl rfl rfl rfl
      (h.devSide.freed (devUse_place hb hs)) (h.hostSide.keepHost (hostUse_place hb hr hs))
  · have e : I.dropBlock id =
        ((I.clearEntry id).clearIndex b.cls b.key).putHost b.cls s := by
      simp only [Inner.dropBlock, hb, hr', hs]
    rw [e]
    exact h.remove hb hr rfl rfl rfl rfl rfl
      (h.devSide.keep (devUse_place hb hs)) (h.hostSide.freedHost (hostUse_place hb hr hs))

theorem sealedRefill (h : Own ⟨I, d, k⟩) (hb : I.block id = some b)
    (hr : I.refilling id = some x) :
    Own ⟨((I.setBlock id { b with state := .ready }).setRefilling id none).putHost b.cls x, d, k⟩ := by
  obtain ⟨b₁, s, hb₁, hp, _⟩ := h.refill id x hr
  cases hb.symm.trans hb₁
  have hk := hostUse_of_block hb
  rw [hr] at hk
  refine h.replace hb rfl rfl rfl rfl rfl rfl rfl (h.devSide.keep (devUse_of_block hb)) ?_ nofun
  rw [show ({ b with state := .ready } : Block).place = .device s from hp]
  exact h.hostSide.freedHost hk

theorem back (h : Own ⟨I, d, k⟩) (hb : I.block id = some b) (hr : I.refilling id = some x)
    (hJ : J.blocks = (I.setBlock id { b with place := .host x, state := .ready }).blocks)
    (hf : J.freeEntries = I.freeEntries) (hn : J.nBlocks = I.nBlocks)
    (hidx : J.index = I.index) (href : J.refilling = update I.refilling id none)
    (hhost : J.host = I.host)
    (dev : DevSide J.device (update (devUse I) id none) (d' ++ J.leaked)) : Own ⟨J, d', k⟩ := by
  have hk := hostUse_of_block hb
  rw [hr] at hk
  refine h.replace hb hJ hf hn rfl rfl hidx href dev ?_ nofun
  rw [hhost]
  exact h.hostSide.keepHost hk

theorem backFree (h : Own ⟨I, d, k⟩) (hb : I.block id = some b)
    (hr : I.refilling id = some x) (hp : b.place = .device s) :
    Own ⟨((I.setRefilling id none).toHost id b x).putDevice b.cls s, d, k⟩ := by
  have h4 : Own ⟨((I.setRefilling id none).setBlock id
      { b with place := .host x, state := .ready }).putDevice b.cls s, d, k⟩ :=
    h.back hb hr rfl rfl rfl rfl rfl rfl
      (h.devSide.freed (devUse_place hb hp))
  unfold toHost
  apply h4.same <;> (dsimp only; split <;> rfl)

theorem backLeak (h : Own ⟨I, d, k⟩) (hb : I.block id = some b)
    (hr : I.refilling id = some x) (hp : b.place = .device s) :
    Own ⟨((I.leakDevice b.cls s).setRefilling id none).toHost id b x, d, k⟩ := by
  have h4 : Own ⟨((I.leakDevice b.cls s).setRefilling id none).setBlock id
      { b with place := .host x, state := .ready }, d, k⟩ :=
    h.back hb hr rfl rfl rfl rfl rfl rfl
      (h.devSide.leaked (devUse_place hb hp))
  unfold toHost
  apply h4.same <;> (dsimp only; split <;> rfl)

theorem forget (h : Own ⟨I, d, k⟩) (hb : I.block id = some b) (hr : I.refilling id = none)
    (hp : b.place = .device s) :
    Own ⟨((I.leakDevice b.cls s).clearEntry id).clearIndex b.cls b.key, d, k⟩ := by
  exact h.remove hb hr rfl rfl rfl rfl rfl
    (h.devSide.leaked (devUse_place hb hp)) (h.hostSide.keepHost (hostUse_place hb hr hp))

theorem fresh {key} (h : Own ⟨I, (c, s) :: d, k⟩) (hi : I.index (c, key) = none) :
    Own ⟨(I.addBlock c key s).2, d, k⟩ := by
  have hnone := h.entries.block_freshId
  have hJ := block_addBlock I c key s
  have hr : I.refilling I.freshId = none := by
    cases hr : I.refilling I.freshId with
    | none => rfl
    | some x =>
      obtain ⟨b, _, hb, _⟩ := h.refill _ x hr
      rw [hnone] at hb
      cases hb
  have hd : devUse I I.freshId = none := by
    unfold devUse
    rw [hnone]
    rfl
  have hk : hostUse I I.freshId = none := by
    unfold hostUse
    rw [hnone]
    rfl
  have hkey : keyUse I I.freshId = none := by
    unfold keyUse
    rw [hnone]
    rfl
  refine of_sides ?_ ?_ ?_ (h.entries.addBlock c key s) fun j x hx => ?_
  · rw [devUse_update hJ]
    exact h.devSide.given hd
  · rw [hostUse_update hJ (update_eq_self I.freshId I.refilling).symm, hr]
    exact h.hostSide.keepHost hk
  · rw [keyUse_update hJ]
    apply h.index.set _ hkey
    intro v hv
    rw [(h.index _ v).mpr hv] at hi
    cases hi
  · have hx : I.refilling j = some x := hx
    have hj : j ≠ I.freshId := fun e => by rw [e, hr] at hx; cases hx
    rw [hJ, update_of_ne hj]
    exact h.refill j x hx

theorem onto (h : Own ⟨I, (b.cls, s) :: d, k⟩) (hb : I.block id = some b)
    (hp : b.place = .host x) (hcls : a.cls = b.cls)
    (hkey : a.key = b.key) (hd' : a.place.dev? = some s) (hx : r.or a.place.host? = some x)
    (hr : ∀ x, r = some x → ∃ s, a.place = .device s ∧ a.state = .filling) :
    Own ⟨((I.setDevice b.cls ((I.device b.cls).assign s id)).setRefilling id r).setBlock id a, d, k⟩ := by
  have hk := hostUse_place hb (h.refilling_none_of_place hb hp nofun) hp
  refine h.replace hb rfl rfl rfl hcls hkey rfl rfl ?_ ?_ hr
  · rw [hd']
    exact h.devSide.given (devUse_place hb hp)
  · rw [hx]
    exact h.hostSide.keepHost hk

theorem ensure (h : Own ⟨I, (b.cls, s) :: d, k⟩) (hb : I.block id = some b)
    (hp : b.place = .host x) :
    Own ⟨((I.setDevice b.cls ((I.device b.cls).assign s id)).putHost b.cls x).setBlock id
      { b with place := .device s }, d, k⟩ := by
  have hr := h.refilling_none_of_place hb hp nofun
  refine h.replace hb rfl rfl rfl rfl rfl rfl (update_eq_self id I.refilling).symm
    (h.devSide.given (devUse_place hb hp)) ?_
    (fun y hy => by rw [hr] at hy; cases hy)
  rw [hr]
  exact h.hostSide.freedHost (hostUse_place hb hr hp)

theorem spill {f} (h : Own ⟨I, d, (b.cls, x) :: k⟩) (hb : I.block id = some b)
    (hp : b.place = .device s) (hs : b.state = .ready) :
    Own ⟨I.setBlock id { b with place := .spilling s x f }, d, k⟩ := by
  have hr := h.refilling_none hb (.inr (fun e => by rw [hs] at e; cases e))
  have hd : devUse I id = some (b.cls, s) := devUse_place hb hp
  refine h.replace hb rfl rfl rfl rfl rfl rfl (update_eq_self id I.refilling).symm
    (h.devSide.keep hd) ?_
    (fun y hy => by rw [hr] at hy; cases hy)
  rw [hr]
  exact h.hostSide.givenHost (hostUse_place hb hr hp)

theorem landRestore {f} (h : Own ⟨I, d, k⟩) (hb : I.block id = some b)
    (hp : b.place = .restoring s x f) : Own ⟨I.landRestore id b s x, d, k⟩ := by
  have hr := h.refilling_none_of_place hb hp nofun
  have hd : devUse I id = some (b.cls, s) := devUse_place hb hp
  have h1 : Own ⟨(I.putHost b.cls x).setBlock id { b with place := .device s }, d, k⟩ := by
    refine h.replace hb rfl rfl rfl rfl rfl rfl (update_eq_self id I.refilling).symm
      (h.devSide.keep hd) ?_
      (fun y hy => by rw [hr] at hy; cases hy)
    rw [hr]
    exact h.hostSide.freedHost (hostUse_place hb hr hp)
  unfold Inner.landRestore
  apply h1.same <;> (dsimp only; split <;> rfl)

theorem landSpill {f} (h : Own ⟨I, d, k⟩) (hb : I.block id = some b)
    (hp : b.place = .spilling s x f) : Own ⟨I.landSpill id b s x, d, k⟩ := by
  have hr := h.refilling_none_of_place hb hp nofun
  have h4 : Own ⟨(I.putDevice b.cls s).setBlock id { b with place := .host x }, d, k⟩ := by
    refine h.replace hb rfl rfl rfl rfl rfl rfl (update_eq_self id I.refilling).symm
      (h.devSide.freed (devUse_place hb hp)) ?_
      (fun y hy => by rw [hr] at hy; cases hy)
    rw [hr]
    exact h.hostSide.keepHost (hostUse_place hb hr hp)
  unfold Inner.landSpill
  apply h4.same <;> (dsimp only; split <;> rfl)

theorem move {s'} (h : Own ⟨I, (b.cls, s') :: d, k⟩) (hb : I.block id = some b)
    (hp : b.place = .device s) (hc : a.cls = b.cls) (hkey : a.key = b.key)
    (hs : a.state = b.state) (hp' : a.place = .device s') :
    Own ⟨(I.setDevice b.cls (((I.device b.cls).assign s' id).put s)).setBlock id a, d, k⟩ := by
  have hk := hostUse_of_block hb
  rw [hp] at hk
  refine h.replace hb rfl rfl rfl hc hkey rfl (update_eq_self id I.refilling).symm
    ?_ ?_ fun x hx => ?_
  · rw [hp']
    exact h.devSide.moved (devUse_place hb hp)
  · rw [hp']
    exact h.hostSide.keepHost hk
  · obtain ⟨b₁, _, hb₁, _, hst⟩ := h.refill id x hx
    cases hb.symm.trans hb₁
    exact ⟨s', hp', hs.trans hst⟩

theorem hand_new {x : Nat × Slot .dev} (h : Own ⟨I, x :: d, k⟩) : x ∉ d := fun hm =>
  (nodup_cons.mp h.dev.nodup_out).1 (mem_append_left _ hm)

/-- every edit keeps the ledgers and the tables right -/
theorem edit {H H' : Hands} (h : Own H) (e : Edit F H H') : Own H' := by
  cases e with
  | frame hs =>
    exact h.same hs.device hs.host hs.nBlocks hs.blocks hs.freeEntries hs.index hs.refilling hs.leaked
  | perm hd hk =>
    exact ⟨h.dev.perm (hd.append_right _), h.host.perm hk, h.devOk, h.hostOk, h.owner, h.hostOwner,
      h.index, h.entries, h.refill⟩
  | takeDev ht => exact h.takeDev ht
  | takeHost ht => exact h.takeHost ht
  | putDev hn => exact h.putDev rfl
  | putHost => exact h.putHost
  | retire ht => exact h.retire ht
  | trim _ _ => exact h.same rfl rfl rfl rfl rfl rfl rfl rfl
  | trimHost _ _ => exact h.same rfl rfl rfl rfl rfl rfl rfl rfl
  | logReclaim _ => exact h.same rfl rfl rfl rfl rfl rfl rfl rfl
  | logHtod hn => exact h.same rfl rfl rfl rfl rfl rfl rfl rfl
  | tick n hb => exact h.touch hb rfl rfl rfl rfl
  | depend n hb => exact h.touch hb rfl rfl rfl rfl
  | again n hb hs => exact h.setBlock hb rfl rfl rfl (fun _ _ => rfl)
  | hold n hb => exact h.touch hb rfl rfl rfl rfl
  | unhold hb hF => exact h.touch hb rfl rfl rfl rfl
  | leave hb hd hF => exact h.touch hb rfl rfl rfl rfl
  | @idleDev I d k id b hb hd hp hF =>
    have h1 := h.touch hb (a := { b with dependents := 0 }) rfl rfl rfl rfl
    apply h1.same <;> (split <;> rfl)
  | @idleHost I d k id b s hb hd hp hF =>
    have h1 := h.touch hb (a := { b with dependents := 0 }) rfl rfl rfl rfl
    apply h1.same <;> (split <;> rfl)
  | @sealed I d k id b hb hs hr hF =>
    have h1 := h.setBlock hb (a := { b with state := .ready }) rfl rfl rfl
      (fun x hx => by rw [hr] at hx; cases hx)
    exact h1.same rfl rfl rfl rfl rfl rfl rfl rfl
  | sealedRefill hb hs hr hF => exact (h.sealedRefill hb hr).same rfl rfl rfl rfl rfl rfl rfl rfl
  | fail hb hr hF => exact h.setBlock hb rfl rfl rfl (fun x hx => by rw [hr] at hx; cases hx)
  | back hb hr hp hF => exact h.backFree hb hr hp
  | backLeak hb hr hp hF => exact h.backLeak hb hr hp
  | forget hb hr hp hF => exact h.forget hb hr hp
  | dropDev hb hp hd hh hs =>
    exact h.dropBlock hb (h.refilling_none hb (.inr hs)) (.inl ⟨_, hp⟩)
  | dropHost hb hp hd hh =>
    exact h.dropBlock hb (h.refilling_none hb (.inl (fun s e => by rw [hp] at e; cases e)))
      (.inr ⟨_, hp⟩)
  | fresh hi hn => exact h.fresh hi
  | refill n hb hp hh hn => exact h.onto hb hp rfl rfl rfl rfl (fun _ _ => ⟨_, rfl, rfl⟩)
  | ensure hb hp hF hn =>
    exact (h.ensure hb hp).same (by split <;> rfl) (by split <;> rfl) (by split <;> rfl)
      (by split <;> rfl) (by split <;> rfl) (by split <;> rfl) (by split <;> rfl) (by split <;> rfl)
  | @restore I d k id b s x f hb hp hs hF hn =>
    have hr := h.refilling_none hb (.inl (fun s e => by rw [hp] at e; cases e))
    have h1 := h.onto hb hp (a := { b with place := .restoring s x f }) (r := none) rfl rfl rfl rfl
      (fun _ hx => by cases hx)
    refine h1.same rfl rfl rfl rfl rfl rfl ?_ rfl
    show I.refilling = update I.refilling id none
    rw [← hr, update_eq_self]
  | spill hb hp hs hh hF =>
    exact (h.spill hb hp hs).same rfl rfl rfl rfl rfl rfl rfl rfl
  | landRestore hb hp hh hf hF => exact h.landRestore hb hp
  | landSpill hb hp hh hf => exact h.landSpill hb hp
  | move hb hp hh hF hn => exact h.move hb hp rfl rfl rfl rfl

theorem edits {H H' : Hands} (h : Own H) (e : Edits F H H') : Own H' := by
  induction e with
  | refl => exact h
  | tail _ e ih => exact ih.edit e

end Own

/-! ## what becomes of an id -/

/-- an issued id keeps its class and key while it lives and never comes back -/
structure Keeps (I J : Inner) : Prop where
  issued : ∀ id, I.Issued id → J.Issued id
  stays : ∀ id a, I.Issued id → J.block id = some a →
    ∃ b, I.block id = some b ∧ a.cls = b.cls ∧ a.key = b.key

namespace Keeps
variable {I J K : Inner} {id : BlockId} {b a : Block} {F : Facts}

theorem refl (I : Inner) : Keeps I I := ⟨fun _ h => h, fun _ a _ hb => ⟨a, hb, rfl, rfl⟩⟩

theorem trans (h : Keeps I J) (h' : Keeps J K) : Keeps I K where
  issued id hi := h'.issued id (h.issued id hi)
  stays id a hi hb := by
    obtain ⟨b₁, hb₁, hc₁, hk₁⟩ := h'.stays id a (h.issued id hi) hb
    obtain ⟨b₂, hb₂, hc₂, hk₂⟩ := h.stays id b₁ hi hb₁
    exact ⟨b₂, hb₂, hc₁.trans hc₂, hk₁.trans hk₂⟩

theorem same (hn : J.nBlocks = I.nBlocks) (hb : J.blocks = I.blocks)
    (hf : J.freeEntries = I.freeEntries) : Keeps I J where
  issued id hi := by
    unfold Issued
    rw [hn, hb, hf]
    exact hi
  stays id a _ hb' := ⟨a, by unfold block at hb' ⊢; rw [← hb]; exact hb', rfl, rfl⟩

theorem setBlock (hb : I.block id = some b) (hJ : J.blocks = (I.setBlock id a).blocks)
    (hn : J.nBlocks = I.nBlocks) (hf : J.freeEntries = I.freeEntries) (hcls : a.cls = b.cls)
    (hkey : a.key = b.key) : Keeps I J where
  issued j hi := by
    obtain ⟨h1, h2⟩ := hi
    refine ⟨hn ▸ h1, ?_⟩
    have hg : (J.blocks j.index).gen = (I.blocks j.index).gen := by
      rw [hJ]
      show (update I.blocks id.index _ j.index).gen = _
      by_cases e : j.index = id.index
      · rw [e, update_self]
        exact (gen_of_lookup hb).symm
      · rw [update_of_ne e]
    rw [hg, hf]
    exact h2
  stays j c hi hc := by
    have hc : (I.setBlock id a).block j = some c := by
      unfold block at hc ⊢
      rw [← hJ]
      exact hc
    rw [block_setBlock hb] at hc
    by_cases e : j = id
    · subst e
      rw [update_self] at hc
      cases hc
      exact ⟨b, hb, hcls, hkey⟩
    · rw [update_of_ne e] at hc
      exact ⟨c, hc, rfl, rfl⟩

theorem clearEntry (hb : I.block id = some b) (hn : J.nBlocks = I.nBlocks)
    (hJ : J.blocks = (I.clearEntry id).blocks) (hf : J.freeEntries = (I.clearEntry id).freeEntries) :
    Keeps I J where
  issued j hi := by
    obtain ⟨h1, h2⟩ := hi
    refine ⟨hn ▸ h1, ?_⟩
    rw [hJ, hf]
    show j.gen < (update I.blocks id.index _ j.index).gen ∨ _ ∧
      j.index ∉ (if id.gen < u32Max then id.index :: I.freeEntries else I.freeEntries)
    have hg := gen_of_lookup hb
    by_cases e : j.index = id.index
    · show j.gen < (update I.blocks id.index _ j.index).gen ∨
        j.gen = (update I.blocks id.index _ j.index).gen ∧ _
      rw [e, hg] at h2
      rw [e, update_self]
      dsimp only
      split
      · exact .inl (by omega)
      · exact h2
    · show j.gen < (update I.blocks id.index _ j.index).gen ∨
        j.gen = (update I.blocks id.index _ j.index).gen ∧ _
      rw [update_of_ne e]
      rcases h2 with h2 | ⟨h2, h3⟩
      · exact .inl h2
      · refine .inr ⟨h2, ?_⟩
        split
        · exact fun hm => (mem_cons.mp hm).elim e h3
        · exact h3
  stays j c hi hc := by
    have hc : (I.clearEntry id).block j = some c := by
      unfold block at hc ⊢
      rw [← hJ]
      exact hc
    rw [block_clearEntry hb] at hc
    by_cases e : j = id
    · rw [e, update_self] at hc
      cases hc
    · rw [update_of_ne e] at hc
      exact ⟨c, hc, rfl, rfl⟩

theorem addBlock (h : I.Entries) (c : Nat) (key : BlockKey) (s : Slot .dev) :
    Keeps I (I.addBlock c key s).2 where
  issued j hi := by
    obtain ⟨h1, h2⟩ := hi
    refine ⟨?_, ?_⟩
    · show j.index < if I.freeEntries = [] then I.nBlocks + 1 else I.nBlocks
      split <;> omega
    · have hg : ((I.addBlock c key s).2.blocks j.index).gen = (I.blocks j.index).gen := by
        show (update I.blocks I.entryIx _ j.index).gen = _
        by_cases e : j.index = I.entryIx
        · rw [e, update_self]
        · rw [update_of_ne e]
      rw [hg]
      rcases h2 with h2 | ⟨h2, h3⟩
      · exact .inl h2
      · exact .inr ⟨h2, fun hm => h3 (mem_of_mem_tail hm)⟩
  stays j a hi hb' := by
    rw [block_addBlock] at hb'
    by_cases e : j = I.freshId
    · exact absurd (e ▸ hi) h.not_issued
    · rw [update_of_ne e] at hb'
      exact ⟨a, hb', rfl, rfl⟩

theorem dropBlock (hb : I.block id = some b) : Keeps I (I.dropBlock id) := by
  unfold Inner.dropBlock
  simp only [hb]
  apply clearEntry hb <;> (split <;> split <;> rfl)

theorem edit {H H' : Hands} (h : Own H) (e : Edit F H H') : Keeps H.inner H'.inner := by
  cases e with
  | frame hs => exact same hs.nBlocks hs.blocks hs.freeEntries
  | perm hd hk => exact refl _
  | takeDev ht => exact same rfl rfl rfl
  | takeHost ht => exact same rfl rfl rfl
  | putDev hn => exact same rfl rfl rfl
  | putHost => exact same rfl rfl rfl
  | retire ht => exact same rfl rfl rfl
  | trim _ _ => exact same rfl rfl rfl
  | trimHost _ _ => exact same rfl rfl rfl
  | logReclaim _ => exact same rfl rfl rfl
  | logHtod hn => exact same rfl rfl rfl
  | tick n hb => exact setBlock hb rfl rfl rfl rfl rfl
  | depend n hb => exact setBlock hb rfl rfl rfl rfl rfl
  | again n hb hs => exact setBlock hb rfl rfl rfl rfl rfl
  | hold n hb => exact setBlock hb rfl rfl rfl rfl rfl
  | unhold hb hF => exact setBlock hb rfl rfl rfl rfl rfl
  | leave hb hd hF => exact setBlock hb rfl rfl rfl rfl rfl
  | @idleDev I d k id b hb hd hp hF =>
    apply setBlock hb (a := { b with dependents := 0 }) ?_ ?_ ?_ rfl rfl <;> (dsimp only; split <;> rfl)
  | @idleHost I d k id b s hb hd hp hF =>
    apply setBlock hb (a := { b with dependents := 0 }) ?_ ?_ ?_ rfl rfl <;> (dsimp only; split <;> rfl)
  | sealed hb hs hr hF => exact setBlock hb rfl rfl rfl rfl rfl
  | sealedRefill hb hs hr hF => exact setBlock hb rfl rfl rfl rfl rfl
  | fail hb hr hF => exact setBlock hb rfl rfl rfl rfl rfl
  | @back I d k id b s x hb hr hp hF =>
    unfold toHost
    apply setBlock hb (a := { b with place := .host x, state := .ready }) ?_ ?_ ?_ rfl rfl <;>
      (dsimp only; split <;> rfl)
  | @backLeak I d k id b s x hb hr hp hF =>
    unfold toHost
    apply setBlock hb (a := { b with place := .host x, state := .ready }) ?_ ?_ ?_ rfl rfl <;>
      (dsimp only; split <;> rfl)
  | forget hb hr hp hF => exact clearEntry hb rfl rfl rfl
  | dropDev hb hp hd hh hs => exact dropBlock hb
  | dropHost hb hp hd hh => exact dropBlock hb
  | fresh hi hn => exact addBlock h.entries _ _ _
  | refill n hb hp hh hn => exact setBlock hb rfl rfl rfl rfl rfl
  | @ensure I d k id b s x hb hp hF hn =>
    apply setBlock hb (a := { b with place := .device s }) ?_ ?_ ?_ rfl rfl <;> (dsimp only; split <;> rfl)
  | restore hb hp hs hF hn => exact setBlock hb rfl rfl rfl rfl rfl
  | spill hb hp hs hh hF => exact setBlock hb rfl rfl rfl rfl rfl
  | @landRestore I d k id b s x f hb hp hh hf hF =>
    unfold Inner.landRestore
    apply setBlock hb (a := { b with place := .device s }) ?_ ?_ ?_ rfl rfl <;> (dsimp only; split <;> rfl)
  | @landSpill I d k id b s x f hb hp hh hf =>
    unfold Inner.landSpill
    apply setBlock hb (a := { b with place := .host x }) ?_ ?_ ?_ rfl rfl <;> (dsimp only; split <;> rfl)
  | move hb hp hh hF hn => exact setBlock hb rfl rfl rfl rfl rfl

theorem edits {H H' : Hands} (h : Own H) (e : Edits F H H') : Keeps H.inner H'.inner := by
  induction e with
  | refl => exact refl _
  | tail e₁ e ih => exact ih.trans (edit (h.edits e₁) e)

end Keeps

end Plow.KvStore
