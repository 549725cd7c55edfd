import Plow.KvStore.Ownership
import Plow.Lib.LazyQueue
import Plow.Lib.Runs

/-!
# The operations of the KV block store are runs of edits

For every function of the model that changes the store there is one theorem `…_edits`: from a state
in which slot ownership is right, its result is reached by edits, with the slots it returns in hand.

`Spares p I J` is what a caller keeps when a slab call may drop a block for its slot: blocks with `p`
are untouched and no index entry appears.
-/

namespace Plow.KvStore

open Lib List Function

namespace Inner

variable {F : Facts} {I J K : Inner} {d : List (Nat × Slot .dev)} {k : List (Nat × Slot .host)}
  {c : Nat} {id : BlockId} {b : Block} {p : Block → Prop} {x : Slot .host} {s : Slot .dev}
  {o : Option CompactionPlan} {t : Tier}

def OnDevice (b : Block) : Prop := ∃ s, b.place = .device s

def OnHost (b : Block) : Prop := ∃ s, b.place = .host s

structure Spares (p : Block → Prop) (I J : Inner) : Prop where
  block : ∀ id b, I.block id = some b → p b → J.block id = some b
  gone : ∀ id b, J.block id = some b → I.block id = some b
  index : ∀ x, I.index x = none → J.index x = none
  refilling : J.refilling = I.refilling
  tick : J.tick = I.tick
  state : ∀ id b, I.block id = some b → J.block id = none →
    b.dependents = 0 ∧ b.holds = 0

theorem Spares.same (hb : J.blocks = I.blocks) (hi : J.index = I.index)
    (hr : J.refilling = I.refilling) (ht : J.tick = I.tick) : Spares p I J := by
  have e : J.block = I.block := by
    funext j
    unfold Inner.block
    rw [hb]
  refine ⟨fun _ _ h _ => by rw [e]; exact h, fun _ _ h => by rw [e] at h; exact h,
    fun _ h => by rw [hi]; exact h, hr, ht, fun j b h h' => ?_⟩
  rw [e, h] at h'
  cases h'

theorem Spares.trans (h : Spares p I J) (h' : Spares p J K) : Spares p I K where
  block id b hb hp := h'.block id b (h.block id b hb hp) hp
  gone id b hb := h.gone id b (h'.gone id b hb)
  index x hx := h'.index x (h.index x hx)
  refilling := h'.refilling.trans h.refilling
  tick := h'.tick.trans h.tick
  state id b hb hk := by
    cases e : J.block id with
    | none => exact h.state id b hb e
    | some b' =>
      cases hb.symm.trans (h.gone id b' e)
      exact h'.state id b e hk

/-! ## dropping a block -/

section

variable (hb : I.block id = some b)
include hb

theorem dropBlock_dev (hr : I.refilling id = none)
    (hp : b.place = .device s) :
    I.dropBlock id = ((I.clearEntry id).clearIndex b.cls b.key).putDevice b.cls s := by
  have hr' : ((I.clearEntry id).clearIndex b.cls b.key).refilling id = none := hr
  simp only [dropBlock, hb, hr', hp]

theorem dropBlock_host {s : Slot .host} (hr : I.refilling id = none)
    (hp : b.place = .host s) :
    I.dropBlock id = ((I.clearEntry id).clearIndex b.cls b.key).putHost b.cls s := by
  have hr' : ((I.clearEntry id).clearIndex b.cls b.key).refilling id = none := hr
  simp only [dropBlock, hb, hr', hp]

theorem block_dropBlock :
    (I.dropBlock id).block = update I.block id none := by
  rw [← block_clearEntry hb]
  have e : (I.dropBlock id).blocks = (I.clearEntry id).blocks := by
    unfold dropBlock
    simp only [hb]
    split <;> split <;> rfl
  unfold block
  rw [e]

theorem index_dropBlock :
    (I.dropBlock id).index = update I.index (b.cls, b.key) none := by
  unfold dropBlock
  simp only [hb]
  split <;> split <;> rfl

end

theorem reclaim_dropBlock : (I.dropBlock id).reclaim = I.reclaim := by
  unfold dropBlock
  split
  · rfl
  · dsimp only
    split <;> split <;> rfl

theorem hostReclaim_dropBlock : (I.dropBlock id).hostReclaim = I.hostReclaim := by
  unfold dropBlock
  split
  · rfl
  · dsimp only
    split <;> split <;> rfl

theorem refilling_dropBlock (hb : I.block id = some b) (hr : I.refilling id = none) :
    (I.dropBlock id).refilling = I.refilling := by
  have hr' : ((I.clearEntry id).clearIndex b.cls b.key).refilling id = none := hr
  simp only [dropBlock, hb, hr']
  split <;> rfl

theorem tick_dropBlock : (I.dropBlock id).tick = I.tick := by
  unfold dropBlock
  split
  · rfl
  · dsimp only
    split <;> split <;> rfl

theorem trace_dropBlock : (I.dropBlock id).trace = I.trace := by
  unfold dropBlock
  split
  · rfl
  · dsimp only
    split <;> split <;> rfl

theorem spares_dropBlock (hb : I.block id = some b) (hr : I.refilling id = none)
    (hp : ¬ p b) (hd : b.dependents = 0) (hh : b.holds = 0) : Spares p I (I.dropBlock id) where
  block j b' hj hpj := by
    have hne : j ≠ id := fun e => by
      rw [e] at hj
      exact hp (Option.some.inj (hb.symm.trans hj) ▸ hpj)
    rw [block_dropBlock hb, update_of_ne hne]
    exact hj
  gone j b' hj := by
    rw [block_dropBlock hb] at hj
    by_cases e : j = id
    · rw [e, update_self] at hj
      cases hj
    · rw [update_of_ne e] at hj
      exact hj
  index x hx := by
    rw [index_dropBlock hb]
    by_cases e : x = (b.cls, b.key)
    · rw [e, update_self]
    · rw [update_of_ne e]
      exact hx
  refilling := refilling_dropBlock hb hr
  tick := tick_dropBlock
  state j b' hj hn := by
    rw [block_dropBlock hb] at hn
    by_cases e : j = id
    · rw [e] at hj
      cases hb.symm.trans hj
      exact ⟨hd, hh⟩
    · rw [update_of_ne e, hj] at hn
      cases hn

/-! ## device slots -/

theorem Edits.one {H H' : Hands} (e : Edit F H H') : Edits F H H' := .single e

theorem takeNoGrow_took {sl sl' : Slab t} {s : Slot t} (h : sl.Ok)
    (ht : takeNoGrow sl = .ok (some (s, sl'))) : Slab.Took sl s sl' := Slab.take_ok h ht

theorem takeNoGrow_some {sl : Slab t} (h : sl.Ok) (hf : sl.byFree ≠ []) :
    ∃ s sl', takeNoGrow sl = .ok (some (s, sl')) := by
  obtain ⟨x, hx⟩ := Option.isSome_iff_exists.mp (isSome_head?.mpr hf)
  obtain ⟨s, sl', hp, _⟩ := Slab.pop_took h (n := x.1) (c := x.2) (mem_of_mem_head? hx)
  refine ⟨s, sl', ?_⟩
  unfold takeNoGrow Slab.take
  rw [hx]
  dsimp only
  rw [hp]
  rfl

theorem put_byFree (sl : Slab t) (s : Slot t) : (sl.put s).byFree ≠ [] := by
  have h : ∀ x l, insertByFree x l ≠ [] := fun x l e => by
    have hm : x ∈ insertByFree x l := Slab.mem_insertByFree.mpr (.inl rfl)
    rw [e] at hm
    cases hm
  exact h _ _

/-- a block that `reclaim_slot` may take -/
def Idle (b : Block) : Prop :=
  b.dependents = 0 ∧ b.holds = 0 ∧ b.state ≠ .filling ∧ ∃ s, b.place = .device s

/-- what `reclaim_slot` does with an entry of its queue -/
def reclaimVerdict (I : Inner) (id : BlockId) : Verdict :=
  match I.block id with
  | none => .skip
  | some b =>
    if 0 < b.dependents then .skip
    else if 0 < b.holds ∨ b.state = .filling then .stay
    else match b.place with
      | .device _ => .take
      | .host _ => .skip
      | _ => .stay

theorem reclaimScan_eq (l : List BlockId) : I.reclaimScan l = scan I.reclaimVerdict l := by
  induction l with
  | nil => rfl
  | cons id rest ih =>
    unfold scan reclaimScan reclaimVerdict
    cases I.block id with
    | none => exact ih
    | some b =>
      dsimp only
      by_cases hd : 0 < b.dependents
      · rw [if_pos hd, if_pos hd]
        exact ih
      · by_cases hh : 0 < b.holds ∨ b.state = .filling
        · rw [if_neg hd, if_neg hd, if_pos hh, if_pos hh, ih]
          rfl
        · rw [if_neg hd, if_neg hd, if_neg hh, if_neg hh]
          cases b.place with
          | device s => rfl
          | spilling s x f => rw [ih]; rfl
          | restoring s x f => rw [ih]; rfl
          | host x => exact ih

theorem reclaimScan_congr (h : ∀ id, J.reclaimVerdict id = I.reclaimVerdict id) (l : List BlockId) :
    J.reclaimScan l = I.reclaimScan l := by
  rw [reclaimScan_eq, reclaimScan_eq, funext h]

theorem verdict_take : I.reclaimVerdict id = .take ↔ ∃ b, I.block id = some b ∧ Idle b := by
  unfold reclaimVerdict
  cases hb : I.block id with
  | none => simp
  | some b =>
    dsimp only
    constructor
    · intro h
      split at h
      · cases h
      · next hd =>
        split at h
        · cases h
        · next hh =>
          rw [not_or] at hh
          split at h
          · next s hp => exact ⟨b, rfl, by omega, by omega, hh.2, s, hp⟩
          · cases h
          · cases h
    · rintro ⟨b', hb', hd, hh, hs, s, hp⟩
      cases hb'
      rw [if_neg (by omega), if_neg (by simp [hh, hs]), hp]

theorem stale_of_skip (h : I.reclaimVerdict id = .skip) : Stale I id := by
  unfold reclaimVerdict at h
  intro b hb
  rw [hb] at h
  dsimp only at h
  split at h
  · next hd => exact .inl hd
  · split at h
    · cases h
    · split at h
      · cases h
      · next x hp => exact .inr ⟨x, hp⟩
      · cases h

/-- the slots in hand after a call for a slot of class `c` -/
def gotDev (c : Nat) (r : Except Err (Slot .dev)) (d : List (Nat × Slot .dev)) :
    List (Nat × Slot .dev) :=
  match r with
  | .ok s => (c, s) :: d
  | .error _ => d

def gotDev? (c : Nat) (r : Except Err (Option (Slot .dev))) (d : List (Nat × Slot .dev)) :
    List (Nat × Slot .dev) :=
  match r with
  | .ok (some s) => (c, s) :: d
  | _ => d

theorem reclaimSlot_edits (h : Own ⟨I, d, k⟩)
    (hF : ∀ v, (I.reclaimScan (I.reclaim c)).2 = some v → F.reclaim c v) :
    Edits F ⟨I, d, k⟩ ⟨(I.reclaimSlot c).1, gotDev? c (I.reclaimSlot c).2 d, k⟩ ∧
      Spares OnHost I (I.reclaimSlot c).1 := by
  have hq : I.reclaimScan (I.reclaim c) = scan I.reclaimVerdict (I.reclaim c) := reclaimScan_eq _
  set q := (I.reclaimScan (I.reclaim c)).1 with hq'
  have hsub : q.Sublist (I.reclaim c) := by
    rw [hq', hq]
    exact scan_sublist _ _
  have hfil : ∀ p : BlockId → Bool, (∀ id, p id = true → ¬ Stale I id) →
      (∀ v, (I.reclaimScan (I.reclaim c)).2 = some v → p v = false) →
      q.filter p = (I.reclaim c).filter p := by
    intro p hp hv
    rw [hq', hq]
    rw [hq] at hv
    exact scan_filter _ _ p (fun j hj e => hp j hj (stale_of_skip e)) hv
  cases hf : (I.reclaimScan (I.reclaim c)).2 with
  | none =>
    have e : I.reclaimSlot c = (I.setReclaim c q, .ok none) := by
      unfold reclaimSlot
      simp only [hf, ← hq']
    rw [e]
    exact ⟨Edits.one (.trim hsub (fun p hp => hfil p hp fun v hv => by rw [hf] at hv; cases hv)),
      Spares.same rfl rfl rfl rfl⟩
  | some id =>
    obtain ⟨b, hb, hd, hh, hs, s, hp⟩ := verdict_take.mp (scan_found _ (hq ▸ hf)).2
    have hr := h.refilling_none hb (.inr hs)
    set I₁ := ((I.setReclaim c q).log (.reclaim c id)).dropBlock id with hI₁
    -- the block is dropped before the queue is cut
    have hI₁' : I₁ = ((I.log (.reclaim c id)).dropBlock id).setReclaim c q := by
      rw [hI₁, dropBlock_dev (I := (I.setReclaim c q).log (.reclaim c id)) hb hr hp,
        dropBlock_dev (I := I.log (.reclaim c id)) hb hr hp]
      rfl
    have hE : Edits F ⟨I, d, k⟩ ⟨I₁, d, k⟩ := by
      rw [hI₁']
      have h1 : Edit F ⟨I, d, k⟩ ⟨I.log (.reclaim c id), d, k⟩ := .logReclaim (hF id hf)
      refine ((Edits.one h1).tail (.dropDev hb hp hd hh hs)).tail (.trim ?_ (fun p hp' => ?_))
      · rw [reclaim_dropBlock]
        exact hsub
      · rw [reclaim_dropBlock]
        have hgone : ∀ j, j = id ∨ Stale I j → p j = false := by
          intro j hj
          by_contra hc
          refine hp' j (by simpa using hc) (fun b' hb' => ?_)
          rw [block_dropBlock (I := I.log (.reclaim c id)) hb] at hb'
          by_cases ej : j = id
          · rw [ej, update_self] at hb'
            cases hb'
          · rw [update_of_ne ej] at hb'
            exact hj.resolve_left ej b' hb'
        refine hfil p (fun j hj hs => ?_) (fun j hj => hgone j (.inl ?_))
        · rw [hgone j (.inr hs)] at hj
          cases hj
        · rw [hf] at hj
          exact (Option.some.inj hj).symm
    have hS : Spares OnHost I I₁ :=
      Spares.trans (J := (I.setReclaim c q).log (.reclaim c id)) (Spares.same rfl rfl rfl rfl)
        (spares_dropBlock hb hr (by rintro ⟨x, hx⟩; rw [hp] at hx; cases hx) hd hh)
    have hO := h.edits hE
    unfold reclaimSlot
    simp only [hf, ← hq', ← hI₁]
    split
    · next s' sl ht =>
      exact ⟨hE.tail (.takeDev (takeNoGrow_took (hO.devOk c) ht)),
        hS.trans (Spares.same rfl rfl rfl rfl)⟩
    · exact ⟨hE, hS⟩

theorem takenSlot_edits (h : Own ⟨I, d, k⟩) (hold : Bool)
    {r : Except Err (Option (Slot .dev × Slab .dev))}
    (hF : ∀ v, (I.reclaimScan (I.reclaim c)).2 = some v → F.reclaim c v ∨ hold = true)
    (hr : ∀ s sl, r = .ok (some (s, sl)) → Slab.Took (I.device c) s sl) :
    Edits F ⟨I, d, k⟩ ⟨(I.takenSlot c hold r).1, gotDev c (I.takenSlot c hold r).2 d, k⟩ ∧
      Spares OnHost I (I.takenSlot c hold r).1 := by
  have hid : Edits F ⟨I, d, k⟩ ⟨I, d, k⟩ := .refl
  have hS : Spares OnHost I I := Spares.same rfl rfl rfl rfl
  unfold takenSlot
  split
  · exact ⟨hid, hS⟩
  · next s sl => exact ⟨Edits.one (.takeDev (hr s sl rfl)), Spares.same rfl rfl rfl rfl⟩
  · split
    · exact ⟨hid, hS⟩
    · next hn =>
      obtain ⟨hR, hRS⟩ := reclaimSlot_edits h (fun v hv => (hF v hv).resolve_right hn)
      split <;> (next hr => rw [hr] at hR hRS; exact ⟨hR, hRS⟩)

theorem growSlot_edits (h : Own ⟨I, d, k⟩) (hold : Bool) (e : DevEnv)
    (hF : ∀ v, (I.reclaimScan (I.reclaim c)).2 = some v → F.reclaim c v ∨ hold = true) :
    Edits F ⟨I, d, k⟩ ⟨(I.growSlot c hold e).1, gotDev c (I.growSlot c hold e).2 d, k⟩ ∧
      Spares OnHost I (I.growSlot c hold e).1 := by
  have hsame : ∀ p : Bool, Same I (if p then { I with deviceGrows := I.deviceGrows + 1 } else I) := by
    intro p
    split <;> exact ⟨rfl, rfl, rfl, rfl, rfl, rfl, rfl, rfl, rfl, rfl, rfl, rfl, rfl⟩
  have hS : ∀ p : Bool, Spares OnHost I
      (if p then { I with deviceGrows := I.deviceGrows + 1 } else I) := by
    intro p
    split <;> exact Spares.same rfl rfl rfl rfl
  unfold growSlot
  dsimp only
  have hE := Edits.one (.frame (F := F) (d := d) (k := k)
    (hsame ((I.device c).grows (I.growBudget c e.freeBytes))))
  obtain ⟨hT, hTS⟩ := takenSlot_edits (c := c) (F := F) (h.edits hE) hold
    (r := (I.device c).take (I.growBudget c e.freeBytes)
      (fun bytes => e.alloc.map (fun va => ⟨va, bytes⟩)))
    (fun v hv => hF v (by
      rw [(hsame _).reclaim, reclaimScan_congr (I := I) (fun id => by
        unfold reclaimVerdict block
        rw [(hsame _).blocks])] at hv
      exact hv))
    (fun s sl ht => by
      rw [(hsame _).device]
      exact Slab.take_ok (h.devOk c) ht)
  exact ⟨hE.trans hT, (hS _).trans hTS⟩

theorem deviceSlot_edits (h : Own ⟨I, d, k⟩) (e : DevEnv)
    (hF : ∀ v, (I.reclaimScan (I.reclaim c)).2 = some v → F.reclaim c v) :
    Edits F ⟨I, d, k⟩ ⟨(I.deviceSlot c e).1, gotDev c (I.deviceSlot c e).2 d, k⟩ ∧
      Spares OnHost I (I.deviceSlot c e).1 := by
  have hid : Edits F ⟨I, d, k⟩ ⟨I, d, k⟩ := .refl
  have hS : Spares OnHost I I := Spares.same rfl rfl rfl rfl
  unfold deviceSlot
  split
  · exact ⟨hid, hS⟩
  · next s sl hs =>
    exact ⟨Edits.one (.takeDev (takeNoGrow_took (h.devOk c) hs)), Spares.same rfl rfl rfl rfl⟩
  · split
    · obtain ⟨hR, hRS⟩ := reclaimSlot_edits h hF
      split
      · next hr => rw [hr] at hR hRS; exact ⟨hR, hRS⟩
      · next J hr =>
        rw [hr] at hR hRS
        obtain ⟨hG, hGS⟩ := growSlot_edits (c := c) (F := F) (h.edits hR) true e
          (fun _ _ => .inr rfl)
        exact ⟨hR.trans hG, hRS.trans hGS⟩
      · next hr => rw [hr] at hR hRS; exact ⟨hR, hRS⟩
    · exact growSlot_edits h false e (fun v hv => .inl (hF v hv))

/-! ## publishes -/

theorem setBlock_setBlock (id : BlockId) (b b' : Block) :
    (I.setBlock id b).setBlock id b' = I.setBlock id b' := by
  show ({ I with blocks := _ } : Inner) = { I with blocks := _ }
  rw [show (I.setBlock id b).blocks = update I.blocks id.index ⟨id.gen, some b⟩ from rfl,
    update_idem]

theorem ensureDeviceLocked_edits (id : BlockId) (h : Own ⟨I, d, k⟩) (e : DevEnv) (htod : Except Err Unit)
    (hF : ∀ b x, I.block id = some b → b.place = .host x → F.ensure b)
    (hV : ∀ c v, (I.reclaimScan (I.reclaim c)).2 = some v → F.reclaim c v)
    (hpl : ∀ x, F.planned x → x ∈ d) :
    Edits F ⟨I, d, k⟩ ⟨(I.ensureDeviceLocked id e htod).1, d, k⟩ := by
  have hid : Edits F ⟨I, d, k⟩ ⟨I, d, k⟩ := .refl
  unfold ensureDeviceLocked
  cases hb : I.block id with
  | none => exact hid
  | some b =>
    dsimp only
    cases hp : b.place with
    | device s => exact hid
    | spilling s x f => exact hid
    | restoring s x f => exact hid
    | host x =>
      dsimp only
      obtain ⟨hE, hS⟩ := deviceSlot_edits h e (hV b.cls)
      cases hr : I.deviceSlot b.cls e with
      | mk J r =>
      rw [hr] at hE hS
      cases r with
      | error er => exact hE
      | ok s =>
        have hb' : J.block id = some b := hS.block id b hb ⟨x, hp⟩
        have hE : Edits F ⟨I, d, k⟩ ⟨J, (b.cls, s) :: d, k⟩ := hE
        have hn : ¬ F.planned (b.cls, s) := fun hx => (h.edits hE).hand_new (hpl _ hx)
        dsimp only
        by_cases hst : b.state = .ready
        · cases htod with
          | error er =>
            simp only [hst, ↓reduceIte]
            exact (hE.tail (.logHtod (h := x) hn)).tail (.putDev hn)
          | ok u =>
            have he := hE.tail (.ensure hb' hp (hF b x hb hp) hn)
            simp only [hst, ↓reduceIte] at he ⊢
            exact he
        · have he := hE.tail (.ensure hb' hp (hF b x hb hp) hn)
          rw [if_neg hst] at he
          rw [if_neg hst]
          cases hb₂ : b.state with
          | ready => exact absurd hb₂ hst
          | filling => rw [hb₂] at he; exact he
          | failed => rw [hb₂] at he; exact he

theorem nextTick_same : Same I I.nextTick :=
  ⟨rfl, rfl, rfl, rfl, rfl, rfl, rfl, rfl, rfl, rfl, rfl, rfl, rfl⟩

theorem acquirePresent_edits (va : Nat) (refill : Bool) :
    Edits F ⟨I, d, k⟩ ⟨(I.acquirePresent id va refill).1, d, k⟩ := by
  unfold acquirePresent
  cases hb : I.block id with
  | none => exact .refl
  | some b =>
    dsimp only
    split
    · exact Edits.one (.depend I.tick hb)
    · split
      · next hs => exact Edits.one (.again I.tick hb hs)
      · exact Edits.one (.depend I.tick hb)

section

variable (h : Own ⟨I, d, k⟩)
include h

theorem acquireRefill_edits (e : DevEnv)
    (hb : I.block id = some b) (hp : b.place = .host x) (hh : b.holds = 0)
    (hV : ∀ c v, (I.reclaimScan (I.reclaim c)).2 = some v → F.reclaim c v)
    (hpl : ∀ x, F.planned x → x ∈ d) :
    Edits F ⟨I, d, k⟩ ⟨(I.acquireRefill b.cls id x e).1, d, k⟩ := by
  obtain ⟨hE, hS⟩ := deviceSlot_edits h e (hV b.cls)
  unfold acquireRefill
  cases hr : I.deviceSlot b.cls e with
  | mk J r =>
  rw [hr] at hE hS
  cases r with
  | error er => exact hE
  | ok s =>
    have hb' : J.block id = some b := hS.block id b hb ⟨x, hp⟩
    have hE : Edits F ⟨I, d, k⟩ ⟨J, (b.cls, s) :: d, k⟩ := hE
    have hn : ¬ F.planned (b.cls, s) := fun hx => (h.edits hE).hand_new (hpl _ hx)
    dsimp only
    set J₁ := (J.setDevice b.cls ((J.device b.cls).assign s id)).setRefilling id (some x) with hJ₁
    have hb₁ : J₁.block id = some b := hb'
    rw [hb₁]
    dsimp only
    set b₁ : Block := { b with place := .device s, state := .filling } with hb₁'
    have hb₂ : (J₁.setBlock id b₁).block id = some b₁ := by
      rw [block_setBlock hb₁, update_self]
    have e₁ : ((J₁.setBlock id b₁).acquirePresent id (((J₁.setBlock id b₁).device b.cls).va s) true).1
        = J₁.setBlock id { b with
            place := .device s, state := .filling, dependents := b.dependents + 1, tick := J.tick } := by
      unfold acquirePresent
      rw [hb₂]
      dsimp only
      rw [if_pos ⟨rfl, rfl⟩, setBlock_setBlock]
      rfl
    rw [e₁]
    exact hE.tail (.refill J.tick hb' hp hh hn)

theorem acquireNew_edits {key : BlockKey} (e : DevEnv)
    (hi : I.index (c, key) = none)
    (hV : ∀ c v, (I.reclaimScan (I.reclaim c)).2 = some v → F.reclaim c v)
    (hpl : ∀ x, F.planned x → x ∈ d) : Edits F ⟨I, d, k⟩ ⟨(I.acquireNew c key e).1, d, k⟩ := by
  obtain ⟨hE, hS⟩ := deviceSlot_edits h e (hV c)
  unfold acquireNew
  cases hr : I.deviceSlot c e with
  | mk J r =>
  rw [hr] at hE hS
  cases r with
  | error er => exact hE
  | ok s =>
    have hE : Edits F ⟨I, d, k⟩ ⟨J, (c, s) :: d, k⟩ := hE
    exact hE.tail (.fresh (hS.index _ hi) (fun hx => (h.edits hE).hand_new (hpl _ hx)))

theorem cls_of_index {key : BlockKey} (hi : I.index (c, key) = some id)
    (hb : I.block id = some b) : b.cls = c := by
  have e := (h.index (c, key) id).mp hi
  change (I.block id).map (fun b => (b.cls, b.key)) = some (c, key) at e
  rw [hb] at e
  exact (Prod.mk.inj (Option.some.inj e)).1

theorem acquire_edits (key : BlockKey) (e : DevEnv) (htod : Except Err Unit)
    (hV : ∀ c v, (I.reclaimScan (I.reclaim c)).2 = some v → F.reclaim c v)
    (hpl : ∀ x, F.planned x → x ∈ d) : Edits F ⟨I, d, k⟩ ⟨(I.acquire c key e htod).1, d, k⟩ := by
  have hE : Edits F ⟨I, d, k⟩ ⟨I.nextTick, d, k⟩ := Edits.one (.frame nextTick_same)
  have hO := h.edits hE
  have hV : ∀ c v, (I.nextTick.reclaimScan (I.nextTick.reclaim c)).2 = some v → F.reclaim c v :=
    fun c v hv => hV c v (by rwa [reclaimScan_congr (I := I) (J := I.nextTick) (fun _ => rfl)] at hv)
  unfold acquire
  dsimp only
  split
  · exact hE
  · cases hi : I.nextTick.index (c, key) with
    | none => exact hE.trans (acquireNew_edits hO e hi hV hpl)
    | some id =>
      dsimp only
      split
      · next b x hb =>
        have hc := cls_of_index hO hi hb
        dsimp only at hc
        rw [← hc]
        exact hE.trans (acquireRefill_edits hO e hb rfl rfl hV hpl)
      · exact hE.trans (acquirePresent_edits _ _)
      · next _ hno =>
        have hD := ensureDeviceLocked_edits (F := F) id hO e htod (fun b x hb hp => by
          cases b
          cases hp
          exact (hno _ _ _ _ _ _ _ hb).elim) hV hpl
        split
        · next hr => rw [hr] at hD; exact hE.trans hD
        · next hr =>
          rw [hr] at hD
          exact (hE.trans hD).trans (acquirePresent_edits _ _)

/-! ## fills -/

theorem sealId_edits (hF : F.fill I id) : Edits F ⟨I, d, k⟩ ⟨I.sealId id, d, k⟩ := by
  have hid : Edits F ⟨I, d, k⟩ ⟨I, d, k⟩ := .refl
  unfold sealId
  cases hr : I.refilling id with
  | none =>
    cases hb : I.block id with
    | none =>
      simp only [hr]
      exact hid
    | some b =>
      by_cases hs : b.state = .filling
      · simp only [if_pos hs, show ((I.log (.seal b.cls b.key b.place)).setBlock id
          { b with state := .ready }).refilling id = none from hr]
        exact Edits.one (.sealed hb hs hr hF)
      · simp only [if_neg hs, hr]
        exact hid
  | some x =>
    obtain ⟨b, s, hb, hp, hs⟩ := h.refill id x hr
    have hb : I.block id = some b := hb
    have hb' : (((I.log (.seal b.cls b.key b.place)).setBlock id
        { b with state := .ready }).setRefilling id none).block id =
          some { b with state := .ready } := by
      show ((I.log (.seal b.cls b.key b.place)).setBlock id { b with state := .ready }).block id = _
      rw [block_setBlock (I := I.log (.seal b.cls b.key b.place)) hb, update_self]
    simp only [hb, if_pos hs, show ((I.log (.seal b.cls b.key b.place)).setBlock id
      { b with state := .ready }).refilling id = some x from hr, hb']
    exact Edits.one (.sealedRefill hb hs hr hF)

theorem failId_edits (hF : F.unfill I id) : Edits F ⟨I, d, k⟩ ⟨I.failId id, d, k⟩ := by
  unfold failId
  cases hr : I.refilling id with
  | none =>
    have e : I.setRefilling id none = I := by
      show { I with refilling := update I.refilling id none } = I
      rw [← hr, update_eq_self]
    simp only [e]
    cases hb : I.block id with
    | none => exact .refl
    | some b => exact Edits.one (.fail hb hr hF)
  | some x =>
    obtain ⟨b, s, hb, hp, hs⟩ := h.refill id x hr
    have hb' : (I.setRefilling id none).block id = some b := hb
    simp only [hb', hp]
    exact Edits.one (.back hb hr hp hF)

theorem quarantineId_edits (hF : F.unfill I id) :
    Edits F ⟨I, d, k⟩ ⟨I.quarantineId id, d, k⟩ := by
  unfold quarantineId
  cases hb : I.block id with
  | none => exact .refl
  | some b =>
    dsimp only
    split
    · next s hp =>
      -- the count of quarantined fills goes up last
      have hcount : ∀ J : Inner, Edit F ⟨J, d, k⟩ ⟨{ J with quarantined := I.quarantined + 1 }, d, k⟩ :=
        fun J => .frame ⟨rfl, rfl, rfl, rfl, rfl, rfl, rfl, rfl, rfl, rfl, rfl, rfl, rfl⟩
      cases hr : I.refilling id with
      | some x =>
        have hE := (Edits.one (Edit.backLeak (d := d) (k := k) hb hr hp hF)).tail (hcount _)
        unfold toHost at hE
        dsimp only at hE ⊢
        rw [show (Inner.leakDevice { I with quarantined := I.quarantined + 1 } b.cls s).refilling id
          = some x from hr]
        split at hE
        · next hz => simp only [if_pos hz]; exact hE
        · next hz => simp only [if_neg hz]; exact hE
      | none =>
        have e : (Inner.leakDevice { I with quarantined := I.quarantined + 1 } b.cls s).setRefilling
            id none = Inner.leakDevice { I with quarantined := I.quarantined + 1 } b.cls s := by
          show { Inner.leakDevice { I with quarantined := I.quarantined + 1 } b.cls s with
            refilling := update I.refilling id none } = _
          rw [← hr, update_eq_self]
          rfl
        rw [show (Inner.leakDevice { I with quarantined := I.quarantined + 1 } b.cls s).refilling id
          = none from hr, e]
        exact (Edits.one (.forget hb hr hp hF)).tail (hcount _)
    · next hp => exact Edits.one (.fail hb (h.refilling_none hb (.inl hp)) hF)

end

theorem foldl_edits {α : Type*} {f : Inner → α → Inner} {P : Inner → α → Prop} (l : List α)
    (hc : Each (fun I a => some (f I a)) P I l)
    (hf : ∀ {I : Inner}, ∀ a ∈ l, P I a → Own ⟨I, d, k⟩ → Edits F ⟨I, d, k⟩ ⟨f I a, d, k⟩)
    (h : Own ⟨I, d, k⟩) : Edits F ⟨I, d, k⟩ ⟨l.foldl f I, d, k⟩ := by
  induction l generalizing I with
  | nil => exact .refl
  | cons a l ih =>
    have h1 := hf a mem_cons_self hc.1 h
    exact h1.trans (ih (hc.2 _ rfl) (fun b hb => hf b (mem_cons_of_mem _ hb)) (h.edits h1))

/-! ## dependencies and holds -/

theorem releaseId_edits (hF : F.idle I id) : Edits F ⟨I, d, k⟩ ⟨I.releaseId id, d, k⟩ := by
  unfold releaseId
  cases hb : I.block id with
  | none => exact .refl
  | some b =>
    dsimp only
    by_cases hd : b.dependents ≤ 1
    · have hz : b.dependents - 1 = 0 := by omega
      rw [hz, if_pos rfl]
      cases hp : b.place with
      | host x =>
        have he := Edits.one (.idleHost (F := F) (d := d) (k := k) hb hd hp hF)
        rw [hp] at he
        exact he
      | device s =>
        have he := Edits.one (.idleDev (F := F) (d := d) (k := k) hb hd
          (fun x e => by rw [hp] at e; cases e) hF)
        rw [hp] at he
        exact he
      | spilling s x f =>
        have he := Edits.one (.idleDev (F := F) (d := d) (k := k) hb hd
          (fun x e => by rw [hp] at e; cases e) hF)
        rw [hp] at he
        exact he
      | restoring s x f =>
        have he := Edits.one (.idleDev (F := F) (d := d) (k := k) hb hd
          (fun x e => by rw [hp] at e; cases e) hF)
        rw [hp] at he
        exact he
    · rw [if_neg (show ¬ b.dependents = 1 by omega), if_neg (show ¬ b.dependents - 1 = 0 by omega)]
      exact Edits.one (.leave hb (by omega) hF)

theorem holdId_edits : Edits F ⟨I, d, k⟩ ⟨I.holdId id, d, k⟩ := by
  unfold holdId
  cases hb : I.block id with
  | none => exact .refl
  | some b => exact Edits.one (.hold b.tick hb)

theorem unholdId_edits (hF : F.unpin) : Edits F ⟨I, d, k⟩ ⟨I.unholdId id, d, k⟩ := by
  unfold unholdId
  cases hb : I.block id with
  | none => exact .refl
  | some b => exact Edits.one (.unhold hb hF)

theorem holdSource_edits : Edits F ⟨I, d, k⟩ ⟨(I.holdSource id).1, d, k⟩ := by
  unfold holdSource
  cases hb : I.block id with
  | none => exact .refl
  | some b => exact Edits.one (.hold I.tick hb)

theorem holdSourcesLoop_edits (ids : List BlockId) :
    Edits F ⟨I, d, k⟩ ⟨(I.holdSourcesLoop ids).1, d, k⟩ := by
  induction ids generalizing I with
  | nil => exact .refl
  | cons id rest ih => exact holdSource_edits.trans ih

theorem holdSources_edits (ids : List BlockId) :
    Edits F ⟨I, d, k⟩ ⟨(I.holdSources ids).1, d, k⟩ := by
  unfold holdSources
  split
  · exact .refl
  · split
    · exact .refl
    · exact (Edits.one (.frame nextTick_same)).trans (holdSourcesLoop_edits ids)

theorem gatherSrc_edits : Edits F ⟨I, d, k⟩ ⟨(I.gatherSrc id).1, d, k⟩ := by
  have hE : Edits F ⟨I, d, k⟩ ⟨I.nextTick, d, k⟩ := Edits.one (.frame nextTick_same)
  unfold gatherSrc
  dsimp only
  cases hb : I.nextTick.block id with
  | none => exact hE
  | some b => exact hE.tail (.tick _ hb)

/-! ## tiers -/

theorem ensureDevice_edits (h : Own ⟨I, d, k⟩) (e : DevEnv) (htod : Except Err Unit)
    (hF : ∀ b x, I.block id = some b → b.place = .host x → F.ensure b)
    (hV : ∀ c v, (I.reclaimScan (I.reclaim c)).2 = some v → F.reclaim c v)
    (hpl : ∀ x, F.planned x → x ∈ d) : Edits F ⟨I, d, k⟩ ⟨(I.ensureDevice id e htod).1, d, k⟩ := by
  have hE : Edits F ⟨I, d, k⟩ ⟨I.nextTick, d, k⟩ := Edits.one (.frame nextTick_same)
  have hD := ensureDeviceLocked_edits (F := F) id (h.edits hE) e htod hF
    (fun c v hv => hV c v (by rwa [reclaimScan_congr (I := I) (J := I.nextTick) (fun _ => rfl)] at hv)) hpl
  unfold ensureDevice
  dsimp only
  split
  · next hr => rw [hr] at hD; exact hE.trans hD
  · next J va hr =>
    rw [hr] at hD
    cases hb : J.block id with
    | none => exact hE.trans hD
    | some b => exact (hE.trans hD).tail (.tick _ hb)

theorem verdict_tick {n : Nat} (hb : I.block id = some b) (j : BlockId) :
    (I.setBlock id { b with tick := n }).reclaimVerdict j = I.reclaimVerdict j := by
  unfold reclaimVerdict
  rw [block_setBlock hb]
  by_cases e : j = id
  · rw [e, update_self, hb]
  · rw [update_of_ne e]

theorem restoreAsync_edits (h : Own ⟨I, d, k⟩) (e : DevEnv) (htod : Except Err Unit)
    (fence : Except Err Nat)
    (hF : ∀ b x n, I.block id = some b → b.place = .host x → b.state ≠ .ready →
      F.ensure { b with tick := n })
    (hV : ∀ c v, (I.reclaimScan (I.reclaim c)).2 = some v → F.reclaim c v)
    (hpl : ∀ x, F.planned x → x ∈ d) (hf : ∀ f, fence = .ok f → F.start f) :
    Edits F ⟨I, d, k⟩ ⟨(I.restoreAsync id e htod fence).1, d, k⟩ := by
  have hE : Edits F ⟨I, d, k⟩ ⟨I.nextTick, d, k⟩ := Edits.one (.frame nextTick_same)
  unfold restoreAsync
  dsimp only
  cases hb : I.nextTick.block id with
  | none => exact hE
  | some b =>
    dsimp only
    set J := I.nextTick.setBlock id { b with tick := I.nextTick.tick } with hJ
    have hbJ : J.block id = some { b with tick := I.nextTick.tick } := by
      rw [hJ, block_setBlock hb, update_self]
    have hE : Edits F ⟨I, d, k⟩ ⟨J, d, k⟩ := hE.tail (.tick _ hb)
    have hO := h.edits hE
    have hV : ∀ c v, (J.reclaimScan (J.reclaim c)).2 = some v → F.reclaim c v := by
      intro c v hv
      rw [reclaimScan_congr (I := I) (J := J) (verdict_tick hb)] at hv
      exact hV c v hv
    cases hp : b.place with
    | device s => exact hE
    | spilling s x f => exact hE
    | restoring s x f => exact hE
    | host x =>
      dsimp only
      split
      · next hs =>
        have hD := ensureDeviceLocked_edits (F := F) id hO e htod (fun b' y hb' hp' => by
          cases hbJ.symm.trans hb'
          exact hF b x _ hb hp hs) hV hpl
        exact hE.trans hD
      · next hs =>
        have hs : b.state = .ready := by
          by_contra hc
          exact hs hc
        obtain ⟨hD, hS⟩ := deviceSlot_edits hO e (hV b.cls)
        cases hr : J.deviceSlot b.cls e with
        | mk K r =>
        rw [hr] at hD hS
        cases r with
        | error er => exact hE.trans hD
        | ok s =>
          have hD : Edits F ⟨J, d, k⟩ ⟨K, (b.cls, s) :: d, k⟩ := hD
          have hn : ¬ F.planned (b.cls, s) := fun hx => (hO.edits hD).hand_new (hpl _ hx)
          dsimp only
          cases fence with
          | error er => exact (hE.trans hD).tail (.putDev hn)
          | ok f =>
            have hbK : K.block id = some { b with tick := I.nextTick.tick } :=
              hS.block id _ hbJ ⟨x, hp⟩
            dsimp only
            rw [show ((K.log (.restore b.cls x s f)).setDevice b.cls
              ((K.device b.cls).assign s id)).block id = some { b with tick := I.nextTick.tick } from hbK]
            dsimp only
            have hR := (hE.trans hD).tail
              (.restore (b := { b with tick := I.nextTick.tick }) (f := f) hbK hp hs (hf f rfl) hn)
            exact hR.tail
              (.frame ⟨rfl, rfl, rfl, rfl, rfl, rfl, rfl, rfl, rfl, rfl, rfl, rfl, rfl⟩)

theorem evictId_edits : Edits F ⟨I, d, k⟩ ⟨I.evictId id, d, k⟩ := by
  unfold evictId
  cases hb : I.block id with
  | none => exact .refl
  | some b =>
    dsimp only
    split
    · next hc =>
      cases hp : b.place with
      | device s => exact Edits.one (.dropDev hb hp hc.1 hc.2.1 hc.2.2)
      | host x => exact Edits.one (.dropHost hb hp hc.1 hc.2.1)
      | spilling s x f => exact .refl
      | restoring s x f => exact .refl
    · exact .refl

/-- what `host_slot` does with an entry of the host queue -/
def hostVerdict (I : Inner) (id : BlockId) : Verdict :=
  match I.block id with
  | none => .skip
  | some b =>
    match b.place with
    | .host _ => if 0 < b.dependents then .skip else if 0 < b.holds then .stay else .take
    | _ => .skip

theorem hostScan_eq (l : List BlockId) : I.hostScan l = scan I.hostVerdict l := by
  induction l with
  | nil => rfl
  | cons id rest ih =>
    unfold scan hostScan hostVerdict
    cases I.block id with
    | none => exact ih
    | some b =>
      dsimp only
      cases b.place with
      | device s => exact ih
      | spilling s x f => exact ih
      | restoring s x f => exact ih
      | host x =>
        dsimp only
        by_cases hd : 0 < b.dependents
        · rw [if_pos hd, if_pos hd]
          exact ih
        · by_cases hh : 0 < b.holds
          · rw [if_neg hd, if_neg hd, if_pos hh, if_pos hh, ih]
            rfl
          · rw [if_neg hd, if_neg hd, if_neg hh, if_neg hh]

theorem hostVerdict_take : I.hostVerdict id = .take ↔
    ∃ b x, I.block id = some b ∧ b.place = .host x ∧ b.dependents = 0 ∧ b.holds = 0 := by
  unfold hostVerdict
  cases hb : I.block id with
  | none => simp
  | some b =>
    cases hp : b.place with
    | device s => simp [hp]
    | spilling s x f => simp [hp]
    | restoring s x f => simp [hp]
    | host x =>
      by_cases hd : 0 < b.dependents
      · simp [hp, hd, Nat.pos_iff_ne_zero.mp hd]
      · by_cases hh : 0 < b.holds
        · simp [hp, hd, hh, Nat.pos_iff_ne_zero.mp hh]
        · simp [hp, Nat.eq_zero_of_not_pos hd, Nat.eq_zero_of_not_pos hh]

theorem stale_of_hostSkip (h : I.hostVerdict id = .skip) : StaleHost I id := by
  unfold hostVerdict at h
  intro b hb
  rw [hb] at h
  dsimp only at h
  split at h
  · split at h
    · next hd => exact .inl hd
    · split at h <;> cases h
  · next hp => exact .inr hp

/-- the host slots in hand after a call for one of class `c` -/
def gotHost (c : Nat) (r : Option (Slot .host)) (k : List (Nat × Slot .host)) :
    List (Nat × Slot .host) :=
  match r with
  | some s => (c, s) :: k
  | none => k

theorem hostVictim_edits (h : Own ⟨I, d, k⟩) :
    Edits F ⟨I, d, k⟩ ⟨(I.hostVictim c).1, d, gotHost c (I.hostVictim c).2 k⟩ ∧
      Spares OnDevice I (I.hostVictim c).1 := by
  have hq : I.hostScan (I.hostReclaim c) = scan I.hostVerdict (I.hostReclaim c) := hostScan_eq _
  set q := (I.hostScan (I.hostReclaim c)).1 with hq'
  have hsub : q.Sublist (I.hostReclaim c) := by
    rw [hq', hq]
    exact scan_sublist _ _
  have hfil : ∀ p : BlockId → Bool, (∀ id, p id = true → ¬ StaleHost I id) →
      (∀ v, (I.hostScan (I.hostReclaim c)).2 = some v → p v = false) →
      q.filter p = (I.hostReclaim c).filter p := by
    intro p hp hv
    rw [hq', hq]
    rw [hq] at hv
    exact scan_filter _ _ p (fun j hj e => hp j hj (stale_of_hostSkip e)) hv
  cases hf : (I.hostScan (I.hostReclaim c)).2 with
  | none =>
    have e : I.hostVictim c = (I.setHostReclaim c q, none) := by
      unfold hostVictim
      simp only [hf, ← hq']
    rw [e]
    exact ⟨Edits.one (.trimHost hsub (fun p hp => hfil p hp fun v hv => by rw [hf] at hv; cases hv)),
      Spares.same rfl rfl rfl rfl⟩
  | some id =>
    obtain ⟨b, s, hb, hp, hd, hh⟩ := hostVerdict_take.mp (scan_found _ (hq ▸ hf)).2
    have hr := h.refilling_none hb (.inl (fun s' e => by rw [hp] at e; cases e))
    set I₁ := (I.setHostReclaim c q).dropBlock id with hI₁
    have hI₁' : I₁ = (I.dropBlock id).setHostReclaim c q := by
      rw [hI₁, dropBlock_host (I := I.setHostReclaim c q) hb hr hp, dropBlock_host hb hr hp]
      rfl
    have hE : Edits F ⟨I, d, k⟩ ⟨I₁, d, k⟩ := by
      rw [hI₁']
      refine (Edits.one (.dropHost hb hp hd hh)).tail (.trimHost ?_ (fun p hp' => ?_))
      · rw [hostReclaim_dropBlock]
        exact hsub
      · rw [hostReclaim_dropBlock]
        have hgone : ∀ j, j = id ∨ StaleHost I j → p j = false := by
          intro j hj
          by_contra hc
          refine hp' j (by simpa using hc) (fun b' hb' => ?_)
          rw [block_dropBlock hb] at hb'
          by_cases ej : j = id
          · rw [ej, update_self] at hb'
            cases hb'
          · rw [update_of_ne ej] at hb'
            exact hj.resolve_left ej b' hb'
        refine hfil p (fun j hj hs => ?_) (fun j hj => hgone j (.inl ?_))
        · rw [hgone j (.inr hs)] at hj
          cases hj
        · rw [hf] at hj
          exact (Option.some.inj hj).symm
    have hS : Spares OnDevice I I₁ :=
      Spares.trans (J := I.setHostReclaim c q) (Spares.same rfl rfl rfl rfl)
        (spares_dropBlock hb hr (by rintro ⟨x, hx⟩; rw [hp] at hx; cases hx) hd hh)
    have hO := h.edits hE
    unfold hostVictim
    simp only [hf, ← hq', ← hI₁]
    split
    · next s' sl ht =>
      exact ⟨hE.tail (.takeHost (takeNoGrow_took (hO.hostOk c) ht)),
        hS.trans (Spares.same rfl rfl rfl rfl)⟩
    · exact ⟨hE, hS⟩

theorem hostSlot_edits (h : Own ⟨I, d, k⟩) :
    Edits F ⟨I, d, k⟩ ⟨(I.hostSlot c).1, d, gotHost c (I.hostSlot c).2 k⟩ ∧
      Spares OnDevice I (I.hostSlot c).1 := by
  have hsame : ∀ p : Bool, Same I (if p then
      { I with hostSpare := update I.hostSpare c (I.hostSpare c).tail } else I) := by
    intro p
    split <;> exact ⟨rfl, rfl, rfl, rfl, rfl, rfl, rfl, rfl, rfl, rfl, rfl, rfl, rfl⟩
  have hS : ∀ p : Bool, Spares OnDevice I (if p then
      { I with hostSpare := update I.hostSpare c (I.hostSpare c).tail } else I) := by
    intro p
    split <;> exact Spares.same rfl rfl rfl rfl
  unfold hostSlot
  dsimp only
  set p := (I.host c).grows (I.hostCap - I.hostReserved) with hpdef
  have hE := Edits.one (.frame (F := F) (d := d) (k := k) (hsame p))
  have hO := h.edits hE
  split
  · next s sl ht =>
    have hT : Slab.Took ((if p then
        { I with hostSpare := update I.hostSpare c (I.hostSpare c).tail } else I).host c) s sl := by
      rw [(hsame p).host]
      exact Slab.take_ok (h.hostOk c) ht
    exact ⟨hE.tail (.takeHost hT), (hS p).trans (Spares.same rfl rfl rfl rfl)⟩
  · obtain ⟨hV, hVS⟩ := hostVictim_edits (c := c) (F := F) hO
    exact ⟨hE.trans hV, (hS p).trans hVS⟩

theorem spillOne_edits (h : Own ⟨I, d, k⟩) (fence : Except Err Nat)
    (hf : ∀ f, fence = .ok f → F.start f) : Edits F ⟨I, d, k⟩ ⟨I.spillOne id fence, d, k⟩ := by
  have hid : Edits F ⟨I, d, k⟩ ⟨I, d, k⟩ := .refl
  unfold spillOne
  cases hb : I.block id with
  | none => exact hid
  | some b =>
    dsimp only
    cases hp : b.place with
    | host x => exact hid
    | spilling s x f => exact hid
    | restoring s x f => exact hid
    | device s =>
      dsimp only
      split
      · exact hid
      · next hc =>
        rw [not_or, not_not] at hc
        obtain ⟨hE, hS⟩ := hostSlot_edits (c := b.cls) (F := F) h
        cases hr : I.hostSlot b.cls with
        | mk J r =>
        rw [hr] at hE hS
        cases r with
        | none => exact hE
        | some x =>
          have hE : Edits F ⟨I, d, k⟩ ⟨J, d, (b.cls, x) :: k⟩ := hE
          have hbJ : J.block id = some b := hS.block id b hb ⟨s, hp⟩
          cases fence with
          | error er => exact hE.tail .putHost
          | ok f =>
            dsimp only
            rw [hbJ]
            dsimp only
            have hR := hE.tail (.spill (f := f) hbJ hp hc.1 (by omega) (hf f rfl))
            exact hR.tail
              (.frame ⟨rfl, rfl, rfl, rfl, rfl, rfl, rfl, rfl, rfl, rfl, rfl, rfl, rfl⟩)

/-! ## retiring copies -/

theorem block_landRestore (hb : I.block id = some b) :
    (I.landRestore id b s x).block = update I.block id (some { b with place := .device s }) := by
  rw [← block_setBlock hb]
  unfold landRestore
  dsimp only
  split <;> rfl

theorem block_landSpill (hb : I.block id = some b) :
    (I.landSpill id b s x).block = update I.block id (some { b with place := .host x }) := by
  rw [← block_setBlock hb]
  unfold landSpill
  dsimp only
  split <;> rfl

/-- every restore that `reap_restores` lands meets `P` when it does -/
def Lands (P : Inner → BlockId → Prop) (query : Nat → Except Err Bool) : Nat → Inner → Prop
  | 0, _ => True
  | n + 1, I =>
    match I.restoring with
    | [] => True
    | id :: rest =>
      let J := { I with restoring := rest }
      match J.block id with
      | some b =>
        match b.place with
        | .restoring dev host fence =>
          if 0 < b.holds then Lands P query n { J with restoring := rest ++ [id] }
          else match query fence with
            | .ok true => P J id ∧ Lands P query n (J.landRestore id b dev host)
            | .ok false => True
            | .error _ => Lands P query n J
        | _ => Lands P query n J
      | none => Lands P query n J

section

variable (query : Nat → Except Err Bool)
include query

theorem lands_true (n : Nat) :
    Lands (fun _ _ => True) query n I := by
  induction n generalizing I with
  | zero => trivial
  | succ n ih =>
    unfold Lands
    split
    · trivial
    · dsimp only
      split
      · split
        · split
          · exact ih
          · split
            · exact ⟨trivial, ih⟩
            · trivial
            · exact ih
        · exact ih
      · exact ih

theorem reapRestoresLoop_edits (n : Nat)
    (hF : ∀ f, query f = .ok true → F.done f) (hR : Lands F.restored query n I) :
    Edits F ⟨I, d, k⟩ ⟨reapRestoresLoop query n I, d, k⟩ := by
  induction n generalizing I with
  | zero => exact .refl
  | succ n ih =>
    have hfr : ∀ l, Edits F ⟨I, d, k⟩ ⟨{ I with restoring := l }, d, k⟩ :=
      fun l => Edits.one (.frame ⟨rfl, rfl, rfl, rfl, rfl, rfl, rfl, rfl, rfl, rfl, rfl, rfl, rfl⟩)
    unfold reapRestoresLoop
    unfold Lands at hR
    cases hq : I.restoring with
    | nil => exact .refl
    | cons id rest =>
      simp only [hq] at hR
      dsimp only
      cases hb : ({ I with restoring := rest } : Inner).block id with
      | none =>
        rw [hb] at hR
        exact (hfr rest).trans (ih hR)
      | some b =>
        rw [hb] at hR
        dsimp only at hR ⊢
        cases hp : b.place with
        | device s => rw [hp] at hR; exact (hfr rest).trans (ih hR)
        | spilling s x f => rw [hp] at hR; exact (hfr rest).trans (ih hR)
        | host x => rw [hp] at hR; exact (hfr rest).trans (ih hR)
        | restoring s x f =>
          rw [hp] at hR
          dsimp only at hR ⊢
          split
          · next hh =>
            rw [if_pos hh] at hR
            exact (hfr _).trans (ih hR)
          · next hh =>
            rw [if_neg hh] at hR
            split
            · next hf =>
              rw [hf] at hR
              exact ((hfr rest).tail (.landRestore hb hp (by omega) (hF f hf) hR.1)).trans (ih hR.2)
            · exact .refl
            · next hf =>
              rw [hf] at hR
              exact (hfr rest).trans (ih hR)

theorem reapRestores_edits (hF : ∀ f, query f = .ok true → F.done f)
    (hR : Lands F.restored query I.restoring.length I) :
    Edits F ⟨I, d, k⟩ ⟨I.reapRestores query, d, k⟩ :=
  reapRestoresLoop_edits query _ hF hR

theorem reapLoop_edits (n : Nat)
    (hF : ∀ f, query f = .ok true → F.done f) : Edits F ⟨I, d, k⟩ ⟨reapLoop query n I, d, k⟩ := by
  induction n generalizing I with
  | zero => exact .refl
  | succ n ih =>
    have hfr : ∀ l m, Edits F ⟨I, d, k⟩
        ⟨{ I with spilling := l, spillingBytes := m }, d, k⟩ :=
      fun l m => Edits.one (.frame ⟨rfl, rfl, rfl, rfl, rfl, rfl, rfl, rfl, rfl, rfl, rfl, rfl, rfl⟩)
    unfold reapLoop
    cases hq : I.spilling with
    | nil => exact .refl
    | cons e rest =>
      obtain ⟨id, queued⟩ := e
      dsimp only
      cases hb : ({ I with spilling := rest } : Inner).block id with
      | none => exact (hfr rest _).trans ih
      | some b =>
        dsimp only
        cases hp : b.place with
        | device s => exact (hfr rest _).trans ih
        | restoring s x f => exact (hfr rest _).trans ih
        | host x => exact (hfr rest _).trans ih
        | spilling s x f =>
          dsimp only
          split
          · exact (hfr _ _).trans ih
          · next hh =>
            split
            · next hf =>
              exact ((hfr rest (I.spillingBytes - queued)).tail
                (.landSpill hb hp (by omega) (hF f hf))).trans ih
            · exact .refl
            · exact (hfr rest _).trans ih

theorem reap_edits (hF : ∀ f, query f = .ok true → F.done f)
    (hR : Lands F.restored query I.restoring.length I) : Edits F ⟨I, d, k⟩ ⟨I.reap query, d, k⟩ :=
  (reapRestores_edits query hF hR).trans (reapLoop_edits query _ hF)

end

/-! ## shrink -/

theorem reclaimable_idle {id : BlockId} (h : I.reclaimable id = true) (hb : I.block id = some b) :
    Idle b := by
  unfold reclaimable at h
  rw [hb] at h
  split at h
  · next hb' =>
    cases hb'
    exact ⟨rfl, rfl, by simpa using h, _, rfl⟩
  · cases h
  · next hb' => cases hb'

theorem dropAll_edits (ids : List BlockId) (hi : ∀ id ∈ ids, ∀ b, I.block id = some b → Idle b) :
    Edits F ⟨I, d, k⟩ ⟨I.dropAll ids, d, k⟩ := by
  induction ids generalizing I with
  | nil => exact .refl
  | cons id rest ih =>
    show Edits F _ ⟨(I.dropBlock id).dropAll rest, d, k⟩
    cases hb : I.block id with
    | none =>
      have e : I.dropBlock id = I := by
        unfold dropBlock
        rw [hb]
      rw [e]
      exact ih (fun j hj => hi j (mem_cons_of_mem _ hj))
    | some b =>
      obtain ⟨hd, hh, hs, s, hp⟩ := hi id mem_cons_self b hb
      refine (Edits.one (.dropDev hb hp hd hh hs)).trans (ih (fun j hj b' hb' => ?_))
      rw [block_dropBlock hb] at hb'
      by_cases e : j = id
      · rw [e, update_self] at hb'
        cases hb'
      · rw [update_of_ne e] at hb'
        exact hi j (mem_cons_of_mem _ hj) b' hb'

theorem releaseClassEmpty_edits (h : Own ⟨I, d, k⟩) :
    Edits F ⟨I, d, k⟩ ⟨(I.releaseClassEmpty c).1, d, k⟩ :=
  Edits.one (.retire (Slab.releaseEmptyChunks_released (h.devOk c)))

theorem releaseReclaimableClass_edits (c bytes : Nat) (l : List Nat) (freed : List (Chunk .dev))
    (h : Own ⟨I, d, k⟩) :
    Edits F ⟨I, d, k⟩ ⟨(releaseReclaimableClass c bytes l I freed).1, d, k⟩ := by
  induction l generalizing I freed with
  | nil => exact .refl
  | cons chunk rest ih =>
    unfold releaseReclaimableClass
    split
    · exact .refl
    · dsimp only
      split
      · next hall =>
        rw [all_eq_true] at hall
        have hD := dropAll_edits (F := F) (d := d) (k := k) ((I.device c).occupants chunk)
          (fun id hid b hb => reclaimable_idle (hall id hid) hb)
        have hO := h.edits hD
        have hR := releaseClassEmpty_edits (F := F) (c := c) hO
        exact (hD.trans hR).trans (ih _ (hO.edits hR))
      · exact ih _ h

theorem releaseReclaimableLoop_edits (bytes : Nat) (l : List Nat) (freed : List (Chunk .dev))
    (h : Own ⟨I, d, k⟩) : Edits F ⟨I, d, k⟩ ⟨(releaseReclaimableLoop bytes l I freed).1, d, k⟩ := by
  induction l generalizing I freed with
  | nil => exact .refl
  | cons c rest ih =>
    unfold releaseReclaimableLoop
    have hC := releaseReclaimableClass_edits (F := F) c bytes (I.device c).releaseCandidates
      freed h
    exact hC.trans (ih _ (h.edits hC))

def Settled (b : Block) : Prop :=
  b.holds = 0 ∧ b.state ≠ .filling ∧ (∃ s, b.place = .device s) ∧
    ¬ (b.state = .failed ∧ 0 < b.dependents)

theorem chunkLive_settled (l : List BlockId) {n : Nat} (h : I.chunkLive l = some n) :
    ∀ id ∈ l, ∀ b, I.block id = some b → Settled b := by
  induction l generalizing n with
  | nil => intro id hid; cases hid
  | cons j rest ih =>
    intro id hid b hb
    unfold chunkLive at h
    cases hj : I.block j with
    | none =>
      rw [hj] at h
      rcases mem_cons.mp hid with e | hid
      · rw [e, hj] at hb
        cases hb
      · exact ih h id hid b hb
    | some bj =>
      rw [hj] at h
      dsimp only at h
      split at h
      · cases h
      · next hc =>
        rw [not_or] at hc
        split at h
        · next s hp =>
          split at h
          · cases h
          · next hf =>
            rcases mem_cons.mp hid with e | hid
            · rw [e, hj] at hb
              cases hb
              exact ⟨by omega, hc.2, ⟨s, hp⟩, hf⟩
            · split at h
              · obtain ⟨m, hm, -⟩ := Option.map_eq_some_iff.mp h
                exact ih hm id hid b hb
              · exact ih h id hid b hb
        · cases h

theorem makeHoles_edits (c chunk : Nat) (q : List BlockId) (n : Nat) (h : Own ⟨I, d, k⟩) :
    Edits F ⟨I, d, k⟩ ⟨(makeHoles c chunk q n I).1, d, k⟩ ∧
      (∀ j b, (makeHoles c chunk q n I).1.block j = some b → I.block j = some b) ∧
      (makeHoles c chunk q n I).1.reclaim = I.reclaim ∧ (makeHoles c chunk q n I).2.2.Sublist q ∧
      ∀ p : BlockId → Bool, (∀ id, p id = true → ¬ Stale (makeHoles c chunk q n I).1 id) →
        (makeHoles c chunk q n I).2.2.filter p = q.filter p := by
  induction q generalizing I n with
  | nil =>
    cases n <;>
      exact ⟨.refl, fun _ _ hb => hb, rfl, .refl _, fun _ _ => rfl⟩
  | cons j rest ih =>
    cases n with
    | zero =>
      exact ⟨.refl, fun _ _ hb => hb, rfl, .refl _, fun _ _ => rfl⟩
    | succ n =>
      -- the entry leaves the queue, or stays in it
      have hskip : ∀ m, Stale (makeHoles c chunk rest m I).1 j →
          Edits F ⟨I, d, k⟩ ⟨(makeHoles c chunk rest m I).1, d, k⟩ ∧
          (∀ i b, (makeHoles c chunk rest m I).1.block i = some b → I.block i = some b) ∧
          (makeHoles c chunk rest m I).1.reclaim = I.reclaim ∧
          (makeHoles c chunk rest m I).2.2.Sublist (j :: rest) ∧
          ∀ p : BlockId → Bool, (∀ id, p id = true → ¬ Stale (makeHoles c chunk rest m I).1 id) →
            (makeHoles c chunk rest m I).2.2.filter p = (j :: rest).filter p := by
        intro m hs
        obtain ⟨h1, h2, h3, hs', h4⟩ := ih m h
        refine ⟨h1, h2, h3, hs'.cons j, fun p hp => ?_⟩
        rw [h4 p hp, filter_cons_of_neg (fun e => hp j e hs)]
      have hkeep : Edits F ⟨I, d, k⟩ ⟨(makeHoles c chunk rest (n + 1) I).1, d, k⟩ ∧
          (∀ i b, (makeHoles c chunk rest (n + 1) I).1.block i = some b → I.block i = some b) ∧
          (makeHoles c chunk rest (n + 1) I).1.reclaim = I.reclaim ∧
          (j :: (makeHoles c chunk rest (n + 1) I).2.2).Sublist (j :: rest) ∧
          ∀ p : BlockId → Bool,
            (∀ id, p id = true → ¬ Stale (makeHoles c chunk rest (n + 1) I).1 id) →
            (j :: (makeHoles c chunk rest (n + 1) I).2.2).filter p = (j :: rest).filter p := by
        obtain ⟨h1, h2, h3, hs', h4⟩ := ih (n + 1) h
        refine ⟨h1, h2, h3, hs'.cons_cons j, fun p hp => ?_⟩
        rw [filter_cons, filter_cons, h4 p hp]
      cases hb : I.block j with
      | none =>
        simp only [makeHoles, hb]
        refine hskip (n + 1) (fun b' hb' => ?_)
        rw [(ih (n + 1) h).2.1 j b' hb'] at hb
        cases hb
      | some b =>
        simp only [makeHoles, hb]
        by_cases hd : 0 < b.dependents
        · rw [if_pos hd]
          refine hskip (n + 1) (fun b' hb' => ?_)
          cases hb.symm.trans ((ih (n + 1) h).2.1 j b' hb')
          exact .inl hd
        · rw [if_neg hd]
          cases hp : b.place with
          | spilling s x f => exact hkeep
          | restoring s x f => exact hkeep
          | host x => exact hkeep
          | device s =>
            dsimp only
            split
            · exact hkeep
            · next hc =>
              rw [not_or, not_or] at hc
              have hE : Edits F ⟨I, d, k⟩ ⟨I.dropBlock j, d, k⟩ :=
                Edits.one (.dropDev hb hp (by omega) (by omega) hc.2.1)
              obtain ⟨h1, h2, h3, hs', h4⟩ := ih n (h.edits hE)
              have hgone : ∀ i b', (I.dropBlock j).block i = some b' → i ≠ j ∧ I.block i = some b' := by
                intro i b' hb'
                rw [block_dropBlock hb] at hb'
                by_cases e : i = j
                · rw [e, update_self] at hb'
                  cases hb'
                · rw [update_of_ne e] at hb'
                  exact ⟨e, hb'⟩
              refine ⟨hE.trans h1, fun i b' hb' => (hgone i b' (h2 i b' hb')).2,
                h3.trans reclaim_dropBlock, hs'.cons j, fun p hp => ?_⟩
              rw [h4 p hp, filter_cons_of_neg (fun e => hp j e ?_)]
              exact fun b' hb' => absurd rfl (hgone j b' (h2 j b' hb')).1

def dests (p : CompactionPlan) : List (Nat × Slot .dev) := p.moves.map (fun m => (p.cls, m.2.2))

theorem planMoves_edits (chunk : Nat) (ids : List BlockId) (p : CompactionPlan)
    (h : Own ⟨I, dests p ++ d, k⟩)
    (hi : ∀ id ∈ ids, ∀ b, I.block id = some b → b.dependents = 0 → Idle b) :
    Edits F ⟨I, dests p ++ d, k⟩
        ⟨(planMoves p.cls chunk ids I p).1, dests (planMoves p.cls chunk ids I p).2 ++ d, k⟩ := by
  induction ids generalizing I p with
  | nil => exact .refl
  | cons id rest ih =>
    have hi' : ∀ j ∈ rest, ∀ b, I.block j = some b → b.dependents = 0 → Idle b :=
      fun j hj => hi j (mem_cons_of_mem _ hj)
    unfold planMoves
    cases hb : I.block id with
    | none => exact ih p h hi'
    | some b =>
      dsimp only
      split
      · next hd =>
        obtain ⟨_, hh, hs, s, hp⟩ := hi id mem_cons_self b hb hd
        have hE : Edits F ⟨I, dests p ++ d, k⟩ ⟨I.dropBlock id, dests p ++ d, k⟩ :=
          Edits.one (.dropDev hb hp hd hh hs)
        refine hE.trans (ih p (h.edits hE) (fun j hj b' hb' => ?_))
        rw [block_dropBlock hb] at hb'
        by_cases e : j = id
        · rw [e, update_self] at hb'
          cases hb'
        · rw [update_of_ne e] at hb'
          exact hi' j hj b' hb'
      · next hd =>
        split
        · next src hp =>
          split
          · exact .refl
          · next dst sl ht =>
            set p' : CompactionPlan := ⟨p.cls, p.moves ++ [(id, src, dst)], p.copies ++
              [(((I.setDevice p.cls sl).device p.cls).va dst,
                ((I.setDevice p.cls sl).device p.cls).va src,
                ((I.setDevice p.cls sl).spec p.cls).blockBytes)]⟩ with hp'
            have hT := (Slab.takeOutside_ok (h.devOk p.cls) ht).1
            have hE : Edits F ⟨I, dests p ++ d, k⟩
                ⟨(I.setDevice p.cls sl).setBlock id { b with holds := b.holds + 1 },
                  dests p' ++ d, k⟩ := by
              have h1 := (Edits.one (F := F) (.takeDev (d := dests p ++ d) (k := k) hT)).tail
                (.hold b.tick hb)
              refine h1.tail (.perm ?_ (.refl _))
              unfold dests
              rw [hp', map_append, append_assoc]
              exact perm_middle.symm
            refine hE.trans (ih p' (h.edits hE) (fun j hj b' hb' hd' => ?_))
            rw [block_setBlock (I := I.setDevice p.cls sl) hb] at hb'
            by_cases e : j = id
            · rw [e, update_self] at hb'
              cases hb'
              exact absurd hd' hd
            · rw [update_of_ne e] at hb'
              exact hi' j hj b' hb' hd'
        · exact ih p h hi'

/-- the moves that `planMoves` adds, each of a block that is in use and gets one hold -/
structure Moved (I : Inner) (p : CompactionPlan) (ids : List BlockId) (R : Inner × CompactionPlan) :
    Prop where
  cls : R.2.cls = p.cls
  moves : ∃ l, R.2.moves = p.moves ++ l ∧ (l.map Prod.fst).Sublist ids ∧
    ∀ m ∈ l, ∃ b, I.block m.1 = some b ∧ b.dependents ≠ 0 ∧ b.place = .device m.2.1 ∧
      R.1.block m.1 = some { b with holds := b.holds + 1 }
  same : ∀ j, j ∉ ids → R.1.block j = I.block j

theorem Moved.skip {p : CompactionPlan} {ids : List BlockId} {R : Inner × CompactionPlan}
    (h : Moved J p ids R) (hJ : ∀ j, j ≠ id → J.block j = I.block j) (hid : id ∉ ids) :
    Moved I p (id :: ids) R where
  cls := h.cls
  moves := by
    obtain ⟨l, hl, hs, hm⟩ := h.moves
    refine ⟨l, hl, hs.cons id, fun m hml => ?_⟩
    have hne : m.1 ≠ id := fun e => hid (e ▸ hs.subset (mem_map_of_mem hml))
    obtain ⟨b, hb, hrest⟩ := hm m hml
    exact ⟨b, (hJ m.1 hne).symm.trans hb, hrest⟩
  same j hj := by
    rw [mem_cons, not_or] at hj
    rw [h.same j hj.2, hJ j hj.1]

theorem planMoves_moved (c chunk : Nat) (ids : List BlockId) (p : CompactionPlan) (hc : p.cls = c)
    (hn : ids.Nodup) : Moved I p ids (planMoves c chunk ids I p) := by
  induction ids generalizing I p with
  | nil => exact ⟨rfl, ⟨[], (append_nil _).symm, .refl _, fun m hm => by cases hm⟩,
      fun _ _ => rfl⟩
  | cons id rest ih =>
    obtain ⟨hid, hn⟩ := nodup_cons.mp hn
    unfold planMoves
    cases hb : I.block id with
    | none => exact (ih p hc hn).skip (fun _ _ => rfl) hid
    | some b =>
      dsimp only
      split
      · exact (ih p hc hn).skip (fun j hj => by rw [block_dropBlock hb, update_of_ne hj]) hid
      · next hd =>
        split
        · next src hp =>
          split
          · exact ⟨rfl, ⟨[], (append_nil _).symm, nil_sublist _, fun m hm => by cases hm⟩,
              fun _ _ => rfl⟩
          · next dst sl ht =>
            set I₁ := (I.setDevice c sl).setBlock id { b with holds := b.holds + 1 } with hI₁
            have hbl : I₁.block = update I.block id (some { b with holds := b.holds + 1 }) :=
              block_setBlock (I := I.setDevice c sl) hb _
            have hM := ih (I := I₁) ⟨p.cls, p.moves ++ [(id, src, dst)], p.copies ++
              [(((I.setDevice c sl).device c).va dst, ((I.setDevice c sl).device c).va src,
                ((I.setDevice c sl).spec c).blockBytes)]⟩ hc hn
            obtain ⟨l, hl, hs, hm⟩ := hM.moves
            refine ⟨hM.cls, ⟨(id, src, dst) :: l, by rw [hl]; simp, hs.cons_cons id, ?_⟩, ?_⟩
            · intro m hml
              rcases mem_cons.mp hml with rfl | hml
              · refine ⟨b, hb, hd, hp, ?_⟩
                rw [hM.same id hid, hbl, update_self]
              · have hne : m.1 ≠ id := fun e => hid (e ▸ hs.subset (mem_map_of_mem hml))
                obtain ⟨b', hb', hrest⟩ := hm m hml
                rw [hbl, update_of_ne hne] at hb'
                exact ⟨b', hb', hrest⟩
            · intro j hj
              rw [mem_cons, not_or] at hj
              rw [hM.same j hj.2, hbl, update_of_ne hj.1]
        · exact (ih p hc hn).skip (fun _ _ => rfl) hid

/-- an issued id whose block, while it lives, is of class `c` -/
def OfClass (I : Inner) (c : Nat) (id : BlockId) : Prop :=
  I.Issued id ∧ ∀ b, I.block id = some b → b.cls = c

theorem OfClass.keeps (h : OfClass I c id) (hk : Keeps I J) : OfClass J c id := by
  refine ⟨hk.issued id h.1, fun b hb => ?_⟩
  obtain ⟨b₀, hb₀, hc, _⟩ := hk.stays id b h.1 hb
  exact hc.trans (h.2 b₀ hb₀)

theorem occupants_ofClass (h : Own ⟨I, d, k⟩) {chunk : Nat}
    (hm : id ∈ (I.device c).occupants chunk) : OfClass I c id := by
  obtain ⟨i, _, hi⟩ := mem_filterMap.mp hm
  have hu : devUse I id = some (c, ⟨chunk * (I.device c).chunkSlots + i⟩) :=
    (h.owner (c, ⟨chunk * (I.device c).chunkSlots + i⟩) id).mp hi
  cases hb : I.block id with
  | none =>
    unfold devUse at hu
    rw [hb] at hu
    cases hu
  | some b =>
    rw [devUse_of_block hb] at hu
    obtain ⟨s, _, hs⟩ := Option.map_eq_some_iff.mp hu
    refine ⟨h.entries.issued hb, fun b' hb' => ?_⟩
    cases hb.symm.trans hb'
    exact (Prod.mk.inj hs).1

theorem occupants_nodup (h : Own ⟨I, d, k⟩) (chunk : Nat) :
    ((I.device c).occupants chunk).Nodup := by
  refine List.Nodup.filterMap (fun i i' id hi hi' => ?_) nodup_range
  have e := ((h.owner (c, ⟨chunk * (I.device c).chunkSlots + i⟩) id).mp hi).symm.trans
    ((h.owner (c, ⟨chunk * (I.device c).chunkSlots + i'⟩) id).mp hi')
  have e := congrArg Slot.ix (Prod.mk.inj (Option.some.inj e)).2
  exact Nat.add_left_cancel e

def gotPlan (o : Option CompactionPlan) (d : List (Nat × Slot .dev)) : List (Nat × Slot .dev) :=
  match o with
  | some p => dests p ++ d
  | none => d

def PlanOk (I : Inner) (o : Option CompactionPlan) : Prop :=
  ∀ p, o = some p → ∀ m ∈ p.moves, OfClass I p.cls m.1

/-- the plan was made from a state `J` on the way, of blocks that nothing held -/
def PlanMade (F : Facts) (H : Hands) (o : Option CompactionPlan) (K : Inner) : Prop :=
  ∀ p, o = some p → ∃ J, Edits F H ⟨J, H.dev, H.host⟩ ∧ (p.moves.map Prod.fst).Nodup ∧
    ∀ m ∈ p.moves, ∃ b, J.block m.1 = some b ∧ b.cls = p.cls ∧ b.state = .ready ∧ b.holds = 0 ∧
      b.place = .device m.2.1 ∧ K.block m.1 = some { b with holds := 1 }

theorem PlanMade.none (K : Inner) {H : Hands} : PlanMade F H none K := fun p hp => by cases hp

theorem PlanMade.after (hE : Edits F ⟨I, d, k⟩ ⟨J, d, k⟩)
    (h : PlanMade F ⟨J, d, k⟩ o K) : PlanMade F ⟨I, d, k⟩ o K := by
  intro p hp
  obtain ⟨J', hJ', h⟩ := h p hp
  exact ⟨J', hE.trans hJ', h⟩

theorem PlanMade.ok {H : Hands} (h : PlanMade F H o K) (hK : K.Entries) : PlanOk K o := by
  intro p hp m hm
  obtain ⟨_, _, _, h⟩ := h p hp
  obtain ⟨b, _, hc, _, _, _, hb⟩ := h m hm
  refine ⟨hK.issued hb, fun b' hb' => ?_⟩
  rw [← Option.some.inj (hb.symm.trans hb')]
  exact hc

theorem planChunk_edits (c chunk : Nat) (h : Own ⟨I, d, k⟩) :
    Edits F ⟨I, d, k⟩ ⟨(I.planChunk c chunk).1, gotPlan (I.planChunk c chunk).2 d, k⟩ ∧
      PlanMade F ⟨I, d, k⟩ (I.planChunk c chunk).2 (I.planChunk c chunk).1 := by
  -- the moves of a chunk that is settled, from any later state
  have hmoves : ∀ J : Inner, Edits F ⟨I, d, k⟩ ⟨J, d, k⟩ →
      (∀ id ∈ (I.device c).occupants chunk, ∀ b, J.block id = some b → Settled b) →
      Edits F ⟨I, d, k⟩ ⟨(planMoves c chunk ((I.device c).occupants chunk) J ⟨c, [], []⟩).1,
        gotPlan (some (planMoves c chunk ((I.device c).occupants chunk) J ⟨c, [], []⟩).2) d, k⟩ ∧
      PlanMade F ⟨I, d, k⟩ (some (planMoves c chunk ((I.device c).occupants chunk) J ⟨c, [], []⟩).2)
        (planMoves c chunk ((I.device c).occupants chunk) J ⟨c, [], []⟩).1 := by
    intro J hE hset
    refine ⟨hE.trans (planMoves_edits (F := F) (d := d) (k := k) chunk
      ((I.device c).occupants chunk) ⟨c, [], []⟩ (h.edits hE)
      (fun id hid b hb hd => ⟨hd, (hset id hid b hb).1, (hset id hid b hb).2.1, (hset id hid b hb).2.2.1⟩)),
      fun p hp => ⟨J, hE, ?_⟩⟩
    cases hp
    have hM := planMoves_moved (I := J) c chunk ((I.device c).occupants chunk) ⟨c, [], []⟩ rfl
      (occupants_nodup h chunk)
    obtain ⟨l, hl, hs, hm⟩ := hM.moves
    rw [hl, nil_append]
    refine ⟨hs.nodup (occupants_nodup h chunk), fun m hml => ?_⟩
    obtain ⟨b, hb, hd, hp', hb'⟩ := hm m hml
    have hmid : m.1 ∈ (I.device c).occupants chunk := hs.subset (mem_map_of_mem hml)
    obtain ⟨hh, hns, _, hnf⟩ := hset m.1 hmid b hb
    refine ⟨b, hb, ?_, ?_, hh, hp', ?_⟩
    · rw [hM.cls]
      exact ((occupants_ofClass h hmid).keeps (Keeps.edits h hE)).2 b hb
    · cases hst : b.state with
      | ready => rfl
      | filling => exact absurd hst hns
      | failed => exact absurd ⟨hst, Nat.pos_of_ne_zero hd⟩ hnf
    · rw [hb', hh]
  unfold planChunk
  dsimp only
  cases hl : I.chunkLive ((I.device c).occupants chunk) with
  | none => exact ⟨.refl, PlanMade.none I⟩
  | some live =>
    have hset := chunkLive_settled _ hl
    dsimp only
    split
    · exact hmoves I .refl hset
    · obtain ⟨h1, h2, h3, hs, h4⟩ := makeHoles_edits (F := F) c chunk (I.reclaim c)
        (live - (I.device c).holesOutside chunk) h
      have hE : Edits F ⟨I, d, k⟩ ⟨((makeHoles c chunk (I.reclaim c)
          (live - (I.device c).holesOutside chunk) I).1.setReclaim c (makeHoles c chunk (I.reclaim c)
          (live - (I.device c).holesOutside chunk) I).2.2), d, k⟩ := by
        refine h1.tail (.trim ?_ (fun p hp => ?_))
        · rw [h3]
          exact hs
        · rw [h3]
          exact h4 p hp
      split
      · exact ⟨hE, PlanMade.none _⟩
      · exact hmoves _ hE (fun id hid b hb => hset id hid b (h2 id b hb))

theorem planClass_edits (c : Nat) (l : List Nat) (h : Own ⟨I, d, k⟩) :
    Edits F ⟨I, d, k⟩ ⟨(planClass c l I).1, gotPlan (planClass c l I).2 d, k⟩ ∧
      PlanMade F ⟨I, d, k⟩ (planClass c l I).2 (planClass c l I).1 := by
  induction l generalizing I with
  | nil => exact ⟨.refl, PlanMade.none I⟩
  | cons chunk rest ih =>
    obtain ⟨h1, h2⟩ := planChunk_edits (F := F) c chunk h
    unfold planClass
    split
    · next hr => rw [hr] at h1 h2; exact ⟨h1, h2⟩
    · next hr =>
      rw [hr] at h1
      obtain ⟨h3, h4⟩ := ih (h.edits h1)
      exact ⟨h1.trans h3, h4.after h1⟩

theorem planLoop_edits (l : List Nat) (h : Own ⟨I, d, k⟩) :
    Edits F ⟨I, d, k⟩ ⟨(planLoop l I).1, gotPlan (planLoop l I).2 d, k⟩ ∧
      PlanMade F ⟨I, d, k⟩ (planLoop l I).2 (planLoop l I).1 := by
  induction l generalizing I with
  | nil => exact ⟨.refl, PlanMade.none I⟩
  | cons c rest ih =>
    obtain ⟨h1, h2⟩ := planClass_edits (F := F) c (I.device c).releaseCandidates h
    unfold planLoop
    split
    · next hr => rw [hr] at h1 h2; exact ⟨h1, h2⟩
    · next hr =>
      rw [hr] at h1
      obtain ⟨h3, h4⟩ := ih (h.edits h1)
      exact ⟨h1.trans h3, h4.after h1⟩

theorem shrinkBegin_edits (bytes : Nat) (h : Own ⟨I, d, k⟩) :
    Edits F ⟨I, d, k⟩ ⟨(I.shrinkBegin bytes).1, gotPlan (I.shrinkBegin bytes).2.2 d, k⟩ ∧
      PlanMade F ⟨I, d, k⟩ (I.shrinkBegin bytes).2.2 (I.shrinkBegin bytes).1 := by
  have hR := releaseReclaimableLoop_edits (F := F) (min bytes shrinkStepBytes)
    (List.range I.nClasses) [] h
  unfold shrinkBegin
  dsimp only
  split
  · obtain ⟨h1, h2⟩ := planLoop_edits (F := F) (List.range (releaseReclaimableLoop
      (min bytes shrinkStepBytes) (List.range I.nClasses) I []).1.nClasses) (h.edits hR)
    exact ⟨hR.trans h1, h2.after hR⟩
  · exact ⟨hR, PlanMade.none _⟩

theorem commitMove_edits (copied : Bool) {m : BlockId × Slot .dev × Slot .dev}
    (hm : OfClass I c m.1) (hF : F.unpin) (hn : ¬ F.planned (c, m.2.2)) :
    Edits F ⟨I, (c, m.2.2) :: d, k⟩ ⟨commitMove c copied I m, d, k⟩ := by
  unfold commitMove
  cases hb : I.block m.1 with
  | none => exact Edits.one (.putDev hn)
  | some b =>
    dsimp only
    split
    · next hc =>
      obtain rfl := hm.2 b hb
      exact Edits.one (.move hb hc.2.2 hc.2.1 hF hn)
    · exact (Edits.one (.putDev (s := m.2.2) hn)).tail (.unhold hb hF)

theorem commitMoves_edits (copied : Bool) (l : List (BlockId × Slot .dev × Slot .dev))
    (h : Own ⟨I, l.map (fun m => (c, m.2.2)) ++ d, k⟩) (hm : ∀ m ∈ l, OfClass I c m.1)
    (hF : F.unpin) (hpl : ∀ x, F.planned x → x ∈ d) :
    Edits F ⟨I, l.map (fun m => (c, m.2.2)) ++ d, k⟩ ⟨l.foldl (commitMove c copied) I, d, k⟩ := by
  induction l generalizing I with
  | nil => exact .refl
  | cons m rest ih =>
    have hE : Edits F ⟨I, (m :: rest).map (fun m => (c, m.2.2)) ++ d, k⟩
        ⟨commitMove c copied I m, rest.map (fun m => (c, m.2.2)) ++ d, k⟩ :=
      commitMove_edits copied (hm m mem_cons_self) hF
        (fun hx => h.hand_new (mem_append_right _ (hpl _ hx)))
    refine hE.trans (ih (h.edits hE) (fun m' hm' => ?_))
    exact (hm m' (mem_cons_of_mem _ hm')).keeps (Keeps.edits h hE)

theorem releaseEmptyLoop_edits (l : List Nat) (freed : List (Chunk .dev)) (h : Own ⟨I, d, k⟩) :
    Edits F ⟨I, d, k⟩ ⟨(releaseEmptyLoop l I freed).1, d, k⟩ := by
  induction l generalizing I freed with
  | nil => exact .refl
  | cons c rest ih =>
    have hR := releaseClassEmpty_edits (F := F) (c := c) h
    exact hR.trans (ih _ (h.edits hR))

theorem compactionCommit_edits (p : CompactionPlan) (copied : Bool)
    (h : Own ⟨I, dests p ++ d, k⟩) (hp : ∀ m ∈ p.moves, OfClass I p.cls m.1) (hF : F.unpin)
    (hpl : ∀ x, F.planned x → x ∈ d) :
    Edits F ⟨I, dests p ++ d, k⟩ ⟨(I.compactionCommit p copied).1, d, k⟩ := by
  have hC := commitMoves_edits (F := F) copied p.moves h hp hF hpl
  exact hC.trans (releaseEmptyLoop_edits _ _ (h.edits hC))

theorem shrinkEnd_edits (released : Nat) (plan : Option CompactionPlan) (copied : Bool) (now : Nat)
    (h : Own ⟨I, gotPlan plan d, k⟩) (hp : PlanOk I plan) (hF : F.unpin)
    (hpl : ∀ x, F.planned x → x ∈ d) :
    Edits F ⟨I, gotPlan plan d, k⟩ ⟨(I.shrinkEnd released plan copied now).1, d, k⟩ := by
  have hfr : ∀ J : Inner, Edits F ⟨J, d, k⟩ ⟨{ J with growHoldUntil := some (now + growHold) }, d, k⟩ :=
    fun J => Edits.one (.frame ⟨rfl, rfl, rfl, rfl, rfl, rfl, rfl, rfl, rfl, rfl, rfl, rfl, rfl⟩)
  unfold shrinkEnd
  cases plan with
  | none =>
    dsimp only
    split
    · exact hfr I
    · exact .refl
  | some p =>
    have hC := compactionCommit_edits (F := F) p copied h (hp p rfl) hF hpl
    dsimp only
    split
    · exact hC.trans (hfr _)
    · exact hC

/-! ## the host grower -/

theorem growPick_edits (avail : Option Nat) : Edits F ⟨I, d, k⟩ ⟨(I.growPick avail).1, d, k⟩ := by
  unfold growPick
  split
  · exact .refl
  · split
    · exact .refl
    · dsimp only
      split
      · exact Edits.one (.frame ⟨rfl, rfl, rfl, rfl, rfl, rfl, rfl, rfl, rfl, rfl, rfl, rfl, rfl⟩)
      · exact Edits.one (.frame ⟨rfl, rfl, rfl, rfl, rfl, rfl, rfl, rfl, rfl, rfl, rfl, rfl, rfl⟩)

theorem growLand_edits (c chunk : Nat) (ptr : Except Err Nat) :
    Edits F ⟨I, d, k⟩ ⟨I.growLand c chunk ptr, d, k⟩ := by
  cases ptr with
  | ok va => exact Edits.one (.frame ⟨rfl, rfl, rfl, rfl, rfl, rfl, rfl, rfl, rfl, rfl, rfl, rfl, rfl⟩)
  | error e => exact Edits.one (.frame ⟨rfl, rfl, rfl, rfl, rfl, rfl, rfl, rfl, rfl, rfl, rfl, rfl, rfl⟩)

end Inner

end Plow.KvStore
