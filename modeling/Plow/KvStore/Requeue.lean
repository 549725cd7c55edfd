import Plow.KvStore.Run

/-!
# What the edits do to the reclaim queues

`Requeue F I J` sorts the edits by what they do to the blocks that nothing depends on, to the two
queues and to the release times: most start no block's wait (`keep`), the others push an entry, or
copy a block back to the device without one (`ensure`).  `Edit.requeue` puts every edit in its case;
the invariants about the queues are proved for the cases.
-/

namespace Plow.KvStore

open Lib Inner Function List

namespace Inner

/-! ## release times -/

/-- when the last dependent of the block left: later is larger, `0` is never -/
def lastRelease (I : Inner) (id : BlockId) : Nat :=
  (I.trace.dropWhile (fun e => decide (e ≠ .idle id))).length

section
variable {I J : Inner} {id j : BlockId} {e : Event}

theorem lastRelease_le (I : Inner) (id : BlockId) : I.lastRelease id ≤ I.trace.length :=
  (dropWhile_suffix _).length_le

theorem lastRelease_log (he : e ≠ .idle id) : (I.log e).lastRelease id = I.lastRelease id := by
  unfold lastRelease log
  rw [dropWhile_cons_of_pos (by simpa using he)]

theorem lastRelease_idle (I : Inner) (id : BlockId) :
    (I.log (.idle id)).lastRelease id = I.trace.length + 1 := by
  unfold lastRelease log
  rw [dropWhile_cons_of_neg (by simp)]
  rfl

theorem lastRelease_inj (h : 0 < I.lastRelease id) (he : I.lastRelease j = I.lastRelease id) :
    j = id := by
  unfold lastRelease at h he
  generalize I.trace = trace at h he
  induction trace with
  | nil => simp at h
  | cons e tr ih =>
    have hle : ∀ i : BlockId, (tr.dropWhile (fun e => decide (e ≠ .idle i))).length ≤ tr.length :=
      fun i => (dropWhile_suffix _).length_le
    have hstep : ∀ i : BlockId, ((e :: tr).dropWhile (fun e => decide (e ≠ .idle i))).length =
        if e = .idle i then tr.length + 1 else (tr.dropWhile (fun e => decide (e ≠ .idle i))).length := by
      intro i
      rw [dropWhile_cons]
      by_cases ei : e = .idle i <;> simp [ei]
    have h1 := hle j
    have h2 := hle id
    rw [hstep] at h
    rw [hstep, hstep] at he
    by_cases ei : e = .idle id
    · by_cases ej : e = .idle j
      · rw [ei] at ej
        exact (Event.idle.inj ej).symm
      · rw [if_pos ei, if_neg ej] at he
        omega
    · by_cases ej : e = .idle j
      · rw [if_neg ei, if_pos ej] at he
        omega
      · rw [if_neg ei] at h
        rw [if_neg ei, if_neg ej] at he
        exact ih h he

end

/-! ## the cases -/

/-- a block that nothing depends on was one before, on the same tier -/
structure Remains (b a : Block) : Prop where
  cls : a.cls = b.cls
  dependents : b.dependents = 0
  dev : OnDevice a → OnDevice b
  host : OnHost a → OnHost b

theorem Remains.same {b a : Block} (hc : a.cls = b.cls) (hd : b.dependents = 0)
    (hp : a.place = b.place) : Remains b a :=
  ⟨hc, hd, fun ⟨s, hs⟩ => ⟨s, hp ▸ hs⟩, fun ⟨s, hs⟩ => ⟨s, hp ▸ hs⟩⟩

inductive Requeue (F : Facts) (I J : Inner) : Prop where
  /-- no block starts to wait -/
  | keep (hq : J.reclaim = I.reclaim) (hk : J.hostReclaim = I.hostReclaim)
      (ht : ∀ id, J.lastRelease id = I.lastRelease id)
      (hb : ∀ id a, J.block id = some a → a.dependents = 0 → ∃ b, I.block id = some b ∧ Remains b a)
  | trim {c q} (hs : q.Sublist (I.reclaim c))
      (hq : ∀ p : BlockId → Bool, (∀ id, p id = true → ¬ Stale I id) →
        q.filter p = (I.reclaim c).filter p) (hJ : J = I.setReclaim c q)
  | trimHost {c q} (hs : q.Sublist (I.hostReclaim c))
      (hq : ∀ p : BlockId → Bool, (∀ id, p id = true → ¬ StaleHost I id) →
        q.filter p = (I.hostReclaim c).filter p) (hJ : J = I.setHostReclaim c q)
  /-- a release, off the host -/
  | idleDev {id b a} (hb : I.block id = some b) (hd : b.dependents ≤ 1) (hF : F.idle I id)
      (hJ : J.block = Function.update I.block id (some a)) (hc : a.cls = b.cls)
      (hp : a.place = b.place) (hn : ¬ OnHost b)
      (hq : J.reclaim = Function.update I.reclaim b.cls (I.reclaim b.cls ++ [id]))
      (hk : J.hostReclaim = I.hostReclaim)
      (ht : J.lastRelease id = if b.dependents = 1 then I.trace.length + 1 else I.lastRelease id)
      (ht' : ∀ j, j ≠ id → J.lastRelease j = I.lastRelease j)
  /-- a release, on the host -/
  | idleHost {id b a} (hb : I.block id = some b) (hd : b.dependents ≤ 1)
      (hJ : J.block = Function.update I.block id (some a)) (hc : a.cls = b.cls)
      (hn : ¬ OnDevice a) (hq : J.reclaim = I.reclaim)
      (hk : J.hostReclaim = Function.update I.hostReclaim b.cls (I.hostReclaim b.cls ++ [id]))
      (ht : J.lastRelease id = if b.dependents = 1 then I.trace.length + 1 else I.lastRelease id)
      (ht' : ∀ j, j ≠ id → J.lastRelease j = I.lastRelease j)
  /-- a block arrives on the host -/
  | toHost {id b a} (hb : I.block id = some b)
      (hJ : J.block = Function.update I.block id (some a)) (hc : a.cls = b.cls)
      (hd : a.dependents = b.dependents) (hn : ¬ OnDevice a) (hq : J.reclaim = I.reclaim)
      (hk : J.hostReclaim = if b.dependents = 0 then
        Function.update I.hostReclaim b.cls (I.hostReclaim b.cls ++ [id]) else I.hostReclaim)
      (ht : ∀ id, J.lastRelease id = I.lastRelease id)
  /-- a restore lands -/
  | land {id b a} (hb : I.block id = some b) (hF : F.restored I id)
      (hJ : J.block = Function.update I.block id (some a)) (hc : a.cls = b.cls)
      (hd : a.dependents = b.dependents) (hn : ¬ OnHost a)
      (hq : J.reclaim = if b.dependents = 0 then
        Function.update I.reclaim b.cls (I.reclaim b.cls ++ [id]) else I.reclaim)
      (hk : J.hostReclaim = I.hostReclaim) (ht : ∀ id, J.lastRelease id = I.lastRelease id)
  /-- a block is copied back, and no queue gets it -/
  | ensure {id b a} (hb : I.block id = some b) (hF : F.ensure b) (ho : OnHost b)
      (hJ : J.block = Function.update I.block id (some a)) (hc : a.cls = b.cls)
      (hd : a.dependents = b.dependents) (hn : ¬ OnHost a) (hq : J.reclaim = I.reclaim)
      (hk : J.hostReclaim = I.hostReclaim) (ht : ∀ id, J.lastRelease id = I.lastRelease id)

namespace Requeue
variable {F : Facts} {I J : Inner} {id : BlockId} {b a : Block}

theorem of_same (hJ : J.block = I.block) (hq : J.reclaim = I.reclaim)
    (hk : J.hostReclaim = I.hostReclaim) (ht : ∀ id, J.lastRelease id = I.lastRelease id) :
    Requeue F I J :=
  .keep hq hk ht (fun _ a ha hd => ⟨a, hJ ▸ ha, .same rfl hd rfl⟩)

theorem of_update (hb : I.block id = some b) (hJ : J.block = update I.block id (some a))
    (hr : a.dependents = 0 → Remains b a) (hq : J.reclaim = I.reclaim)
    (hk : J.hostReclaim = I.hostReclaim) (ht : ∀ id, J.lastRelease id = I.lastRelease id) :
    Requeue F I J := by
  refine .keep hq hk ht (fun j a' ha hd => ?_)
  rw [hJ] at ha
  by_cases e : j = id
  · rw [e, update_self] at ha
    cases ha
    exact ⟨b, e ▸ hb, hr hd⟩
  · rw [update_of_ne e] at ha
    exact ⟨a', ha, .same rfl hd rfl⟩

theorem of_none (hJ : J.block = update I.block id none) (hq : J.reclaim = I.reclaim)
    (hk : J.hostReclaim = I.hostReclaim) (ht : ∀ id, J.lastRelease id = I.lastRelease id) :
    Requeue F I J := by
  refine .keep hq hk ht (fun j a ha hd => ?_)
  rw [hJ] at ha
  by_cases e : j = id
  · rw [e, update_self] at ha
    cases ha
  · rw [update_of_ne e] at ha
    exact ⟨a, ha, .same rfl hd rfl⟩

end Requeue

theorem requeue_dropBlock {F : Facts} {I : Inner} {id : BlockId} {b : Block} (hb : I.block id = some b) :
    Requeue F I (I.dropBlock id) :=
  .of_none (block_dropBlock hb) reclaim_dropBlock hostReclaim_dropBlock
    (fun j => by unfold lastRelease; rw [trace_dropBlock])

theorem lastRelease_logIdle {I : Inner} {id j : BlockId} {n : Nat} :
    (if n = 1 then I.log (.idle id) else I).lastRelease j =
      if j = id ∧ n = 1 then I.trace.length + 1 else I.lastRelease j := by
  by_cases hn : n = 1
  · rw [if_pos hn]
    by_cases hj : j = id
    · rw [if_pos ⟨hj, hn⟩, hj, lastRelease_idle]
    · rw [if_neg (fun h => hj h.1), lastRelease_log (fun h => hj (Event.idle.inj h).symm)]
  · rw [if_neg hn, if_neg (fun h => hn h.2)]

theorem requeue_toHost {F : Facts} {I K J : Inner} {id : BlockId} {b : Block} {x : Slot .host}
    (hb : I.block id = some b) (hI : K.blocks = I.blocks) (hJ : J.blocks = (K.toHost id b x).blocks)
    (hq : J.reclaim = I.reclaim) (hk' : K.hostReclaim = I.hostReclaim)
    (hk : J.hostReclaim = (K.toHost id b x).hostReclaim) (ht : J.trace = I.trace) :
    Requeue F I J := by
  have hb' : K.block id = some b := by
    unfold block at hb ⊢
    rw [hI]
    exact hb
  have hbl : J.block = update I.block id (some { b with place := .host x, state := .ready }) := by
    have e : K.block = I.block := by
      unfold block
      rw [hI]
    rw [← e, ← block_setBlock hb']
    unfold block
    rw [hJ]
    unfold toHost
    dsimp only
    split <;> rfl
  refine .toHost hb hbl rfl rfl (fun ⟨s, hs⟩ => by cases hs) hq ?_ (fun j => ?_)
  · rw [hk, ← hk']
    unfold toHost
    dsimp only
    split <;> rfl
  · unfold lastRelease
    rw [ht]

end Inner

/-- every edit is one of the cases -/
theorem Edit.requeue {F : Facts} {H H' : Hands} (e : Edit F H H') : Requeue F H.inner H'.inner := by
  cases e with
  | frame hs =>
    refine .of_same ?_ hs.reclaim hs.hostReclaim (fun j => ?_)
    · funext j
      unfold block
      rw [hs.blocks]
    · unfold lastRelease
      rw [hs.trace]
  | perm hd hk => exact .of_same rfl rfl rfl (fun _ => rfl)
  | takeDev ht => exact .of_same rfl rfl rfl (fun _ => rfl)
  | takeHost ht => exact .of_same rfl rfl rfl (fun _ => rfl)
  | putDev hn => exact .of_same rfl rfl rfl (fun _ => rfl)
  | putHost => exact .of_same rfl rfl rfl (fun _ => rfl)
  | retire ht => exact .of_same rfl rfl rfl (fun _ => rfl)
  | trim hs hq => exact .trim hs hq rfl
  | trimHost hs hq => exact .trimHost hs hq rfl
  | logReclaim hF => exact .of_same rfl rfl rfl (fun _ => lastRelease_log (by simp))
  | logHtod hn => exact .of_same rfl rfl rfl (fun _ => lastRelease_log (by simp))
  | tick n hb =>
    exact .of_update hb (block_setBlock hb _) (fun hd => .same rfl hd rfl)
      rfl rfl (fun _ => rfl)
  | depend n hb =>
    exact .of_update hb (block_setBlock hb _) (fun hd => absurd hd (Nat.succ_ne_zero _))
      rfl rfl (fun _ => rfl)
  | again n hb hs =>
    exact .of_update hb (block_setBlock hb _) (fun hd => absurd hd (Nat.succ_ne_zero _))
      rfl rfl (fun _ => rfl)
  | hold n hb =>
    exact .of_update hb (block_setBlock hb _) (fun hd => .same rfl hd rfl)
      rfl rfl (fun _ => rfl)
  | unhold hb hF =>
    exact .of_update hb (block_setBlock hb _) (fun hd => .same rfl hd rfl)
      rfl rfl (fun _ => rfl)
  | leave hb hd hF =>
    exact .of_update hb (block_setBlock hb _) (fun hz => absurd hz (by dsimp only; omega))
      rfl rfl (fun _ => rfl)
  | @idleDev I d k id b hb hd hp hF =>
    have hJ : (((if b.dependents = 1 then I.log (.idle id) else I).setBlock id
        { b with dependents := 0 }).pushReclaim b.cls id).block =
        update I.block id (some { b with dependents := 0 }) := by
      rw [← block_setBlock hb]
      split <;> rfl
    refine .idleDev hb hd hF hJ rfl rfl (fun ⟨x, hx⟩ => hp x hx) ?_ ?_ ?_ (fun j hj => ?_)
    · dsimp only
      split <;> rfl
    · dsimp only
      split <;> rfl
    · exact lastRelease_logIdle.trans (by simp)
    · exact lastRelease_logIdle.trans (by simp [hj])
  | @idleHost I d k id b s hb hd hp hF =>
    have hJ : (((if b.dependents = 1 then I.log (.idle id) else I).setBlock id
        { b with dependents := 0 }).pushHostReclaim b.cls id).block =
        update I.block id (some { b with dependents := 0 }) := by
      rw [← block_setBlock hb]
      split <;> rfl
    refine .idleHost hb hd hJ rfl (fun ⟨x, hx⟩ => by simp [hp] at hx) ?_ ?_ ?_ (fun j hj => ?_)
    · dsimp only
      split <;> rfl
    · dsimp only
      split <;> rfl
    · exact lastRelease_logIdle.trans (by simp)
    · exact lastRelease_logIdle.trans (by simp [hj])
  | sealed hb hs hr hF =>
    exact .of_update hb (block_setBlock hb _) (fun hd => .same rfl hd rfl)
      rfl rfl (fun _ => lastRelease_log (by simp))
  | sealedRefill hb hs hr hF =>
    exact .of_update hb (block_setBlock hb _) (fun hd => .same rfl hd rfl)
      rfl rfl (fun _ => lastRelease_log (by simp))
  | fail hb hr hF =>
    exact .of_update hb (block_setBlock hb _) (fun hd => .same rfl hd rfl)
      rfl rfl (fun _ => rfl)
  | @back I d k id b s x hb hr hp hF =>
    have e : ((I.setRefilling id none).toHost id b x).reclaim = I.reclaim ∧
        ((I.setRefilling id none).toHost id b x).trace = I.trace := by
      unfold toHost
      dsimp only
      split <;> exact ⟨rfl, rfl⟩
    exact requeue_toHost (K := I.setRefilling id none) hb rfl rfl e.1 rfl rfl e.2
  | @backLeak I d k id b s x hb hr hp hF =>
    have e : (((I.leakDevice b.cls s).setRefilling id none).toHost id b x).reclaim = I.reclaim ∧
        (((I.leakDevice b.cls s).setRefilling id none).toHost id b x).trace = I.trace := by
      unfold toHost
      dsimp only
      split <;> exact ⟨rfl, rfl⟩
    exact requeue_toHost (K := (I.leakDevice b.cls s).setRefilling id none) hb rfl rfl e.1 rfl rfl e.2
  | forget hb hr hp hF => exact .of_none (block_clearEntry hb) rfl rfl (fun _ => rfl)
  | dropDev hb hp hd hh hs => exact requeue_dropBlock hb
  | dropHost hb hp hd hh => exact requeue_dropBlock hb
  | @fresh I d k c key s hi hn =>
    refine .keep rfl rfl (fun _ => rfl) (fun j a ha hd => ?_)
    rw [show (I.addBlock c key s).2.block j = _ from congrFun (block_addBlock I c key s) j] at ha
    by_cases e : j = I.freshId
    · rw [e, update_self] at ha
      cases ha
      cases hd
    · rw [update_of_ne e] at ha
      exact ⟨a, ha, .same rfl hd rfl⟩
  | refill n hb hp hh hn =>
    exact .of_update hb (block_setBlock hb _) (fun hd => absurd hd (Nat.succ_ne_zero _))
      rfl rfl (fun _ => rfl)
  | @ensure I d k id b s x hb hp hF hn =>
    refine .ensure (a := { b with place := .device s }) hb hF ⟨x, hp⟩ ?_ rfl rfl (fun ⟨x, hx⟩ => by cases hx) ?_ ?_ (fun j => ?_)
    · rw [← block_setBlock hb]
      split <;> rfl
    · dsimp only
      split <;> rfl
    · dsimp only
      split <;> rfl
    · dsimp only
      split
      · exact lastRelease_log (by simp)
      · rfl
  | restore hb hp hs hF hn =>
    exact .of_update hb (block_setBlock hb _) (fun hd => ⟨rfl, hd, (fun ⟨_, h⟩ => nomatch h), fun ⟨_, h⟩ => nomatch h⟩)
      rfl rfl (fun _ => lastRelease_log (by simp))
  | spill hb hp hs hh hF =>
    exact .of_update hb (block_setBlock hb _) (fun hd => ⟨rfl, hd, (fun ⟨_, h⟩ => nomatch h), fun ⟨_, h⟩ => nomatch h⟩)
      rfl rfl (fun _ => lastRelease_log (by simp))
  | @landRestore I d k id b s x f hb hp hh hf hF =>
    refine .land hb hF (block_landRestore hb) rfl rfl (fun ⟨x, hx⟩ => by cases hx) ?_ ?_ (fun j => ?_)
    · unfold Inner.landRestore
      dsimp only
      split <;> rfl
    · unfold Inner.landRestore
      dsimp only
      split <;> rfl
    · unfold Inner.landRestore
      dsimp only
      split <;> rfl
  | @landSpill I d k id b s x f hb hp hh hf =>
    refine .toHost hb (block_landSpill hb) rfl rfl (fun ⟨s, hs⟩ => by cases hs) ?_ ?_ (fun j => ?_)
    · unfold Inner.landSpill
      dsimp only
      split <;> rfl
    · unfold Inner.landSpill
      dsimp only
      split <;> rfl
    · unfold Inner.landSpill
      dsimp only
      split <;> rfl
  | move hb hp hh hF hn =>
    exact .of_update hb (block_setBlock hb _) (fun hd => ⟨rfl, hd, fun _ => ⟨_, hp⟩, fun ⟨_, h⟩ => nomatch h⟩)
      rfl rfl (fun _ => rfl)

end Plow.KvStore
