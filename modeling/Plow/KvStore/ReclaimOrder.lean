import Plow.KvStore.Reclaim

/-!
# The order of the reclaims

`Ordered` says that in every class the first entries of the waiting blocks stand in release order.
It is kept by every edit but three: a release that finds an older entry of its block in front of
other waiting blocks, a restore that lands after blocks were released that waited less long, and a
copy back that queues nothing.  Where it holds, `reclaim_slot` takes the block released first
(`reclaim_oldest`).
-/

namespace Plow.KvStore

open Lib Inner List Function Option

namespace Inner

variable {F : Facts} {I J : Inner} {c : Nat} {id : BlockId} {b a : Block}

def Waiting (I : Inner) (c : Nat) (id : BlockId) : Prop :=
  ∃ b, I.block id = some b ∧ b.cls = c ∧ b.dependents = 0 ∧ OnDevice b

/-- a block that `device_slot` may reclaim: device-resident, with no dependents and no holds, and
not filling -/
def Eligible (I : Inner) (c : Nat) (id : BlockId) : Prop :=
  ∃ b, I.block id = some b ∧ b.cls = c ∧ Idle b

theorem Eligible.waiting (h : Eligible I c id) : Waiting I c id := by
  obtain ⟨b, hb, hc, hd, _, _, hp⟩ := h
  exact ⟨b, hb, hc, hd, hp⟩

structure Ordered (I : Inner) : Prop where
  fifo : ∀ c, Fifo (I.reclaim c) (Waiting I c) I.lastRelease
  released : ∀ id b, I.block id = some b → b.dependents = 0 → 0 < I.lastRelease id

/-- the last dependent of a device block leaves: every other waiting block of its class has an entry
in front of the block's own left-over entries -/
def LeavesInOrder (I : Inner) (id : BlockId) : Prop :=
  ∀ b, I.block id = some b → b.dependents = 1 → OnDevice b → id ∈ I.reclaim b.cls →
    ∀ j, Waiting I b.cls j → j ≠ id → (I.reclaim b.cls).idxOf j < (I.reclaim b.cls).idxOf id

def LandsInOrder (I : Inner) (id : BlockId) : Prop :=
  ∀ b, I.block id = some b → b.dependents = 0 →
    Fifo.Fits (I.reclaim b.cls) (Waiting I b.cls) I.lastRelease id (I.lastRelease id)

/-! ## what an edit keeps -/

theorem waiting_update (hJ : J.block = update I.block id (some a)) {j : BlockId}
    (h : Waiting J c j) : (j = id ∧ a.cls = c ∧ a.dependents = 0 ∧ OnDevice a) ∨
      (j ≠ id ∧ Waiting I c j) := by
  obtain ⟨b, hb, hw⟩ := h
  rw [hJ] at hb
  by_cases e : j = id
  · rw [e, update_self] at hb
    cases hb
    exact .inl ⟨e, hw⟩
  · rw [update_of_ne e] at hb
    exact .inr ⟨e, b, hb, hw⟩

theorem Ordered.pushed (h : Ordered I) {c' : Nat} :
    Fifo (update I.reclaim c (I.reclaim c ++ [id]) c') (Waiting I c') I.lastRelease := by
  by_cases e : c' = c
  · rw [e, update_self]
    exact (h.fifo c).append [id]
  · rw [update_of_ne e]
    exact h.fifo c'

theorem Ordered.entered (h : Ordered I) {n : Nat} (hJ : J.block = update I.block id (some a))
    (hf : Fifo.Fits (I.reclaim a.cls) (Waiting I a.cls) I.lastRelease id n)
    (hq : J.reclaim = update I.reclaim a.cls (I.reclaim a.cls ++ [id]))
    (ht : J.lastRelease id = n) (ht' : ∀ j, j ≠ id → J.lastRelease j = I.lastRelease j) (c : Nat) :
    Fifo (J.reclaim c) (Waiting J c) J.lastRelease := by
  rw [hq]
  have hW : ∀ j, Waiting J c j → j ≠ id → Waiting I c j := fun j hw hne =>
    ((waiting_update hJ hw).resolve_left (fun h => hne h.1)).2
  by_cases e : c = a.cls
  · subst e
    rw [update_self]
    exact (h.fifo a.cls).enter hf hW (fun j _ hne => ht' j hne) ht
  · rw [update_of_ne e]
    have hne : ∀ j, Waiting J c j → j ≠ id := fun j hw hj => by
      rcases waiting_update hJ hw with h | h
      · exact e h.2.1.symm
      · exact h.1 hj
    exact (h.fifo c).mono (fun j hw => hW j hw (hne j hw)) (fun j hw => ht' j (hne j hw))

theorem Ordered.released_update (h : Ordered I) (hb : I.block id = some b)
    (hJ : J.block = update I.block id (some a)) (hd : a.dependents = b.dependents)
    (ht : ∀ id, J.lastRelease id = I.lastRelease id) (j : BlockId) (b' : Block)
    (hb' : J.block j = some b') (hd' : b'.dependents = 0) : 0 < J.lastRelease j := by
  rw [hJ] at hb'
  rw [ht j]
  by_cases e : j = id
  · rw [e, update_self] at hb'
    cases hb'
    exact e ▸ h.released id b hb (hd.symm.trans hd')
  · rw [update_of_ne e] at hb'
    exact h.released j b' hb' hd'

theorem Ordered.released_idle (h : Ordered I) (hb : I.block id = some b) (hd : b.dependents ≤ 1)
    (hJ : J.block = update I.block id (some a))
    (ht : J.lastRelease id = if b.dependents = 1 then I.trace.length + 1 else I.lastRelease id)
    (ht' : ∀ j, j ≠ id → J.lastRelease j = I.lastRelease j) (j : BlockId) (b' : Block)
    (hb' : J.block j = some b') (hd' : b'.dependents = 0) : 0 < J.lastRelease j := by
  rw [hJ] at hb'
  by_cases e : j = id
  · rw [e, ht]
    split
    · omega
    · exact h.released id b hb (by omega)
  · rw [update_of_ne e] at hb'
    rw [ht' j e]
    exact h.released j b' hb' hd'

theorem Ordered.requeue (h : Ordered I) (hE : ∀ b, F.ensure b → OnHost b → b.dependents ≠ 0)
    (hI : ∀ I id, F.idle I id → LeavesInOrder I id)
    (hL : ∀ I id, F.restored I id → LandsInOrder I id) (r : Requeue F I J) : Ordered J := by
  cases r with
  | keep hq hk ht hb =>
    refine ⟨fun c => ?_, fun j a ha hd => ?_⟩
    · rw [hq]
      refine (h.fifo c).mono (fun j hw => ?_) (fun j _ => ht j)
      obtain ⟨a, ha, hc, hd, hp⟩ := hw
      obtain ⟨b, hb', hr⟩ := hb j a ha hd
      exact ⟨b, hb', hr.cls.symm.trans hc, hr.dependents, hr.dev hp⟩
    · obtain ⟨b, hb', hr⟩ := hb j a ha hd
      rw [ht j]
      exact h.released j b hb' hr.dependents
  | @trim c q hs hq hJ =>
    subst hJ
    refine ⟨fun c' => ?_, h.released⟩
    show Fifo (update I.reclaim c q c') (Waiting I c') I.lastRelease
    by_cases e : c' = c
    · rw [e, update_self]
      refine (h.fifo c).trim (fun p hp => hq p (fun j hj hst => ?_))
      obtain ⟨b, hb, _, hd, s, hs⟩ := hp j hj
      rcases hst b hb with h0 | ⟨x, hx⟩
      · omega
      · rw [hs] at hx
        cases hx
    · rw [update_of_ne e]
      exact h.fifo c'
  | trimHost hs hq hJ =>
    subst hJ
    exact ⟨h.fifo, h.released⟩
  | @idleDev id b a hb hd hF hJ hc hp hn hq hk ht ht' =>
    refine ⟨?_, h.released_idle hb hd hJ ht ht'⟩
    -- the last release: the block waits behind all others
    by_cases h1 : b.dependents = 1 ∧ OnDevice b
    · rw [if_pos h1.1] at ht
      rw [← hc] at hq
      refine h.entered hJ (fun j hj hne => ?_) hq ht ht'
      rw [hc] at hj ⊢
      have hle := I.lastRelease_le j
      split
      · next hm => exact ⟨fun _ => hI I id hF b hb h1.1 h1.2 hm j hj hne, fun hlt => by omega⟩
      · omega
    · intro c
      rw [hq]
      refine h.pushed.mono (fun j hw => ?_) (fun j hw => ?_)
      · rcases waiting_update hJ hw with ⟨rfl, hc', _, hp'⟩ | hw
        · obtain ⟨s, hs⟩ := hp'
          have hdev : OnDevice b := ⟨s, hp.symm.trans hs⟩
          have hz : b.dependents ≠ 1 := fun e => h1 ⟨e, hdev⟩
          exact ⟨b, hb, hc.symm.trans hc', by omega, hdev⟩
        · exact hw.2
      · rcases waiting_update hJ hw with ⟨rfl, _, _, hp'⟩ | hw
        · obtain ⟨s, hs⟩ := hp'
          rw [ht, if_neg (fun e => h1 ⟨e, s, hp.symm.trans hs⟩)]
        · exact ht' j hw.1
  | @idleHost id b a hb hd hJ hc hn hq hk ht ht' =>
    refine ⟨fun c => ?_, h.released_idle hb hd hJ ht ht'⟩
    rw [hq]
    have hne : ∀ j, Waiting J c j → j ≠ id ∧ Waiting I c j := fun j hw =>
      (waiting_update hJ hw).resolve_left (fun h => hn h.2.2.2)
    exact (h.fifo c).mono (fun j hw => (hne j hw).2) (fun j hw => ht' j (hne j hw).1)
  | @toHost id b a hb hJ hc hd hn hq hk ht =>
    refine ⟨fun c => ?_, h.released_update hb hJ hd ht⟩
    rw [hq]
    exact (h.fifo c).mono (fun j hw =>
      ((waiting_update hJ hw).resolve_left (fun h => hn h.2.2.2)).2) (fun j _ => ht j)
  | @land id b a hb hF hJ hc hd hn hq hk ht =>
    refine ⟨?_, h.released_update hb hJ hd ht⟩
    by_cases hz : b.dependents = 0
    · rw [if_pos hz] at hq
      refine h.entered hJ ?_ (by rw [hc]; exact hq) (ht id) (fun j _ => ht j)
      rw [hc]
      exact hL I id hF b hb hz
    · rw [if_neg hz] at hq
      intro c
      rw [hq]
      exact (h.fifo c).mono (fun j hw => ((waiting_update hJ hw).resolve_left
        (fun h => hz (hd.symm.trans h.2.2.1))).2) (fun j _ => ht j)
  | @ensure id b a hb hF ho hJ hc hd hn hq hk ht =>
    refine ⟨fun c => ?_, h.released_update hb hJ hd ht⟩
    rw [hq]
    exact (h.fifo c).mono (fun j hw => ((waiting_update hJ hw).resolve_left
      (fun h => hE b hF ho (hd.symm.trans h.2.2.1))).2) (fun j _ => ht j)

theorem Ordered.edits {H H' : Hands} (h : Ordered H.inner)
    (hE : ∀ b, F.ensure b → OnHost b → b.dependents ≠ 0)
    (hI : ∀ I id, F.idle I id → LeavesInOrder I id)
    (hL : ∀ I id, F.restored I id → LandsInOrder I id) (e : Edits F H H') : Ordered H'.inner := by
  induction e with
  | refl => exact h
  | tail _ e ih => exact ih.requeue hE hI hL e.requeue

/-! ## who is reclaimed -/

def Logged (F : Facts) (I J : Inner) : Prop :=
  ∃ new, J.trace = new ++ I.trace ∧ ∀ c id, .reclaim c id ∈ new → F.reclaim c id

theorem Logged.none (h : J.trace = I.trace) : Logged F I J :=
  ⟨[], h, fun _ _ hm => absurd hm not_mem_nil⟩

theorem Logged.one {e : Event} (h : J.trace = e :: I.trace)
    (he : ∀ c id, e = .reclaim c id → F.reclaim c id) : Logged F I J := by
  refine ⟨[e], h, fun c id hm => he c id ?_⟩
  exact (mem_singleton.mp hm).symm

theorem Logged.trans {K : Inner} (h : Logged F I J) (h' : Logged F J K) : Logged F I K := by
  obtain ⟨n, hn, hr⟩ := h
  obtain ⟨n', hn', hr'⟩ := h'
  refine ⟨n' ++ n, by rw [hn', hn, append_assoc], fun c id hm => ?_⟩
  rcases mem_append.mp hm with hm | hm
  · exact hr' c id hm
  · exact hr c id hm

end Inner

theorem Edit.logged {F : Facts} {H H' : Hands} (e : Edit F H H') : Logged F H.inner H'.inner := by
  cases e with
  | frame hs => exact .none hs.trace
  | logReclaim hF =>
    exact .one rfl (fun c id he => by
      obtain ⟨rfl, rfl⟩ := Event.reclaim.inj he
      exact hF)
  | logHtod hn => exact .one rfl nofun
  | @idleDev I d k id b hb hd hp hF =>
    by_cases h : b.dependents = 1
    · simp only [if_pos h]
      exact .one (e := .idle id) rfl nofun
    · simp only [if_neg h]
      exact .none rfl
  | @idleHost I d k id b s hb hd hp hF =>
    by_cases h : b.dependents = 1
    · simp only [if_pos h]
      exact .one (e := .idle id) rfl nofun
    · simp only [if_neg h]
      exact .none rfl
  | @sealed I d k id b hb hs hr hF => exact .one (e := .seal b.cls b.key b.place) rfl nofun
  | @sealedRefill I d k id b x hb hs hr hF =>
    exact .one (e := .seal b.cls b.key b.place) rfl nofun
  | back hb hr hp hF =>
    refine .none ?_
    unfold toHost
    dsimp only
    split <;> rfl
  | backLeak hb hr hp hF =>
    refine .none ?_
    unfold toHost
    dsimp only
    split <;> rfl
  | dropDev hb hp hd hh hs => exact .none trace_dropBlock
  | dropHost hb hp hd hh => exact .none trace_dropBlock
  | @ensure I d k id b s x hb hp hF hn =>
    by_cases h : b.state = .ready
    · simp only [if_pos h]
      exact .one (e := .htod b.cls x s true) rfl nofun
    · simp only [if_neg h]
      exact .none rfl
  | @restore I d k id b s x f hb hp hs hF hn => exact .one (e := .restore b.cls x s f) rfl nofun
  | @spill I d k id b s x f hb hp hs hh hF => exact .one (e := .spill b.cls s x f) rfl nofun
  | landRestore hb hp hh hf hF =>
    refine .none ?_
    unfold Inner.landRestore
    dsimp only
    split <;> rfl
  | landSpill hb hp hh hf =>
    refine .none ?_
    unfold Inner.landSpill
    dsimp only
    split <;> rfl
  | _ => exact .none rfl

theorem Edits.logged {F : Facts} {H H' : Hands} (e : Edits F H H') : Logged F H.inner H'.inner := by
  induction e with
  | refl => exact .none rfl
  | tail _ e ih => exact ih.trans e.logged

def orderConds : Conds := ⟨LeavesInOrder, LandsInOrder, anyBlock, anyBlock⟩

/-- the operation changes the order in which blocks wait only as `LeavesInOrder` and `LandsInOrder`
say, and copies no block back that nothing depends on -/
def Op.InOrder (s : Sys) (o : Op) : Prop :=
  o.Meets orderConds s ∧ o.EnsuresUsed s

theorem order_inv {s s' : Sys} {o : Op}
    (h : SysOk s ∧ QueueClass s.inner ∧ Ordered s.inner) (hc : o.InOrder s)
    (hs : s.step o = some s') : SysOk s' ∧ QueueClass s'.inner ∧ Ordered s'.inner := by
  obtain ⟨hO, hq, hord⟩ := h
  have hE := hO.step_edits hc.1 hs
  exact ⟨hO.step hs, hq.edits hO.own hE, hord.edits (F := o.facts orderConds s) (Op.ensure_used hc.2)
    (fun _ _ h => h) (fun _ _ h => h) hE⟩

theorem new_ordered (specs : List ClassSpec) (chunkBytes deviceCap hostCap : Nat) :
    Ordered (Inner.new specs chunkBytes deviceCap hostCap) where
  fifo c := Fifo.of_empty (fun id hw => by
    obtain ⟨b, hb, _⟩ := hw
    rw [block_new] at hb
    cases hb)
  released id b hb := by
    rw [block_new] at hb
    cases hb

theorem Inner.Ordered.victim {I : Inner} {c : Nat} {v : BlockId} (h : Ordered I) (hq : QueueClass I)
    (hv : (I.reclaimScan (I.reclaim c)).2 = some v) :
    Eligible I c v ∧ ∀ j, Eligible I c j → j ≠ v → I.lastRelease v < I.lastRelease j := by
  rw [reclaimScan_eq] at hv
  obtain ⟨hm, ht⟩ := scan_found _ hv
  obtain ⟨b, hb, hi⟩ := verdict_take.mp ht
  have hE : Eligible I c v := ⟨b, hb, (hq.device c v hm).2 b hb, hi⟩
  refine ⟨hE, fun j hj hne => ?_⟩
  obtain ⟨bj, hbj, _, hij⟩ := hj
  have hle := scan_first _ hv (verdict_take.mpr ⟨bj, hbj, hij⟩)
  refine (h.fifo c).first hE.waiting (Eligible.waiting ⟨bj, hbj, ‹_›, hij⟩) hne (fun he => ?_) hle
  exact lastRelease_inj (h.released v b hb hi.1) he

/-- In a run whose steps keep the order, a block that `device_slot` reclaims is the one released
first of those it may reclaim. -/
theorem reclaim_oldest (specs : List ClassSpec) (chunkBytes deviceCap hostCap : Nat)
    (ops : List Op) (s s' : Sys) (o : Op) (new : List Event) (c : Nat) (id : BlockId)
    (hc : Each Sys.step (fun s o => o.InOrder s) (Sys.new specs chunkBytes deviceCap hostCap) ops)
    (h : Sys.Runs specs chunkBytes deviceCap hostCap ops s) (hs : s.step o = some s')
    (hn : s'.inner.trace = new ++ s.inner.trace) (hm : .reclaim c id ∈ new) :
    Eligible s.inner c id ∧
      ∀ j, Eligible s.inner c j → j ≠ id → s.inner.lastRelease id < s.inner.lastRelease j := by
  obtain ⟨hO, hq, hord⟩ := exec_inv_of
    (P := fun s => SysOk s ∧ QueueClass s.inner ∧ Ordered s.inner)
    (fun s o s' hs hco hst => order_inv hs hco hst)
    ⟨SysOk.new specs chunkBytes deviceCap hostCap, new_queueClass _ _ _ _, new_ordered _ _ _ _⟩ hc h
  obtain ⟨new', hn', hr⟩ := (hO.step_edits (Op.meets_any s o) hs).logged
  have hnew : new' = new := append_cancel_right (hn'.symm.trans hn)
  have hF := hr c id (hnew ▸ hm)
  refine hord.victim hq ?_
  cases o with
  | acquire c' key e htod => exact hF
  | restoreAsync id' e htod fence => exact hF
  | ensureDevice id' e htod => exact hF
  | _ => exact absurd hF (fun h => h)

def releasedRun : List Op :=
  [.acquire 0 ⟨1, 1, 1⟩ ⟨0, none, .ok 1024⟩ (.ok ()), .acquire 0 ⟨1, 2, 2⟩ ⟨0, none, .ok 2048⟩ (.ok ()),
    .sealIds [⟨0, 0⟩, ⟨1, 0⟩], .release [⟨0, 0⟩], .release [⟨1, 0⟩]]

def fillThird : Op := .acquire 0 ⟨1, 3, 3⟩ ⟨0, none, .ok 4096⟩ (.ok ())

theorem reclaim_oldest_released : ∃ s s', Sys.Runs [⟨1, 4⟩] 8 8 0 releasedRun s ∧
    s.step fillThird = some s' ∧ s'.inner.trace = [.reclaim 0 ⟨0, 0⟩] ++ s.inner.trace ∧
    Eligible s.inner 0 ⟨0, 0⟩ ∧
    ∀ j, Eligible s.inner 0 j → j ≠ ⟨0, 0⟩ → s.inner.lastRelease ⟨0, 0⟩ < s.inner.lastRelease j := by
  obtain ⟨s, hs⟩ := isSome_iff_exists.mp
    (show (exec Sys.step (Sys.new [⟨1, 4⟩] 8 8 0) releasedRun).isSome from rfl)
  have hv : (exec Sys.step (Sys.new [⟨1, 4⟩] 8 8 0) releasedRun).map (fun s =>
      (s.step fillThird).map (fun s' => (s'.inner.trace, s.inner.trace))) =
      some (some (.reclaim 0 ⟨0, 0⟩ :: [.idle ⟨1, 0⟩, .idle ⟨0, 0⟩,
        .seal 0 ⟨1, 2, 2⟩ (.device ⟨1⟩), .seal 0 ⟨1, 1, 1⟩ (.device ⟨0⟩)],
        [.idle ⟨1, 0⟩, .idle ⟨0, 0⟩, .seal 0 ⟨1, 2, 2⟩ (.device ⟨1⟩), .seal 0 ⟨1, 1, 1⟩ (.device ⟨0⟩)])) := by
    decide +kernel
  rw [hs] at hv
  obtain ⟨s', hs', ht⟩ := map_eq_some_iff.mp (Option.some.inj hv)
  obtain ⟨ht', ht⟩ := Prod.mk.inj ht
  have htr : s'.inner.trace = [.reclaim 0 ⟨0, 0⟩] ++ s.inner.trace := by
    rw [ht', ht]
    rfl
  refine ⟨s, s', hs, hs', htr, reclaim_oldest _ _ _ _ _ s s' fillThird _ 0 ⟨0, 0⟩ ?_ hs hs' htr
    mem_cons_self⟩
  -- no block has an entry when it is released
  have hno : ∀ (I : Inner) id, (I.block id).all (fun b => decide (id ∉ I.reclaim b.cls)) = true →
      LeavesInOrder I id := fun I id h b hb _ _ hm => by
    rw [hb] at h
    exact absurd hm (of_decide_eq_true h)
  refine ⟨⟨trivial, trivial⟩, fun s₁ h₁ => ⟨⟨trivial, trivial⟩, fun s₂ h₂ =>
    ⟨⟨each_true _ _, trivial⟩, fun s₃ h₃ => ?_⟩⟩⟩
  cases h₁
  cases h₂
  cases h₃
  refine ⟨⟨⟨hno _ _ (by decide +kernel), fun _ _ => trivial⟩, trivial⟩, fun s₄ h₄ => ?_⟩
  cases h₄
  exact ⟨⟨⟨hno _ _ (by decide +kernel), fun _ _ => trivial⟩, trivial⟩, fun _ _ => trivial⟩

def againRun : List Op :=
  releasedRun ++ [.acquire 0 ⟨1, 1, 1⟩ ⟨0, none, .ok 1024⟩ (.ok ()), .release [⟨0, 0⟩]]

/-- The block released last, acquired and released again, goes first. -/
theorem reclaim_newest : ¬ ∀ specs chunkBytes deviceCap hostCap ops s s' o new c id,
    Sys.Runs specs chunkBytes deviceCap hostCap ops s → s.step o = some s' →
    s'.inner.trace = new ++ s.inner.trace → Event.reclaim c id ∈ new → Eligible s.inner c id ∧
      ∀ j, Eligible s.inner c j → j ≠ id → s.inner.lastRelease id < s.inner.lastRelease j := by
  intro h
  obtain ⟨s, hs⟩ := isSome_iff_exists.mp
    (show (exec Sys.step (Sys.new [⟨1, 4⟩] 8 8 0) againRun).isSome from rfl)
  have hv : (exec Sys.step (Sys.new [⟨1, 4⟩] 8 8 0) againRun).map (fun s =>
      (s.inner.lastRelease ⟨0, 0⟩, s.inner.lastRelease ⟨1, 0⟩, s.inner.block ⟨1, 0⟩,
        (s.step fillThird).map (fun s' => (s'.inner.trace.head?, s'.inner.trace.tail)))) =
      some (5, 4, some ⟨0, ⟨1, 2, 2⟩, .ready, .device ⟨1⟩, 0, 0, 2⟩,
        some (some (.reclaim 0 ⟨0, 0⟩), [.idle ⟨0, 0⟩, .idle ⟨1, 0⟩, .idle ⟨0, 0⟩,
          .seal 0 ⟨1, 2, 2⟩ (.device ⟨1⟩), .seal 0 ⟨1, 1, 1⟩ (.device ⟨0⟩)])) := by
    rfl
  have ht : (exec Sys.step (Sys.new [⟨1, 4⟩] 8 8 0) againRun).map (fun s => s.inner.trace) =
      some [.idle ⟨0, 0⟩, .idle ⟨1, 0⟩, .idle ⟨0, 0⟩, .seal 0 ⟨1, 2, 2⟩ (.device ⟨1⟩),
        .seal 0 ⟨1, 1, 1⟩ (.device ⟨0⟩)] := by
    rfl
  rw [hs] at hv ht
  simp only [map_some, Option.some.injEq, Prod.mk.injEq] at hv ht
  obtain ⟨hA, hB, hb, hst⟩ := hv
  obtain ⟨s', hs', htr⟩ := map_eq_some_iff.mp hst
  obtain ⟨hhead, htail⟩ := Prod.mk.inj htr
  obtain ⟨rest, hrest⟩ := head?_eq_some_iff.mp hhead
  have hn : s'.inner.trace = [.reclaim 0 ⟨0, 0⟩] ++ s.inner.trace := by
    rw [hrest] at htail ⊢
    rw [ht]
    exact congrArg (List.cons _) htail
  have hlt := (h _ _ _ _ _ s s' fillThird _ 0 ⟨0, 0⟩ hs hs' hn mem_cons_self).2 ⟨1, 0⟩
    ⟨_, hb, rfl, rfl, rfl, nofun, _, rfl⟩ (by decide)
  rw [hA, hB] at hlt
  omega

end Plow.KvStore
