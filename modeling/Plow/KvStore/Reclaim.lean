import Plow.KvStore.Requeue

/-!
# What the reclaim queues promise

* `Queued`   no block that nothing depends on is missing from the queue of its tier (`none_lost`);
* `Ordered`  the waiting device blocks stand in release order (`reclaim_oldest`).

Both fail where a copy back to the device does not queue the block (`ensure_device` on a host block
without dependents).  The order also fails where a block comes back to the queue while an older entry
of it stands there, or with a release time that is not the newest.
-/

namespace Plow.KvStore

open Lib Inner List Function Option

namespace Inner

variable {F : Facts} {I J : Inner} {d d' : List (Nat × Slot .dev)} {k k' : List (Nat × Slot .host)}
  {c c' n : Nat} {id j : BlockId} {b a : Block} {Q Q' : Nat → List BlockId} {x : Slot .host}

/-! ## the class of an entry -/

/-- an entry was issued, and is of the queue's class while its block lives -/
structure QueueClass (I : Inner) : Prop where
  device : ∀ c, ∀ id ∈ I.reclaim c, OfClass I c id
  host : ∀ c, ∀ id ∈ I.hostReclaim c, OfClass I c id

theorem mem_pushed (h : j ∈ update Q c (Q c ++ [id]) c') : j ∈ Q c' ∨ (c' = c ∧ j = id) := by
  by_cases e : c' = c
  · rw [e, update_self] at h
    rcases mem_append.mp h with h | h
    · exact .inl (e ▸ h)
    · exact .inr ⟨e, mem_singleton.mp h⟩
  · rw [update_of_ne e] at h
    exact .inl h

theorem QueueClass.requeue (h : QueueClass I) (hO : I.Entries) (hk : Keeps I J)
    (r : Requeue F I J) : QueueClass J := by
  have hold : ∀ {c id}, OfClass I c id → OfClass J c id := fun h => h.keeps hk
  have hnew : ∀ {id b}, I.block id = some b → OfClass J b.cls id := fun hb =>
    OfClass.keeps ⟨hO.issued hb, fun b' hb' => by rw [some.inj (hb.symm.trans hb')]⟩ hk
  -- a queue is as before, or has one more entry
  have hpush : ∀ {Q Q' : Nat → List BlockId} {id b}, (∀ c, ∀ j ∈ Q c, OfClass I c j) →
      I.block id = some b → Q' = update Q b.cls (Q b.cls ++ [id]) →
      ∀ c, ∀ j ∈ Q' c, OfClass J c j := by
    intro Q Q' id b hQ hb hq c j hj
    rw [hq] at hj
    rcases mem_pushed hj with hj | ⟨rfl, rfl⟩
    · exact hold (hQ c j hj)
    · exact hnew hb
  have hsame : ∀ {Q Q' : Nat → List BlockId}, (∀ c, ∀ j ∈ Q c, OfClass I c j) → Q' = Q →
      ∀ c, ∀ j ∈ Q' c, OfClass J c j := fun hQ hq c j hj => hold (hQ c j (hq ▸ hj))
  have hcut : ∀ {Q : Nat → List BlockId} {c q}, (∀ c, ∀ j ∈ Q c, OfClass I c j) →
      q.Sublist (Q c) → ∀ c', ∀ j ∈ update Q c q c', OfClass J c' j := by
    intro Q c q hQ hs c' j hj
    by_cases e : c' = c
    · rw [e, update_self] at hj
      exact e ▸ hold (hQ c j (hs.subset hj))
    · rw [update_of_ne e] at hj
      exact hold (hQ c' j hj)
  cases r with
  | keep hq hk' ht hb => exact ⟨hsame h.device hq, hsame h.host hk'⟩
  | trim hs hq hJ =>
    subst hJ
    exact ⟨hcut h.device hs, hsame h.host rfl⟩
  | trimHost hs hq hJ =>
    subst hJ
    exact ⟨hsame h.device rfl, hcut h.host hs⟩
  | idleDev hb hd hF hJ hc hp hn hq hk' ht ht' => exact ⟨hpush h.device hb hq, hsame h.host hk'⟩
  | idleHost hb hd hJ hc hn hq hk' ht ht' => exact ⟨hsame h.device hq, hpush h.host hb hk'⟩
  | @toHost id b a hb hJ hc hd hn hq hk' ht =>
    refine ⟨hsame h.device hq, ?_⟩
    by_cases hz : b.dependents = 0
    · exact hpush h.host hb (hk'.trans (if_pos hz))
    · exact hsame h.host (hk'.trans (if_neg hz))
  | @land id b a hb hF hJ hc hd hn hq hk' ht =>
    refine ⟨?_, hsame h.host hk'⟩
    by_cases hz : b.dependents = 0
    · exact hpush h.device hb (hq.trans (if_pos hz))
    · exact hsame h.device (hq.trans (if_neg hz))
  | ensure hb hF ho hJ hc hd hn hq hk' ht => exact ⟨hsame h.device hq, hsame h.host hk'⟩

theorem QueueClass.edits {H H' : Hands} (h : QueueClass H.inner) (hO : Own H) (e : Edits F H H') :
    QueueClass H'.inner := by
  induction e with
  | refl => exact h
  | tail e₁ e ih => exact ih.requeue (hO.edits e₁).entries (Keeps.edit (hO.edits e₁) e) e.requeue

/-! ## no block is missing -/

structure Queued (I : Inner) : Prop where
  device : ∀ id b, I.block id = some b → b.dependents = 0 → OnDevice b → id ∈ I.reclaim b.cls
  host : ∀ id b, I.block id = some b → b.dependents = 0 → OnHost b → id ∈ I.hostReclaim b.cls

theorem mem_push (h : j ∈ Q c') : j ∈ update Q c (Q c ++ [id]) c' := by
  by_cases e : c' = c
  · subst e
    rw [update_self]
    exact mem_append_left _ h
  · rw [update_of_ne e]
    exact h

theorem mem_push_self : id ∈ update Q c (Q c ++ [id]) c := by
  rw [update_self]
  exact mem_append_right _ mem_cons_self

theorem queued_update {T : Block → Prop}
    (h : ∀ id b, I.block id = some b → b.dependents = 0 → T b → id ∈ Q b.cls)
    (hJ : J.block = update I.block id (some a)) (hQ : ∀ c j, j ∈ Q c → j ∈ Q' c)
    (ha : a.dependents = 0 → T a → id ∈ Q' a.cls) :
    ∀ j b, J.block j = some b → b.dependents = 0 → T b → j ∈ Q' b.cls := by
  intro j b' hb' hd hT
  rw [hJ] at hb'
  by_cases e : j = id
  · rw [e, update_self] at hb'
    cases hb'
    exact e ▸ ha hd hT
  · rw [update_of_ne e] at hb'
    exact hQ _ j (h j b' hb' hd hT)

theorem Queued.requeue (h : Queued I) (hF : ∀ b, F.ensure b → OnHost b → b.dependents ≠ 0)
    (r : Requeue F I J) : Queued J := by
  have hQ : ∀ {Q Q' : Nat → List BlockId}, Q' = Q → ∀ c j, j ∈ Q c → j ∈ Q' c :=
    fun e c j hj => e ▸ hj
  have hP : ∀ {Q Q' : Nat → List BlockId} {c : Nat} {id : BlockId},
      Q' = update Q c (Q c ++ [id]) → ∀ c j, j ∈ Q c → j ∈ Q' c :=
    fun e c j hj => e ▸ mem_push hj
  cases r with
  | keep hq hk ht hb =>
    refine ⟨fun j a ha hd hT => ?_, fun j a ha hd hT => ?_⟩
    · obtain ⟨b, hb', hr⟩ := hb j a ha hd
      rw [hq, hr.cls]
      exact h.device j b hb' hr.dependents (hr.dev hT)
    · obtain ⟨b, hb', hr⟩ := hb j a ha hd
      rw [hk, hr.cls]
      exact h.host j b hb' hr.dependents (hr.host hT)
  | @trim c q hs hq hJ =>
    subst hJ
    refine ⟨fun j b hb hd hT => ?_, h.host⟩
    have hm := h.device j b hb hd hT
    show j ∈ update I.reclaim c q b.cls
    by_cases e : b.cls = c
    · rw [e, update_self]
      refine mem_of_filter hq (fun hst => ?_) (e ▸ hm)
      obtain ⟨s, hs⟩ := hT
      rcases hst b hb with h0 | ⟨x, hx⟩
      · omega
      · rw [hs] at hx
        cases hx
    · rw [update_of_ne e]
      exact hm
  | @trimHost c q hs hq hJ =>
    subst hJ
    refine ⟨h.device, fun j b hb hd hT => ?_⟩
    have hm := h.host j b hb hd hT
    show j ∈ update I.hostReclaim c q b.cls
    by_cases e : b.cls = c
    · rw [e, update_self]
      refine mem_of_filter hq (fun hst => ?_) (e ▸ hm)
      obtain ⟨s, hs⟩ := hT
      rcases hst b hb with h0 | hne
      · omega
      · exact hne s hs
    · rw [update_of_ne e]
      exact hm
  | idleDev hb hd hF' hJ hc hp hn hq hk ht ht' =>
    refine ⟨queued_update h.device hJ (hP hq) (fun _ _ => ?_),
      queued_update h.host hJ (hQ hk) (fun _ ⟨x, hx⟩ => absurd ⟨x, hp ▸ hx⟩ hn)⟩
    rw [hq, hc]
    exact mem_push_self
  | idleHost hb hd hJ hc hn hq hk ht ht' =>
    refine ⟨queued_update h.device hJ (hQ hq) (fun _ hT => absurd hT hn),
      queued_update h.host hJ (hP hk) (fun _ _ => ?_)⟩
    rw [hk, hc]
    exact mem_push_self
  | @toHost id b a hb hJ hc hd hn hq hk ht =>
    refine ⟨queued_update h.device hJ (hQ hq) (fun _ hT => absurd hT hn), ?_⟩
    by_cases hz : b.dependents = 0
    · rw [if_pos hz] at hk
      refine queued_update h.host hJ (hP hk) (fun _ _ => ?_)
      rw [hk, hc]
      exact mem_push_self
    · rw [if_neg hz] at hk
      exact queued_update h.host hJ (hQ hk) (fun h0 _ => absurd (hd.symm.trans h0) hz)
  | @land id b a hb hF' hJ hc hd hn hq hk ht =>
    refine ⟨?_, queued_update h.host hJ (hQ hk) (fun _ hT => absurd hT hn)⟩
    by_cases hz : b.dependents = 0
    · rw [if_pos hz] at hq
      refine queued_update h.device hJ (hP hq) (fun _ _ => ?_)
      rw [hq, hc]
      exact mem_push_self
    · rw [if_neg hz] at hq
      exact queued_update h.device hJ (hQ hq) (fun h0 _ => absurd (hd.symm.trans h0) hz)
  | @ensure id b a hb hF' ho hJ hc hd hn hq hk ht =>
    exact ⟨queued_update h.device hJ (hQ hq) (fun h0 _ => absurd (hd.symm.trans h0) (hF b hF' ho)),
      queued_update h.host hJ (hQ hk) (fun _ hT => absurd hT hn)⟩

theorem Queued.edits {H H' : Hands} (h : Queued H.inner) (hF : ∀ b, F.ensure b → OnHost b → b.dependents ≠ 0)
    (e : Edits F H H') : Queued H'.inner := by
  induction e with
  | refl => exact h
  | tail _ e ih => exact ih.requeue hF e.requeue

/-! ## a queued block can be reclaimed -/

/-- `n` reclaims in a row, each of which gives a slot -/
def reclaims (c : Nat) : Nat → Inner → Option Inner
  | 0, I => some I
  | n + 1, I =>
    match I.reclaimSlot c with
    | (J, .ok (some _)) => reclaims c n J
    | _ => none

def hostReclaims (c : Nat) : Nat → Inner → Option Inner
  | 0, I => some I
  | n + 1, I =>
    match I.hostVictim c with
    | (J, some _) => hostReclaims c n J
    | _ => none

/-- with an idle block queued a reclaim gives a slot, and leaves the block or drops it -/
theorem reclaimSlot_some (h : Own ⟨I, d, k⟩) (hq : QueueClass I) (hm : id ∈ I.reclaim c)
    (hb : I.block id = some b) (hi : Idle b) :
    ∃ J s, I.reclaimSlot c = (J, .ok (some s)) ∧ (J.reclaim c).length < (I.reclaim c).length ∧
      (J.block id = none ∨ (J.block id = some b ∧ id ∈ J.reclaim c)) := by
  have hscan : I.reclaimScan (I.reclaim c) = scan I.reclaimVerdict (I.reclaim c) := reclaimScan_eq _
  have hv : I.reclaimVerdict id = .take := verdict_take.mpr ⟨b, hb, hi⟩
  obtain ⟨v, hf⟩ := scan_some I.reclaimVerdict hm hv
  obtain ⟨bv, hbv, hdv, hhv, hsv, sv, hpv⟩ := verdict_take.mp (scan_found _ hf).2
  have hcv : bv.cls = c := (hq.device c v (scan_found _ hf).1).2 bv hbv
  have hrv := h.refilling_none hbv (.inr hsv)
  set q := (scan I.reclaimVerdict (I.reclaim c)).1 with hq'
  set K := (I.setReclaim c q).log (.reclaim c v) with hK
  have hdrop : K.dropBlock v = ((K.clearEntry v).clearIndex bv.cls bv.key).putDevice bv.cls sv :=
    dropBlock_dev (I := K) hbv hrv hpv
  have hO : Own ⟨K.dropBlock v, d, k⟩ := by
    have h1 : Own ⟨K, d, k⟩ := h.same rfl rfl rfl rfl rfl rfl rfl rfl
    exact h1.edit (F := anyFacts) (.dropDev hbv hpv hdv hhv hsv)
  have hne : ((K.dropBlock v).device c).byFree ≠ [] := by
    rw [hdrop, ← hcv]
    show (update K.device bv.cls _ bv.cls).byFree ≠ []
    rw [update_self]
    exact put_byFree _ _
  obtain ⟨s, sl, ht⟩ := takeNoGrow_some (hO.devOk c) hne
  have hrec : (K.dropBlock v).reclaim c = q := by
    rw [reclaim_dropBlock]
    exact update_self _ _ _
  refine ⟨(K.dropBlock v).setDevice c sl, s, ?_, ?_, ?_⟩
  · unfold reclaimSlot
    simp only [hscan, hf, ← hq', ← hK, ht]
  · show ((K.dropBlock v).reclaim c).length < _
    rw [hrec]
    exact scan_length _ hf
  · show (K.dropBlock v).block id = none ∨ ((K.dropBlock v).block id = some b ∧ id ∈ (K.dropBlock v).reclaim c)
    rw [block_dropBlock (I := K) hbv, hrec]
    by_cases e : id = v
    · rw [e, update_self]
      exact .inl rfl
    · rw [update_of_ne e]
      refine .inr ⟨hb, mem_scan _ hm (by rw [hv]; exact nofun) (fun hc => e ?_)⟩
      exact (some.inj (hf.symm.trans hc)).symm

theorem hostVictim_some (h : Own ⟨I, d, k⟩) (hq : QueueClass I)
    (hm : id ∈ I.hostReclaim c) (hb : I.block id = some b) (hp : b.place = .host x)
    (hd : b.dependents = 0) (hh : b.holds = 0) :
    ∃ J s, I.hostVictim c = (J, some s) ∧ (J.hostReclaim c).length < (I.hostReclaim c).length ∧
      (J.block id = none ∨ (J.block id = some b ∧ id ∈ J.hostReclaim c)) := by
  have hscan : I.hostScan (I.hostReclaim c) = scan I.hostVerdict (I.hostReclaim c) := hostScan_eq _
  have hv : I.hostVerdict id = .take := hostVerdict_take.mpr ⟨b, x, hb, hp, hd, hh⟩
  obtain ⟨v, hf⟩ := scan_some I.hostVerdict hm hv
  obtain ⟨bv, xv, hbv, hpv, hdv, hhv⟩ := hostVerdict_take.mp (scan_found _ hf).2
  have hcv : bv.cls = c := (hq.host c v (scan_found _ hf).1).2 bv hbv
  have hrv := h.refilling_none hbv (.inl (fun s' e => by rw [hpv] at e; cases e))
  set q := (scan I.hostVerdict (I.hostReclaim c)).1 with hq'
  set K := I.setHostReclaim c q with hK
  have hdrop : K.dropBlock v = ((K.clearEntry v).clearIndex bv.cls bv.key).putHost bv.cls xv :=
    dropBlock_host (I := K) hbv hrv hpv
  have hO : Own ⟨K.dropBlock v, d, k⟩ := by
    have h1 : Own ⟨K, d, k⟩ := h.same rfl rfl rfl rfl rfl rfl rfl rfl
    exact h1.edit (F := anyFacts) (.dropHost hbv hpv hdv hhv)
  have hne : ((K.dropBlock v).host c).byFree ≠ [] := by
    rw [hdrop, ← hcv]
    show (update K.host bv.cls _ bv.cls).byFree ≠ []
    rw [update_self]
    exact put_byFree _ _
  obtain ⟨s, sl, ht⟩ := takeNoGrow_some (hO.hostOk c) hne
  have hrec : (K.dropBlock v).hostReclaim c = q := by
    rw [hostReclaim_dropBlock]
    exact update_self _ _ _
  refine ⟨(K.dropBlock v).setHost c sl, s, ?_, ?_, ?_⟩
  · unfold hostVictim
    simp only [hscan, hf, ← hq', ← hK, ht]
  · show ((K.dropBlock v).hostReclaim c).length < _
    rw [hrec]
    exact scan_length _ hf
  · show (K.dropBlock v).block id = none ∨
      ((K.dropBlock v).block id = some b ∧ id ∈ (K.dropBlock v).hostReclaim c)
    rw [block_dropBlock (I := K) hbv, hrec]
    by_cases e : id = v
    · rw [e, update_self]
      exact .inl rfl
    · rw [update_of_ne e]
      refine .inr ⟨hb, mem_scan _ hm (by rw [hv]; exact nofun) (fun hc => e ?_)⟩
      exact (some.inj (hf.symm.trans hc)).symm

theorem reclaims_reach (hn : (I.reclaim c).length ≤ n) (h : Own ⟨I, d, k⟩)
    (hq : QueueClass I) (hm : id ∈ I.reclaim c) (hb : I.block id = some b) (hi : Idle b) :
    ∃ n J, reclaims c n I = some J ∧ J.block id = none := by
  induction n generalizing I d with
  | zero =>
    have := length_pos_of_mem hm
    omega
  | succ n ih =>
    obtain ⟨J, s, hr, hlen, hgone⟩ := reclaimSlot_some h hq hm hb hi
    rcases hgone with hgone | ⟨hb', hm'⟩
    · refine ⟨1, J, ?_, hgone⟩
      unfold reclaims
      rw [hr]
      rfl
    · have hE := (reclaimSlot_edits (F := anyFacts) (c := c) h (fun _ _ => trivial)).1
      rw [hr] at hE
      have hle : (J.reclaim c).length ≤ n := by omega
      obtain ⟨m, K, hK, hgone⟩ := ih hle (h.edits hE) (hq.edits h hE) hm' hb'
      refine ⟨m + 1, K, ?_, hgone⟩
      unfold reclaims
      rw [hr]
      exact hK

theorem hostReclaims_reach (hn : (I.hostReclaim c).length ≤ n)
    (h : Own ⟨I, d, k⟩) (hq : QueueClass I) (hm : id ∈ I.hostReclaim c) (hb : I.block id = some b)
    (hp : b.place = .host x) (hd : b.dependents = 0) (hh : b.holds = 0) :
    ∃ n J, hostReclaims c n I = some J ∧ J.block id = none := by
  induction n generalizing I k with
  | zero =>
    have := length_pos_of_mem hm
    omega
  | succ n ih =>
    obtain ⟨J, s, hr, hlen, hgone⟩ := hostVictim_some h hq hm hb hp hd hh
    rcases hgone with hgone | ⟨hb', hm'⟩
    · refine ⟨1, J, ?_, hgone⟩
      unfold hostReclaims
      rw [hr]
      rfl
    · have hE := (hostVictim_edits (F := anyFacts) (c := c) h).1
      rw [hr] at hE
      have hle : (J.hostReclaim c).length ≤ n := by omega
      obtain ⟨m, K, hK, hgone⟩ := ih hle (h.edits hE) (hq.edits h hE) hm' hb'
      refine ⟨m + 1, K, ?_, hgone⟩
      unfold hostReclaims
      rw [hr]
      exact hK

end Inner

/-! ## no reclaimable block is lost -/

/-- every block without dependents is queued where it can be reclaimed -/
structure Sys.NoneLost (s : Sys) : Prop where
  device : ∀ id b x, s.inner.block id = some b → b.dependents = 0 → b.place = .device x →
    b.state = .ready ∨ b.state = .failed → id ∈ s.inner.reclaim b.cls ∧
      (b.holds = 0 → ∃ n J, reclaims b.cls n s.inner = some J ∧ J.block id = none)
  host : ∀ id b x, s.inner.block id = some b → b.dependents = 0 → b.place = .host x →
    id ∈ s.inner.hostReclaim b.cls ∧
      (b.holds = 0 → ∃ n J, hostReclaims b.cls n s.inner = some J ∧ J.block id = none)

/-- the operation copies no host block back that nothing depends on, unless to queue its restore -/
def Op.EnsuresUsed (s : Sys) : Op → Prop
  | .ensureDevice id _ _ => ∀ b x, s.inner.block id = some b → b.place = .host x → b.dependents ≠ 0
  | .restoreAsync id _ _ _ =>
    ∀ b x, s.inner.block id = some b → b.place = .host x → b.state ≠ .ready → b.dependents ≠ 0
  | _ => True

theorem Op.ensure_used {C : Conds} {s : Sys} {o : Op} (h : o.EnsuresUsed s)
    (b : Block) : (o.facts C s).ensure b → OnHost b → b.dependents ≠ 0 := by
  rintro he ⟨x, hx⟩
  cases o with
  | ensureDevice id e htod => exact h b x he hx
  | restoreAsync id e htod fence =>
    obtain ⟨hs, n, hb⟩ := he
    exact h { b with tick := n } x hb hx hs
  | _ => exact absurd he id

theorem lost_inv {s s' : Sys} {o : Op} (h : SysOk s ∧ QueueClass s.inner ∧ Queued s.inner)
    (hc : o.EnsuresUsed s) (hs : s.step o = some s') :
    SysOk s' ∧ QueueClass s'.inner ∧ Queued s'.inner := by
  obtain ⟨hO, hq, hQ⟩ := h
  have hE := hO.step_edits (Op.meets_any s o) hs
  exact ⟨hO.step hs, hq.edits hO.own hE, hQ.edits (Op.ensure_used hc) hE⟩

theorem Queued.noneLost {s : Sys} (hO : SysOk s) (hq : QueueClass s.inner) (h : Queued s.inner) :
    s.NoneLost where
  device id b x hb hd hp hs := by
    have hm := h.device id b hb hd ⟨x, hp⟩
    refine ⟨hm, fun hh => reclaims_reach (le_refl _) hO.own hq hm hb ⟨hd, hh, ?_, x, hp⟩⟩
    rcases hs with hs | hs <;> rw [hs] <;> exact nofun
  host id b x hb hd hp := by
    have hm := h.host id b hb hd ⟨x, hp⟩
    exact ⟨hm, fun hh => hostReclaims_reach (le_refl _) hO.own hq hm hb hp hd hh⟩

theorem new_queueClass (specs : List ClassSpec) (chunkBytes deviceCap hostCap : Nat) :
    QueueClass (Inner.new specs chunkBytes deviceCap hostCap) where
  device _ _ hm := absurd hm not_mem_nil
  host _ _ hm := absurd hm not_mem_nil

theorem new_queued (specs : List ClassSpec) (chunkBytes deviceCap hostCap : Nat) :
    Queued (Inner.new specs chunkBytes deviceCap hostCap) where
  device id b hb := by
    rw [block_new] at hb
    cases hb
  host id b hb := by
    rw [block_new] at hb
    cases hb

/-- In a run that copies no unused host block back, no block that can be reclaimed is missing from
its queue. -/
theorem none_lost (specs : List ClassSpec) (chunkBytes deviceCap hostCap : Nat) (ops : List Op)
    (s : Sys) (hc : Each Sys.step (fun s o => o.EnsuresUsed s)
      (Sys.new specs chunkBytes deviceCap hostCap) ops)
    (h : Sys.Runs specs chunkBytes deviceCap hostCap ops s) : s.NoneLost := by
  obtain ⟨hO, hq, hQ⟩ := exec_inv_of (P := fun s => SysOk s ∧ QueueClass s.inner ∧ Queued s.inner)
    (fun s o s' hs hco hst => lost_inv hs hco hst)
    ⟨SysOk.new specs chunkBytes deviceCap hostCap, new_queueClass _ _ _ _, new_queued _ _ _ _⟩ hc h
  exact Queued.noneLost hO hq hQ

def spilledRun : List Op :=
  [.growPick none, .growLand 0 (.ok 4096), .acquire 0 ⟨1, 2, 3⟩ ⟨0, none, .ok 1024⟩ (.ok ()),
    .sealIds [⟨0, 0⟩], .spillOne ⟨0, 0⟩ (.ok 7), .reap (fun _ => .ok true), .release [⟨0, 0⟩]]

theorem none_lost_spilled : ∃ s, Sys.Runs [⟨1, 4⟩] 8 64 64 spilledRun s ∧ s.NoneLost := by
  obtain ⟨s, hs⟩ := isSome_iff_exists.mp
    (show (exec Sys.step (Sys.new [⟨1, 4⟩] 8 64 64) spilledRun).isSome from rfl)
  refine ⟨s, hs, none_lost _ _ _ _ _ s ?_ hs⟩
  exact ⟨trivial, fun _ _ => ⟨trivial, fun _ _ => ⟨trivial, fun _ _ => ⟨trivial, fun _ _ => ⟨trivial,
    fun _ _ => ⟨trivial, fun _ _ => ⟨trivial, fun _ _ => trivial⟩⟩⟩⟩⟩⟩⟩

/-- copied back by `ensure_device`, the block is in no queue -/
theorem ensure_loses : ¬ ∀ specs chunkBytes deviceCap hostCap ops s,
    Sys.Runs specs chunkBytes deviceCap hostCap ops s → s.NoneLost := by
  intro h
  obtain ⟨s, hs⟩ := isSome_iff_exists.mp (show (exec Sys.step (Sys.new [⟨1, 4⟩] 8 64 64)
    (spilledRun ++ [.ensureDevice ⟨0, 0⟩ ⟨0, none, .ok 1024⟩ (.ok ())])).isSome from rfl)
  have hv : (exec Sys.step (Sys.new [⟨1, 4⟩] 8 64 64)
      (spilledRun ++ [.ensureDevice ⟨0, 0⟩ ⟨0, none, .ok 1024⟩ (.ok ())])).map
        (fun s => (s.inner.block ⟨0, 0⟩, s.inner.reclaim 0)) =
      some (some ⟨0, ⟨1, 2, 3⟩, .ready, .device ⟨0⟩, 0, 0, 2⟩, []) := rfl
  rw [hs] at hv
  obtain ⟨hb, hq⟩ := Prod.mk.inj (some.inj hv)
  have hm := ((h _ _ _ _ _ s hs).device _ _ _ hb rfl rfl (.inl rfl)).1
  rw [show s.inner.reclaim 0 = [] from hq] at hm
  cases hm

end Plow.KvStore
