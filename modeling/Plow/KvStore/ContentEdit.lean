import Plow.KvStore.Content

/-!
# Every edit keeps what the slots hold

`Safe F p` : what the operation may do leaves the pins `p` alone.  No hold drops, no held host block is
copied back, no refill fails under a hold, and no copy is queued behind a fence that is done.

`Good.edit` follows one edit and the events that it logs, `Good.edits` a run of them.
-/

namespace Plow.KvStore

open Lib Inner List Function

variable {V : Type} {c : Copy}

structure Safe (F : Facts) (p : Pins V) : Prop where
  unpin : ¬ F.unpin
  ensure : ∀ b, F.ensure b → OnHost b → b.holds = 0
  unfill : ∀ I id b, F.unfill I id → I.block id = some b →
    b.state = .filling ∧ (I.refilling id ≠ none → b.holds = 0)
  start : ∀ f, F.start f → ¬ F.done f
  planned : ∀ v ∈ p.moves, F.planned v.dest

def Done (F : Facts) (m : Mem V) : Prop := ∀ f, F.done f → m.Landed (some f)

theorem Done.start {F : Facts} {p : Pins V} {m m' : Mem V} {f : Nat} (h : Done F m)
    (hS : Safe F p) (hf : F.start f) (hc : c.fence = some f) (hm : m'.copies = c :: m.copies) :
    Done F m' := by
  intro g hg c' hc' e
  rw [hm] at hc'
  rcases mem_cons.mp hc' with rfl | hc'
  · cases hc.symm.trans e
    exact absurd hg (hS.start f hf)
  · exact h g hg c' hc' e

/-- the events after the trace `t` have kept the invariant -/
def Follows (F : Facts) (p : Pins V) (junk : V) (t : List Event) (m : Mem V) (H : Hands) : Prop :=
  ∃ new, H.inner.trace = new ++ t ∧ Good p H (m.applyAll junk new) ∧ Done F (m.applyAll junk new)

section
variable {F : Facts} {p : Pins V} {junk : V} {t : List Event} {m : Mem V} {H : Hands}

theorem Follows.quiet (ht : H.inner.trace = t) (h : Good p H m) (hd : Done F m) :
    Follows F p junk t m H := ⟨[], ht, h, hd⟩

theorem Follows.logged {e : Event} (ht : H.inner.trace = e :: t) (h : Good p H (m.apply junk e))
    (hd : Done F (m.apply junk e)) : Follows F p junk t m H := ⟨[e], ht, h, hd⟩

end

namespace Good
variable {F : Facts} {p : Pins V} {I J : Inner} {d d' : List (Nat × Slot .dev)}
  {k k' : List (Nat × Slot .host)} {m : Mem V} {id : BlockId} {b a : Block} {junk : V} {s : Slot .dev}
  {x : Slot .host}

theorem need_zero (h : Good p ⟨I, d, k⟩ m) (hb : I.block id = some b) (hh : b.holds = 0) :
    p.need id = 0 := by
  have := h.holds id b hb
  omega

theorem ready_of (h : Good p ⟨I, d, k⟩ m) (hb : I.block id = some b) (hp : ¬ OnDevice b) :
    b.state = .ready := by
  by_contra hc
  exact hp (h.onDev id b hb hc)

theorem copy_none (hp : b.place = .device s) : b.copy = none := by
  unfold Block.copy
  rw [hp]

theorem copy_none_host (hp : b.place = .host x) : b.copy = none := by
  unfold Block.copy
  rw [hp]

theorem give {c : Nat} (hS : Safe F p) (hn : ¬ F.planned (c, s)) :
    ∀ v ∈ p.moves, v.dest ∈ (c, s) :: d → v.dest ∈ d := by
  intro v hv hm
  rcases mem_cons.mp hm with e | hm
  · exact absurd (e ▸ hS.planned v hv) hn
  · exact hm

theorem back (h : Good p ⟨I, d, k⟩ m) (hO : Own ⟨I, d, k⟩)
    (hS : Safe F p) (hb : I.block id = some b) (hr : I.refilling id = some x)
    (hp : b.place = .device s) (hF : F.unfill I id)
    (hJ : J.block = Function.update I.block id (some { b with place := .host x, state := .ready }))
    (hJr : J.refilling = Function.update I.refilling id none)
    (hi : ∀ id, I.Issued id → J.Issued id) : Good p ⟨J, d, k⟩ m := by
  have hz : p.need id = 0 := h.need_zero hb ((hS.unfill I id b hF hb).2 (by rw [hr]; exact nofun))
  refine h.update hO hb hJ rfl rfl hi (fun j hj => by rw [hJr, update_of_ne hj])
    (fun _ _ hv => hv) rfl (fun _ _ => rfl) (fun _ hc => hc)
    (fun c hc => .inl ⟨hc, fun e => by rw [copy_none hp] at e; cases e⟩)
    (fun hst => absurd rfl hst) (h.holds id b hb) (fun _ y f hR => ?_) (fun y hy => ?_)
    (fun hn => absurd hz hn) (fun hn => absurd hz hn)
  · obtain ⟨rfl, rfl⟩ := hR.of_host rfl
    exact .inl (h.kept id b x hb hr)
  · rw [hJr, update_self] at hy
    cases hy

/-- what a fill wrote is sealed for the key of its block -/
theorem sealed (h : Good p ⟨I, d, k⟩ m) (hO : Own ⟨I, d, k⟩)
    (hb : I.block id = some b) (hs : b.state = .filling) (hp : b.place = .device s)
    (hJ : J.block = Function.update I.block id (some { b with state := .ready }))
    (hJr : J.refilling = Function.update I.refilling id none)
    (hi : ∀ id, I.Issued id → J.Issued id) :
    Good p ⟨J, d, k⟩ (m.apply junk (.seal b.cls b.key b.place)) := by
  have hap : m.apply junk (.seal b.cls b.key b.place) =
      { m with sealed := Function.update m.sealed (b.cls, b.key) (m.bytes (.dev b.cls s)) } := by
    rw [hp]
    rfl
  have hne : b.state ≠ .ready := by rw [hs]; exact nofun
  rw [hap]
  refine h.update hO hb hJ rfl rfl hi (fun j hj => by rw [hJr, update_of_ne hj])
    (fun _ _ hv => hv) rfl (fun y hy => update_of_ne hy _ _) (fun _ hc => hc)
    (fun c hc => .inl ⟨hc, fun e => by rw [copy_none hp] at e; cases e⟩)
    (fun hst => absurd rfl hst) (h.holds id b hb) (fun _ y f hR => ?_) (fun y hy => ?_)
    (fun _ y f hR => hR.congr rfl rfl) (fun _ hst => absurd hst hne)
  · obtain ⟨rfl, rfl⟩ := hR.of_device hp
    refine .inl ?_
    show m.bytes _ = Function.update m.sealed _ _ _
    rw [update_self]
  · rw [hJr, update_self] at hy
    cases hy

/-- a copied block is on the device, its bytes in the slot that was in hand -/
theorem ensured (h : Good p ⟨I, (b.cls, s) :: d, k⟩ m)
    (hO : Own ⟨I, (b.cls, s) :: d, k⟩) (hS : Safe F p) (hb : I.block id = some b)
    (hp : b.place = .host x) (hF : F.ensure b) (hn : ¬ F.planned (b.cls, s))
    (hJ : J.block = Function.update I.block id (some { b with place := .device s }))
    (hJr : J.refilling = I.refilling) (hi : ∀ id, I.Issued id → J.Issued id) :
    Good p ⟨J, d, k⟩ (m.apply junk (.htod b.cls x s true)) := by
  have hz : p.need id = 0 := h.need_zero hb (hS.ensure b hF ⟨x, hp⟩)
  have hst : b.state = .ready := h.ready_of hb (fun ⟨y, hy⟩ => nomatch hp.symm.trans hy)
  have hr : I.refilling id = none := hO.refilling_none hb (.inl (fun y hy => nomatch hp.symm.trans hy))
  have hv : m.bytes (.host b.cls x) = m.sealed (b.cls, b.key) := (h.clean id b hb hst _ _ (.host hp)).now
  have hW : Good p ⟨I, (b.cls, s) :: d, k⟩ (m.write (.dev b.cls s) (m.bytes (.host b.cls x))) :=
    h.scratch (fun j _ _ _ => hO.not_used mem_cons_self j)
      (fun v hv e => hn (e ▸ hS.planned v hv))
  refine hW.update hO hb hJ rfl rfl hi (fun j hj => by rw [hJr]) (give hS hn) rfl (fun _ _ => rfl)
    (fun _ hc => hc) (fun c hc => .inl ⟨hc, fun e => by rw [copy_none_host hp] at e; cases e⟩)
    (fun hne => absurd hst hne) (h.holds id b hb) (fun _ y f hR => ?_) (fun y hy => ?_)
    (fun hn => absurd hz hn) (fun hn => absurd hz hn)
  · obtain ⟨rfl, rfl⟩ := hR.of_device rfl
    exact .inl ((Mem.write_self m _ _).trans hv)
  · rw [hJr, hr] at hy
    cases hy

/-- a copy to the other tier is queued; the block can still be read where it was -/
theorem queued (h : Good p ⟨I, d, k⟩ m) (hO : Own ⟨I, d, k⟩)
    (hb : I.block id = some b) (hst : b.state = .ready) (hcp : b.copy = none)
    (hJ : J.block = Function.update I.block id (some a)) (hc : a.cls = b.cls) (hk : a.key = b.key)
    (hs : a.state = b.state) (hh : a.holds = b.holds) (hac : a.copy = some c)
    (hi : ∀ id, I.Issued id → J.Issued id) (hJr : J.refilling = I.refilling)
    (hr : I.refilling id = none) (hd : ∀ v ∈ p.moves, v.dest ∈ d → v.dest ∈ d')
    (hcf : c.fence ≠ none)
    (hold : ∀ y f, Reads a y f → Reads b y f ∨ (y = c.dst ∧ f = c.fence))
    (reads : ∀ y f, Reads b y f → Reads a y f)
    (hdev : p.need id = 0 ∨ ¬ OnDevice b) :
    Good p ⟨J, d', k'⟩ { m with copies := c :: m.copies } := by
  refine h.update hO hb hJ hc hk hi (fun j _ => by rw [hJr]) hd rfl (fun _ _ => rfl)
    (fun _ hv => mem_cons_of_mem _ hv) (fun c' hc' => ?_) (fun hne => absurd (hs.trans hst) hne)
    (hh ▸ h.holds id b hb) (fun _ y f hR => ?_) (fun y hy => ?_) (fun _ => reads)
    (fun hn _ => ⟨hs.trans hst, fun s e => (hdev.elim hn (fun h => h ⟨s, e⟩)).elim, rfl⟩)
  · rcases mem_cons.mp hc' with rfl | hc'
    · exact .inr hac
    · exact .inl ⟨hc', fun e => by rw [hcp] at e; cases e⟩
  · rcases hold y f hR with hR | ⟨rfl, rfl⟩
    · rcases h.clean id b hb hst y f hR with e | ⟨c', hc', hrest⟩
      · exact .inl e
      · exact .inr ⟨c', mem_cons_of_mem _ hc', hrest⟩
    · exact .inr ⟨c, mem_cons_self, rfl, rfl, hcf⟩
  · rw [hJr, hr] at hy
    cases hy

/-- a copy landed: the block is on the tier that it went to -/
theorem landed (h : Good p ⟨I, d, k⟩ m) (hO : Own ⟨I, d, k⟩)
    (hb : I.block id = some b) (hnd : ¬ OnDevice b) (hbc : b.copy = some c) (hh : b.holds = 0)
    (hf : m.Landed c.fence) (hcf : c.fence ≠ none) (hJ : J.block = Function.update I.block id (some a))
    (hc : a.cls = b.cls) (hk : a.key = b.key) (hs : a.state = b.state)
    (hi : ∀ id, I.Issued id → J.Issued id) (hJr : J.refilling = I.refilling)
    (reads : ∀ y f, Reads a y f → y = c.dst) (hR : Reads b c.dst c.fence) : Good p ⟨J, d, k⟩ m := by
  have hz : p.need id = 0 := h.need_zero hb hh
  have hst : b.state = .ready := h.ready_of hb hnd
  have hr : I.refilling id = none := hO.refilling_none hb (.inl (fun y hy => hnd ⟨y, hy⟩))
  refine h.update hO hb hJ hc hk hi (fun j _ => by rw [hJr]) (fun _ _ hv => hv) rfl (fun _ _ => rfl)
    (fun _ hv => hv) (fun c' hc' => .inl ⟨hc', fun e => ?_⟩)
    (fun hne => absurd (hs.trans hst) hne) (by rw [hz]; exact Nat.zero_le _) (fun _ y f hRa => ?_)
    (fun y hy => ?_) (fun hn => absurd hz hn) (fun hn => absurd hz hn)
  · cases hbc.symm.trans e
    exact absurd (hf c hc' rfl) hcf
  · rw [reads y f hRa]
    exact .inl ((h.clean id b hb hst _ _ hR).landed hf)
  · rw [hJr, hr] at hy
    cases hy

theorem edit {H H' : Hands} (junk : V) (hS : Safe F p) (hO : Own H) (h : Good p H m) (hD : Done F m)
    (e : Edit F H H') : Follows F p junk H.inner.trace m H' := by
  have hi := (Keeps.edit hO e).issued
  have hle : ∀ {id b n}, H.inner.block id = some b → b.holds ≤ n → p.need id ≤ n :=
    fun hb hn => (h.holds _ _ hb).trans hn
  cases e with
  | frame hs =>
    refine .quiet hs.trace (h.frame ?_ hs.refilling hi (fun _ _ hv => hv)) hD
    funext j
    unfold block
    rw [hs.blocks]
  | perm hd hk => exact .quiet rfl (h.frame rfl rfl hi (fun _ _ hv => hd.subset hv)) hD
  | takeDev ht =>
    exact .quiet rfl (h.frame rfl rfl hi (fun _ _ hv => mem_cons_of_mem _ hv)) hD
  | takeHost ht => exact .quiet rfl (h.frame rfl rfl hi (fun _ _ hv => hv)) hD
  | putDev hn => exact .quiet rfl (h.frame rfl rfl hi (give hS hn)) hD
  | putHost => exact .quiet rfl (h.frame rfl rfl hi (fun _ _ hv => hv)) hD
  | retire ht => exact .quiet rfl (h.frame rfl rfl hi (fun _ _ hv => hv)) hD
  | trim hs hq => exact .quiet rfl (h.frame rfl rfl hi (fun _ _ hv => hv)) hD
  | trimHost hs hq => exact .quiet rfl (h.frame rfl rfl hi (fun _ _ hv => hv)) hD
  | logReclaim hF => exact .logged rfl (h.frame rfl rfl hi (fun _ _ hv => hv)) hD
  | logHtod hn =>
    refine .logged rfl (frame (I := _) (h.scratch (fun j _ _ _ => hO.not_used mem_cons_self j)
      (fun v hv e => hn (e ▸ hS.planned v hv))) rfl rfl hi (fun _ _ hv => hv)) hD
  | tick n hb => exact .quiet rfl (h.touch hO hb (block_setBlock hb _) rfl rfl rfl rfl (hle hb le_rfl) hi rfl) hD
  | depend n hb => exact .quiet rfl (h.touch hO hb (block_setBlock hb _) rfl rfl rfl rfl (hle hb le_rfl) hi rfl) hD
  | hold n hb =>
    exact .quiet rfl (h.touch hO hb (block_setBlock hb _) rfl rfl rfl rfl
      (hle hb (Nat.le_succ _)) hi rfl) hD
  | unhold hb hF => exact absurd hF hS.unpin
  | move hb hp hh hF hn => exact absurd hF hS.unpin
  | leave hb hd hF => exact .quiet rfl (h.touch hO hb (block_setBlock hb _) rfl rfl rfl rfl (hle hb le_rfl) hi rfl) hD
  | again n hb hs =>
    exact .quiet rfl (h.unready hO hb (block_setBlock hb _) rfl rfl rfl (by rw [hs]; exact nofun)
      nofun le_rfl hi rfl) hD
  | fail hb hr hF =>
    exact .quiet rfl (h.unready hO hb (block_setBlock hb _) rfl rfl rfl
      (by rw [(hS.unfill _ _ _ hF hb).1]; exact nofun) nofun le_rfl hi rfl) hD
  | @idleDev I d k id b hb hd hp hF =>
    have hJ : (((if b.dependents = 1 then I.log (.idle id) else I).setBlock id
        { b with dependents := 0 }).pushReclaim b.cls id).block =
        Function.update I.block id (some { b with dependents := 0 }) := by
      rw [← block_setBlock hb]
      split <;> rfl
    have hG := h.touch hO hb hJ rfl rfl rfl rfl (hle hb le_rfl) hi (by split <;> rfl)
    by_cases hd1 : b.dependents = 1
    · exact .logged (e := .idle id) (by dsimp only; rw [if_pos hd1]; rfl) hG hD
    · exact .quiet (by dsimp only; rw [if_neg hd1]; rfl) hG hD
  | @idleHost I d k id b s hb hd hp hF =>
    have hJ : (((if b.dependents = 1 then I.log (.idle id) else I).setBlock id
        { b with dependents := 0 }).pushHostReclaim b.cls id).block =
        Function.update I.block id (some { b with dependents := 0 }) := by
      rw [← block_setBlock hb]
      split <;> rfl
    have hG := h.touch hO hb hJ rfl rfl rfl rfl (hle hb le_rfl) hi (by split <;> rfl)
    by_cases hd1 : b.dependents = 1
    · exact .logged (e := .idle id) (by dsimp only; rw [if_pos hd1]; rfl) hG hD
    · exact .quiet (by dsimp only; rw [if_neg hd1]; rfl) hG hD
  | @sealed I d k id b hb hs hr hF =>
    obtain ⟨s, hp⟩ := h.onDev id b hb (by rw [hs]; exact nofun)
    refine .logged rfl (h.sealed hO hb hs hp (block_setBlock hb _)
      (update_eq_self_iff.mpr hr.symm).symm hi) ?_
    rw [hp]
    exact hD
  | @sealedRefill I d k id b x hb hs hr hF =>
    obtain ⟨s, hp⟩ := h.onDev id b hb (by rw [hs]; exact nofun)
    refine .logged rfl (h.sealed hO hb hs hp (block_setBlock hb _) rfl hi) ?_
    rw [hp]
    exact hD
  | @back I d k id b s x hb hr hp hF =>
    refine .quiet ?_ (h.back hO hS hb hr hp hF ?_ ?_ hi) hD
    all_goals
      unfold toHost
      dsimp only
    · split <;> rfl
    · rw [← block_setBlock hb]
      split <;> rfl
    · split <;> rfl
  | @backLeak I d k id b s x hb hr hp hF =>
    refine .quiet ?_ (h.back hO hS hb hr hp hF ?_ ?_ hi) hD
    all_goals
      unfold toHost
      dsimp only
    · split <;> rfl
    · rw [← block_setBlock hb]
      split <;> rfl
    · split <;> rfl
  | forget hb hr hp hF =>
    exact .quiet rfl (h.remove hb (block_clearEntry hb) hi (fun _ _ => rfl) (copy_none hp)
      (fun _ => by rw [(hS.unfill _ _ _ hF hb).1]; exact nofun)) hD
  | dropDev hb hp hd hh hs =>
    have hr := hO.refilling_none hb (.inr hs)
    exact .quiet trace_dropBlock (h.remove hb (block_dropBlock hb) hi
      (fun j _ => by rw [refilling_dropBlock hb hr]) (copy_none hp)
      (fun hn => absurd (h.need_zero hb hh) hn)) hD
  | dropHost hb hp hd hh =>
    have hr := hO.refilling_none hb (.inl (fun y hy => nomatch hp.symm.trans hy))
    exact .quiet trace_dropBlock (h.remove hb (block_dropBlock hb) hi
      (fun j _ => by rw [refilling_dropBlock hb hr]) (copy_none_host hp)
      (fun hn => absurd (h.need_zero hb hh) hn)) hD
  | @fresh I d k c key s hix hn =>
    have hno : I.block I.freshId = none := hO.entries.block_freshId
    have hr : I.refilling I.freshId = none := by
      by_contra hc
      obtain ⟨x, hx⟩ := Option.ne_none_iff_exists'.mp hc
      obtain ⟨b, _, hb, _⟩ := hO.refill _ x hx
      cases hno.symm.trans hb
    exact .quiet rfl (h.fresh hno hO.entries.not_issued (block_addBlock I c key s) hi rfl hr nofun
      ⟨s, rfl⟩ (give hS hn)) hD
  | @refill I d k id b s x n hb hp hh hn =>
    have hz := h.need_zero hb hh
    have hst := h.ready_of hb (fun ⟨y, hy⟩ => nomatch hp.symm.trans hy)
    have hv := (h.clean id b hb hst _ _ (.host hp)).now
    refine .quiet rfl (h.update hO hb (block_setBlock hb _) rfl rfl hi
      (fun j hj => update_of_ne hj _ _) (give hS hn) rfl (fun _ _ => rfl) (fun _ hc => hc)
      (fun c hc => .inl ⟨hc, fun e => by rw [copy_none_host hp] at e; cases e⟩)
      (fun _ => ⟨s, rfl⟩) (h.holds id b hb) nofun (fun y hy => ?_) (fun hn => absurd hz hn)
      (fun hn => absurd hz hn)) hD
    have hy : Function.update I.refilling id (some x) id = some y := hy
    rw [update_self] at hy
    cases hy
    exact hv
  | @ensure I d k id b s x hb hp hF hn =>
    have hst := h.ready_of hb (fun ⟨y, hy⟩ => nomatch hp.symm.trans hy)
    refine .logged (e := .htod b.cls x s true) ?_ (h.ensured hO hS hb hp hF hn ?_ ?_ hi) hD
    · dsimp only
      rw [if_pos hst]
      rfl
    · rw [← block_setBlock hb]
      split <;> rfl
    · split <;> rfl
  | @restore I d k id b s x f hb hp hs hF hn =>
    have hr := hO.refilling_none hb (.inl (fun y hy => nomatch hp.symm.trans hy))
    refine .logged rfl (h.queued hO hb hs (copy_none_host hp) (block_setBlock hb _) rfl rfl rfl rfl
      (c := ⟨some f, .host b.cls x, .dev b.cls s⟩) rfl hi rfl hr (give hS hn) nofun
      (fun y g hR => ?_) (fun y g hR => ?_)
      (.inr (fun ⟨y, hy⟩ => nomatch hp.symm.trans hy))) (hD.start hS hF rfl rfl)
    · rcases hR.of_restoring rfl with ⟨rfl, rfl⟩ | ⟨rfl, rfl⟩
      · exact .inl (.host hp)
      · exact .inr ⟨rfl, rfl⟩
    · obtain ⟨rfl, rfl⟩ := hR.of_host hp
      exact .restoring rfl
  | @spill I d k id b s x f hb hp hs hh hF =>
    have hr := hO.refilling_none hb (.inr (by rw [hs]; exact nofun))
    refine .logged rfl (h.queued hO hb hs (copy_none hp) (block_setBlock hb _) rfl rfl rfl rfl
      (c := ⟨some f, .dev b.cls s, .host b.cls x⟩) rfl hi rfl hr (fun _ _ hv => hv) nofun
      (fun y g hR => ?_) (fun y g hR => ?_) (.inl (h.need_zero hb hh))) (hD.start hS hF rfl rfl)
    · rcases hR.of_spilling rfl with ⟨rfl, rfl⟩ | ⟨rfl, rfl⟩
      · exact .inl (.device hp)
      · exact .inr ⟨rfl, rfl⟩
    · obtain ⟨rfl, rfl⟩ := hR.of_device hp
      exact .spilling rfl
  | @landRestore I d k id b s x f hb hp hh hf hF =>
    have hG := h.landed hO hb (fun ⟨y, hy⟩ => nomatch hp.symm.trans hy)
      (c := ⟨some f, .host b.cls x, .dev b.cls s⟩) (by unfold Block.copy; rw [hp]) hh (hD f hf) nofun
      (block_landRestore hb) rfl rfl rfl hi (by unfold Inner.landRestore; dsimp only; split <;> rfl)
      (fun y g hR => ?_) (.restored hp)
    · refine .quiet ?_ hG hD
      unfold Inner.landRestore
      dsimp only
      split <;> rfl
    · exact (hR.of_device rfl).1
  | @landSpill I d k id b s x f hb hp hh hf =>
    have hG := h.landed hO hb (fun ⟨y, hy⟩ => nomatch hp.symm.trans hy)
      (c := ⟨some f, .dev b.cls s, .host b.cls x⟩) (by unfold Block.copy; rw [hp]) hh (hD f hf) nofun
      (block_landSpill hb) rfl rfl rfl hi (by unfold Inner.landSpill; dsimp only; split <;> rfl)
      (fun y g hR => ?_) (.spilled hp)
    · refine .quiet ?_ hG hD
      unfold Inner.landSpill
      dsimp only
      split <;> rfl
    · exact (hR.of_host rfl).1

theorem edits {H H' : Hands} (junk : V) (hS : Safe F p) (hO : Own H) (h : Good p H m) (hD : Done F m)
    (e : Edits F H H') : Follows F p junk H.inner.trace m H' := by
  induction e with
  | refl => exact .quiet rfl h hD
  | tail e₁ e ih =>
    obtain ⟨new, ht, hG, hD'⟩ := ih
    obtain ⟨new', ht', hG', hD''⟩ := edit junk hS (hO.edits e₁) hG hD' e
    have ha : m.applyAll junk (new' ++ new) = (m.applyAll junk new).applyAll junk new' :=
      foldr_append
    refine ⟨new' ++ new, ?_, ?_, ?_⟩
    · rw [ht', ht, append_assoc]
    · rw [ha]
      exact hG'
    · rw [ha]
      exact hD''

end Good
end Plow.KvStore
