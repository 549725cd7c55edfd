import Plow.KvStore.ContentPins

/-!
# The store and its memory

`World` is the store with the memory of both tiers and the guards that are alive, each with the
addresses that were handed out under it.  A step is one lock hold of the store, a copy that lands or
tears, or a write of a filler; a fill that was quarantined may write its slot at any later time.

`Legal` is what the backend and the callers promise: only the holder of a fill token ends a fill, and
a fence is reported done when its copies have landed.  `Careful` is what the store needs of its callers
beside: no held block is copied back from the host by `ensure_device`, and no refill fails under a hold.
Both can be decided for a step.
-/

namespace Plow.KvStore

open Lib Inner Option

variable {V : Type}

/-! ## what is handed out -/

/-- where a gather reads the block -/
def Block.source (b : Block) : Addr × Option Nat :=
  match b.place with
  | .device s => (.dev b.cls s, none)
  | .spilling s _ _ => (.dev b.cls s, none)
  | .restoring s _ f => (.dev b.cls s, some f)
  | .host x => (.host b.cls x, none)

def Addr.src (I : Inner) (a : Addr) (f : Option Nat) : Src :=
  match a with
  | .dev c s => ⟨(I.device c).va s, false, f⟩
  | .host c x => ⟨(I.host c).va x, true, f⟩

theorem Reads.source (b : Block) : Reads b b.source.1 b.source.2 := by
  unfold Block.source
  cases hp : b.place with
  | device s => exact .device hp
  | spilling s x f => exact .spilling hp
  | host x => exact .host hp
  | restoring s x f => exact .restored hp

namespace Inner

theorem srcOf_source (I : Inner) (b : Block) :
    I.srcOf b.cls b.place = b.source.1.src I b.source.2 := by
  unfold Block.source
  cases b.place <;> rfl

/-- what `hold_sources` and `gather_src` hand out for a block -/
def sourceOf (I : Inner) (sealed : Nat × BlockKey → V) (id : BlockId) : Option (Source V) :=
  (I.block id).map (fun b => ⟨id, b.source.1, b.source.2,
    if b.state = .ready then some (sealed (b.cls, b.key)) else none⟩)

def sourcesOf (I : Inner) (sealed : Nat × BlockKey → V) (ids : List BlockId) : List (Source V) :=
  ids.filterMap (I.sourceOf sealed)

section
variable {I J : Inner} {sealed : Nat × BlockKey → V} {id : BlockId} {x : Source V}

theorem sourceOf_handed (h : I.sourceOf sealed id = some x) : x.id = id ∧ Handed I sealed x := by
  obtain ⟨b, hb, rfl⟩ := map_eq_some_iff.mp h
  refine ⟨rfl, fun v hv => ⟨b, hb, ?_⟩, fun b' hb' => ?_⟩
  · dsimp only at hv
    split at hv
    · next hst => exact ⟨hst, some.inj hv⟩
    · cases hv
  · cases hb.symm.trans hb'
    exact .source b

theorem holdSource_recounts : Recounts (fun j n => n + [id].count j) I (I.holdSource id).1 := by
  unfold holdSource
  cases hb : I.block id with
  | none =>
    refine ⟨fun j b h => ⟨b.tick, ?_⟩, fun _ h => h, rfl, fun _ h => h, rfl⟩
    have hne : id ≠ j := fun e => by rw [← e, hb] at h; cases h
    rw [h, List.count_cons_of_ne hne]
    rfl
  | some b =>
    refine .set hb I.tick (by simp) (fun j x hj => ?_)
    rw [List.count_cons_of_ne hj.symm]
    rfl

theorem holdSourcesLoop_recounts (ids : List BlockId) :
    Recounts (fun j n => n + ids.count j) I (I.holdSourcesLoop ids).1 := by
  induction ids generalizing I with
  | nil => exact .same (fun _ _ => rfl) rfl rfl rfl rfl rfl
  | cons id rest ih =>
    refine holdSource_recounts.trans ih (fun j n => ?_)
    rw [List.count_cons, List.count_cons, List.count_nil]
    omega

theorem holdSourcesLoop_src (ids : List BlockId) : (I.holdSourcesLoop ids).2 =
    ids.filterMap (fun id => (I.block id).map (fun b => I.srcOf b.cls b.place)) := by
  induction ids generalizing I with
  | nil => rfl
  | cons id rest ih =>
    have hsrc : ∀ c p, (I.holdSource id).1.srcOf c p = I.srcOf c p := by
      intro c p
      unfold holdSource
      cases I.block id <;> cases p <;> rfl
    have hR : Recounts (fun j n => n + [id].count j) I (I.holdSource id).1 := holdSource_recounts
    have hrest : (fun j => ((I.holdSource id).1.block j).map
        (fun b => (I.holdSource id).1.srcOf b.cls b.place)) =
        fun j => (I.block j).map (fun b => I.srcOf b.cls b.place) := by
      funext j
      cases hb : I.block j with
      | none => rw [hR.none j hb]; rfl
      | some b =>
        obtain ⟨t, ht⟩ := hR.block j b hb
        rw [ht]
        exact congrArg some (hsrc _ _)
    have hhead : (I.holdSource id).2 = (I.block id).map (fun b => I.srcOf b.cls b.place) := by
      unfold holdSource
      cases I.block id <;> rfl
    unfold holdSourcesLoop
    dsimp only
    rw [ih, hrest, hhead, List.filterMap_cons]
    cases I.block id <;> rfl

variable {ids : List BlockId} {srcs : List Src}

theorem holdSources_recounts
    (h : (I.holdSources ids).2 = .ok srcs) : (∀ id ∈ ids, ∃ b, I.block id = some b) ∧
      Recounts (fun j n => n + ids.count j) I (I.holdSources ids).1 := by
  unfold holdSources at h ⊢
  split
  · next hc => rw [if_pos hc] at h; cases h
  · next hc =>
    rw [if_neg hc] at h
    split
    · next hc' => rw [if_pos hc'] at h; cases h
    · refine ⟨fun id hid => ?_, ?_⟩
      · by_contra hno
        refine hc (List.any_eq_true.mpr ⟨id, hid, ?_⟩)
        cases hb : I.block id with
        | none => rfl
        | some b => exact absurd ⟨b, hb⟩ hno
      · have h0 : Recounts (fun _ n => n) I I.nextTick :=
          .same (fun _ _ => rfl) rfl rfl rfl rfl rfl
        exact h0.trans (holdSourcesLoop_recounts ids) (fun _ _ => rfl)

theorem holdSources_refused {er : Err}
    (h : (I.holdSources ids).2 = .error er) : (I.holdSources ids).1 = I := by
  unfold holdSources at h ⊢
  split
  · rfl
  · next hc =>
    rw [if_neg hc] at h
    split
    · rfl
    · next hc' => rw [if_neg hc'] at h; cases h

theorem holdSources_src (h : (I.holdSources ids).2 = .ok srcs) (sealed : Nat × BlockKey → V) :
    srcs = (I.sourcesOf sealed ids).map (fun x => x.addr.src I x.fence) := by
  have hs : srcs = (I.nextTick.holdSourcesLoop ids).2 := by
    unfold holdSources at h
    split at h
    · cases h
    · split at h
      · cases h
      · exact (Except.ok.inj h).symm
  rw [hs, holdSourcesLoop_src, sourcesOf, List.map_filterMap]
  congr 1
  funext id
  unfold sourceOf
  rw [map_map]
  show (I.block id).map _ = _
  cases I.block id with
  | none => rfl
  | some b => exact congrArg some (I.srcOf_source b)

theorem gatherSrc_recounts : Recounts (fun _ n => n) I (I.gatherSrc id).1 := by
  have h0 : Recounts (fun _ n => n) I I.nextTick := .same (fun _ _ => rfl) rfl rfl rfl rfl rfl
  unfold gatherSrc
  dsimp only
  cases hb : I.nextTick.block id with
  | none => exact h0
  | some b =>
    exact h0.trans (Recounts.set (f := fun _ n => n) hb I.nextTick.tick rfl (fun _ _ _ => rfl))
      (fun _ _ => rfl)

theorem gatherSrc_src {src : Src} (h : (I.gatherSrc id).2 = .ok src) (sealed : Nat × BlockKey → V) :
    ∃ x, I.sourceOf sealed id = some x ∧ src = x.addr.src I x.fence := by
  unfold gatherSrc at h
  dsimp only at h
  split at h
  · cases h
  · next b hb =>
    have hb : I.block id = some b := hb
    refine ⟨_, by unfold sourceOf; rw [hb]; rfl, ?_⟩
    exact (Except.ok.inj h).symm.trans (I.srcOf_source b)

end

end Inner

/-! ## the world -/

/-- a hold guard and the addresses handed out under it -/
structure Guard (V : Type) where
  ids : List BlockId
  sources : List (Source V)

structure World (V : Type) where
  sys : Sys
  mem : Mem V
  guards : List (Guard V)
  /-- the guards that were abandoned: their holds stay -/
  left : List (Guard V)

inductive WOp (V : Type) where
  /-- a lock hold of the store; a copy that fails in it leaves `junk` -/
  | call (o : Op) (junk : V)
  /-- the copy at this position lands -/
  | land (i : Nat)
  /-- it writes a part of its destination, or fails -/
  | tear (i : Nat) (v : V)
  /-- the filler of the block writes -/
  | fill (id : BlockId) (v : V)
  /-- the filler of a leaked slot writes -/
  | late (i : Nat) (v : V)

def Job.moves (j : Job) : List Move :=
  match j.plan with
  | some p => p.moves.map (Move.of p.cls)
  | none => []

def newEvents (I J : Inner) : List Event := J.trace.take (J.trace.length - I.trace.length)

namespace World

def new (specs : List ClassSpec) (chunkBytes deviceCap hostCap : Nat) (bytes : Addr → V)
    (sealed : Nat × BlockKey → V) : World V :=
  ⟨Sys.new specs chunkBytes deviceCap hostCap, ⟨bytes, [], sealed⟩, [], []⟩

/-- The memory after the call.  A shrink queues its copies when it drops the lock; they are drained
when it takes it again. -/
def memAfter (w : World V) (o : Op) (junk : V) (s : Sys) : Mem V :=
  match o with
  | .shrinkBegin _ =>
    let m := w.mem.applyAll junk (newEvents w.sys.inner s.inner)
    { m with copies := (s.jobs.head?.toList.flatMap Job.moves).map Move.copy ++ m.copies }
  | .shrinkEnd i _ _ =>
    let m := (w.sys.jobs[i]?.toList.flatMap Job.moves).foldl (fun m v => m.drop v.copy) w.mem
    m.applyAll junk (newEvents w.sys.inner s.inner)
  | _ => w.mem.applyAll junk (newEvents w.sys.inner s.inner)

def guardsAfter (w : World V) : Op → List (Guard V)
  | .hold ids => ⟨ids, []⟩ :: w.guards
  | .holdSources ids =>
    if (w.sys.inner.holdSources ids).2.isOk then
      ⟨ids, w.sys.inner.sourcesOf w.mem.sealed ids⟩ :: w.guards else w.guards
  | .gatherSrc id => w.guards.map (fun g =>
      if id ∈ g.ids then
        { g with sources := (w.sys.inner.sourceOf w.mem.sealed id).toList ++ g.sources } else g)
  | .unhold i => w.guards.eraseIdx i
  | .abandon i => w.guards.eraseIdx i
  | _ => w.guards

def leftAfter (w : World V) : Op → List (Guard V)
  | .abandon i => w.guards[i]?.toList ++ w.left
  | _ => w.left

def step (w : World V) : WOp V → Option (World V)
  | .call o junk => (w.sys.step o).map (fun s =>
      ⟨s, w.memAfter o junk s, w.guardsAfter o, w.leftAfter o⟩)
  | .land i => w.mem.copies[i]?.map (fun c =>
      { w with mem := { w.mem.write c.dst (w.mem.bytes c.src) with
        copies := w.mem.copies.eraseIdx i } })
  | .tear i v => w.mem.copies[i]?.map (fun c => { w with mem := w.mem.write c.dst v })
  | .fill id v =>
    match w.sys.inner.block id with
    | some { cls := c, state := .filling, place := .device s, .. } =>
      some { w with mem := w.mem.write (.dev c s) v }
    | _ => none
  | .late i v => w.sys.inner.leaked[i]?.map (fun x =>
      { w with mem := w.mem.write (.dev x.1 x.2) v })

def pins (w : World V) : Pins V where
  ids := (w.guards ++ w.left).flatMap Guard.ids
  moves := w.sys.jobs.flatMap Job.moves
  sources := (w.guards ++ w.left).flatMap Guard.sources

theorem need_eq (w : World V) (id : BlockId) : w.pins.need id =
    ((w.guards ++ w.left).flatMap Guard.ids).count id + (w.pins.moves.map Move.id).count id := rfl

end World

def filled (I : Inner) (id : BlockId) : Prop := ∃ b, I.block id = some b ∧ b.state = .filling

def unheldRefill (I : Inner) (id : BlockId) : Prop :=
  I.refilling id ≠ none → ∀ b, I.block id = some b → b.holds = 0

def Conds.tokens : Conds := ⟨anyBlock, anyBlock, filled, filled⟩

def Conds.careful : Conds := ⟨anyBlock, anyBlock, anyBlock, unheldRefill⟩

namespace World

/-- what the backend answers, and the ids that a caller can have -/
def Answers (w : World V) : Op → Prop
  | .hold ids => ∀ id ∈ ids, w.sys.inner.Issued id
  | .reap query => ∀ f, query f = .ok true → w.mem.Landed (some f)
  | .reapRestores query => ∀ f, query f = .ok true → w.mem.Landed (some f)
  | .shrinkEnd i copied _ => copied = true →
    ∀ j, w.sys.jobs[i]? = some j → ∀ v ∈ j.moves, v.copy ∉ w.mem.copies
  | _ => True

def Legal (w : World V) : WOp V → Prop
  | .call o _ => o.Meets .tokens w.sys ∧ w.Answers o
  | _ => True

/-- `ensure_device` finds no held block on the host -/
def EnsuresUnheld (w : World V) : Op → Prop
  | .ensureDevice id _ _ => ∀ b, w.sys.inner.block id = some b → OnHost b → b.holds = 0
  | _ => True

def Careful (w : World V) : WOp V → Prop
  | .call o _ => o.Meets .careful w.sys ∧ w.EnsuresUnheld o
  | _ => True

/-- every block and every address handed out shows what was sealed -/
structure Intact (w : World V) : Prop where
  ready : ∀ id b, w.sys.inner.block id = some b → b.state = .ready → ∀ a f, Reads b a f →
    w.mem.Landed f → w.mem.bytes a = w.mem.sealed (b.cls, b.key)
  /-- an address of a block that was `Ready` shows what was sealed then -/
  was : ∀ g ∈ w.guards ++ w.left, ∀ x ∈ g.sources, ∀ v, x.was = some v → w.mem.Landed x.fence →
    w.mem.bytes x.addr = v
  /-- an address of a block stays one -/
  reads : ∀ g ∈ w.guards ++ w.left, ∀ x ∈ g.sources, ∀ b, w.sys.inner.block x.id = some b →
    Reads b x.addr x.fence
  /-- what `hold_sources` returns are the addresses recorded with its guard -/
  holdSources : ∀ ids srcs, (w.sys.inner.holdSources ids).2 = .ok srcs →
    srcs = (w.sys.inner.sourcesOf w.mem.sealed ids).map (fun x => x.addr.src w.sys.inner x.fence)
  gatherSrc : ∀ id src, (w.sys.inner.gatherSrc id).2 = .ok src →
    ∃ x, w.sys.inner.sourceOf w.mem.sealed id = some x ∧ src = x.addr.src w.sys.inner x.fence

end World

/-! ## the conditions can be decided -/

instance (I : Inner) (id : BlockId) : Decidable (filled I id) :=
  match h : I.block id with
  | none => .isFalse (fun ⟨b, hb, _⟩ => by rw [h] at hb; cases hb)
  | some b => decidable_of_iff (b.state = .filling)
      ⟨fun hs => ⟨b, h, hs⟩, fun ⟨b', hb', hs⟩ => Option.some.inj (h.symm.trans hb') ▸ hs⟩

instance (I : Inner) (id : BlockId) : Decidable (unheldRefill I id) :=
  match h : I.block id with
  | none => .isTrue (fun _ b hb => by rw [h] at hb; cases hb)
  | some b => decidable_of_iff (I.refilling id ≠ none → b.holds = 0)
      ⟨fun hn hr b' hb' => Option.some.inj (h.symm.trans hb') ▸ hn hr, fun hn hr => hn hr b h⟩

instance (I : Inner) (id : BlockId) : Decidable (anyBlock I id) := .isTrue trivial

instance (I : Inner) (id : BlockId) : Decidable (I.Issued id) := by
  unfold Issued
  infer_instance

instance (b : Block) : Decidable (OnHost b) :=
  decidable_of_iff (∃ x ∈ b.place.host?, b.place = .host x)
    ⟨fun ⟨x, _, hx⟩ => ⟨x, hx⟩, fun ⟨x, hx⟩ => ⟨x, by rw [hx]; rfl, hx⟩⟩

theorem landed_iff {m : Mem V} {query : Nat → Except Err Bool} :
    (∀ c ∈ m.copies, ∀ g ∈ c.fence, query g ≠ .ok true) ↔
      ∀ f, query f = .ok true → m.Landed (some f) :=
  ⟨fun h f hf c hc e => absurd hf (h c hc f e), fun h c hc g hg hq => nomatch h g hq c hc hg⟩

instance (s : Sys) (o : Op) : Decidable (o.Meets .tokens s) := by
  cases o with
  | sealIds ids =>
    exact inferInstanceAs (Decidable (Each (fun I id => some (I.sealId id)) filled s.inner ids))
  | failIds ids =>
    exact inferInstanceAs (Decidable (Each (fun I id => some (I.failId id)) filled s.inner ids))
  | quarantineIds ids =>
    exact inferInstanceAs (Decidable (Each (fun I id => some (I.quarantineId id)) filled s.inner ids))
  | release ids => exact .isTrue (each_true _ _)
  | reap query => exact .isTrue (lands_true query _)
  | reapRestores query => exact .isTrue (lands_true query _)
  | _ => exact .isTrue trivial

instance (s : Sys) (o : Op) : Decidable (o.Meets .careful s) := by
  cases o with
  | sealIds ids => exact .isTrue (each_true _ _)
  | failIds ids =>
    exact inferInstanceAs (Decidable (Each (fun I id => some (I.failId id)) unheldRefill s.inner ids))
  | quarantineIds ids =>
    exact inferInstanceAs (Decidable (Each (fun I id => some (I.quarantineId id)) unheldRefill s.inner ids))
  | release ids => exact .isTrue (each_true _ _)
  | reap query => exact .isTrue (lands_true query _)
  | reapRestores query => exact .isTrue (lands_true query _)
  | _ => exact .isTrue trivial

namespace World

instance (w : World V) (o : Op) : Decidable (w.Answers o) := by
  cases o with
  | hold ids => exact inferInstanceAs (Decidable (∀ id ∈ ids, w.sys.inner.Issued id))
  | reap query => exact decidable_of_iff _ landed_iff
  | reapRestores query => exact decidable_of_iff _ landed_iff
  | shrinkEnd i copied now =>
    exact inferInstanceAs (Decidable (copied = true → ∀ j ∈ w.sys.jobs[i]?, ∀ v ∈ Job.moves j,
      v.copy ∉ w.mem.copies))
  | _ => exact .isTrue trivial

instance (w : World V) (o : Op) : Decidable (w.EnsuresUnheld o) := by
  cases o with
  | ensureDevice id e htod =>
    exact inferInstanceAs (Decidable (∀ b ∈ w.sys.inner.block id, OnHost b → b.holds = 0))
  | _ => exact .isTrue trivial

instance (w : World V) (e : WOp V) : Decidable (w.Legal e) := by
  cases e with
  | call o junk => exact inferInstanceAs (Decidable (o.Meets .tokens w.sys ∧ w.Answers o))
  | _ => exact .isTrue trivial

instance (w : World V) (e : WOp V) : Decidable (w.Careful e) := by
  cases e with
  | call o junk => exact inferInstanceAs (Decidable (o.Meets .careful w.sys ∧ w.EnsuresUnheld o))
  | _ => exact .isTrue trivial

end World

end Plow.KvStore
