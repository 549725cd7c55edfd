import Plow.KvStore.World

/-!
# Runs of the store and its memory

`WorldOk` is the invariant: slot ownership, and what the slots hold for the pins that the guards and
the planned moves are.  Every legal and careful step keeps it (`WorldOk.step`), so in such runs every
address that was handed out shows its block's bytes (`bytes_intact`).
-/

namespace Plow.KvStore

open Lib Inner List Option

variable {V : Type}

/-- the invariant of the world -/
structure WorldOk (w : World V) : Prop where
  sys : SysOk w.sys
  good : Good w.pins ⟨w.sys.inner, w.sys.planned, []⟩ w.mem
  guards : w.guards.map Guard.ids = w.sys.guards
  ids : ∀ g ∈ w.guards ++ w.left, ∀ x ∈ g.sources, x.id ∈ g.ids

namespace WorldOk
variable {w w' : World V} {s : Sys} {o : Op} {junk : V} {i r : Nat} {g : Guard V} {ids : List BlockId}
  {plan : Option CompactionPlan} {id : BlockId} {F : Facts} {H : Hands} {K J I : Inner} {v : Move}
  {c : Copy}

theorem intact (h : WorldOk w) : w.Intact where
  ready id b hb hst a f hR hf := (h.good.clean id b hb hst a f hR).landed hf
  was g hg x hx v hv hf := by
    obtain ⟨_, h2, h3⟩ := h.good.sources x (mem_flatMap.mpr ⟨g, hg, hx⟩)
    obtain ⟨b, hb, hst, rfl⟩ := h2 v hv
    exact (h.good.clean x.id b hb hst _ _ (h3 b hb)).landed hf
  reads g hg x hx := (h.good.sources x (mem_flatMap.mpr ⟨g, hg, hx⟩)).2.reads
  holdSources _ _ hr := holdSources_src hr _
  gatherSrc _ _ hr := gatherSrc_src hr _

theorem new (specs : List ClassSpec) (chunkBytes deviceCap hostCap : Nat) (bytes : Addr → V)
    (sealed : Nat × BlockKey → V) :
    WorldOk (World.new specs chunkBytes deviceCap hostCap bytes sealed) where
  sys := SysOk.new specs chunkBytes deviceCap hostCap
  good := by
    have hno := fun id b (hb : (Inner.new specs chunkBytes deviceCap hostCap).block id = some b) =>
      some_ne_none b (hb.symm.trans (block_new specs chunkBytes deviceCap hostCap id))
    exact {
      onDev := fun id b hb => (hno id b hb).elim
      holds := fun id b hb => (hno id b hb).elim
      issued := fun id hn => absurd rfl hn
      clean := fun id b hb => (hno id b hb).elim
      kept := fun id b x hb => (hno id b hb).elim
      sources := nofun
      moves := nofun
      apart := nodup_nil
      copies := nofun }
  guards := rfl
  ids := nofun

/-! ## one call -/

theorem newEvents_append {new : List Event} (h : J.trace = new ++ I.trace) :
    newEvents I J = new := by
  unfold newEvents
  rw [h, length_append, Nat.add_sub_cancel, take_left]

theorem gotPlan_moves (j : Job) : gotPlan j.plan [] = j.moves.map Move.dest := by
  unfold gotPlan Job.moves
  cases j.plan with
  | none => rfl
  | some p =>
    dsimp only
    rw [append_nil, List.map_map]
    rfl

theorem planned_moves (jobs : List Job) : jobs.flatMap (fun j => gotPlan j.plan []) =
    (jobs.flatMap Job.moves).map Move.dest := by
  rw [map_flatMap]
  congr 1
  funext j
  exact gotPlan_moves j

theorem planned_dest (hv : v ∈ w.pins.moves) : v.dest ∈ w.sys.planned := by
  unfold Sys.planned
  rw [planned_moves]
  exact mem_map_of_mem hv

theorem meets (hl : o.Meets .tokens w.sys) (hc : o.Meets .careful w.sys) :
    o.Meets ⟨anyBlock, anyBlock, filled, fun I id => filled I id ∧ unheldRefill I id⟩ w.sys := by
  cases o with
  | sealIds ids => exact hl
  | failIds ids => exact Each.and hl hc
  | quarantineIds ids => exact Each.and hl hc
  | release ids => exact hl
  | reap query => exact hl
  | reapRestores query => exact hl
  | _ => trivial

/-- a call that drops no hold is safe for the pins -/
theorem safe (h : WorldOk w) (hc : w.EnsuresUnheld o) (hu : ∀ i, o ≠ .unhold i)
    (hs : ∀ i c n, o ≠ .shrinkEnd i c n) :
    Safe (o.facts ⟨anyBlock, anyBlock, filled, fun I id => filled I id ∧ unheldRefill I id⟩ w.sys)
      w.pins where
  unpin hn := by
    cases o with
    | unhold i => exact hu i rfl
    | shrinkEnd i c n => exact hs i c n rfl
    | _ => exact hn
  ensure b hb hh := by
    cases o with
    | ensureDevice id e htod => exact hc b hb hh
    | restoreAsync id e htod fence =>
      -- a block that is not `Ready` is on the device
      obtain ⟨hst, n, hb⟩ := hb
      obtain ⟨s, hp⟩ := h.good.onDev id _ hb hst
      obtain ⟨x, hx⟩ := hh
      cases hx.symm.trans hp
    | _ => cases hb
  unfill I id b hF hb := by
    cases o with
    | failIds ids =>
      obtain ⟨⟨b', hb', hst⟩, hr⟩ := hF
      obtain rfl := some.inj (hb.symm.trans hb')
      exact ⟨hst, fun hn => hr hn b hb⟩
    | quarantineIds ids =>
      obtain ⟨⟨b', hb', hst⟩, hr⟩ := hF
      obtain rfl := some.inj (hb.symm.trans hb')
      exact ⟨hst, fun hn => hr hn b hb⟩
    | _ => cases hF
  start f hf hd := by
    cases o with
    | restoreAsync id e htod fence => exact hd
    | spillOne id fence => exact hd
    | _ => exact hf
  planned v hv := by
    cases o with
    | shrinkEnd i c n => exact absurd rfl (hs i c n)
    | _ => exact planned_dest hv

theorem done_of (ha : w.Answers o) (C : Conds) : Done (o.facts C w.sys) w.mem := by
  intro f hf
  cases o with
  | reap query => exact ha f hf
  | reapRestores query => exact ha f hf
  | _ => cases hf

theorem quiet (h : WorldOk w) (hl : o.Meets .tokens w.sys) (ha : w.Answers o)
    (hc : o.Meets .careful w.sys) (he : w.EnsuresUnheld o) (hs : w.sys.step o = some s)
    (hu : ∀ i, o ≠ .unhold i) (hse : ∀ i c n, o ≠ .shrinkEnd i c n) (hj : s.jobs = w.sys.jobs)
    (hg : s.guards = w.sys.guards) :
    WorldOk ⟨s, w.mem.applyAll junk (newEvents w.sys.inner s.inner), w.guards, w.left⟩ := by
  have hE := h.sys.step_edits (meets hl hc) hs
  obtain ⟨new, ht, hG, _⟩ := h.good.edits junk (h.safe he hu hse) h.sys.own (done_of ha _) hE
  refine ⟨h.sys.step hs, ?_, h.guards.trans hg.symm, h.ids⟩
  rw [newEvents_append ht]
  unfold World.pins
  dsimp only
  rw [hj]
  exact hG

theorem handed (h : WorldOk w) (hg : g ∈ w.guards ++ w.left) {x : Source V}
    (hx : x ∈ g.sources) : x.id ∈ g.ids ∧ Handed w.sys.inner w.mem.sealed x :=
  ⟨h.ids g hg x hx, (h.good.sources x (mem_flatMap.mpr ⟨g, hg, hx⟩)).2⟩

theorem issued (h : WorldOk w) (hg : g ∈ w.guards ++ w.left)
    (hid : id ∈ g.ids) : w.sys.inner.Issued id := by
  have hc := count_pos_iff.mpr (mem_flatMap.mpr ⟨g, hg, hid⟩)
  refine h.good.issued id ?_
  rw [World.need_eq]
  omega

/-- a call that changes nothing but guards and counts -/
theorem recounted {f : BlockId → Nat → Nat} (h : WorldOk w) (gs gl : List (Guard V))
    (hs : w.sys.step o = some ⟨J, w.sys.jobs, w.sys.grows, gs.map Guard.ids⟩)
    (hR : Recounts f w.sys.inner J)
    (hc : ∀ id b, w.sys.inner.block id = some b → w.pins.need id ≤ b.holds →
      ((gs ++ gl).flatMap Guard.ids).count id + (w.pins.moves.map Move.id).count id ≤ f id b.holds)
    (hi : ∀ g ∈ gs ++ gl, ∀ id ∈ g.ids, w.sys.inner.Issued id)
    (hx : ∀ g ∈ gs ++ gl, ∀ x ∈ g.sources, x.id ∈ g.ids ∧ Handed w.sys.inner w.mem.sealed x) :
    WorldOk ⟨⟨J, w.sys.jobs, w.sys.grows, gs.map Guard.ids⟩,
      w.mem.applyAll junk (newEvents w.sys.inner J), gs, gl⟩ where
  sys := h.sys.step hs
  guards := rfl
  ids g hg x hxg := (hx g hg x hxg).1
  good := by
    rw [newEvents_append (show J.trace = [] ++ w.sys.inner.trace from hR.trace)]
    refine h.good.recount hR rfl (fun id b hb => hc id b hb (h.good.holds id b hb)) (fun id hn => ?_)
      (fun x hxs => ?_)
    · by_cases hm : id ∈ (gs ++ gl).flatMap Guard.ids
      · obtain ⟨g, hg, hid⟩ := mem_flatMap.mp hm
        exact hi g hg id hid
      · refine h.good.issued id (fun hz => hn ?_)
        rw [World.need_eq] at hz ⊢
        exact (congrArg₂ (· + ·) (count_eq_zero.mpr hm) (Nat.eq_zero_of_add_eq_zero hz).2)
    · obtain ⟨g, hg, hxg⟩ := mem_flatMap.mp hxs
      obtain ⟨hid, hH⟩ := hx g hg x hxg
      refine ⟨?_, hH⟩
      have hp : 0 < ((gs ++ gl).flatMap Guard.ids).count x.id :=
        count_pos_iff.mpr (mem_flatMap.mpr ⟨g, hg, hid⟩)
      rw [World.need_eq]
      exact Nat.ne_of_gt (Nat.add_pos_left hp _)

theorem count_erase {gs gl : List (Guard V)} (hg : gs[i]? = some g)
    (id : BlockId) : ((gs ++ gl).flatMap Guard.ids).count id =
      g.ids.count id + ((gs.eraseIdx i ++ gl).flatMap Guard.ids).count id := by
  obtain ⟨hlt, rfl⟩ := List.getElem?_eq_some_iff.mp hg
  have hp := ((getElem_cons_eraseIdx_perm hlt).append_right gl).flatMap_right Guard.ids
  rw [← hp.count_eq, cons_append, flatMap_cons, count_append]

theorem guard_at (h : WorldOk w) (hi : w.sys.guards[i]? = some ids) :
    ∃ g, w.guards[i]? = some g ∧ g.ids = ids := by
  rw [← h.guards, getElem?_map] at hi
  exact map_eq_some_iff.mp hi

theorem hold_step (h : WorldOk w) (ha : w.Answers (.hold ids))
    (hs : w.sys.step (.hold ids) = some s) :
    WorldOk ⟨s, w.memAfter (.hold ids) junk s, w.guardsAfter (.hold ids), w.leftAfter (.hold ids)⟩ := by
  obtain rfl := some.inj hs
  rw [← h.guards] at hs ⊢
  refine h.recounted (⟨ids, []⟩ :: w.guards) w.left hs (hold_recounts ids)
    (fun id b hb hn => ?_) (fun g hg id hid => ?_) (fun g hg x hx => ?_)
  · rw [World.need_eq] at hn
    rw [cons_append, flatMap_cons, count_append]
    dsimp only
    omega
  · rcases mem_cons.mp hg with rfl | hg
    · exact ha id hid
    · exact h.issued hg hid
  · rcases mem_cons.mp hg with rfl | hg
    · cases hx
    · exact h.handed hg hx

theorem holdSources_step (h : WorldOk w) (hs : w.sys.step (.holdSources ids) = some s) :
    WorldOk ⟨s, w.memAfter (.holdSources ids) junk s, w.guardsAfter (.holdSources ids),
      w.leftAfter (.holdSources ids)⟩ := by
  -- the guards before and after, in the store and beside it
  have hstep : ∀ gs : List (Guard V), w.guardsAfter (.holdSources ids) = gs →
      (if (w.sys.inner.holdSources ids).2.isOk then ids :: w.sys.guards else w.sys.guards) =
        gs.map Guard.ids →
      w.sys.step (.holdSources ids) = some ⟨(w.sys.inner.holdSources ids).1, w.sys.jobs, w.sys.grows,
        gs.map Guard.ids⟩ := by
    intro gs _ e
    rw [← e]
    rfl
  cases hr : (w.sys.inner.holdSources ids).2 with
  | error er =>
    have hg : w.guardsAfter (.holdSources ids) = w.guards := by
      unfold World.guardsAfter
      dsimp only
      rw [hr]
      rfl
    have hS := hstep w.guards hg (by rw [hr, h.guards]; rfl)
    obtain rfl := some.inj (hs.symm.trans hS)
    rw [hg]
    refine h.recounted _ w.left hS (f := fun _ n => n) ?_ (fun id b hb hn => hn)
      (fun g hg id hid => h.issued hg hid) (fun g hg x hx => h.handed hg hx)
    rw [holdSources_refused hr]
    exact .same (fun _ _ => rfl) rfl rfl rfl rfl rfl
  | ok srcs =>
    obtain ⟨hbl, hR⟩ := holdSources_recounts hr
    have hg : w.guardsAfter (.holdSources ids) =
        ⟨ids, w.sys.inner.sourcesOf w.mem.sealed ids⟩ :: w.guards := by
      unfold World.guardsAfter
      dsimp only
      rw [hr]
      rfl
    have hS := hstep _ hg (by rw [hr, map_cons, h.guards]; rfl)
    obtain rfl := some.inj (hs.symm.trans hS)
    rw [hg]
    refine h.recounted _ w.left hS hR (fun id b hb hn => ?_) (fun g hg id hid => ?_)
      (fun g hg x hx => ?_)
    · rw [World.need_eq] at hn
      rw [cons_append, flatMap_cons, count_append]
      dsimp only
      omega
    · rcases mem_cons.mp hg with rfl | hg
      · obtain ⟨b, hb⟩ := hbl id hid
        exact h.sys.own.entries.issued hb
      · exact h.issued hg hid
    · rcases mem_cons.mp hg with rfl | hg
      · obtain ⟨id, hid, hx⟩ := mem_filterMap.mp hx
        obtain ⟨rfl, hH⟩ := sourceOf_handed hx
        exact ⟨hid, hH⟩
      · exact h.handed hg hx

theorem mem_erase (hg : g ∈ w.guards.eraseIdx i ++ w.left) : g ∈ w.guards ++ w.left := by
  rcases mem_append.mp hg with hg | hg
  · exact mem_append_left _ (mem_of_mem_eraseIdx hg)
  · exact mem_append_right _ hg

theorem unhold_step (h : WorldOk w) (hs : w.sys.step (.unhold i) = some s) :
    WorldOk ⟨s, w.memAfter (.unhold i) junk s, w.guardsAfter (.unhold i), w.leftAfter (.unhold i)⟩ := by
  obtain ⟨ids, hi, rfl⟩ := map_eq_some_iff.mp hs
  obtain ⟨g, hg, rfl⟩ := h.guard_at hi
  rw [← h.guards, eraseIdx_map] at hs ⊢
  refine h.recounted (w.guards.eraseIdx i) w.left hs (unhold_recounts g.ids)
    (fun id b hb hn => ?_) (fun g hg id hid => h.issued (mem_erase hg) hid)
    (fun g hg x hx => h.handed (mem_erase hg) hx)
  rw [World.need_eq, count_erase hg] at hn
  omega

theorem abandon_step (h : WorldOk w) (hs : w.sys.step (.abandon i) = some s) :
    WorldOk ⟨s, w.memAfter (.abandon i) junk s, w.guardsAfter (.abandon i),
      w.leftAfter (.abandon i)⟩ := by
  obtain ⟨ids, hi, rfl⟩ := map_eq_some_iff.mp hs
  obtain ⟨g, hg, rfl⟩ := h.guard_at hi
  have hmem : ∀ {g'}, g' ∈ w.guards.eraseIdx i ++ (g :: w.left) → g' ∈ w.guards ++ w.left := by
    intro g' hg'
    rcases mem_append.mp hg' with hg' | hg'
    · exact mem_append_left _ (mem_of_mem_eraseIdx hg')
    · rcases mem_cons.mp hg' with rfl | hg'
      · exact mem_append_left _ (mem_of_getElem? hg)
      · exact mem_append_right _ hg'
  have hleft : w.leftAfter (.abandon i) = g :: w.left := by
    unfold World.leftAfter
    dsimp only
    rw [hg]
    rfl
  rw [← h.guards, eraseIdx_map] at hs ⊢
  rw [hleft]
  refine h.recounted (w.guards.eraseIdx i) _ hs (f := fun _ n => n)
    (.same (fun _ _ => rfl) rfl rfl rfl rfl rfl) (fun id b hb hn => ?_)
    (fun g' hg' id hid => h.issued (hmem hg') hid) (fun g' hg' x hx => h.handed (hmem hg') hx)
  rw [World.need_eq, count_erase hg] at hn
  rw [flatMap_append, flatMap_cons, count_append, count_append]
  rw [flatMap_append, count_append] at hn
  omega

theorem gatherSrc_step (h : WorldOk w) (hs : w.sys.step (.gatherSrc id) = some s) :
    WorldOk ⟨s, w.memAfter (.gatherSrc id) junk s, w.guardsAfter (.gatherSrc id),
      w.leftAfter (.gatherSrc id)⟩ := by
  obtain rfl := some.inj hs
  have hids : (w.guardsAfter (.gatherSrc id)).map Guard.ids = w.guards.map Guard.ids := by
    unfold World.guardsAfter
    dsimp only
    rw [List.map_map]
    congr 1
    funext g
    show Guard.ids (if id ∈ g.ids then _ else g) = g.ids
    split <;> rfl
  -- a guard has its sources from before, and perhaps the new one
  have hmem : ∀ g ∈ w.guardsAfter (.gatherSrc id) ++ w.left, ∃ g' ∈ w.guards ++ w.left,
      g.ids = g'.ids ∧ ∀ x ∈ g.sources, x ∈ g'.sources ∨
        (id ∈ g.ids ∧ w.sys.inner.sourceOf w.mem.sealed id = some x) := by
    intro g hg
    rcases mem_append.mp hg with hg | hg
    · obtain ⟨g', hg', rfl⟩ := mem_map.mp hg
      refine ⟨g', mem_append_left _ hg', ?_⟩
      split
      · next hid =>
        refine ⟨rfl, fun x hx => ?_⟩
        rcases mem_append.mp hx with hx | hx
        · exact Or.inr ⟨hid, mem_toList.mp hx⟩
        · exact Or.inl hx
      · exact ⟨rfl, fun x hx => Or.inl hx⟩
    · exact ⟨g, mem_append_right _ hg, rfl, fun x hx => Or.inl hx⟩
  rw [← h.guards, ← hids] at hs ⊢
  refine h.recounted _ w.left hs gatherSrc_recounts (fun j b hb hn => ?_)
    (fun g hg j hj => ?_) (fun g hg x hx => ?_)
  · rw [World.need_eq, flatMap_append, flatMap_def, ← hids, ← flatMap_def] at hn
    rw [flatMap_append]
    exact hn
  · obtain ⟨g', hg', e, _⟩ := hmem g hg
    exact h.issued hg' (e ▸ hj)
  · obtain ⟨g', hg', e, hsrc⟩ := hmem g hg
    rcases hsrc x hx with hx | ⟨hid, hx⟩
    · rw [e]
      exact h.handed hg' hx
    · obtain ⟨rfl, hH⟩ := sourceOf_handed hx
      exact ⟨hid, hH⟩

theorem moves_made
    (h : PlanMade F H plan K) (hv : v ∈ Job.moves ⟨r, plan⟩) :
    ∃ J b, Edits F H ⟨J, H.dev, H.host⟩ ∧ J.block v.id = some b ∧ b.cls = v.cls ∧
      b.state = .ready ∧ b.holds = 0 ∧ b.place = .device v.src ∧
      K.block v.id = some { b with holds := 1 } := by
  unfold Job.moves at hv
  cases plan with
  | none => cases hv
  | some p =>
    obtain ⟨x, hx, rfl⟩ := mem_map.mp hv
    obtain ⟨J, hE, _, hm⟩ := h p rfl
    obtain ⟨b, hb⟩ := hm x hx
    exact ⟨J, b, hE, hb⟩

theorem moves_nodup (h : PlanMade F H plan K) : ((Job.moves ⟨r, plan⟩).map Move.id).Nodup := by
  unfold Job.moves
  cases plan with
  | none => exact nodup_nil
  | some p =>
    obtain ⟨_, _, hn, _⟩ := h p rfl
    dsimp only
    rw [List.map_map]
    exact hn

theorem shrinkBegin_step {bytes : Nat} (h : WorldOk w) (he : w.EnsuresUnheld (.shrinkBegin bytes))
    (hs : w.sys.step (.shrinkBegin bytes) = some s) :
    WorldOk ⟨s, w.memAfter (.shrinkBegin bytes) junk s, w.guardsAfter (.shrinkBegin bytes),
      w.leftAfter (.shrinkBegin bytes)⟩ := by
  have hsys := h.sys.step hs
  set job : Job := ⟨((w.sys.inner.shrinkBegin bytes).2.1.map Chunk.bytes).sum,
    (w.sys.inner.shrinkBegin bytes).2.2⟩ with hjob
  have e : w.sys.step (.shrinkBegin bytes) = some
    { w.sys with inner := (w.sys.inner.shrinkBegin bytes).1, jobs := job :: w.sys.jobs } := rfl
  obtain rfl := some.inj (hs.symm.trans e)
  set F := (Op.shrinkBegin bytes).facts
    ⟨anyBlock, anyBlock, filled, fun I id => filled I id ∧ unheldRefill I id⟩ w.sys with hF
  have hS : Safe F w.pins := h.safe he nofun nofun
  have hD : Done F w.mem := done_of (o := .shrinkBegin bytes) trivial _
  obtain ⟨hE, hM⟩ := shrinkBegin_edits (F := F) bytes h.sys.own
  obtain ⟨new, ht, hG, _⟩ := h.good.edits junk hS h.sys.own hD hE
  have hO := h.sys.own.edits hE
  have hdest : gotPlan job.plan w.sys.planned = (job.moves ++ w.pins.moves).map Move.dest := by
    rw [gotPlan_nil, gotPlan_moves, map_append]
    congr 1
    exact planned_moves w.sys.jobs
  have hP := hG.plan (l := job.moves) hO (fun v hv => ?_) (fun id b hb => ?_) ?_
  · refine ⟨hsys, ?_, h.guards, h.ids⟩
    have hmem : w.memAfter (.shrinkBegin bytes) junk
        { w.sys with inner := (w.sys.inner.shrinkBegin bytes).1, jobs := job :: w.sys.jobs } =
        { w.mem.applyAll junk new with
          copies := job.moves.map Move.copy ++ (w.mem.applyAll junk new).copies } := by
      unfold World.memAfter
      rw [newEvents_append ht]
      simp
    rw [hmem]
    refine hP.perm rfl (.refl _) rfl ?_
    show (gotPlan job.plan w.sys.planned).Perm (gotPlan job.plan [] ++ w.sys.planned)
    rw [gotPlan_nil]
  · obtain ⟨J, b, _, _, hc, hst, _, hp, hb⟩ := moves_made hM hv
    refine ⟨?_, _, hb, hc, hst, hp⟩
    show v.dest ∈ gotPlan job.plan w.sys.planned
    rw [hdest]
    exact mem_map_of_mem (mem_append_left _ hv)
  · by_cases hid : id ∈ job.moves.map Move.id
    · obtain ⟨v, hv, rfl⟩ := mem_map.mp hid
      obtain ⟨J, b', hEJ, hbJ, _, _, hh, _, hbK⟩ := moves_made hM hv
      obtain rfl := some.inj (hb.symm.trans hbK)
      obtain ⟨_, _, hGJ, _⟩ := h.good.edits junk hS h.sys.own hD hEJ
      have h0 := hGJ.holds v.id b' hbJ
      have h1 := nodup_iff_count_le_one.mp (moves_nodup (r := job.released) hM) v.id
      show _ + count v.id (job.moves.map Move.id) ≤ 1
      have h1 : count v.id (job.moves.map Move.id) ≤ 1 := h1
      omega
    · rw [count_eq_zero.mpr hid]
      exact hG.holds id b hb
  · rw [← hdest]
    exact (nodup_append.mp hO.dev.nodup_out).1

def still : Facts :=
  ⟨fun _ => False, fun _ => False, anyBlock, anyBlock, fun _ _ => False, fun _ => False,
    fun _ => True, False, anyBlock, fun _ _ => True⟩

theorem still_safe (p : Pins V) : Safe still p :=
  ⟨fun h => h, nofun, nofun, nofun, fun _ _ => trivial⟩

theorem shrinkEnd_step {copied : Bool} {now : Nat} (h : WorldOk w)
    (ha : w.Answers (.shrinkEnd i copied now)) (hs : w.sys.step (.shrinkEnd i copied now) = some s) :
    WorldOk ⟨s, w.memAfter (.shrinkEnd i copied now) junk s, w.guardsAfter (.shrinkEnd i copied now),
      w.leftAfter (.shrinkEnd i copied now)⟩ := by
  have hsys := h.sys.step hs
  obtain ⟨j, hj, rfl⟩ := map_eq_some_iff.mp hs
  have hjs : w.sys.jobs.Perm (j :: w.sys.jobs.eraseIdx i) := by
    obtain ⟨hi, rfl⟩ := List.getElem?_eq_some_iff.mp hj
    exact (getElem_cons_eraseIdx_perm hi).symm
  have hplan := h.sys.plans j (mem_of_getElem? hj)
  set r := (w.sys.jobs.eraseIdx i).flatMap Job.moves with hr
  set d := (w.sys.jobs.eraseIdx i).flatMap (fun j => gotPlan j.plan []) with hd
  -- the job's moves first
  have hP : Good { w.pins with moves := j.moves ++ r } ⟨w.sys.inner, gotPlan j.plan d, []⟩ w.mem :=
    h.good.perm rfl (hjs.flatMap_right Job.moves) rfl (planned_perm hj)
  have hO : Own ⟨w.sys.inner, gotPlan j.plan d, []⟩ :=
    h.sys.own.edits (Edits.one (F := anyFacts) (.perm (planned_perm hj) (.refl [])))
  have hids : ∀ x ∈ w.pins.sources, x.id ∈ w.pins.ids := by
    intro x hx
    obtain ⟨g, hg, hx⟩ := mem_flatMap.mp hx
    exact mem_flatMap.mpr ⟨g, hg, h.ids g hg x hx⟩
  have hmem : w.memAfter (.shrinkEnd i copied now) junk
      { w.sys with
        inner := (w.sys.inner.shrinkEnd j.released j.plan copied now).1
        jobs := w.sys.jobs.eraseIdx i } =
      (j.moves.foldl (fun m v => m.drop v.copy) w.mem).applyAll junk
        (newEvents w.sys.inner (w.sys.inner.shrinkEnd j.released j.plan copied now).1) := by
    unfold World.memAfter
    dsimp only
    rw [hj]
    simp
  -- the moves, then the chunks that they emptied
  have hG : ∃ J, J.trace = w.sys.inner.trace ∧ Own ⟨J, d, []⟩ ∧
      Good { w.pins with moves := r } ⟨J, d, []⟩ (j.moves.foldl (fun m v => m.drop v.copy) w.mem) ∧
      Edits still ⟨J, d, []⟩ ⟨(w.sys.inner.shrinkEnd j.released j.plan copied now).1, d, []⟩ := by
    have hfr : ∀ K : Inner, Edits still ⟨K, d, []⟩
        ⟨{ K with growHoldUntil := some (now + growHold) }, d, []⟩ := fun K =>
      Edits.one (.frame ⟨rfl, rfl, rfl, rfl, rfl, rfl, rfl, rfl, rfl, rfl, rfl, rfl, rfl⟩)
    unfold Inner.shrinkEnd Job.moves
    unfold Job.moves at hP
    have hcp := fun hcp v hv => ha hcp j hj v hv
    unfold Job.moves at hcp
    cases hp : j.plan with
    | none =>
      rw [hp] at hP hO
      refine ⟨w.sys.inner, rfl, hO, hP, ?_⟩
      dsimp only
      split
      · exact hfr _
      · exact .refl
    | some p =>
      rw [hp] at hP hO hcp
      have hl : ∀ x ∈ p.moves, OfClass w.sys.inner p.cls x.1 := hplan p hp
      obtain ⟨h1, h2⟩ := hP.commits (d := d) p.moves hO hl hids hcp
      have hE := commitMoves_edits (F := anyFacts) copied p.moves hO hl trivial nofun
      have hO' := hO.edits hE
      refine ⟨_, h2, hO', h1, ?_⟩
      have hR := releaseEmptyLoop_edits (F := still) (range
        (p.moves.foldl (commitMove p.cls copied) w.sys.inner).nClasses) [] hO'
      unfold compactionCommit
      dsimp only
      split
      · exact hR.trans (hfr _)
      · exact hR
  obtain ⟨J, ht, hOJ, hGJ, hE⟩ := hG
  obtain ⟨new, ht', hG', _⟩ := hGJ.edits junk (still_safe _) hOJ nofun hE
  refine ⟨hsys, ?_, ?_, h.ids⟩
  · rw [hmem, newEvents_append (ht'.trans (by rw [ht]))]
    exact hG'
  · exact h.guards

theorem call (h : WorldOk w) (hl : w.Legal (.call o junk)) (hc : w.Careful (.call o junk))
    (hs : w.sys.step o = some s) :
    WorldOk ⟨s, w.memAfter o junk s, w.guardsAfter o, w.leftAfter o⟩ := by
  obtain ⟨hl, ha⟩ := hl
  obtain ⟨hc, he⟩ := hc
  cases o with
  | hold ids => exact h.hold_step ha hs
  | holdSources ids => exact h.holdSources_step hs
  | unhold i => exact h.unhold_step hs
  | abandon i => exact h.abandon_step hs
  | gatherSrc id => exact h.gatherSrc_step hs
  | shrinkBegin bytes => exact h.shrinkBegin_step he hs
  | shrinkEnd i copied now => exact h.shrinkEnd_step ha hs
  | growLand i ptr =>
    obtain ⟨g, _, rfl⟩ := map_eq_some_iff.mp hs
    exact h.quiet hl ha hc he hs nofun nofun rfl rfl
  | _ =>
    obtain rfl := some.inj hs
    exact h.quiet hl ha hc he hs nofun nofun rfl rfl

/-! ## the memory by itself -/

theorem land (h : WorldOk w) (hc : w.mem.copies[i]? = some c) :
    WorldOk { w with mem := { w.mem.write c.dst (w.mem.bytes c.src) with
      copies := w.mem.copies.eraseIdx i } } where
  sys := h.sys
  guards := h.guards
  ids := h.ids
  good := by
    refine h.good.copied h.sys.own (mem_of_getElem? hc) (fun y hy => mem_of_mem_eraseIdx hy)
      (fun y hy hne => ?_) (Or.inr rfl)
    obtain ⟨hi, rfl⟩ := List.getElem?_eq_some_iff.mp hc
    exact (mem_cons.mp ((getElem_cons_eraseIdx_perm hi).mem_iff.mpr hy)).resolve_left hne

theorem tear (v : V) (h : WorldOk w) (hc : w.mem.copies[i]? = some c) :
    WorldOk { w with mem := w.mem.write c.dst v } where
  sys := h.sys
  guards := h.guards
  ids := h.ids
  good := h.good.copied h.sys.own (mem_of_getElem? hc) (fun _ hy => hy) (fun _ hy _ => hy)
    (Or.inl (mem_of_getElem? hc))

theorem fill {b : Block} {x : Slot .dev} (v : V) (h : WorldOk w)
    (hb : w.sys.inner.block id = some b) (hst : b.state = .filling) (hp : b.place = .device x) :
    WorldOk { w with mem := w.mem.write (.dev b.cls x) v } where
  sys := h.sys
  guards := h.guards
  ids := h.ids
  good := by
    have hu : devUse w.sys.inner id = some (b.cls, x) := by
      rw [devUse_of_block hb, hp]
      rfl
    refine h.good.scratch (fun j b' hb' hst' hj => ?_) (fun u hu' e => ?_)
    · obtain rfl := h.sys.own.dev.inj id j _ hu hj
      obtain rfl := some.inj (hb.symm.trans hb')
      cases hst.symm.trans hst'
    · exact h.sys.own.not_used (planned_dest hu') id (e ▸ hu)

theorem late {x : Nat × Slot .dev} (v : V) (h : WorldOk w)
    (hx : w.sys.inner.leaked[i]? = some x) :
    WorldOk { w with mem := w.mem.write (.dev x.1 x.2) v } where
  sys := h.sys
  guards := h.guards
  ids := h.ids
  good := by
    have hm : x ∈ w.sys.inner.leaked := mem_of_getElem? hx
    refine h.good.scratch (fun j b _ _ hj => ?_) (fun u hu e => ?_)
    · exact (h.sys.own.dev.used j x hj).2 (mem_append_right _ hm)
    · exact (nodup_append.mp h.sys.own.dev.nodup_out).2.2 _ (planned_dest hu) _ hm e

theorem step {e : WOp V} (h : WorldOk w) (hl : w.Legal e) (hc : w.Careful e)
    (hs : w.step e = some w') : WorldOk w' := by
  cases e with
  | call o junk =>
    obtain ⟨s, hst, rfl⟩ := map_eq_some_iff.mp hs
    exact h.call hl hc hst
  | land i =>
    obtain ⟨c, hc, rfl⟩ := map_eq_some_iff.mp hs
    exact h.land hc
  | tear i v =>
    obtain ⟨c, hc, rfl⟩ := map_eq_some_iff.mp hs
    exact h.tear v hc
  | fill id v =>
    unfold World.step at hs
    dsimp only at hs
    split at hs
    · next hb =>
      obtain rfl := some.inj hs
      exact h.fill v hb rfl rfl
    · cases hs
  | late i v =>
    obtain ⟨x, hx, rfl⟩ := map_eq_some_iff.mp hs
    exact h.late v hx

end WorldOk

/-- In every legal run whose calls are careful, every `Ready` block and every address handed out
shows what was sealed. -/
theorem bytes_intact (specs : List ClassSpec) (chunkBytes deviceCap hostCap : Nat)
    (bytes : Addr → V) (sealed : Nat × BlockKey → V) (ops : List (WOp V)) (w : World V)
    (hr : exec World.step (World.new specs chunkBytes deviceCap hostCap bytes sealed) ops = some w)
    (hl : Each World.step World.Legal (World.new specs chunkBytes deviceCap hostCap bytes sealed) ops)
    (hc : Each World.step World.Careful (World.new specs chunkBytes deviceCap hostCap bytes sealed)
      ops) : w.Intact :=
  (exec_inv_of (P := WorldOk) (fun _ _ _ h hlc hs => h.step hlc.1 hlc.2 hs)
    (WorldOk.new specs chunkBytes deviceCap hostCap bytes sealed) (hl.and hc) hr).intact

def World.small : World Nat := World.new [⟨1, 4⟩] 8 16 16 (fun _ => 0) (fun _ => 0)

/-- a block goes to the host, and a gather holds its host copy -/
def heldRun : List (WOp Nat) :=
  [.call (.growPick none) 0, .call (.growLand 0 (.ok 4096)) 0,
    .call (.acquire 0 ⟨1, 1, 1⟩ ⟨0, none, .ok 1024⟩ (.ok ())) 0, .fill ⟨0, 0⟩ 10,
    .call (.sealIds [⟨0, 0⟩]) 0, .call (.spillOne ⟨0, 0⟩ (.ok 7)) 0, .land 0,
    .call (.reap (fun _ => .ok true)) 0, .call (.holdSources [⟨0, 0⟩]) 0]

theorem bytes_intact_held : ∃ w, exec World.step World.small heldRun = some w ∧ w.Intact := by
  obtain ⟨w, hw⟩ := isSome_iff_exists.mp
    (show (exec World.step World.small heldRun).isSome from by decide +kernel)
  exact ⟨w, hw, bytes_intact _ _ _ _ _ _ heldRun w hw (by decide +kernel) (by decide +kernel)⟩

/-- the held block is copied back, and its host slot goes to another block -/
def exposedRun : List (WOp Nat) :=
  heldRun ++ [.call (.ensureDevice ⟨0, 0⟩ ⟨0, none, .ok 1024⟩ (.ok ())) 0,
    .call (.acquire 0 ⟨1, 2, 2⟩ ⟨0, none, .ok 1024⟩ (.ok ())) 0, .fill ⟨1, 0⟩ 20,
    .call (.sealIds [⟨1, 0⟩]) 0, .call (.spillOne ⟨1, 0⟩ (.ok 8)) 0, .land 0]

/-- the address that the gather holds shows the other block's bytes -/
theorem ensure_exposes : ¬ ∀ specs chunkBytes deviceCap hostCap (bytes : Addr → Nat) sealed ops w,
    exec World.step (World.new specs chunkBytes deviceCap hostCap bytes sealed) ops = some w →
    Each World.step World.Legal (World.new specs chunkBytes deviceCap hostCap bytes sealed) ops →
    w.Intact := by
  intro h
  obtain ⟨w, hw⟩ := isSome_iff_exists.mp
    (show (exec World.step World.small exposedRun).isSome from by decide +kernel)
  have hI := h _ _ _ _ _ _ exposedRun w hw (by decide +kernel)
  have hv : (exec World.step World.small exposedRun).all (fun w =>
      (w.guards ++ w.left).all (fun g => g.sources.all (fun x =>
        x.was = none ∨ x.fence ≠ none ∨ x.was = some (w.mem.bytes x.addr)))) = false := by
    decide +kernel
  rw [hw] at hv
  refine absurd (all_eq_true.mpr (fun g hg => all_eq_true.mpr (fun x hx => ?_))) 
    (Bool.eq_false_iff.mp hv)
  cases hwas : x.was with
  | none => simp
  | some v =>
    cases hf : x.fence with
    | some f => simp
    | none =>
      have := hI.was g hg x hx v hwas (by rw [hf]; exact fun _ _ _ => rfl)
      simp [this]

end Plow.KvStore
