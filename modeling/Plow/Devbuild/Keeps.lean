import Plow.Devbuild.Flow

/-!
# Declared dependencies

A slice needs the slices that the dependencies of its operation name, as they are declared after
the whole-graph fusions (`Needs`).  `finish` makes dependencies coarse, drops those that others
imply and those that the order of the segments implies, and cuts operations into more slices.  A
run does what is needed first exactly if what is left leads there (`Implied`, `keepsDeps_iff`).  So
it does (`implied_of_noneLost`), unless placement merges segments that a dependency was dropped for
(`NoneLost`) or a wait list outgrows its length (`Short`).
-/

namespace Plow.Devbuild

open List

variable {ops : List Op} {cx : Ctx} {x y : ℕ × ℕ} {nCu : ℕ}

/-! ### What is needed -/

/-- The slice `y` is to be done before `x`, by the dependencies of `ops`.  A fine dependency between
operations that have been cut anew is on every slice. -/
def Needs (ops : List Op) (cx : Ctx) (x y : ℕ × ℕ) : Prop :=
  x ∈ cx.places ∧ y ∈ cx.places ∧ ∃ op, ops[x.1]? = some op ∧ ∃ d ∈ op.deps, d.producer = y.1 ∧
    ∀ p map, d = .fine p map → cx.slices x.1 = slicesOf ops x.1 → cx.slices y.1 = slicesOf ops y.1 →
      y.2 ∈ map.getD x.2 []

def Implied (ops : List Op) (cx : Ctx) : Prop :=
  ∀ x y, Needs ops cx x y → Relation.TransGen cx.Ordered y x

def NoneLost (ops : List Op) (cx : Ctx) : Prop :=
  (cx.l2.isSome && !cx.unisegDenied) = true → ∀ i, ∀ op : Op, ops[i]? = some op → ∀ d ∈ op.deps,
    cx.sameSegmentDep i d = true ∨ cx.rawPairEdge i d.producer = true

def Short (cx : Ctx) : Prop :=
  ∀ i, ∀ op : Op, cx.ops[i]? = some op → ∀ s < op.cus.length, (cx.fineWaits i op s).length < 65536

def Program.Once (p : Program) (x : ℕ × ℕ) : Prop :=
  (p.stream.map StreamEnt.place).count x = 1 ∧ (p.gqStream.map StreamEnt.place).count x = 1

def Program.KeepsDeps (ops : List Op) (cx : Ctx) (p : Program) : Prop :=
  ∀ x y, Needs ops cx x y → ∀ s, (p.flow cx).Reachable s → x ∈ s.started → y ∈ s.done

/-! ### Coarse dependencies -/

def CoarseEdge (ops : List Op) (a c : ℕ) : Prop := ∃ op : Op, ops[c]? = some op ∧ .coarse a ∈ op.deps

theorem mem_coarseEdges {a c : ℕ} : (a, c) ∈ coarseEdges ops ↔ CoarseEdge ops a c := by
  unfold coarseEdges CoarseEdge
  rw [mem_toFinset, mem_flatMap]
  constructor
  · rintro ⟨⟨op, i⟩, hop, h⟩
    obtain ⟨d, hd, h⟩ := mem_filterMap.mp h
    cases d with
    | coarse c' =>
      cases h
      exact ⟨op, mem_zipIdx_iff_getElem?.mp hop, hd⟩
    | fine p map => cases h
  · rintro ⟨op, hop, hd⟩
    exact ⟨(op, c), mem_zipIdx_iff_getElem?.mpr hop, mem_filterMap.mpr ⟨_, hd, rfl⟩⟩

/-- What is kept is the reduction of the coarse edges. -/
theorem coarseEdge_reduced {a c : ℕ} : CoarseEdge (reduceDeps ops) a c ↔
    (a, c) ∈ Lib.transitiveReduction ops.length (coarseEdges ops) := by
  have hget : (reduceDeps ops)[c]? = ops[c]?.map fun op => { op with
      deps := retain (Lib.transitiveReduction ops.length (coarseEdges ops)) c op.deps } := by
    unfold reduceDeps
    rw [getElem?_map, getElem?_zipIdx, zero_add]
    cases ops[c]? <;> rfl
  unfold CoarseEdge
  rw [hget]
  constructor
  · rintro ⟨x, hx, hd⟩
    obtain ⟨op, -, rfl⟩ := Option.map_eq_some_iff.mp hx
    exact (mem_retain.mp hd).2 a rfl
  · intro hk
    obtain ⟨op, hop, hd⟩ := mem_coarseEdges.mp (Finset.mem_of_mem_filter _ hk)
    refine ⟨_, by rw [hop]; rfl, mem_retain.mpr ⟨hd, fun c' hc' => ?_⟩⟩
    cases hc'
    exact hk

theorem reduceDeps_path {a c : ℕ} (hf : Formed nCu ops) (h : CoarseEdge ops a c) :
    Relation.TransGen (CoarseEdge (reduceDeps ops)) a c := by
  have htop : ∀ e ∈ coarseEdges ops, e.1 < e.2 := by
    rintro ⟨a, c⟩ he
    obtain ⟨op, hop, hd⟩ := mem_coarseEdges.mp he
    exact (hf c op hop).dep_lt _ hd
  have hpath := @Lib.reduction_reaches ops.length a c _ htop (.single (mem_coarseEdges.mpr h))
  exact Relation.TransGen.mono (fun a c hk => coarseEdge_reduced.mpr hk) _ _ hpath

theorem reduceDeps_fine {i : ℕ} {op : Op} {d : Dep} (hop : ops[i]? = some op) (hd : d ∈ op.deps)
    (hfine : d.isFine = true) : ∃ x : Op, (reduceDeps ops)[i]? = some x ∧ d ∈ x.deps := by
  refine ⟨{ op with deps := retain (Lib.transitiveReduction ops.length (coarseEdges ops)) i op.deps },
    ?_, mem_retain.mpr ⟨hd, fun c hc => ?_⟩⟩
  · unfold reduceDeps
    rw [getElem?_map, getElem?_zipIdx, hop, zero_add]
    rfl
  · rw [hc] at hfine
    cases hfine

theorem granularity_dep {fineForce : Bool} {i : ℕ} {op : Op} {d : Dep} (hop : ops[i]? = some op)
    (hd : d ∈ op.deps) : ∃ x : Op, (selectGranularity fineForce ops)[i]? = some x ∧
      (d ∈ x.deps ∨ .coarse d.producer ∈ x.deps) := by
  obtain ⟨keep, heq⟩ := selectGranularity_eq fineForce ops
  refine ⟨{ op with deps := op.deps.map (granular ops fineForce (keep i)) }, ?_, ?_⟩
  · rw [heq, getElem?_map, getElem?_zipIdx, hop, zero_add]
    rfl
  · have hmem := @mem_map_of_mem _ _ _ _ (granular ops fineForce (keep i)) hd
    rcases granular_cases ops fineForce (keep i) d with h | h
    · exact .inl (h ▸ hmem)
    · exact .inr (h ▸ hmem)

theorem Widened.coarseEdge {ops' : List Op} (h : Widened ops ops') {a c : ℕ}
    (he : CoarseEdge ops a c) : CoarseEdge ops' a c := by
  obtain ⟨op, hop, hd⟩ := he
  obtain ⟨x, hx, hdeps, -⟩ := h.get c op hop
  exact ⟨x, hx, hdeps ▸ hd⟩

/-! ### What is left -/

namespace Builder
variable {b : Builder} {k : Launch}

/-- A dependency that flattening finds orders the slices it names. -/
theorem ordered_of_dep (h : (b.ctx k ops).Placed b.nCu) (hshort : Short (b.ctx k ops))
    (hlost : NoneLost (b.ctx k ops).ops (b.ctx k ops)) {op : Op} (hop : (b.ctx k ops).ops[x.1]? = some op)
    {d : Dep} (hd : d ∈ op.deps) (hx : x ∈ (b.ctx k ops).places) (hy : y ∈ (b.ctx k ops).places)
    (hdy : d.producer = y.1) (hfine : ∀ p map, d = .fine p map → y.2 ∈ map.getD x.2 []) :
    (b.ctx k ops).Ordered y x := by
  obtain ⟨_, hop2, hs⟩ := Ctx.mem_places.mp hx
  rw [hop] at hop2
  cases hop2
  obtain ⟨op', hop', hs'⟩ := Ctx.mem_places.mp hy
  have hlt : y.1 < x.1 := hdy ▸ (h.formed _ op hop).dep_lt d hd
  have hle := entSeg_mono b k ops hlt.le
  cases hsame : (b.ctx k ops).sameSegmentDep x.1 d with
  | true =>
    -- a counter
    refine .inl ⟨hx, hy, op, op', hop, hop', ?_⟩
    have hentry : ∀ w, w ∈ (b.ctx k ops).fineWaits x.1 op x.2 →
        w ∈ (b.ctx k ops).entryWaits x.1 op x.2 := by
      intro w hw
      unfold Ctx.entryWaits
      rw [Nat.mod_eq_of_lt (hshort _ op hop _ hs), take_length]
      exact hw
    cases d with
    | coarse c =>
      refine ⟨_, hentry _ (Ctx.mem_fineWaits.mpr (.inl ⟨c, hd, hsame, rfl⟩)), ?_⟩
      exact (Ctx.coarse_bumped h hop hd hsame hop').mpr hdy.symm
    | fine p map =>
      have hin := hfine p map rfl
      refine ⟨_, hentry _ (Ctx.mem_fineWaits.mpr (.inr ⟨p, map, hd, hsame, _, hin, rfl⟩)), ?_⟩
      obtain ⟨base, hbase⟩ := Option.isSome_iff_exists.mp
        (h.based op (mem_of_getElem? hop) _ hd rfl)
      change (b.ctx k ops).fineBase p = some base at hbase
      change p = y.1 at hdy
      have hsl : (b.ctx k ops).slices p = op'.cus.length := by
        rw [hdy]
        exact slicesOf_some hop'
      show ((b.ctx k ops).fineBase p).getD 0 + y.2 ∈ _
      rw [hbase]
      exact (Ctx.fine_bumped h hop hd hsame hbase (hsl ▸ hs') hop' hs').mpr
        (Prod.ext hdy.symm rfl)
  | false =>
    -- the order of the segments, or of a pair
    have hno := hsame
    unfold Ctx.sameSegmentDep at hsame
    simp only [Bool.or_eq_false_iff, Bool.and_eq_false_iff, Bool.not_eq_false',
      decide_eq_false_iff_not] at hsame
    rw [hdy] at hsame
    obtain ⟨-, hcase⟩ := hsame
    rcases lt_or_eq_of_le hle with hlt' | heq
    · exact .inr ⟨hy, hx, .inl hlt'⟩
    · refine .inr ⟨hy, hx, .inr ⟨heq, ?_, hlt⟩⟩
      rcases hcase with hedge | ⟨hraw, hseg⟩
      · exact hedge
      · cases hmerged : (b.ctx k ops).l2.isSome && !(b.ctx k ops).unisegDenied with
        | true =>
          rcases hlost hmerged x.1 op hop d hd with hsame | hedge
          · rw [hno] at hsame
            cases hsame
          · rw [hdy] at hedge
            exact hedge
        | false =>
          unfold Ctx.entSeg at heq
          rw [hmerged] at heq
          exact absurd heq.symm hseg

theorem ordered_of_path (h : (b.ctx k ops).Placed b.nCu) (hshort : Short (b.ctx k ops))
    (hlost : NoneLost (b.ctx k ops).ops (b.ctx k ops)) {a c : ℕ}
    (hp : Relation.TransGen (CoarseEdge (b.ctx k ops).ops) a c) :
    ∀ x y, x.1 = c → y.1 = a → x ∈ (b.ctx k ops).places → y ∈ (b.ctx k ops).places →
      Relation.TransGen (b.ctx k ops).Ordered y x := by
  induction hp with
  | single he =>
    rintro x y rfl rfl hx hy
    obtain ⟨op, hop, hd⟩ := he
    exact .single (ordered_of_dep h hshort hlost hop hd hx hy rfl fun _ _ hc => by cases hc)
  | @tail m c hpath he ih =>
    rintro x y rfl rfl hx hy
    obtain ⟨op, hop, hd⟩ := he
    -- a slice of the operation between
    have hlt : m < (b.ctx k ops).ops.length :=
      ((h.formed _ op hop).dep_lt _ hd).trans (List.getElem?_eq_some_iff.mp hop).1
    have hm : (m, 0) ∈ (b.ctx k ops).places := Ctx.mem_places.mpr
      ⟨_, getElem?_eq_getElem hlt, length_pos_iff.mpr
        (h.formed m _ (getElem?_eq_getElem hlt)).inhabited⟩
    refine (ih (m, 0) y rfl rfl hm hy).tail ?_
    exact ordered_of_dep h hshort hlost hop hd hx hm rfl fun _ _ hc => by cases hc

theorem noneLost_reduced (h : NoneLost ops (b.ctx k (reduced k ops))) :
    NoneLost (b.ctx k (reduced k ops)).ops (b.ctx k (reduced k ops)) := by
  intro hm i x hx d hd
  have hw := resliced_widened b k (Builder.reduced k ops)
  have hn := reduced_narrowed k ops
  have hi := (List.getElem?_eq_some_iff.mp hx).1
  have hi' : i < ops.length := by
    rw [← hn.length, ← hw.length]
    exact hi
  obtain ⟨y, hy, -, hyd⟩ := hn.get i _ (getElem?_eq_getElem hi')
  obtain ⟨z, hz, hzd, -⟩ := hw.get i y hy
  have hxz : x = z := Option.some.inj (hx.symm.trans hz)
  rw [hxz, hzd] at hd
  rcases hyd d hd with hd | ⟨e, he, rfl⟩
  · exact h hm i _ (getElem?_eq_getElem hi') d hd
  · exact h hm i _ (getElem?_eq_getElem hi') e he

/-- What the passes leave leads to what needs it. -/
theorem implied_of_noneLost (hf : Formed b.nCu ops) (hshort : Short (b.ctx k (reduced k ops)))
    (hlost : NoneLost ops (b.ctx k (reduced k ops))) : Implied ops (b.ctx k (reduced k ops)) := by
  have hplaced : (b.ctx k (reduced k ops)).Placed b.nCu := ctx_placed hf
  have hw := resliced_widened b k (reduced k ops)
  have hn := reduced_narrowed k ops
  have hg : Formed b.nCu (selectGranularity k.fineForce (isolateNative (k.native ops) ops)) :=
    granularity_formed (hf.mapIdx fun _ _ hx => hx.congr ⟨rfl, rfl, rfl⟩)
  rintro x y ⟨hx, hy, op, hop, d, hd, hdy, hfine⟩
  have hiso : (isolateNative (k.native ops) ops)[x.1]? =
      some { op with isolated := op.isolated || k.native ops x.1 } := by
    unfold isolateNative
    rw [getElem?_map, getElem?_zipIdx, hop, zero_add]
    rfl
  obtain ⟨g, hgx, hgd⟩ := @granularity_dep _ k.fineForce x.1 _ d hiso hd
  by_cases hkept : d.isFine = true ∧ d ∈ g.deps
  · -- on the slices that the map names
    obtain ⟨hdf, hdg⟩ := hkept
    obtain ⟨r, hr, hrd⟩ := reduceDeps_fine hgx hdg hdf
    change (reduced k ops)[x.1]? = some r at hr
    obtain ⟨z, hz, hzd, -, hzc⟩ := hw.get x.1 r hr
    have hsx : slicesOf (b.resliced k (reduced k ops)) x.1 = slicesOf (reduced k ops) x.1 := by
      rw [slicesOf_some hz, slicesOf_some hr]
      rcases hzc with hzc | ⟨-, -, -, hno, -⟩
      · rw [hzc]
      · rw [hno d hrd] at hdf
        cases hdf
    have hsy : slicesOf (b.resliced k (reduced k ops)) y.1 = slicesOf (reduced k ops) y.1 :=
      hw.slicesOf (fineProd_iff.mpr ⟨r, mem_of_getElem? hr, d, hrd, hdf, hdy⟩)
    rw [hn.slicesOf] at hsx hsy
    exact .single (ordered_of_dep hplaced hshort (noneLost_reduced hlost) hz (hzd ▸ hrd) hx hy hdy
      fun p map hpm => hfine p map hpm hsx hsy)
  · have hcoarse : CoarseEdge (selectGranularity k.fineForce (isolateNative (k.native ops) ops))
        d.producer x.1 := by
      refine ⟨g, hgx, hgd.elim (fun h => ?_) id⟩
      cases d with
      | coarse c => exact h
      | fine p map => exact absurd ⟨rfl, h⟩ hkept
    refine ordered_of_path hplaced hshort (noneLost_reduced hlost) ?_ x y rfl hdy.symm hx hy
    exact Relation.TransGen.mono (fun _ _ he => hw.coarseEdge he) _ _ (reduceDeps_path hg hcoarse)

end Builder

/-! ### Once -/

theorem flatMap_filter_perm {α : Type} (key : α → Option ℕ) (l : List α) (n : ℕ) :
    ((range n).flatMap fun c => l.filter fun x => decide (key x = some c)).Perm
      (l.filter fun x => (key x).any (· < n)) := by
  induction n with
  | zero => simp
  | succ n ih =>
    rw [range_succ, flatMap_append, flatMap_singleton]
    have hsplit := filter_append_perm (fun x => (key x).any (· < n))
      (l.filter fun x => (key x).any (· < n + 1))
    refine Perm.trans ?_ hsplit
    rw [filter_filter, filter_filter]
    have h1 : (l.filter fun x => (key x).any (· < n) && (key x).any (· < n + 1)) =
        l.filter fun x => (key x).any (· < n) := by
      apply filter_congr
      intro x _
      cases key x with
      | none => rfl
      | some c =>
        simp
        omega
    have h2 : (l.filter fun x => !(key x).any (· < n) && (key x).any (· < n + 1)) =
        l.filter fun x => decide (key x = some n) := by
      apply filter_congr
      intro x _
      cases key x with
      | none => rfl
      | some c =>
        rw [Bool.eq_iff_iff]
        simp
        omega
    rw [h1, h2]
    exact ih.append_right _

namespace Ctx
variable {cx : Ctx}

theorem streams_perm (h : cx.Placed nCu) :
    (cx.emitted nCu).streams.flatten.Perm (cx.emitted nCu).gqStream := by
  have hlaid := cx.emitted_laid nCu
  have hstreams : (cx.emitted nCu).streams = (range nCu).map fun cu =>
      (cx.emitted nCu).gqStream.filter fun e => decide (cx.cuOf e = some cu) := by
    refine ext_getElem? fun cu => ?_
    by_cases hcu : cu < nCu
    · rw [hlaid.streams cu hcu, getElem?_map, getElem?_range hcu]
      rfl
    · rw [getElem?_eq_none (by rw [hlaid.length]; omega), getElem?_eq_none (by simp; omega)]
  rw [hstreams, ← flatMap_def]
  refine (flatMap_filter_perm cx.cuOf _ nCu).trans ?_
  rw [filter_eq_self.mpr fun e he => ?_]
  obtain ⟨op, cu, hop, hcu, -⟩ := hlaid.entry e he
  have : cx.cuOf e = some cu := by
    unfold cuOf
    rw [hop]
    exact hcu
  rw [this]
  simpa using (h.formed _ op hop).cus_lt cu (mem_of_getElem? hcu)

end Ctx

namespace Builder
variable {b : Builder} {k : Launch} {p : Program} {rank : ℕ → ℕ}

theorem once_of_built (h : (b.ctx k ops).Placed b.nCu) (hp : b.Built (b.ctx k ops) p)
    (hx : x ∈ (b.ctx k ops).places) : p.Once x := by
  have hstream := (Ctx.streams_perm h).map StreamEnt.place
  have hplaces : ((b.ctx k ops).emitted b.nCu).gqStream.map StreamEnt.place = (b.ctx k ops).places :=
    ((b.ctx k ops).emitted_laid b.nCu).places
  rw [hplaces] at hstream
  have hone := count_eq_one_of_mem (b.ctx k ops).places_nodup hx
  constructor
  · rw [hp.stream, hstream.count_eq, hone]
  · rw [(built_queued h hp).1.perm.count_eq, hone]

theorem mem_places_of_declared {i s : ℕ} {op : Op} (hop : ops[i]? = some op)
    (hs : s < op.cus.length) : (i, s) ∈ (b.ctx k (reduced k ops)).places := by
  obtain ⟨y, hy, hyc, -⟩ := (reduced_narrowed k ops).get i op hop
  obtain ⟨z, hz, -, -, hzc⟩ := (resliced_widened b k (reduced k ops)).get i y hy
  refine Ctx.mem_places.mpr ⟨z, hz, ?_⟩
  rw [← hyc] at hs
  rcases hzc with hzc | ⟨-, hle, -⟩
  · rw [hzc]
    exact hs
  · exact lt_of_lt_of_le hs hle

/-! ### What runs keep -/

theorem ordered_lt (h : (b.ctx k ops).Sound b.nCu) (ho : (b.ctx k ops).Ordered y x) : y.1 < x.1 := by
  rcases ho with hw | ⟨-, -, hlt | ⟨-, -, hlt⟩⟩
  · obtain ⟨op, hop, d, hd, hdy⟩ := hw.dep h
    rw [← hdy]
    exact (h.formed _ op hop).dep_lt d hd
  · by_contra hge
    have := entSeg_mono b k ops (Nat.not_lt.mp hge)
    omega
  · exact hlt

theorem keepsDeps_of_implied (h : (b.ctx k ops).Placed b.nCu)
    (hq : Queued (b.ctx k ops) rank p) {decl : List Op} (hi : Implied decl (b.ctx k ops)) :
    p.KeepsDeps decl (b.ctx k ops) := fun x y hneed _ hs hx =>
  Lib.Gated.done_of_path (hq.flow_respects h) hs (hi x y hneed) hx

theorem keepsDeps_iff (h : (b.ctx k ops).Sound b.nCu)
    (hq : Queued (b.ctx k ops) rank p) {decl : List Op} :
    p.KeepsDeps decl (b.ctx k ops) ↔ Implied decl (b.ctx k ops) := by
  refine ⟨fun hk x y hneed => ?_, keepsDeps_of_implied h.toPlaced hq⟩
  have hx : x ∈ (p.flow (b.ctx k ops)).items := hq.mem_items.mpr hneed.1
  refine (Lib.Gated.before_iff (hq.flow_ordered h) (fun _ _ ho => ordered_lt h ho)
    (fun y x ho => hq.mem_items.mpr ho.places.1) hx).mp (hk x y hneed)

/-- A finished program has every slice once, and its runs keep every declared dependency where
placement merges no segments that one was dropped for and the wait lists fit; they keep them,
where the maps name slices that there are, exactly if what is left of the dependencies leads to
what needs them. -/
theorem dependencies_kept (hb : Reach b) (hf : b.fused k = some ops) (hp : b.finish k = some p) :
    (∀ i, ∀ op : Op, ops[i]? = some op → ∀ s < op.cus.length, p.Once (i, s)) ∧
      (NoneLost ops (b.ctx k (reduced k ops)) → Short (b.ctx k (reduced k ops)) →
        p.KeepsDeps ops (b.ctx k (reduced k ops))) ∧ (InRange ops →
        (p.KeepsDeps ops (b.ctx k (reduced k ops)) ↔ Implied ops (b.ctx k (reduced k ops)))) := by
  have hformed := fused_formed hb.formed hf
  have hs : (b.ctx k (reduced k ops)).Placed b.nCu := ctx_placed hformed
  have hbuilt : b.Built (b.ctx k (reduced k ops)) p := finish_built hf hp
  have hq := (built_queued hs hbuilt).1
  refine ⟨fun i op hop s hlt => ?_, fun hlost hshort => ?_, fun hr => ?_⟩
  · exact once_of_built hs hbuilt (mem_places_of_declared hop hlt)
  · exact keepsDeps_of_implied hs hq (implied_of_noneLost hformed hshort hlost)
  · exact keepsDeps_iff (ctx_sound hformed hr) hq

/-- Two operations that placement leaves in segments of their own. -/
theorem dependencies_kept_pair : ∃ b p, pairOn [0, 1] = some b ∧ b.finish plainLaunch = some p ∧
    p.KeepsDeps b.ops (b.ctx plainLaunch (reduced plainLaunch b.ops)) := by
  obtain ⟨b, hb⟩ : ∃ b, pairOn [0, 1] = some b := ⟨_, rfl⟩
  obtain ⟨p, hp⟩ : ∃ p, b.finish plainLaunch = some p := by
    cases hb
    exact ⟨_, rfl⟩
  have hf : b.fused plainLaunch = some b.ops := by
    cases hb
    rfl
  refine ⟨b, p, hb, hp, (dependencies_kept (pairOn_reach hb) hf hp).2.1 ?_ ?_⟩
  · intro hm
    cases hb
    cases hm
  · cases hb
    intro i op hop s hs
    have hi := (List.getElem?_eq_some_iff.mp hop).1
    change i < 2 at hi
    obtain rfl | rfl : i = 0 ∨ i = 1 := by omega
    · cases hop
      exact Nat.zero_lt_succ _
    · cases hop
      exact Nat.succ_lt_succ (Nat.zero_lt_succ _)

def opKdaDecodeFused : ℕ := 125

/-- the segments of standalone objects, told apart by their opcode -/
def kdaLaunch : Launch :=
  { plainLaunch with
    waveClass := fun ops i => if (ops[i]?.map fun op => op.inst.op) = some opKdaDecodeFused then 3 else 8
    raw := fun ops => ops.any fun op => op.inst.op = opKdaDecodeFused }

def behindKda : Option Builder := do
  let (b, c) ← (Builder.new 2 { twoDomains with unisegDenied := false }).emit opKdaDecodeFused [0, 1] [] id
  let (b, _) ← b.emit opGemv [0, 1] [c] id
  return b

/-- Placement merges the segments, and the dependency has no counter: the second operation may
start first. -/
theorem dependencies_dropped : ∃ b ops p, Reach b ∧ b.fused kdaLaunch = some ops ∧ InRange ops ∧
    b.finish kdaLaunch = some p ∧ ¬ p.KeepsDeps ops (b.ctx kdaLaunch (reduced kdaLaunch ops)) := by
  obtain ⟨b, hb⟩ : ∃ b, behindKda = some b := ⟨_, rfl⟩
  have hreach : Reach b := by
    unfold behindKda at hb
    simp only [Option.bind_eq_bind, Option.bind_eq_some_iff, Option.pure_def, Option.some.injEq] at hb
    obtain ⟨⟨b1, c⟩, h1, ⟨b2, c2⟩, h2, rfl⟩ := hb
    refine .emit (.emit (.new 2 _) (fun _ hd => absurd hd not_mem_nil) h1) (fun d hd => ?_) h2
    rw [mem_singleton.mp hd]
    exact emit_counter_lt h1
  have hf : b.fused kdaLaunch = some b.ops := by
    cases hb
    rfl
  have hp : (b.finish kdaLaunch).map (fun p => p.gqStream.map fun e => (e.place, e.seg, p.waitsOf e)) =
      some [((0, 0), 0, []), ((1, 0), 0, []), ((0, 1), 0, []), ((1, 1), 0, [])] := by
    cases hb
    rfl
  obtain ⟨p, hp, hq⟩ := Option.map_eq_some_iff.mp hp
  refine ⟨b, b.ops, p, hreach, hf, ?_, hp, fun hk => ?_⟩
  · cases hb
    intro op hop q map hd
    rcases mem_cons.mp hop with rfl | hop
    · cases hd
    · rw [mem_singleton.mp hop] at hd
      cases mem_singleton.mp hd
  · -- the slice `(1, 0)` starts at once
    have hall : ∀ e ∈ p.gqStream, e.seg = 0 ∧ p.waitsOf e = [] := by
      intro e he
      have hmem : (e.place, e.seg, p.waitsOf e) ∈ p.gqStream.map fun e => (e.place, e.seg, p.waitsOf e) :=
        mem_map_of_mem he
      rw [hq] at hmem
      simp only [mem_cons, Prod.mk.injEq, not_mem_nil, or_false] at hmem
      rcases hmem with ⟨-, h⟩ | ⟨-, h⟩ | ⟨-, h⟩ | ⟨-, h⟩ <;> exact h
    have hplaces : p.gqStream.map StreamEnt.place = [(0, 0), (1, 0), (0, 1), (1, 1)] := by
      have := congrArg (map Prod.fst) hq
      rwa [map_map] at this
    have hstart : (p.flow (b.ctx kdaLaunch (reduced kdaLaunch b.ops))).Reachable ⟨{(1, 0)}, ∅⟩ := by
      refine .single (.start ?_ (Finset.notMem_empty _) fun e he hex => ⟨?_, ?_, ?_⟩)
      · show (1, 0) ∈ (p.gqStream.map StreamEnt.place).toFinset
        rw [hplaces]
        decide
      · intro f hf' hlt
        rw [(hall e he).1] at hlt
        cases hlt
      · intro f _ _ hedge
        cases hb
        cases hedge
      · intro w hw
        rw [(hall e he).2] at hw
        cases hw
    have hneed : Needs b.ops (b.ctx kdaLaunch (reduced kdaLaunch b.ops)) (1, 0) (0, 0) := by
      cases hb
      exact ⟨by decide, by decide, _, rfl, .coarse 0, mem_singleton.mpr rfl, rfl,
        fun _ _ hc => by cases hc⟩
    exact absurd (hk _ _ hneed _ hstart (Finset.mem_singleton_self _)) (Finset.notMem_empty _)

end Builder

end Plow.Devbuild
