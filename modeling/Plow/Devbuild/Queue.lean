import Plow.Devbuild.Counters
import Plow.Devbuild.Windows
import Plow.Lib.WindowQueue

/-!
# What flattening starts from

The operations that flattening reads (`Builder.ctx_sound`), their segments (`segAt_mono`), and the
ranks the queue is sorted by (`le_asapRanks`).
-/

namespace Plow.Devbuild

open List

variable {ops ops' ops₃ : List Op} {nCu i : ℕ} {segOf : Option (ℕ → ℕ)} {start : List ℕ} {op : Op}
  {d : Dep}

/-! ### The operations -/

/-- Dependencies are dropped or made coarse, nothing else. -/
structure Narrowed (ops ops' : List Op) : Prop where
  length : ops'.length = ops.length
  get : ∀ i : ℕ, ∀ op : Op, ops[i]? = some op → ∃ x : Op, ops'[i]? = some x ∧ x.cus = op.cus ∧
    ∀ d ∈ x.deps, d ∈ op.deps ∨ ∃ e ∈ op.deps, d = .coarse e.producer

theorem Narrowed.trans (h : Narrowed ops ops') (h' : Narrowed ops' ops₃) : Narrowed ops ops₃ := by
  refine ⟨h'.length.trans h.length, fun i op hop => ?_⟩
  obtain ⟨x, hx, hxc, hxd⟩ := h.get i op hop
  obtain ⟨y, hy, hyc, hyd⟩ := h'.get i x hx
  refine ⟨y, hy, hyc.trans hxc, fun d hd => ?_⟩
  rcases hyd d hd with hd | ⟨e, he, rfl⟩
  · exact hxd d hd
  · rcases hxd e he with he | ⟨f, hf, rfl⟩
    · exact .inr ⟨e, he, rfl⟩
    · exact .inr ⟨f, hf, rfl⟩

theorem Narrowed.mapIdx (ops : List Op) (f : Op × ℕ → Op) (hf : ∀ p, (f p).cus = p.1.cus ∧
    ∀ d ∈ (f p).deps, d ∈ p.1.deps ∨ ∃ e ∈ p.1.deps, d = .coarse e.producer) :
    Narrowed ops (ops.zipIdx.map f) := by
  refine ⟨by simp, fun i op hop => ?_⟩
  rw [getElem?_map, getElem?_zipIdx, hop]
  exact ⟨_, rfl, hf _⟩

theorem isolateNative_narrowed (native : ℕ → Bool) (ops : List Op) :
    Narrowed ops (Builder.isolateNative native ops) := by
  unfold Builder.isolateNative
  exact .mapIdx ops _ fun _ => ⟨rfl, fun _ hd => .inl hd⟩

theorem granularity_narrowed (fineForce : Bool) (ops : List Op) :
    Narrowed ops (selectGranularity fineForce ops) := by
  obtain ⟨keep, heq⟩ := selectGranularity_eq fineForce ops
  rw [heq]
  refine .mapIdx ops _ fun p => ⟨rfl, fun d hd => ?_⟩
  obtain ⟨e, he, rfl⟩ := mem_map.mp hd
  rcases granular_cases ops fineForce (keep p.2) e with h | h
  · rw [h]
    exact .inl he
  · rw [h]
    exact .inr ⟨e, he, rfl⟩

theorem reduceDeps_narrowed (ops : List Op) : Narrowed ops (reduceDeps ops) := by
  unfold reduceDeps
  exact .mapIdx ops _ fun _ => ⟨rfl, fun _ hd => .inl (mem_retain.mp hd).1⟩

theorem reduced_narrowed (k : Launch) (ops : List Op) : Narrowed ops (Builder.reduced k ops) :=
  ((isolateNative_narrowed _ ops).trans (granularity_narrowed _ _)).trans (reduceDeps_narrowed _)

theorem Narrowed.slicesOf (h : Narrowed ops ops') (i : ℕ) : slicesOf ops' i = slicesOf ops i := by
  unfold Devbuild.slicesOf
  cases hi : ops[i]? with
  | none =>
    have := List.getElem?_eq_none_iff.mp hi
    rw [getElem?_eq_none (h.length ▸ this)]
  | some op =>
    obtain ⟨x, hx, hcus, -⟩ := h.get i op hi
    rw [hx]
    simp [hcus]

theorem Narrowed.inRange (h : Narrowed ops ops') (hr : InRange ops) : InRange ops' := by
  intro x hx p map hd l hl s hs
  obtain ⟨i, hi⟩ := mem_iff_getElem?.mp hx
  have hlt := (List.getElem?_eq_some_iff.mp hi).1
  rw [h.length] at hlt
  obtain ⟨y, hy, -, hyd⟩ := h.get i _ (getElem?_eq_getElem hlt)
  rw [hi] at hy
  cases hy
  rw [h.slicesOf]
  rcases hyd _ hd with hd | ⟨e, -, heq⟩
  · exact hr _ (getElem_mem hlt) p map hd l hl s hs
  · cases heq

theorem Widened.deps (h : Widened ops ops') {x : Op} (hx : x ∈ ops') :
    ∃ op ∈ ops, x.deps = op.deps := by
  obtain ⟨i, hi⟩ := mem_iff_getElem?.mp hx
  have hlt := (List.getElem?_eq_some_iff.mp hi).1
  rw [h.length] at hlt
  obtain ⟨y, hy, hyd, -⟩ := h.get i _ (getElem?_eq_getElem hlt)
  rw [hi] at hy
  cases hy
  exact ⟨_, getElem_mem hlt, hyd⟩

theorem Widened.inRange (h : Widened ops ops') (hr : InRange ops) : InRange ops' := by
  intro x hx p map hd l hl s hs
  obtain ⟨op, hop, hdeps⟩ := h.deps hx
  rw [hdeps] at hd
  have hp : Devbuild.fineProd ops p = true := fineProd_iff.mpr ⟨op, hop, _, hd, rfl, rfl⟩
  rw [h.slicesOf hp]
  exact hr op hop p map hd l hl s hs

namespace Builder
variable {b : Builder} {k : Launch}

theorem ctx_placed (hf : Formed b.nCu ops) : (b.ctx k (reduced k ops)).Placed b.nCu := by
  have hw := resliced_widened b k (reduced k ops)
  have hb := fineBases_based (reduced k ops)
  have hfine : ∀ p base, (fineBases (reduced k ops)).1 p = some base →
      slicesOf (b.resliced k (reduced k ops)) p = slicesOf (reduced k ops) p := by
    intro p base hp
    have hmem := (hb.some_iff p).mp (by rw [hp]; rfl)
    obtain ⟨d, hd, hdp⟩ := mem_map.mp hmem
    obtain ⟨op, hop, hd, hfd⟩ := mem_fineDeps.mp hd
    exact hw.slicesOf (fineProd_iff.mpr ⟨op, hop, d, hd, hfd, hdp⟩)
  refine ⟨hw.formed (reduced_formed hf), fun p base hp => ?_, fun p q base base' hp hq hpq => ?_,
    fun x hx d hd hfd => ?_⟩
  · show (b.resliced k (reduced k ops)).length ≤ base
    rw [hw.length]
    exact (hb.low p base hp).1
  · have := hb.apart p q base base' hp hq hpq
    rw [← hfine p base hp, ← hfine q base' hq] at this
    exact this
  · obtain ⟨op, hop, hdeps⟩ := hw.deps hx
    refine (hb.some_iff d.producer).mpr (mem_map.mpr ⟨d, ?_, rfl⟩)
    exact mem_fineDeps.mpr ⟨op, hop, hdeps ▸ hd, hfd⟩

theorem ctx_sound (hf : Formed b.nCu ops) (hr : InRange ops) :
    (b.ctx k (reduced k ops)).Sound b.nCu :=
  ⟨ctx_placed hf, (resliced_widened b k (reduced k ops)).inRange ((reduced_narrowed k ops).inRange hr)⟩

end Builder

/-! ### Segments -/

theorem segAt_succ (u s : Bool) (w : ℕ → ℕ) (ops : List Op) (i : ℕ) :
    segAt u s w ops i ≤ segAt u s w ops (i + 1) := by
  by_cases hs : s = true
  · subst hs
    cases i with
    | zero => exact Nat.zero_le _
    | succ i =>
      rw [segAt, segAt, if_pos rfl, if_pos rfl]
      exact Nat.le_succ _
  · rw [Bool.not_eq_true] at hs
    subst hs
    rw [segAt.eq_def _ _ _ _ (i + 1)]
    simp only [Bool.false_eq_true, if_false]
    split
    · split
      · exact Nat.le_succ _
      · exact le_rfl
    · exact le_rfl

theorem segAt_mono (u s : Bool) (w : ℕ → ℕ) (ops : List Op) {j : ℕ} (h : i ≤ j) :
    segAt u s w ops i ≤ segAt u s w ops j :=
  monotone_nat_of_le_succ (segAt_succ u s w ops) h

/-! ### Ranks -/

theorem foldl_own {α : Type} (g : List ℕ → α → ℕ) (l : List α) (acc : List ℕ) :
    ∃ new, l.foldl (fun acc p => acc ++ [g acc p]) acc = acc ++ new ∧ new.length = l.length ∧
      ∀ i p, l[i]? = some p → new[i]? = some (g (acc ++ new.take i) p) := by
  induction l generalizing acc with
  | nil => exact ⟨[], by simp, rfl, fun i p h => by simp at h⟩
  | cons a l ih =>
    obtain ⟨new, hnew, hlen, hget⟩ := ih (acc ++ [g acc a])
    refine ⟨g acc a :: new, ?_, by simp [hlen], fun i p hp => ?_⟩
    · rw [foldl_cons, hnew, append_assoc]
      rfl
    · cases i with
      | zero =>
        cases hp
        simp
      | succ i =>
        rw [getElem?_cons_succ] at hp ⊢
        rw [hget i p hp, append_assoc]
        rfl

theorem le_startStep {s : ℕ} : s ≤ startStep ops segOf start op i s d := by
  unfold startStep
  split
  · exact le_max_left _ _
  · exact le_rfl

theorem le_foldl_startStep
    (l : List Dep) (s : ℕ) : s ≤ l.foldl (startStep ops segOf start op i) s := by
  induction l generalizing s with
  | nil => exact le_refl s
  | cons e l ih => exact le_startStep.trans (ih _)

theorem le_startOf (hd : d ∈ op.deps) (hlt : d.producer < i)
    (hseg : ∀ seg, segOf = some seg → seg d.producer = seg i) :
    start.getD d.producer 0 ≤ startOf ops segOf start (op, i) := by
  have hcond : (d.producer < i && (segOf.all fun seg => seg d.producer = seg i)) = true := by
    cases segOf with
    | none => simpa using hlt
    | some seg => simpa using ⟨hlt, hseg seg rfl⟩
  have hone : ∀ s, start.getD d.producer 0 ≤ startStep ops segOf start op i s d := by
    intro s
    unfold startStep
    rw [if_pos hcond]
    exact le_trans (Nat.le_add_right _ _) (Nat.le_max_right _ _)
  suffices hall : ∀ (l : List Dep) s, d ∈ l →
      start.getD d.producer 0 ≤ l.foldl (startStep ops segOf start op i) s from hall _ 0 hd
  intro l
  induction l with
  | nil => exact nofun
  | cons e l ih =>
    intro s h
    rcases mem_cons.mp h with rfl | h
    · exact (hone s).trans (le_foldl_startStep l _)
    · exact ih _ h

theorem le_asapRanks (hop : ops[i]? = some op) (hd : d ∈ op.deps) (hlt : d.producer < i)
    (hseg : ∀ seg, segOf = some seg → seg d.producer = seg i) :
    (asapRanks ops segOf).getD d.producer 0 ≤ (asapRanks ops segOf).getD i 0 := by
  obtain ⟨new, hnew, hlen, hget⟩ := foldl_own (startOf ops segOf) ops.zipIdx []
  unfold asapRanks
  rw [hnew, nil_append]
  have hi := hget i (op, i) (by
    rw [getElem?_zipIdx, hop, zero_add]
    rfl)
  rw [nil_append] at hi
  have h1 : new.getD i 0 = startOf ops segOf (new.take i) (op, i) := by
    rw [getD_eq_getElem?_getD, hi]
    rfl
  have h2 : new.getD d.producer 0 = (new.take i).getD d.producer 0 := by
    rw [getD_eq_getElem?_getD, getD_eq_getElem?_getD, getElem?_take_of_lt hlt]
  rw [h1, h2]
  exact le_startOf hd hlt hseg

end Plow.Devbuild

/-!
# The global queue

What the windows of a program's queue are for (`Program.QueueOk`): a window holds the entries of
its segment and domain, an entry stands behind those of its window that it waits for, and workers
that take the entries of their window in order are never stuck.

Two things break it.  The bounds behind the last window that has an entry are not entered
(`bounds_exact_iff`); and where placement merges the segments into one window a domain while the
ranks are relative to the segments, an entry may stand in front of one it waits for.  The first
does not happen if the last window has an entry, the second if nothing comes before itself
(`Ctx.First`), which holds without such merging (`noCycle_of_apart`).
-/

namespace Plow.Devbuild

/-! ### What is asked of the queue -/

namespace Program
variable (p : Program)

def waitsOf (e : StreamEnt) : List Wait := (p.waits.drop e.waitOfs).take e.waitLen

def succsOf (e : StreamEnt) : List ℕ := (p.succs.drop e.succOfs).take e.succLen

def windowOf (e : StreamEnt) : ℕ :=
  if p.l2Domains = 0 then e.seg else e.seg * p.l2Domains + e.domain

/-- the windows as workers are served them -/
def queue : Lib.WindowQueue where
  size := p.gqStream.length
  wait i := ((p.gqStream[i]?.map p.waitsOf).getD []).map fun w => (w.id, w.threshold)
  bump i := (p.gqStream[i]?.map p.succsOf).getD []
  windows := p.gqSegOfs.length - 1
  lo w := p.gqSegOfs.getD w 0
  hi w := p.gqSegOfs.getD (w + 1) 0
  seg w := w / max p.l2Domains 1

structure QueueOk : Prop where
  inside : ∀ e ∈ p.gqStream, p.windowOf e < p.gqSegOfs.length - 1
  exact : BoundsExact (p.gqSegOfs.length - 1) (p.gqStream.map p.windowOf) p.gqSegOfs
  topological : ∀ i j, Relation.TransGen p.queue.WaitsFor i j →
    p.gqStream[i]?.map p.windowOf = p.gqStream[j]?.map p.windowOf → j < i
  live : p.queue.Live

end Program

/-! ### What comes first, of the slices -/

namespace Ctx
variable (cx : Ctx) (rank : ℕ → ℕ)

def placeDomain (x : ℕ × ℕ) : ℕ :=
  ((cx.ops[x.1]?.bind fun op => op.cus[x.2]?).map cx.domainOf).getD 0

def placeWindow (x : ℕ × ℕ) : ℕ := cx.entSeg x.1 * cx.domains + cx.placeDomain x

/-- the slice `x` waits for a counter that `y` bumps -/
def Waits (x y : ℕ × ℕ) : Prop :=
  x ∈ cx.places ∧ y ∈ cx.places ∧ ∃ op op', cx.ops[x.1]? = some op ∧ cx.ops[y.1]? = some op' ∧
    ∃ w ∈ cx.entryWaits x.1 op x.2, w.id ∈ cx.entrySuccs y.1 op' y.2

def Ranked (y x : ℕ × ℕ) : Prop := rank y.1 < rank x.1 ∨ rank y.1 = rank x.1 ∧ Before y x

/-- `y` has to come before `x`: `x` waits for it, or it stands in front of `x` in a window, or its
segment is earlier -/
def First (y x : ℕ × ℕ) : Prop :=
  cx.Waits x y ∨ (y ∈ cx.places ∧ x ∈ cx.places ∧ (cx.entSeg y.1 < cx.entSeg x.1 ∨
    cx.placeWindow y = cx.placeWindow x ∧ Ranked rank y x))

def NoCycle : Prop := ∀ x, ¬ Relation.TransGen (cx.First rank) x x

end Ctx

namespace Builder
variable (b : Builder) (cx : Ctx)

def rank (i : ℕ) : ℕ := ((b.asap cx).map fun a => a.getD i 0).getD 0

def LastWindow : Prop :=
  cx.ops = [] ∨ ∃ x ∈ cx.places, cx.entSeg x.1 + 1 = b.orderedSegments cx ∧
    cx.placeDomain x + 1 = cx.domains

def Apart : Prop :=
  (cx.l2.isSome && !cx.unisegDenied && b.opts.gqOrderAsap && b.opts.gqOrderSeg) = true →
    ∀ i < cx.ops.length, cx.seg i = 0

end Builder

namespace Ctx
variable {cx : Ctx} {rank : ℕ → ℕ} {x y : ℕ × ℕ} {nCu : ℕ}

theorem before_trans {a b c : ℕ × ℕ} (h : Before a b) (h' : Before b c) : Before a c := by
  unfold Before at *
  omega

theorem not_ranked_self (x : ℕ × ℕ) : ¬ Ranked rank x x := by
  rintro (h | ⟨-, h⟩)
  · exact lt_irrefl _ h
  · exact not_before_self x h

theorem ranked_trans {a b c : ℕ × ℕ} (h : Ranked rank a b) (h' : Ranked rank b c) :
    Ranked rank a c := by
  rcases h with h | ⟨h, hb⟩ <;> rcases h' with h' | ⟨h', hb'⟩
  · exact .inl (lt_trans h h')
  · exact .inl (h' ▸ h)
  · exact .inl (h ▸ h')
  · exact .inr ⟨h.trans h', before_trans hb hb'⟩

theorem placeWindow_div (h : cx.placeDomain x < cx.domains) :
    cx.placeWindow x / cx.domains = cx.entSeg x.1 := by
  unfold placeWindow
  rw [add_comm, Nat.add_mul_div_right _ _ (Nat.zero_lt_of_lt h), Nat.div_eq_of_lt h,
    zero_add]

theorem Waits.dep (h : cx.Sound nCu) (hw : cx.Waits x y) :
    ∃ op, cx.ops[x.1]? = some op ∧ ∃ d ∈ op.deps, d.producer = y.1 := by
  obtain ⟨hx, hy, op, op', hop, hop', w, hw, hb⟩ := hw
  obtain ⟨_, hop2, hs⟩ := mem_places.mp hx
  rw [hop] at hop2
  cases hop2
  obtain ⟨_, hop2, hs'⟩ := mem_places.mp hy
  rw [hop'] at hop2
  cases hop2
  refine ⟨op, hop, ?_⟩
  rcases mem_fineWaits.mp (mem_entryWaits hw) with ⟨c, hd, hsame, rfl⟩ | ⟨p, map, hd, hsame, ps, hps, rfl⟩
  · exact ⟨_, hd, ((coarse_bumped h.toPlaced hop hd hsame hop').mp hb).symm⟩
  · obtain ⟨base, hbase⟩ := Option.isSome_iff_exists.mp
      (h.based op (List.mem_of_getElem? hop) _ hd rfl)
    change cx.fineBase p = some base at hbase
    have hmap : map.getD x.2 [] ∈ map := by
      have hlen : map.length = op.cus.length := (h.formed _ op hop).fits _ hd
      rw [List.getD_eq_getElem?_getD, List.getElem?_eq_getElem (hlen ▸ hs)]
      exact List.getElem_mem _
    have hlt : ps < cx.slices p := h.inRange op (List.mem_of_getElem? hop) p map hd _ hmap ps hps
    rw [hbase] at hb
    have := (fine_bumped h.toPlaced hop hd hsame hbase hlt hop' hs').mp hb
    exact ⟨_, hd, by rw [this]; rfl⟩

end Ctx

namespace Builder
variable {b : Builder} {k : Launch} {ops : List Op}

theorem le_rank (h : (b.ctx k ops).Sound b.nCu) (ha : b.Apart (b.ctx k ops)) {x y : ℕ × ℕ}
    (hw : (b.ctx k ops).Waits x y) (hseg : (b.ctx k ops).entSeg y.1 = (b.ctx k ops).entSeg x.1) :
    b.rank (b.ctx k ops) y.1 ≤ b.rank (b.ctx k ops) x.1 := by
  obtain ⟨op, hop, d, hd, hdy⟩ := hw.dep h
  have hlt := (h.formed _ op hop).dep_lt d hd
  unfold rank asap
  split
  next hasap =>
    show (asapRanks _ _).getD y.1 0 ≤ (asapRanks _ _).getD x.1 0
    rw [← hdy]
    refine le_asapRanks hop hd hlt fun seg hs => ?_
    split at hs
    next hrel =>
      cases hs
      rw [hdy]
      unfold Ctx.entSeg at hseg
      by_cases hm : ((b.ctx k ops).l2.isSome && !(b.ctx k ops).unisegDenied) = true
      · -- merged segments are all the first one
        have hall := ha (by rw [hm, hasap, hrel]; rfl)
        have hx := (List.getElem?_eq_some_iff.mp hop).1
        rw [hall _ hx, hall _ (by omega)]
      · rw [if_neg hm, if_neg hm] at hseg
        exact hseg
    next => cases hs
  next => exact le_rfl

theorem entSeg_mono (b : Builder) (k : Launch) (ops : List Op) {i j : ℕ} (h : i ≤ j) :
    (b.ctx k ops).entSeg i ≤ (b.ctx k ops).entSeg j := by
  unfold Ctx.entSeg
  split
  · exact le_rfl
  · exact segAt_mono _ _ _ _ h

theorem domainOf_lt (cu : ℕ) (hcu : cu < b.nCu) :
    (b.ctx k ops).domainOf cu < (b.ctx k ops).domains := by
  unfold Ctx.domainOf Ctx.domains
  show ((b.l2Place.map fun l => l.domainOf cu).getD 0) < (b.l2Place.map fun l => l.domains).getD 1
  unfold l2Place
  cases b.opts.placeL2 with
  | none => exact one_pos
  | some l =>
    simp only [Option.bind_eq_bind, Option.bind_some]
    split
    · exact one_pos
    · next hz =>
      rw [not_or] at hz
      split
      · exact one_pos
      · next hblock =>
        show l.domainOf cu < l.domains
        unfold L2Layout.domainOf
        cases hm : l.map with
        | block =>
          have hle : b.nCu ≤ l.domains * l.sms := by
            by_contra hgt
            exact hblock ⟨hm, by omega⟩
          show cu / max l.sms 1 < l.domains
          rw [max_eq_left (by omega), Nat.div_lt_iff_lt_mul (by omega)]
          omega
        | roundRobin =>
          show cu % max l.domains 1 < l.domains
          rw [max_eq_left (by omega)]
          exact Nat.mod_lt _ (by omega)

theorem placeDomain_lt (h : (b.ctx k ops).Placed b.nCu) {x : ℕ × ℕ} (hx : x ∈ (b.ctx k ops).places) :
    (b.ctx k ops).placeDomain x < (b.ctx k ops).domains := by
  obtain ⟨op, hop, hlt⟩ := Ctx.mem_places.mp hx
  unfold Ctx.placeDomain
  rw [hop, Option.bind_some, List.getElem?_eq_getElem hlt]
  exact domainOf_lt _ ((h.formed _ op hop).cus_lt _ (List.getElem_mem hlt))

/-- what comes first is of an earlier segment, or ranked before -/
theorem noCycle_of_apart (h : (b.ctx k ops).Sound b.nCu) (ha : b.Apart (b.ctx k ops)) :
    (b.ctx k ops).NoCycle (b.rank (b.ctx k ops)) := by
  let cx := b.ctx k ops
  let Lt : ℕ × ℕ → ℕ × ℕ → Prop := fun y x =>
    cx.entSeg y.1 < cx.entSeg x.1 ∨
      cx.entSeg y.1 = cx.entSeg x.1 ∧ Ctx.Ranked (b.rank cx) y x
  have htrans : ∀ {x y z}, Lt x y → Lt y z → Lt x z := by
    rintro x y z (h1 | ⟨h1, h1'⟩) (h2 | ⟨h2, h2'⟩)
    · exact .inl (h1.trans h2)
    · exact .inl (h2 ▸ h1)
    · exact .inl (h1 ▸ h2)
    · exact .inr ⟨h1.trans h2, Ctx.ranked_trans h1' h2'⟩
  have hfirst : ∀ y x, cx.First (b.rank cx) y x → Lt y x := by
    rintro y x (hw | ⟨hy, hx, hseg | ⟨hwin, hr⟩⟩)
    · obtain ⟨op, hop, d, hd, hdy⟩ := hw.dep h
      have hlt := (h.formed _ op hop).dep_lt d hd
      rcases lt_or_eq_of_le (entSeg_mono b k ops
        (show y.1 ≤ x.1 by omega)) with hs | hs
      · exact .inl hs
      · refine .inr ⟨hs, ?_⟩
        rcases lt_or_eq_of_le (le_rank h ha hw hs) with hr | hr
        · exact .inl hr
        · exact .inr ⟨hr, .inl (by omega)⟩
    · exact .inl hseg
    · have hdy := placeDomain_lt h.toPlaced hy
      have hdx := placeDomain_lt h.toPlaced hx
      have hs : cx.entSeg y.1 = cx.entSeg x.1 := by
        rw [← Ctx.placeWindow_div hdy, ← Ctx.placeWindow_div hdx]
        exact congrArg (· / cx.domains) hwin
      exact .inr ⟨hs, hr⟩
  intro x hx
  have hall : ∀ y, Relation.TransGen (cx.First (b.rank cx)) x y → Lt x y := by
    intro y hy
    induction hy with
    | single h => exact hfirst _ _ h
    | tail _ h ih => exact htrans ih (hfirst _ _ h)
  rcases hall x hx with hlt | ⟨-, hr⟩
  · exact lt_irrefl _ hlt
  · exact Ctx.not_ranked_self x hr

end Builder

end Plow.Devbuild
