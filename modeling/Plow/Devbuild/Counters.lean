import Plow.Devbuild.Entries

/-!
# The counters

The coarse counter of an operation has its number; the fine counters of an operation are a range of
their own behind those (`Based`).  A counter that an entry waits for is bumped as often as its
threshold says (`Ctx.threshold_eq`): a coarse one by every slice of its operation, a fine one by its
slice.
-/

namespace Plow.Devbuild

open List Function

/-! ### The ranges of fine counters -/

/-- The fine counters handed out so far, for the producers in `ps`. -/
structure Based (ops : List Op) (ps : List ℕ) (st : (ℕ → Option ℕ) × ℕ) : Prop where
  start : ops.length ≤ st.2
  low : ∀ p base, st.1 p = some base → ops.length ≤ base ∧ base + slicesOf ops p ≤ st.2
  apart : ∀ p q base base', st.1 p = some base → st.1 q = some base' → p ≠ q →
    base + slicesOf ops p ≤ base' ∨ base' + slicesOf ops q ≤ base
  some_iff : ∀ p, (st.1 p).isSome ↔ p ∈ ps

def fineDeps (ops : List Op) : List Dep := ops.flatMap fun op => op.deps.filter Dep.isFine

def fineStep (ops : List Op) (st : (ℕ → Option ℕ) × ℕ) (d : Dep) : (ℕ → Option ℕ) × ℕ :=
  match st.1 d.producer with
  | some _ => st
  | none => (Function.update st.1 d.producer (some st.2), st.2 + slicesOf ops d.producer)

variable {ops : List Op} {d : Dep}

theorem fineBases_eq (ops : List Op) :
    fineBases ops = (fineDeps ops).foldl (fineStep ops) (fun _ => none, ops.length) := rfl

theorem Based.step {ps : List ℕ} {st : (ℕ → Option ℕ) × ℕ} (h : Based ops ps st) (d : Dep) :
    Based ops (ps ++ [d.producer]) (fineStep ops st d) := by
  unfold fineStep
  cases hd : st.1 d.producer with
  | some base =>
    refine ⟨h.start, h.low, h.apart, fun p => ?_⟩
    rw [h.some_iff, mem_append, mem_singleton]
    refine ⟨.inl, fun hp => hp.elim id fun hp => ?_⟩
    rw [hp, ← h.some_iff, hd]
    rfl
  | none =>
    -- the new range starts behind all the others
    have hnew : ∀ p base, update st.1 d.producer (some st.2) p = some base →
        (p = d.producer ∧ base = st.2) ∨ (p ≠ d.producer ∧ st.1 p = some base) := by
      intro p base hp
      by_cases hpd : p = d.producer
      · rw [hpd, update_self] at hp
        cases hp
        exact .inl ⟨hpd, rfl⟩
      · rw [update_of_ne hpd] at hp
        exact .inr ⟨hpd, hp⟩
    refine ⟨h.start.trans (Nat.le_add_right _ _), fun p base hp => ?_,
      fun p q base base' hp hq hpq => ?_, fun p => ?_⟩
    · rcases hnew p base hp with ⟨rfl, rfl⟩ | ⟨-, hp⟩
      · exact ⟨h.start, le_rfl⟩
      · have := h.low p base hp
        exact ⟨this.1, this.2.trans (Nat.le_add_right _ _)⟩
    · rcases hnew p base hp with ⟨rfl, rfl⟩ | ⟨hpd, hp⟩
      · rcases hnew q base' hq with ⟨rfl, -⟩ | ⟨-, hq⟩
        · exact absurd rfl hpq
        · exact .inr (h.low q base' hq).2
      · rcases hnew q base' hq with ⟨rfl, rfl⟩ | ⟨-, hq⟩
        · exact .inl (h.low p base hp).2
        · exact h.apart p q base base' hp hq hpq
    · rw [mem_append, mem_singleton, ← h.some_iff]
      by_cases hpd : p = d.producer
      · simp [hpd]
      · simp [hpd]

theorem fineBases_based (ops : List Op) :
    Based ops ((fineDeps ops).map Dep.producer) (fineBases ops) := by
  rw [fineBases_eq]
  suffices hall : ∀ (l : List Dep) ps st, Based ops ps st →
      Based ops (ps ++ l.map Dep.producer) (l.foldl (fineStep ops) st) by
    refine hall _ [] _ ⟨le_rfl, fun _ _ h => (nomatch h), fun _ _ _ _ h => (nomatch h),
      fun p => ?_⟩
    simp
  intro l
  induction l with
  | nil =>
    intro ps st h
    simpa using h
  | cons d l ih =>
    intro ps st h
    have := ih _ _ (h.step d)
    rw [append_assoc] at this
    exact this

theorem mem_fineDeps : d ∈ fineDeps ops ↔ ∃ op ∈ ops, d ∈ op.deps ∧ d.isFine = true := by
  unfold fineDeps
  rw [mem_flatMap]
  constructor
  · rintro ⟨op, hop, hd⟩
    exact ⟨op, hop, mem_filter.mp hd⟩
  · rintro ⟨op, hop, hd⟩
    exact ⟨op, hop, mem_filter.mpr hd⟩

/-! ### Places -/

def Before (x y : ℕ × ℕ) : Prop := x.1 < y.1 ∨ x.1 = y.1 ∧ x.2 < y.2

namespace Ctx
variable {cx : Ctx} {i s nCu c base p ps : ℕ} {op op' : Op} {x y : ℕ × ℕ} {w : Wait} {map : List (List ℕ)}

theorem mem_slicesFrom {idx k : ℕ} {cus : List ℕ} :
    x ∈ slicesFrom idx k cus ↔ x.1 = idx ∧ k ≤ x.2 ∧ x.2 < k + cus.length := by
  unfold slicesFrom
  rw [mem_map]
  constructor
  · rintro ⟨⟨cu, j⟩, hj, rfl⟩
    have := mem_zipIdx hj
    exact ⟨rfl, this.1, by omega⟩
  · rintro ⟨rfl, hk, hlt⟩
    refine ⟨(cus.get ⟨x.2 - k, by omega⟩, x.2), ?_, rfl⟩
    rw [mem_zipIdx_iff_le_and_getElem?_sub]
    exact ⟨hk, getElem?_eq_getElem _⟩

theorem slicesFrom_pairwise (idx k : ℕ) (cus : List ℕ) :
    (slicesFrom idx k cus).Pairwise Before := by
  unfold slicesFrom
  induction cus generalizing k with
  | nil => exact .nil
  | cons cu cus ih =>
    rw [zipIdx_cons, map_cons]
    refine pairwise_cons.mpr ⟨fun x hx => ?_, ih (k + 1)⟩
    obtain ⟨⟨c, j⟩, hj, rfl⟩ := mem_map.mp hx
    have := (mem_zipIdx hj).1
    exact .inr ⟨rfl, this⟩

theorem mem_places : x ∈ cx.places ↔ ∃ op : Op, cx.ops[x.1]? = some op ∧ x.2 < op.cus.length := by
  unfold places
  rw [mem_flatMap]
  constructor
  · rintro ⟨⟨op, j⟩, hj, hx⟩
    obtain ⟨h1, -, h3⟩ := mem_slicesFrom.mp hx
    rw [zero_add] at h3
    simp only at h1
    refine ⟨op, ?_, h3⟩
    rw [h1]
    exact mem_zipIdx_iff_getElem?.mp hj
  · rintro ⟨op, hop, hlt⟩
    exact ⟨(op, x.1), mem_zipIdx_iff_getElem?.mpr hop,
      mem_slicesFrom.mpr ⟨rfl, Nat.zero_le _, (Nat.zero_add _).symm ▸ hlt⟩⟩

theorem places_pairwise (cx : Ctx) : cx.places.Pairwise Before := by
  unfold places
  suffices hall : ∀ (l : List Op) k,
      ((l.zipIdx k).flatMap fun p => slicesFrom p.2 0 p.1.cus).Pairwise Before from hall _ 0
  intro l
  induction l with
  | nil => exact fun _ => .nil
  | cons op l ih =>
    intro k
    rw [zipIdx_cons, flatMap_cons]
    refine pairwise_append.mpr ⟨slicesFrom_pairwise _ _ _, ih (k + 1), fun x hx y hy => ?_⟩
    obtain ⟨⟨op', j⟩, hj, hy⟩ := mem_flatMap.mp hy
    have h1 := (mem_slicesFrom.mp hx).1
    have h2 := (mem_slicesFrom.mp hy).1
    have := (mem_zipIdx hj).1
    refine .inl ?_
    simp only at h1 h2
    omega

theorem not_before_self (x : ℕ × ℕ) : ¬ Before x x := by
  rintro (h | ⟨-, h⟩)
  · exact lt_irrefl _ h
  · exact lt_irrefl _ h

theorem places_nodup (cx : Ctx) : cx.places.Nodup :=
  (places_pairwise cx).imp fun {a b} h (heq : a = b) => not_before_self _ (heq ▸ h)

/-- An operation has as many places as slices. -/
theorem countP_places (c : ℕ) : cx.places.countP (·.1 = c) = cx.slices c := by
  unfold places slices
  suffices hall : ∀ (l : List Op) k,
      ((l.zipIdx k).flatMap fun p => slicesFrom p.2 0 p.1.cus).countP (·.1 = c) =
        if k ≤ c then (l[c - k]?.map fun op => op.cus.length).getD 0 else 0 by
    have := hall cx.ops 0
    simpa using this
  have hone : ∀ idx (cus : List ℕ), (slicesFrom idx 0 cus).countP (·.1 = c) =
      if idx = c then cus.length else 0 := by
    intro idx cus
    split
    next h =>
      rw [countP_eq_length.mpr, slicesFrom, length_map, length_zipIdx]
      intro x hx
      simpa [h] using (mem_slicesFrom.mp hx).1
    next h =>
      rw [countP_eq_zero]
      intro x hx
      simpa [(mem_slicesFrom.mp hx).1] using h
  intro l
  induction l with
  | nil => simp
  | cons op l ih =>
    intro k
    rw [zipIdx_cons, flatMap_cons, countP_append, ih (k + 1), hone]
    rcases lt_trichotomy k c with h | h | h
    · have hck : c - k = (c - (k + 1)) + 1 := by omega
      rw [if_neg (by omega), if_pos (by omega), if_pos (by omega), hck, getElem?_cons_succ,
        zero_add]
    · subst h
      rw [if_pos rfl, if_neg (by omega), if_pos le_rfl, Nat.sub_self]
      rfl
    · rw [if_neg (by omega), if_neg (by omega), if_neg (by omega)]

/-! ### Thresholds -/

/-- what `finish` makes sure of before it flattens -/
structure Placed (cx : Ctx) (nCu : ℕ) : Prop where
  formed : Formed nCu cx.ops
  low : ∀ p base, cx.fineBase p = some base → cx.ops.length ≤ base
  apart : ∀ p q base base', cx.fineBase p = some base → cx.fineBase q = some base' → p ≠ q →
    base + cx.slices p ≤ base' ∨ base' + cx.slices q ≤ base
  based : ∀ op ∈ cx.ops, ∀ d ∈ op.deps, d.isFine = true → (cx.fineBase d.producer).isSome

/-- and what holds where the maps name slices that there are -/
structure Sound (cx : Ctx) (nCu : ℕ) : Prop extends Placed cx nCu where
  inRange : InRange cx.ops

theorem mem_entrySuccs (h : cx.Placed nCu) (hop : cx.ops[i]? = some op) : c ∈ cx.entrySuccs i op s ↔
      (c = i ∧ (cx.hasFineDep i op || cx.isFineProducer i || !cx.rawSegmented ||
        cx.sameSegmentConsumer i) = true) ∨
      (∃ base, cx.fineBase i = some base ∧ cx.isFineProducer i = true ∧ c = base + s) := by
  have hcounter := (h.formed i op hop).counter
  unfold entrySuccs
  cases hp : cx.isFineProducer i with
  | true =>
    have hsome : (cx.fineBase i).isSome := by
      unfold isFineProducer at hp
      rw [Bool.and_eq_true] at hp
      exact hp.1
    obtain ⟨base, hbase⟩ := Option.isSome_iff_exists.mp hsome
    simp [hcounter, hbase]
  | false =>
    cases hf : cx.hasFineDep i op with
    | true => simp [hcounter]
    | false =>
      cases hr : cx.rawSegmented <;> cases hs : cx.sameSegmentConsumer i <;> simp [hcounter]

theorem entrySuccs_nodup (h : cx.Placed nCu) (hop : cx.ops[i]? = some op) :
    (cx.entrySuccs i op s).Nodup := by
  have hcounter := (h.formed i op hop).counter
  have hi := (List.getElem?_eq_some_iff.mp hop).1
  unfold entrySuccs
  split
  · split
    next hp =>
      have hsome : (cx.fineBase i).isSome := by
        unfold isFineProducer at hp
        rw [Bool.and_eq_true] at hp
        exact hp.1
      obtain ⟨base, hbase⟩ := Option.isSome_iff_exists.mp hsome
      have := h.low i base hbase
      rw [hbase, hcounter]
      simp
      omega
    next => simp
  · split <;> simp

def bumpers (cx : Ctx) (c : ℕ) : ℕ :=
  (cx.places.map fun x => ((cx.ops[x.1]?.map fun op => cx.entrySuccs x.1 op x.2).getD []).count c).sum

theorem count_succs (h : cx.Placed nCu) (hop : cx.ops[i]? = some op) :
    (cx.entrySuccs i op s).count c = if c ∈ cx.entrySuccs i op s then 1 else 0 := by
  split
  next hc => exact count_eq_one_of_mem (entrySuccs_nodup h hop) hc
  next hc => exact count_eq_zero_of_not_mem hc

theorem bumpers_eq (h : cx.Placed nCu) (P : ℕ × ℕ → Bool)
    (hP : ∀ x op, x ∈ cx.places → cx.ops[x.1]? = some op →
      (c ∈ cx.entrySuccs x.1 op x.2 ↔ P x = true)) : cx.bumpers c = cx.places.countP P := by
  unfold bumpers
  have hmap : (cx.places.map fun x =>
      ((cx.ops[x.1]?.map fun op => cx.entrySuccs x.1 op x.2).getD []).count c) =
      cx.places.map fun x => if P x = true then 1 else 0 := by
    apply map_congr_left
    intro x hx
    obtain ⟨op, hop, -⟩ := mem_places.mp hx
    rw [hop]
    show (cx.entrySuccs x.1 op x.2).count c = _
    rw [count_succs h hop]
    exact if_congr (hP x op hx hop) rfl rfl
  rw [hmap]
  generalize cx.places = l
  induction l with
  | nil => rfl
  | cons x l ih =>
    rw [map_cons, sum_cons, ih, countP_cons, add_comm]

theorem mem_fineWaits : w ∈ cx.fineWaits i op s ↔
      (∃ c, .coarse c ∈ op.deps ∧ cx.sameSegmentDep i (.coarse c) = true ∧ w = ⟨c, cx.slices c⟩) ∨
      (∃ p map, .fine p map ∈ op.deps ∧ cx.sameSegmentDep i (.fine p map) = true ∧
        ∃ ps ∈ map.getD s [], w = ⟨(cx.fineBase p).getD 0 + ps, 1⟩) := by
  unfold fineWaits
  rw [mem_flatMap]
  constructor
  · rintro ⟨d, hd, hw⟩
    obtain ⟨hd, hs⟩ := mem_filter.mp hd
    cases d with
    | coarse c => exact .inl ⟨c, hd, hs, mem_singleton.mp hw⟩
    | fine p map =>
      obtain ⟨ps, hps, rfl⟩ := mem_map.mp hw
      exact .inr ⟨p, map, hd, hs, ps, hps, rfl⟩
  · rintro (⟨c, hd, hs, rfl⟩ | ⟨p, map, hd, hs, ps, hps, rfl⟩)
    · exact ⟨_, mem_filter.mpr ⟨hd, hs⟩, mem_singleton.mpr rfl⟩
    · exact ⟨_, mem_filter.mpr ⟨hd, hs⟩, mem_map.mpr ⟨ps, hps, rfl⟩⟩

theorem mem_entryWaits (h : w ∈ cx.entryWaits i op s) : w ∈ cx.fineWaits i op s := mem_of_mem_take h

theorem sameSegmentConsumer_of (hop : cx.ops[i]? = some op) (hd : d ∈ op.deps)
    (hs : cx.sameSegmentDep i d = true) : cx.sameSegmentConsumer d.producer = true := by
  unfold sameSegmentConsumer
  refine any_eq_true.mpr ⟨(op, i), mem_zipIdx_iff_getElem?.mpr hop, ?_⟩
  exact any_eq_true.mpr ⟨d, hd, by simp [hs]⟩

theorem sameSegmentFineConsumer_of (hop : cx.ops[i]? = some op)
    (hd : d ∈ op.deps) (hf : d.isFine = true) (hs : cx.sameSegmentDep i d = true) :
    cx.sameSegmentFineConsumer d.producer = true := by
  unfold sameSegmentFineConsumer
  refine any_eq_true.mpr ⟨(op, i), mem_zipIdx_iff_getElem?.mpr hop, ?_⟩
  exact any_eq_true.mpr ⟨d, hd, by simp [hf, hs]⟩

theorem coarse_bumped (h : cx.Placed nCu) (hop : cx.ops[i]? = some op)
    (hd : .coarse c ∈ op.deps) (hs : cx.sameSegmentDep i (.coarse c) = true)
    (hx : cx.ops[x.1]? = some op') : c ∈ cx.entrySuccs x.1 op' x.2 ↔ x.1 = c := by
  rw [mem_entrySuccs h hx]
  have hci := (h.formed i op hop).dep_lt _ hd
  have hi := (List.getElem?_eq_some_iff.mp hop).1
  constructor
  · rintro (⟨rfl, -⟩ | ⟨base, hbase, -, rfl⟩)
    · rfl
    · have := h.low _ base hbase
      change base + x.2 < i at hci
      omega
  · rintro rfl
    refine .inl ⟨rfl, ?_⟩
    have : cx.sameSegmentConsumer x.1 = true := sameSegmentConsumer_of hop hd hs
    rw [this]
    simp

theorem fine_counter (h : cx.Placed nCu) (hbase : cx.fineBase p = some base)
    (hprod : cx.isFineProducer p = true) (hps : ps < cx.slices p)
    (hx : cx.ops[x.1]? = some op') (hxs : x.2 < op'.cus.length) :
    base + ps ∈ cx.entrySuccs x.1 op' x.2 ↔ x = (p, ps) := by
  rw [mem_entrySuccs h hx]
  have hlow := h.low p base hbase
  constructor
  · rintro (⟨heq, -⟩ | ⟨base', hbase', -, heq⟩)
    · have := (List.getElem?_eq_some_iff.mp hx).1
      omega
    · have hxp : x.1 = p := by
        by_contra hne
        have hsl : cx.slices x.1 = op'.cus.length := slicesOf_some hx
        rcases h.apart x.1 p base' base hbase' hbase hne with hlt | hlt <;> omega
      rw [hxp, hbase] at hbase'
      cases hbase'
      ext
      · exact hxp
      · show x.2 = ps
        omega
  · rintro rfl
    exact .inr ⟨base, hbase, hprod, rfl⟩

theorem isFineProducer_of (hop : cx.ops[i]? = some op) (hd : .fine p map ∈ op.deps)
    (hs : cx.sameSegmentDep i (.fine p map) = true) (hbase : cx.fineBase p = some base) :
    cx.isFineProducer p = true := by
  have : cx.sameSegmentFineConsumer p = true := sameSegmentFineConsumer_of hop hd rfl hs
  unfold isFineProducer
  rw [hbase, this]
  simp

theorem fine_bumped (h : cx.Placed nCu) (hop : cx.ops[i]? = some op) (hd : .fine p map ∈ op.deps)
    (hs : cx.sameSegmentDep i (.fine p map) = true) (hbase : cx.fineBase p = some base)
    (hps : ps < cx.slices p) (hx : cx.ops[x.1]? = some op')
    (hxs : x.2 < op'.cus.length) : base + ps ∈ cx.entrySuccs x.1 op' x.2 ↔ x = (p, ps) :=
  fine_counter h hbase (isFineProducer_of hop hd hs hbase) hps hx hxs

theorem bumpers_fine (h : cx.Placed nCu) (hbase : cx.fineBase p = some base)
    (hprod : cx.isFineProducer p = true) (hps : ps < cx.slices p) : cx.bumpers (base + ps) = 1 := by
  rw [bumpers_eq h (fun x => decide (x = (p, ps))) fun x op' hx hxo => by
    obtain ⟨y, hy, hxs⟩ := mem_places.mp hx
    rw [hxo] at hy
    cases hy
    rw [fine_counter h hbase hprod hps hxo hxs, decide_eq_true_eq]]
  have hmem : (p, ps) ∈ cx.places := by
    have hne : cx.ops[p]? ≠ none := by
      intro hnone
      unfold slices at hps
      rw [hnone] at hps
      exact Nat.not_lt_zero _ hps
    obtain ⟨op', hop'⟩ := Option.ne_none_iff_exists'.mp hne
    refine mem_places.mpr ⟨op', hop', ?_⟩
    rwa [← slicesOf_some hop']
  have := count_eq_one_of_mem cx.places_nodup hmem
  rw [← this, List.count]
  apply countP_congr
  intro x _
  simp

theorem bumpers_coarse (h : cx.Placed nCu) (hop : cx.ops[i]? = some op)
    (hd : .coarse c ∈ op.deps) (hs : cx.sameSegmentDep i (.coarse c) = true) :
    cx.bumpers c = cx.slices c := by
  rw [bumpers_eq h (fun x => decide (x.1 = c)) fun x op' _ hx => by
    rw [coarse_bumped h hop hd hs hx, decide_eq_true_eq]]
  exact countP_places c

theorem threshold_eq (h : cx.Sound nCu) (hop : cx.ops[i]? = some op)
    (hs : s < op.cus.length) (hw : w ∈ cx.entryWaits i op s) : w.threshold = cx.bumpers w.id := by
  rcases mem_fineWaits.mp (mem_entryWaits hw) with ⟨c, hd, hsame, rfl⟩ | ⟨p, map, hd, hsame, ps, hps, rfl⟩
  · exact (bumpers_coarse h.toPlaced hop hd hsame).symm
  · obtain ⟨base, hbase⟩ := Option.isSome_iff_exists.mp
      (h.based op (mem_of_getElem? hop) _ hd rfl)
    change cx.fineBase p = some base at hbase
    have hmap : map.getD s [] ∈ map := by
      have hlen : map.length = op.cus.length := (h.formed i op hop).fits _ hd
      rw [getD_eq_getElem?_getD, getElem?_eq_getElem (hlen ▸ hs)]
      exact getElem_mem _
    have hlt : ps < cx.slices p := h.inRange op (mem_of_getElem? hop) p map hd _ hmap ps hps
    rw [hbase]
    exact (bumpers_fine h.toPlaced hbase (isFineProducer_of hop hd hsame hbase) hlt).symm

theorem threshold_of_bumped (h : cx.Placed nCu) (hop : cx.ops[i]? = some op)
    (hw : w ∈ cx.entryWaits i op s) (hy : cx.ops[y.1]? = some op') (hys : y.2 < op'.cus.length)
    (hb : w.id ∈ cx.entrySuccs y.1 op' y.2) : w.threshold = cx.bumpers w.id := by
  rcases mem_fineWaits.mp (mem_entryWaits hw) with ⟨c, hd, hsame, rfl⟩ | ⟨p, map, hd, hsame, ps, hps, rfl⟩
  · exact (bumpers_coarse h hop hd hsame).symm
  · obtain ⟨base, hbase⟩ := Option.isSome_iff_exists.mp
      (h.based op (mem_of_getElem? hop) _ hd rfl)
    change cx.fineBase p = some base at hbase
    rw [hbase] at hb ⊢
    change base + ps ∈ _ at hb
    show 1 = cx.bumpers (base + ps)
    rcases (mem_entrySuccs h hy).mp hb with ⟨heq, -⟩ | ⟨base', hbase', hprod, heq⟩
    · have := h.low p base hbase
      have := (List.getElem?_eq_some_iff.mp hy).1
      omega
    · have hsl : cx.slices y.1 = op'.cus.length := slicesOf_some hy
      rw [heq]
      exact (bumpers_fine h hbase' hprod (hsl ▸ hys)).symm

end Ctx

end Plow.Devbuild
