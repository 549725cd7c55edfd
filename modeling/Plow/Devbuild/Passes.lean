import Plow.Devbuild.Shape

/-!
# What the passes keep

The passes of `finish` keep the operations formed; granularity, reduction and slicing drop or
coarsen dependencies and never widen an operation that others depend on slice by slice.
-/

namespace Plow.Devbuild

open List Function

variable {nCu i : ℕ} {ops ops' : List Op} {op : Op} {keep : Finset (ℕ × ℕ)} {st : List ℕ × List Dep}
  {fineForce : Bool} {d x : Dep}

def slicesOf (ops : List Op) (p : ℕ) : ℕ := (ops[p]?.map fun op => op.cus.length).getD 0

def InRange (ops : List Op) : Prop :=
  ∀ op ∈ ops, ∀ p map, .fine p map ∈ op.deps → ∀ l ∈ map, ∀ s ∈ l, s < slicesOf ops p

theorem slicesOf_some (h : ops[i]? = some op) : slicesOf ops i = op.cus.length := by
  unfold slicesOf
  rw [h]
  rfl

@[simp] theorem producer_remap (map : ℕ → ℕ) (d : Dep) :
    (d.remap map).producer = map d.producer := by
  cases d <;> rfl

theorem fits_remap {map : ℕ → ℕ} {n : ℕ} (h : d.Fits n) : (d.remap map).Fits n := by
  cases d <;> exact h

/-! ### Fusion -/

section
variable {D : Type} {pair : ℕ → Option D} {into : Op → Op → D → Op}

theorem fuseLoop_formed (hops : Formed nCu ops)
    (hpair : ∀ k p c d, ops[k]? = some p → ops[k + 1]? = some c → pair k = some d →
      (into p c d).cus = p.cus ∨ (into p c d).cus = c.cus ∧ ∀ x ∈ p.deps, x.isFine = false)
    (idx : ℕ) (map : ℕ → ℕ) (out l : List Op) (hl : ops.drop idx = l) (hout : Formed nCu out)
    (hmap : ∀ j < idx, map j < out.length) : Formed nCu (fuseLoop pair into idx map out l) := by
  have hat : ∀ {idx : ℕ} {x : Op} {r : List Op}, ops.drop idx = x :: r → ops[idx]? = some x := by
    intro idx x r h
    have := congrArg (·[0]?) h
    simpa using this
  have hkeep : ∀ {idx : ℕ} {map : ℕ → ℕ} {out : List Op} {x y : Op}, ops[idx]? = some x →
      (∀ j < idx, map j < out.length) → y.cus ≠ [] → (∀ cu ∈ y.cus, cu < nCu) →
      (∀ d ∈ x.deps, d.Fits y.cus.length) →
      ({ y with deps := x.deps.map (Dep.remap map), counter := out.length } : Op).Formed nCu
        out.length := by
    intro idx map out x y hx hmap hne hlt hfits
    refine ⟨rfl, hne, hlt, ?_, ?_⟩
    · intro d hd
      obtain ⟨e, he, rfl⟩ := mem_map.mp hd
      rw [producer_remap]
      exact hmap _ ((hops idx x hx).dep_lt e he)
    · intro d hd
      obtain ⟨e, he, rfl⟩ := mem_map.mp hd
      exact fits_remap (hfits e he)
  have hset : ∀ {idx : ℕ} {map : ℕ → ℕ} {n : ℕ}, (∀ j < idx, map j < n) →
      ∀ j < idx + 1, update map idx n j < n + 1 := by
    intro idx map n hmap j hj
    by_cases h : j = idx
    · rw [h, update_self]
      exact Nat.lt_succ_self n
    · rw [update_of_ne h]
      exact Nat.lt_succ_of_lt (hmap j (by omega))
  induction idx, map, out, l using fuseLoop.induct pair into with
  | case1 idx map out =>
    rw [fuseLoop]
    exact hout
  | case2 idx map out x =>
    rw [fuseLoop]
    have hx := hat hl
    have hf := hops idx x hx
    exact hout.push (hkeep hx hmap hf.inhabited hf.cus_lt hf.fits)
  | case3 idx map out x c rest d hd ih =>
    rw [fuseLoop, hd]
    have hx := hat hl
    have hc : ops[idx + 1]? = some c := by
      have h1 : ops.drop (idx + 1) = c :: rest := by
        rw [← drop_drop, hl]
        rfl
      exact hat h1
    have hfx := hops idx x hx
    have hfc := hops _ c hc
    refine ih ?_ (hout.push ?_) ?_
    · rw [← drop_drop, hl]
      rfl
    · rcases hpair idx x c d hx hc hd with h | ⟨h, hcoarse⟩
      · exact hkeep hx hmap (h ▸ hfx.inhabited) (h ▸ hfx.cus_lt) (h ▸ hfx.fits)
      · refine hkeep hx hmap (h ▸ hfc.inhabited) (h ▸ hfc.cus_lt) ?_
        intro y hy
        have := hcoarse y hy
        cases y with
        | coarse c => trivial
        | fine p m => cases this
    · rw [length_append]
      intro j hj
      by_cases h : j = idx + 1
      · rw [h, update_self]
        exact Nat.lt_succ_self _
      · rw [update_of_ne h]
        exact hset hmap j (by omega)
  | case4 idx map out x c rest hd ih =>
    rw [fuseLoop, hd]
    have hx := hat hl
    have hf := hops idx x hx
    refine ih ?_ (hout.push (hkeep hx hmap hf.inhabited hf.cus_lt hf.fits)) ?_
    · rw [← drop_drop, hl]
      rfl
    · rw [length_append]
      exact hset hmap

end

theorem residualPair_coarse {p : ℕ} (h : residualPair ops p = some ()) {x : Op}
    (hx : ops[p]? = some x) : ∀ d ∈ x.deps, d.isFine = false := by
  unfold residualPair at h
  simp only [Option.bind_eq_bind, Option.bind_eq_some_iff, Option.guard_eq_some'] at h
  obtain ⟨y, hy, c, -, ⟨⟩, -, ⟨⟩, -, ⟨⟩, -, ⟨⟩, hall, -⟩ := h
  rw [hx] at hy
  cases hy
  intro d hd
  simpa using List.all_eq_true.mp hall d hd

namespace Builder
variable {b : Builder} {k : Launch}

theorem fuseMaterialized_formed (h : Formed nCu ops)
    (he : fuseMaterializedResidualInputs ops = some ops') : Formed nCu ops' := by
  unfold fuseMaterializedResidualInputs at he
  split at he
  · cases he
    refine fuseLoop_formed h ?_ 0 _ [] ops rfl Formed.nil (fun j hj => absurd hj (Nat.not_lt_zero j))
    intro k p c d hp hc hd
    exact .inr ⟨rfl, residualPair_coarse hd hp⟩
  · cases he

theorem fuseXreduce_formed (h : Formed nCu ops)
    (he : fuseXreduceAttnres ops = some ops') : Formed nCu ops' := by
  unfold fuseXreduceAttnres at he
  split at he
  · cases he
    refine fuseLoop_formed h ?_ 0 _ [] ops rfl Formed.nil (fun j hj => absurd hj (Nat.not_lt_zero j))
    intro k p c d hp hc hd
    exact .inl rfl
  · cases he

theorem fused_formed (h : Formed b.nCu b.ops) (he : b.fused k = some ops) : Formed b.nCu ops := by
  obtain ⟨mid, hmid, he⟩ := Option.bind_eq_some_iff.mp he
  have hm : Formed b.nCu mid := by
    split at hmid
    · exact fuseMaterialized_formed h hmid
    · cases hmid
      exact h
  split at he
  · exact fuseXreduce_formed hm he
  · cases he
    exact hm

end Builder

/-! ### Granularity -/

theorem granularStep_foldl {het : List Bool} (l : List Op) (k : ℕ) (uf : List ℕ)
    (acc : List Op) :
    ∃ keep : ℕ → Bool, ((l.zipIdx k).foldl (granularStep ops fineForce het) (uf, acc)).2 =
      acc ++ (l.zipIdx k).map fun p =>
        { p.1 with deps := p.1.deps.map (granular ops fineForce (keep p.2)) } := by
  induction l generalizing k uf acc with
  | nil => exact ⟨fun _ => false, by simp⟩
  | cons x l ih =>
    rw [zipIdx_cons, foldl_cons]
    obtain ⟨keep, h⟩ := ih (k + 1) (find ops.length uf k).1 (acc ++ [{ x with
      deps := x.deps.map (granular ops fineForce (het.getD (find ops.length uf k).2 false)) }])
    refine ⟨update keep k (het.getD (find ops.length uf k).2 false), ?_⟩
    refine h.trans ?_
    rw [append_assoc, singleton_append, map_cons, update_self]
    congr 2
    apply map_congr_left
    rintro ⟨y, j⟩ hy
    have hj := (mem_zipIdx hy).1
    show _ = { y with deps := _ }
    rw [update_of_ne (by omega)]

theorem selectGranularity_eq (fineForce : Bool) (ops : List Op) :
    ∃ keep : ℕ → Bool, selectGranularity fineForce ops = ops.zipIdx.map fun p =>
      { p.1 with deps := p.1.deps.map (granular ops fineForce (keep p.2)) } :=
  granularStep_foldl ops 0 _ []

theorem granular_cases (ops : List Op) (fineForce keep : Bool) (d : Dep) :
    granular ops fineForce keep d = d ∨ granular ops fineForce keep d = .coarse d.producer := by
  cases d with
  | coarse c => exact .inl rfl
  | fine p map =>
    unfold granular
    simp only
    split
    · exact .inl rfl
    · exact .inr rfl

/-! ### Reduction -/

theorem retainStep_coarse (keep : Finset (ℕ × ℕ)) (i c : ℕ) (st : List ℕ × List Dep) :
    retainStep keep i st (.coarse c) = if (c, i) ∉ keep ∨ c ∈ st.1 then st
      else (st.1 ++ [c], st.2 ++ [.coarse c]) := rfl

theorem mem_retainStep (hseen : ∀ c ∈ st.1, .coarse c ∈ st.2) : d ∈ (retainStep keep i st x).2 ↔
      d ∈ st.2 ∨ d = x ∧ ∀ c, d = .coarse c → (c, i) ∈ keep := by
  cases x with
  | coarse c =>
    rw [retainStep_coarse]
    split
    next hskip =>
      constructor
      · exact .inl
      · rintro (h | ⟨rfl, hc⟩)
        · exact h
        · rcases hskip with hskip | hskip
          · exact absurd (hc c rfl) hskip
          · exact hseen c hskip
    next hkeep =>
      rw [not_or, not_not] at hkeep
      rw [mem_append, mem_singleton]
      refine or_congr Iff.rfl ⟨fun h => ⟨h, fun c' h' => ?_⟩, And.left⟩
      rw [h] at h'
      cases h'
      exact hkeep.1
  | fine p map =>
    unfold retainStep
    rw [mem_append, mem_singleton]
    refine or_congr Iff.rfl ⟨fun h => ⟨h, fun c h' => ?_⟩, And.left⟩
    rw [h] at h'
    cases h'

theorem seen_retainStep (hseen : ∀ c ∈ st.1, .coarse c ∈ st.2) :
    ∀ c ∈ (retainStep keep i st x).1, .coarse c ∈ (retainStep keep i st x).2 := by
  intro c hc
  cases x with
  | coarse c' =>
    rw [retainStep_coarse] at hc ⊢
    split at hc
    next hskip =>
      rw [if_pos hskip]
      exact hseen c hc
    next hkeep =>
      rw [if_neg hkeep]
      rcases mem_append.mp hc with hc | hc
      · exact mem_append_left _ (hseen c hc)
      · rw [mem_singleton.mp hc]
        exact mem_append_right _ (mem_singleton.mpr rfl)
  | fine p map => exact mem_append_left _ (hseen c hc)

theorem mem_retain {deps : List Dep} :
    d ∈ retain keep i deps ↔ d ∈ deps ∧ ∀ c, d = .coarse c → (c, i) ∈ keep := by
  suffices hall : ∀ (l : List Dep) (st : List ℕ × List Dep), (∀ c ∈ st.1, .coarse c ∈ st.2) →
      (d ∈ (l.foldl (retainStep keep i) st).2 ↔
        d ∈ st.2 ∨ d ∈ l ∧ ∀ c, d = .coarse c → (c, i) ∈ keep) by
    have := hall deps ([], []) (nofun)
    simpa [retain] using this
  intro l
  induction l with
  | nil => simp
  | cons x l ih =>
    intro st hseen
    rw [foldl_cons, ih _ (seen_retainStep hseen), mem_retainStep hseen, mem_cons]
    tauto

theorem reduceDeps_formed (h : Formed nCu ops) : Formed nCu (reduceDeps ops) := by
  refine h.mapIdx fun x i hx => ⟨hx.counter, hx.inhabited, hx.cus_lt, fun d hd => ?_, fun d hd => ?_⟩
  · exact hx.dep_lt d (mem_retain.mp hd).1
  · exact hx.fits d (mem_retain.mp hd).1

theorem granularity_formed (h : Formed nCu ops) : Formed nCu (selectGranularity fineForce ops) := by
  obtain ⟨keep, heq⟩ := selectGranularity_eq fineForce ops
  rw [heq]
  refine h.mapIdx fun x i hx => ⟨hx.counter, hx.inhabited, hx.cus_lt, fun d hd => ?_, fun d hd => ?_⟩
  · obtain ⟨e, he, rfl⟩ := mem_map.mp hd
    rcases granular_cases ops fineForce (keep i) e with h | h
    · rw [h]
      exact hx.dep_lt e he
    · rw [h]
      exact hx.dep_lt e he
  · obtain ⟨e, he, rfl⟩ := mem_map.mp hd
    rcases granular_cases ops fineForce (keep i) e with h | h
    · rw [h]
      exact hx.fits e he
    · rw [h]
      trivial

theorem reduced_formed {k : Launch} (h : Formed nCu ops) : Formed nCu (Builder.reduced k ops) :=
  reduceDeps_formed (granularity_formed (h.mapIdx fun _ _ hx => hx.congr ⟨rfl, rfl, rfl⟩))

/-! ### Slicing -/

/-- The operations `ops'` are `ops` with more slices for some that no fine dependency touches. -/
structure Widened (ops ops' : List Op) : Prop where
  length : ops'.length = ops.length
  get : ∀ i, ∀ op : Op, ops[i]? = some op → ∃ x, ops'[i]? = some x ∧ x.deps = op.deps ∧
    x.counter = op.counter ∧ (x.cus = op.cus ∨
      (op.cus ≠ [] → x.cus ≠ []) ∧ op.cus.length ≤ x.cus.length ∧ (∀ cu ∈ x.cus, cu ∈ op.cus) ∧
      (∀ d ∈ op.deps, d.isFine = false) ∧ fineProd ops i = false)

theorem Widened.refl (ops : List Op) : Widened ops ops :=
  ⟨rfl, fun _ op h => ⟨op, h, rfl, rfl, .inl rfl⟩⟩

theorem fineProd_iff : fineProd ops i = true ↔ ∃ op ∈ ops, ∃ d ∈ op.deps, d.isFine ∧ d.producer = i := by
  simp [fineProd]

theorem Widened.fineProd (h : Widened ops ops') (i : ℕ) : fineProd ops' i = fineProd ops i := by
  have hdeps : ∀ j : ℕ, (ops'[j]?.map Op.deps) = ops[j]?.map Op.deps := by
    intro j
    cases hj : ops[j]? with
    | none =>
      have := getElem?_eq_none_iff.mp hj
      rw [getElem?_eq_none (h.length ▸ this)]
    | some op =>
      obtain ⟨x, hx, hd, -⟩ := h.get j op hj
      rw [hx]
      exact congrArg some hd
  rw [Bool.eq_iff_iff, fineProd_iff, fineProd_iff]
  constructor
  · rintro ⟨x, hx, d, hd, hf⟩
    obtain ⟨j, hj⟩ := mem_iff_getElem?.mp hx
    have := hdeps j
    rw [hj] at this
    obtain ⟨op, hop, heq⟩ := Option.map_eq_some_iff.mp this.symm
    exact ⟨op, mem_of_getElem? hop, d, heq ▸ hd, hf⟩
  · rintro ⟨x, hx, d, hd, hf⟩
    obtain ⟨j, hj⟩ := mem_iff_getElem?.mp hx
    have := hdeps j
    rw [hj] at this
    obtain ⟨op, hop, heq⟩ := Option.map_eq_some_iff.mp this
    exact ⟨op, mem_of_getElem? hop, d, heq ▸ hd, hf⟩

theorem Widened.trans {ops₁ ops₂ ops₃ : List Op} (h : Widened ops₁ ops₂) (h' : Widened ops₂ ops₃) :
    Widened ops₁ ops₃ := by
  refine ⟨h'.length.trans h.length, fun i op hop => ?_⟩
  obtain ⟨x, hx, hxd, hxc, hxcus⟩ := h.get i op hop
  obtain ⟨y, hy, hyd, hyc, hycus⟩ := h'.get i x hx
  refine ⟨y, hy, hyd.trans hxd, hyc.trans hxc, ?_⟩
  rw [hxd, h.fineProd] at hycus
  rcases hycus with hycus | ⟨hne, hlen, hmem, hd, hf⟩
  · rw [hycus]
    exact hxcus
  · rcases hxcus with hxcus | ⟨hne', hlen', hmem', -, -⟩
    · rw [hxcus] at hne hlen hmem
      exact .inr ⟨hne, hlen, hmem, hd, hf⟩
    · exact .inr ⟨hne ∘ hne', hlen'.trans hlen, fun cu hcu => hmem' cu (hmem cu hcu), hd, hf⟩

theorem reslice_widened {m times : ℕ} (hpos : 0 < times) (which : ℕ → Op → Bool) (ops : List Op) :
    Widened ops (reslice m times which ops) := by
  unfold reslice
  refine ⟨by simp, fun i op hop => ?_⟩
  rw [getElem?_map, getElem?_zipIdx, hop]
  refine ⟨_, rfl, ?_⟩
  simp only [Nat.zero_add]
  split
  next hc =>
    simp only [Bool.and_eq_true, Bool.not_eq_true', any_eq_false] at hc
    have hcus : (op.widen times).cus = (replicate times op.cus).flatten := rfl
    have hlen : (op.widen times).cus.length = times * op.cus.length := by
      rw [hcus]
      simp
    have hle : op.cus.length ≤ (op.widen times).cus.length := by
      rw [hlen]
      exact Nat.le_mul_of_pos_left _ hpos
    refine ⟨rfl, rfl, .inr ⟨fun hne hnil => ?_, hle, fun cu hcu => ?_, fun d hd => ?_, hc.2.2⟩⟩
    · rw [hnil] at hle
      exact hne (length_eq_zero_iff.mp (Nat.le_zero.mp hle))
    · rw [hcus] at hcu
      obtain ⟨l, hl, hcu⟩ := mem_flatten.mp hcu
      rw [(mem_replicate.mp hl).2] at hcu
      exact hcu
    · simpa using hc.2.1.2 d hd
  next => exact ⟨rfl, rfl, .inl rfl⟩

theorem resliced_widened (b : Builder) (k : Launch) (ops : List Op) :
    Widened ops (b.resliced k ops) := by
  have hgemv : ∀ l, Widened l (resliceGemv b.nCu b.opts.gemvSplit l) := by
    intro l
    unfold resliceGemv
    split
    next h => exact reslice_widened (by omega) _ _
    next => exact Widened.refl _
  unfold Builder.resliced
  simp only
  split
  · exact (reslice_widened (by decide) _ _).trans (hgemv _)
  · exact hgemv _

theorem Widened.formed (h : Widened ops ops') (hf : Formed nCu ops) : Formed nCu ops' := by
  intro i x hx
  have hi := (List.getElem?_eq_some_iff.mp hx).1
  rw [h.length] at hi
  obtain ⟨y, hy, hyd, hyc, hycus⟩ := h.get i _ (getElem?_eq_getElem hi)
  rw [hx] at hy
  cases hy
  have hop := hf i _ (getElem?_eq_getElem hi)
  rcases hycus with hycus | ⟨hne, -, hmem, hd, -⟩
  · exact hop.congr ⟨hycus, hyd, hyc⟩
  · refine ⟨hyc.trans hop.counter, hne hop.inhabited, fun cu hcu => hop.cus_lt cu (hmem cu hcu),
      hyd ▸ hop.dep_lt, fun d hdm => ?_⟩
    rw [hyd] at hdm
    have := hd d hdm
    cases d with
    | coarse c => trivial
    | fine p m => cases this

theorem Widened.slicesOf (h : Widened ops ops') (hp : Devbuild.fineProd ops i = true) :
    slicesOf ops' i = slicesOf ops i := by
  unfold Devbuild.slicesOf
  cases hi : ops[i]? with
  | none =>
    have := getElem?_eq_none_iff.mp hi
    rw [getElem?_eq_none (h.length ▸ this)]
  | some op =>
    obtain ⟨x, hx, -, -, hcus⟩ := h.get i op hi
    rw [hx]
    rcases hcus with hcus | ⟨-, -, -, -, hno⟩
    · simp [hcus]
    · rw [hp] at hno
      cases hno

end Plow.Devbuild
