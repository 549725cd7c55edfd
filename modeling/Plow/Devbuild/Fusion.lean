import Plow.Devbuild.Run
import Plow.Devbuild.Passes

/-!
# What whole-graph fusion keeps

`Preserved` is what the two passes are to leave as it was.  Neither pass looks at the join epoch or
at the isolation of the two operations it fuses, and the first gives the fine dependencies on a
`Residual` to the `AttnRes` behind it as they are, though that has other slices.  `Fusable` says
that this does no harm; `fusion_preserves` is that the fusion preserves the program exactly then.
-/

namespace Plow.Devbuild

open List Option

variable {ops out : List Op} {op : Op} {i j h : ℕ}

/-! ### Both passes -/

/-- what a pass leaves -/
structure Passed {D : Type} (pair : ℕ → Option D) (into : Op → Op → D → Op) (ops out : List Op) :
    Prop where
  length : out.length = target pair ops.length
  first : ∀ i, ∀ op : Op, ops[i]? = some op → second pair i = false →
    out[target pair i]? = some (renumbered pair into ops i op)

def firstFused (ops : List Op) : List Op :=
  fuseLoop (residualPair ops) intoAttnRes 0 (fun _ => u32Max) [] ops

def wholeFused (ops : List Op) : List Op :=
  fuseLoop (xreducePair (firstFused ops)) intoXreduce 0 (fun _ => u32Max) [] (firstFused ops)

def pairs₁ (ops : List Op) : ℕ → Option Unit := residualPair ops

def pairs₂ (ops : List Op) : ℕ → Option ℕ := xreducePair (firstFused ops)

def fusedAt₁ (ops : List Op) (i : ℕ) : ℕ := target (pairs₁ ops) i

def fusedAt (ops : List Op) (i : ℕ) : ℕ := target (pairs₂ ops) (fusedAt₁ ops i)

def Head (ops : List Op) (h : ℕ) : Prop :=
  second (pairs₁ ops) h = false ∧ second (pairs₂ ops) (fusedAt₁ ops h) = false

def merged (ops : List Op) (h : ℕ) (op : Op) : Op :=
  fusedOp (pairs₂ ops) intoXreduce (firstFused ops) (fusedAt₁ ops h)
    (fusedOp (pairs₁ ops) intoAttnRes ops h op)

def keeper (ops : List Op) (i : ℕ) : ℕ :=
  if second (pairs₂ ops) (fusedAt₁ ops i) then
    (if second (pairs₁ ops) i then i - 1 else i) - 1
  else if second (pairs₁ ops) (i + 1) then i + 1
  else i

section
variable {D : Type} {pair : ℕ → Option D} {into : Op → Op → D → Op}

theorem fuseLoop_passed (hpair : ∀ i, (pair i).isSome → i + 1 < ops.length) (ht : Topological ops) :
    Passed pair into ops (fuseLoop pair into 0 (fun _ => u32Max) [] ops) := by
  obtain ⟨hlen, -, hnew⟩ := fuseLoop_spec hpair ht 0 (fun _ => u32Max) [] ops rfl (Nat.zero_le _)
    rfl (fun j hj => absurd hj (Nat.not_lt_zero j)) rfl
  exact ⟨hlen, fun i op hop hs => hnew i op (Nat.zero_le i) hop hs⟩

theorem Passed.topological (h : Passed pair into ops out) (ht : Topological ops) :
    Topological out := by
  intro j y hy d hd
  have hj : j < target pair ops.length := h.length ▸ (List.getElem?_eq_some_iff.mp hy).1
  obtain ⟨i, hi, hs, rfl⟩ := exists_first hj
  have hat := h.first i _ (getElem?_eq_getElem hi) hs
  rw [hy] at hat
  cases hat
  obtain ⟨e, he, rfl⟩ := mem_map.mp hd
  rw [producer_remap]
  exact target_lt (ht i _ (getElem?_eq_getElem hi) e he) hs

end

theorem fused₁ (ht : Topological ops) : Passed (pairs₁ ops) intoAttnRes ops (firstFused ops) :=
  fuseLoop_passed (fun _ h => residualPair_lt h) ht

theorem fused₂ (ht : Topological ops) :
    Passed (pairs₂ ops) intoXreduce (firstFused ops) (wholeFused ops) :=
  fuseLoop_passed (fun _ h => xreducePair_lt h) ((fused₁ ht).topological ht)

theorem fuse_eq_some (ht : Topological ops) :
    (fuseMaterializedResidualInputs ops).bind fuseXreduceAttnres = some (wholeFused ops) := by
  unfold fuseMaterializedResidualInputs
  rw [if_pos ht, bind_some]
  exact if_pos ((fused₁ ht).topological ht)

theorem fusedAt_mono (h : i ≤ j) : fusedAt ops i ≤ fusedAt ops j := target_mono (target_mono h)

theorem remap_remap (f g : ℕ → ℕ) (d : Dep) : (d.remap f).remap g = d.remap (g ∘ f) := by
  cases d <;> rfl

theorem fusedOp_with {pair : ℕ → Option ℕ} (y : Op) (deps : List Dep) (n : ℕ) :
    fusedOp pair intoXreduce ops i { y with deps := deps, counter := n } =
      { fusedOp pair intoXreduce ops i y with deps := deps, counter := n } := by
  unfold fusedOp
  cases pair i with
  | none => rfl
  | some r =>
    cases ops[i + 1]? with
    | none => rfl
    | some c => rfl

theorem fused_head (ht : Topological ops) (hh : Head ops h) (hop : ops[h]? = some op) :
    (wholeFused ops)[fusedAt ops h]? = some { merged ops h op with
      deps := op.deps.map (Dep.remap (fusedAt ops)), counter := fusedAt ops h } := by
  have h1 := (fused₁ ht).first h op hop hh.1
  have h2 := (fused₂ ht).first _ _ h1 hh.2
  refine h2.trans (congrArg some ?_)
  have hdeps : (op.deps.map (Dep.remap (fusedAt₁ ops))).map (Dep.remap (target (pairs₂ ops))) =
      op.deps.map (Dep.remap (fusedAt ops)) := by
    rw [List.map_map]
    apply map_congr_left
    intro d _
    exact remap_remap _ _ d
  show ({ fusedOp (pairs₂ ops) intoXreduce (firstFused ops) (fusedAt₁ ops h)
      { fusedOp (pairs₁ ops) intoAttnRes ops h op with
        deps := op.deps.map (Dep.remap (fusedAt₁ ops)), counter := fusedAt₁ ops h } with
      deps := (op.deps.map (Dep.remap (fusedAt₁ ops))).map (Dep.remap (target (pairs₂ ops))),
      counter := fusedAt ops h } : Op) = _
  rw [fusedOp_with, hdeps]
  rfl

section

variable (hs : second (pairs₁ ops) (i + 1) = true)
include hs

theorem fusedAt_second₁ :
    fusedAt₁ ops (i + 1) = fusedAt₁ ops i := target_second hs

theorem fusedAt_second :
    fusedAt ops (i + 1) = fusedAt ops i := congrArg (target _) (fusedAt_second₁ hs)

theorem residual_of_second :
    ∃ x c, ops[i]? = some x ∧ ops[i + 1]? = some c ∧ ResidualPair i x c := by
  obtain ⟨d, hd⟩ := isSome_iff_exists.mp (pair_of_second hs)
  exact residualPair_spec hd

end

theorem fusedOp_none {D : Type} {pair : ℕ → Option D} {into : Op → Op → D → Op}
    (h : pair i = none) : fusedOp pair into ops i op = op := by
  unfold fusedOp
  rw [h]

theorem fusedOp_some {D : Type} {pair : ℕ → Option D} {into : Op → Op → D → Op} {d : D} {c : Op}
    (h : pair i = some d) (hc : ops[i + 1]? = some c) :
    fusedOp pair into ops i op = into op c d := by
  unfold fusedOp
  rw [h, hc]

section

variable (ht : Topological ops)
include ht

/-- A pair of the second pass, among the operations of the program: an `XReduceTwoShot` that the
first pass leaves, and the operation behind it or what the first pass makes of that. -/
theorem xreduce_of_pair (hh : second (pairs₁ ops) h = false)
    (hop : ops[h]? = some op) {r : ℕ} (hr : pairs₂ ops (fusedAt₁ ops h) = some r) :
    pairs₁ ops h = none ∧ second (pairs₁ ops) (h + 1) = false ∧
      fusedAt₁ ops (h + 1) = fusedAt₁ ops h + 1 ∧ ∃ c, ops[h + 1]? = some c ∧
        (firstFused ops)[fusedAt₁ ops h + 1]? =
          some (renumbered (pairs₁ ops) intoAttnRes ops (h + 1) c) ∧
        XreducePair (fusedAt₁ ops h) (renumbered (pairs₁ ops) intoAttnRes ops h op)
          (renumbered (pairs₁ ops) intoAttnRes ops (h + 1) c) r ∧
        successors (firstFused ops) (fusedAt₁ ops h) = [fusedAt₁ ops h + 1] := by
  obtain ⟨x, c, hx, hc, hp, hsucc⟩ := xreducePair_spec hr
  have hat := (fused₁ ht).first h op hop hh
  change (firstFused ops)[fusedAt₁ ops h]? = _ at hat
  rw [hx] at hat
  cases hat
  have hnone : pairs₁ ops h = none := by
    -- else it is an `AttnRes`
    by_contra hne
    obtain ⟨d, hd⟩ := ne_none_iff_exists'.mp hne
    obtain ⟨x, c, hx, hc, hpair⟩ := residualPair_spec hd
    rw [hop] at hx
    cases hx
    have hopc : (renumbered (pairs₁ ops) intoAttnRes ops h op).inst.op = opAttnRes := by
      unfold renumbered
      rw [fusedOp_some hd hc]
      exact hpair.consumer
    have hprod := hp.producer
    rw [hopc] at hprod
    exact absurd hprod (by decide)
  have hs : second (pairs₁ ops) (h + 1) = false := by
    rw [second_succ, hnone]
    exact Bool.and_false _
  have hat1 : fusedAt₁ ops (h + 1) = fusedAt₁ ops h + 1 := target_first hs
  have hlt : h + 1 < ops.length := by
    have hlt := (List.getElem?_eq_some_iff.mp hc).1
    rw [(fused₁ ht).length, ← hat1] at hlt
    by_contra hge
    exact lt_irrefl _ (hlt.trans_le (target_mono (Nat.not_lt.mp hge)))
  have hc' := (fused₁ ht).first (h + 1) _ (getElem?_eq_getElem hlt) hs
  change (firstFused ops)[fusedAt₁ ops (h + 1)]? = _ at hc'
  rw [hat1, hc] at hc'
  cases hc'
  exact ⟨hnone, hs, hat1, _, getElem?_eq_getElem hlt, hc, hp, hsucc⟩

theorem head_before (hi : i < ops.length)
    (hh : second (pairs₁ ops) i = false) (hs : second (pairs₂ ops) (fusedAt₁ ops i) = true) :
    ∃ k, i = k + 1 ∧ Head ops k ∧ fusedAt₁ ops i = fusedAt₁ ops k + 1 ∧
      (pairs₂ ops (fusedAt₁ ops k)).isSome ∧ fusedAt ops i = fusedAt ops k := by
  cases i with
  | zero => cases hs
  | succ k =>
    have hat : fusedAt₁ ops (k + 1) = fusedAt₁ ops k + 1 := target_first hh
    rw [hat] at hs
    obtain ⟨r, hr⟩ := isSome_iff_exists.mp (pair_of_second hs)
    have hk : second (pairs₁ ops) k = false := by
      by_contra hk
      have hk : second (pairs₁ ops) k = true := by simpa using hk
      cases k with
      | zero => cases hk
      | succ m =>
        -- the second of a residual pair stands under an `AttnRes`
        obtain ⟨x, c, hx, hc, hp⟩ := residual_of_second hk
        rw [fusedAt_second₁ hk] at hr
        have := (xreduce_of_pair ht (not_second hk) hx hr).1
        have hsome := pair_of_second hk
        rw [this] at hsome
        cases hsome
    refine ⟨k, rfl, ⟨hk, not_second hs⟩, hat, by rw [hr]; rfl, ?_⟩
    show target _ (fusedAt₁ ops (k + 1)) = _
    rw [hat]
    exact target_second hs

theorem exists_head (hi : i < ops.length) :
    ∃ k ≤ i, Head ops k ∧ fusedAt ops k = fusedAt ops i := by
  have hfirst : ∀ i < ops.length, second (pairs₁ ops) i = false →
      ∃ k ≤ i, Head ops k ∧ fusedAt ops k = fusedAt ops i := by
    intro i hi hs
    cases h2 : second (pairs₂ ops) (fusedAt₁ ops i) with
    | false => exact ⟨i, le_refl i, ⟨hs, h2⟩, rfl⟩
    | true =>
      obtain ⟨k, rfl, hk, -, -, hat⟩ := head_before ht hi hs h2
      exact ⟨k, Nat.le_succ k, hk, hat.symm⟩
  cases hs : second (pairs₁ ops) i with
  | false => exact hfirst i hi hs
  | true =>
    cases i with
    | zero => cases hs
    | succ i =>
      obtain ⟨k, hk, hh, hat⟩ := hfirst i (by omega) (not_second hs)
      refine ⟨k, by omega, hh, hat.trans ?_⟩
      exact (fusedAt_second hs).symm

/-! ### A fused operation and its parts -/

/-- A head is alone, or a residual before its consumer, or a reduction before a consumer that the
first pass may have made. -/
theorem merged_cases (hh : Head ops h) (hop : ops[h]? = some op) :
    (pairs₁ ops h = none ∧ pairs₂ ops (fusedAt₁ ops h) = none ∧ merged ops h op = op) ∨
    (second (pairs₁ ops) (h + 1) = true ∧ pairs₂ ops (fusedAt₁ ops h) = none ∧
      ∃ c, ops[h + 1]? = some c ∧ ResidualPair h op c ∧ merged ops h op = intoAttnRes op c ()) ∨
    (pairs₁ ops h = none ∧ second (pairs₁ ops) (h + 1) = false ∧
      fusedAt₁ ops (h + 1) = fusedAt₁ ops h + 1 ∧ second (pairs₂ ops) (fusedAt₁ ops h + 1) = true ∧
      ∃ c r, ops[h + 1]? = some c ∧
        XreducePair (fusedAt₁ ops h) (renumbered (pairs₁ ops) intoAttnRes ops h op)
          (renumbered (pairs₁ ops) intoAttnRes ops (h + 1) c) r ∧ merged ops h op =
          intoXreduce op (renumbered (pairs₁ ops) intoAttnRes ops (h + 1) c) r) := by
  unfold merged
  cases h2 : pairs₂ ops (fusedAt₁ ops h) with
  | none =>
    rw [fusedOp_none h2]
    cases h1 : pairs₁ ops h with
    | none => exact .inl ⟨rfl, rfl, fusedOp_none h1⟩
    | some d =>
      obtain ⟨x, c, hx, hc, hp⟩ := residualPair_spec h1
      rw [hop] at hx
      cases hx
      exact .inr (.inl ⟨second_of_pair hh.1 (by rw [h1]; rfl), rfl, c, hc, hp,
        fusedOp_some h1 hc⟩)
  | some r =>
    obtain ⟨hnone, hs, hat, c, hc, hc1, hp, -⟩ := xreduce_of_pair ht hh.1 hop h2
    refine .inr (.inr ⟨hnone, hs, hat, second_of_pair hh.2 (by rw [h2]; rfl), c, r, hc, hp, ?_⟩)
    rw [fusedOp_none hnone]
    exact fusedOp_some h2 hc1

theorem merged_fields (hh : Head ops h) (hop : ops[h]? = some op) :
    ∃ k, ops[if second (pairs₁ ops) (h + 1) then h + 1 else h]? = some k ∧
      (merged ops h op).cus = k.cus ∧ (merged ops h op).join = k.join ∧
      (merged ops h op).isolated = k.isolated := by
  have hfalse : pairs₁ ops h = none → second (pairs₁ ops) (h + 1) = false := fun h1 => by
    rw [second_succ, h1]
    exact Bool.and_false _
  rcases merged_cases ht hh hop with ⟨h1, -, hm⟩ | ⟨hs, -, c, hc, -, hm⟩ | ⟨h1, -, -, -, c, r, -, -, hm⟩
  · rw [hfalse h1, hm]
    exact ⟨op, hop, rfl, rfl, rfl⟩
  · rw [hs, hm]
    exact ⟨c, hc, rfl, rfl, rfl⟩
  · rw [hfalse h1, hm]
    exact ⟨op, hop, rfl, rfl, rfl⟩

theorem keeper_head (hi : i < ops.length) :
    ∃ h < ops.length, Head ops h ∧ fusedAt ops h = fusedAt ops i ∧
      keeper ops i = if second (pairs₁ ops) (h + 1) then h + 1 else h := by
  -- from the first of a residual pair on
  have hfirst : ∀ j < ops.length, second (pairs₁ ops) j = false → fusedAt₁ ops j = fusedAt₁ ops i →
      (if second (pairs₁ ops) i then i - 1 else i) = j →
      (second (pairs₂ ops) (fusedAt₁ ops i) = false →
        (if second (pairs₁ ops) (i + 1) then i + 1 else i) =
          if second (pairs₁ ops) (j + 1) then j + 1 else j) →
      ∃ h < ops.length, Head ops h ∧ fusedAt ops h = fusedAt ops i ∧
        keeper ops i = if second (pairs₁ ops) (h + 1) then h + 1 else h := by
    intro j hj hs hat hij hkeep
    have hat2 : fusedAt ops j = fusedAt ops i := congrArg (target _) hat
    unfold keeper
    cases h2 : second (pairs₂ ops) (fusedAt₁ ops i) with
    | true =>
      obtain ⟨k, rfl, hk, -, hsome, hat'⟩ := head_before ht hj hs (hat ▸ h2)
      obtain ⟨r, hr⟩ := isSome_iff_exists.mp hsome
      have hop : ops[k]? = some _ := getElem?_eq_getElem (by omega)
      refine ⟨k, by omega, hk, hat'.symm.trans hat2, ?_⟩
      rw [(xreduce_of_pair ht hk.1 hop hr).2.1, hij]
      rfl
    | false => exact ⟨j, hj, ⟨hs, hat ▸ h2⟩, hat2, hkeep h2⟩
  cases h1 : second (pairs₁ ops) i with
  | false => exact hfirst i hi h1 rfl (by rw [h1]; rfl) fun _ => rfl
  | true =>
    cases i with
    | zero => cases h1
    | succ i =>
      have h3 : second (pairs₁ ops) (i + 2) = false := by
        rw [second_succ, h1]
        rfl
      refine hfirst i (by omega) (not_second h1) (fusedAt_second₁ h1).symm (by rw [h1]; rfl) fun _ => ?_
      rw [h3, h1]
      rfl

theorem keeper_spec (hi : i < ops.length) :
    ∃ x k, (wholeFused ops)[fusedAt ops i]? = some x ∧ ops[keeper ops i]? = some k ∧
      x.cus = k.cus ∧ x.join = k.join ∧ x.isolated = k.isolated := by
  obtain ⟨h, hlt, hh, hat, hkeep⟩ := keeper_head ht hi
  have hop : ops[h]? = some _ := getElem?_eq_getElem hlt
  obtain ⟨k, hk, hc, hj, hiso⟩ := merged_fields ht hh hop
  have hx := fused_head ht hh hop
  rw [hat] at hx
  rw [hkeep]
  exact ⟨_, k, hx, hk, hc, hj, hiso⟩

end

/-! ### What is to be kept -/

/-- The elements of its outputs that a slice computes.  A `Residual` takes chunks, the others rows;
`chunk` is eight elements for each thread of a workgroup. -/
def writes (chunk : ℕ) (d : DevInst) (slices s : ℕ) (y : ℕ × ℕ) : Prop :=
  if d.op = opResidual then y.1 = d.t 0 ∧ y.2 < d.i 0 ∧ y.2 / chunk % slices = s
  else if d.op = opAttnRes then
    (y.1 = d.t 0 ∨ d.t 6 ≠ tensorNone ∧ y.1 = d.t 1) ∧ y.2 < d.i 0 * d.i 1 ∧
      y.2 / d.i 1 % slices = s
  else d.t 6 ≠ tensorNone ∧ (y.1 = d.t 0 ∨ y.1 = d.t 2 ∨ y.1 = d.t 6) ∧ y.2 < d.i 0 ∧
    y.2 / d.i 5 % slices = s

/-- the list covers what the slices it named have become -/
def Covers (chunk : ℕ) (x x' : Op) (l : List ℕ) : Prop :=
  (∀ s ∈ l, s < x'.cus.length) ∧
    ∀ s ∈ l, ∀ y, writes chunk x.inst x.cus.length s y →
      ∀ s' < x'.cus.length, writes chunk x'.inst x'.cus.length s' y → s' ∈ l

/-- What fusion is to keep of the operations `ops`, if `number` gives their numbers in `out`. -/
structure Preserved (chunk : ℕ) (ops out : List Op) (number : ℕ → ℕ) : Prop where
  onto : ∀ j < out.length, ∃ i < ops.length, number i = j
  order : ∀ i j, i ≤ j → number i ≤ number j
  /-- what is not fused stays as it is -/
  kept : ∀ i, ∀ op : Op, ops[i]? = some op → (∀ j < ops.length, j ≠ i → number j ≠ number i) →
    ∃ x : Op, out[number i]? = some x ∧ x.inst = op.inst ∧ x.cus = op.cus
  numbered : ∀ j, ∀ x : Op, out[j]? = some x → x.counter = j ∧ ∀ d ∈ x.deps, d.producer < j
  /-- dependencies on what is outside stay -/
  deps : ∀ i, ∀ op : Op, ops[i]? = some op → ∀ d ∈ op.deps, number d.producer ≠ number i →
    ∃ x : Op, out[number i]? = some x ∧ d.remap number ∈ x.deps
  /-- a fine dependency on a fused operation fits it -/
  fine : ∀ op ∈ ops, ∀ p map, .fine p map ∈ op.deps → ∀ x x' : Op, ops[p]? = some x →
    (∃ q < ops.length, q ≠ p ∧ number q = number p) → out[number p]? = some x' →
    ∀ l ∈ map, Covers chunk x x' l
  join : ∀ i, ∀ op x : Op, ops[i]? = some op → out[number i]? = some x → x.join = op.join
  isolated : ∀ i, ∀ op x : Op, ops[i]? = some op → out[number i]? = some x → op.isolated →
    x.isolated
  run : ∀ (V : Type) (K : Kernels V) (s s' : Mem V), K.run ops s = some s' → K.run out s = some s'

def RowsCovered (chunk : ℕ) (x c : Op) (l : List ℕ) : Prop :=
  (∀ s ∈ l, s < c.cus.length) ∧
    ∀ e < x.inst.i 0, e / chunk % x.cus.length ∈ l → e / c.inst.i 1 % c.cus.length ∈ l

/-- The operations that are fused share their join epoch, the one that gives the flags is isolated
if another is, and the fine dependencies on a `Residual` fit the `AttnRes` behind it. -/
structure Fusable (chunk : ℕ) (ops : List Op) : Prop where
  join : ∀ i, ∀ op k : Op, ops[i]? = some op → ops[keeper ops i]? = some k → op.join = k.join
  isolated : ∀ i, ∀ op k : Op, ops[i]? = some op → ops[keeper ops i]? = some k → op.isolated →
    k.isolated
  fine : ∀ p, ∀ x c : Op, ops[p]? = some x → ops[p + 1]? = some c →
    second (residualPair ops) (p + 1) = true → ∀ op ∈ ops, ∀ map, .fine p map ∈ op.deps →
    ∀ l ∈ map, RowsCovered chunk x c l

/-! ### The rows of a fused operation -/

theorem alone_of_head (hh : Head ops h) (h1 : pairs₁ ops h = none)
    (h2 : pairs₂ ops (fusedAt₁ ops h) = none) (hj : j ≠ h) : fusedAt ops j ≠ fusedAt ops h := by
  rcases Nat.lt_or_gt_of_ne hj with hlt | hgt
  · exact ne_of_lt (target_lt (target_lt hlt hh.1) hh.2)
  · have hs : second (pairs₁ ops) (h + 1) = false := by
      rw [second_succ, h1]
      exact Bool.and_false _
    have hs2 : second (pairs₂ ops) (fusedAt₁ ops h + 1) = false := by
      rw [second_succ, h2]
      exact Bool.and_false _
    have hat : fusedAt ops (h + 1) = fusedAt ops h + 1 := by
      show target _ (target _ (h + 1)) = _
      rw [target_first hs]
      exact target_first hs2
    have hle := @fusedAt_mono ops _ _ hgt
    change fusedAt ops (h + 1) ≤ _ at hle
    omega

section
variable {chunk : ℕ} {a x : Op} {p : ℕ}

def Mixes (ops : List Op) (p : ℕ) : Prop :=
  second (pairs₁ ops) p = true ∨
    second (pairs₁ ops) (p + 1) = false ∧ second (pairs₂ ops) (fusedAt₁ ops p) = true

variable {y : ℕ × ℕ}

theorem writes_attnRes (hop : a.inst.op = opAttnRes) {n s : ℕ} :
    writes chunk a.inst n s y ↔ (y.1 = a.inst.t 0 ∨ a.inst.t 6 ≠ tensorNone ∧ y.1 = a.inst.t 1) ∧
      y.2 < a.inst.i 0 * a.inst.i 1 ∧ y.2 / a.inst.i 1 % n = s := by
  unfold writes
  rw [if_neg (by rw [hop]; decide), if_pos hop]

theorem writes_xreduce (hop : a.inst.op = opXReduceTwoShot) {n s : ℕ} :
    writes chunk a.inst n s y ↔ a.inst.t 6 ≠ tensorNone ∧
      (y.1 = a.inst.t 0 ∨ y.1 = a.inst.t 2 ∨ y.1 = a.inst.t 6) ∧ y.2 < a.inst.i 0 ∧
      y.2 / a.inst.i 5 % n = s := by
  unfold writes
  rw [if_neg (by rw [hop]; decide), if_neg (by rw [hop]; decide)]

theorem writes_residual (hop : a.inst.op = opResidual) {n s : ℕ} :
    writes chunk a.inst n s y ↔ y.1 = a.inst.t 0 ∧ y.2 < a.inst.i 0 ∧ y.2 / chunk % n = s := by
  unfold writes
  rw [if_pos hop]

theorem rows_of_xreduce {y c : Op} {r q : ℕ} (hp : XreducePair q y c r) (hcus : c.cus = a.cus)
    (hi0 : c.inst.i 0 = a.inst.i 0) (hi1 : c.inst.i 1 = a.inst.i 1) (ht1 : c.inst.t 1 = a.inst.t 1)
    (hcusx : x.cus = y.cus) (hx : x.inst = (intoXreduce y c r).inst) : x.cus = a.cus ∧
      (∀ s z, writes chunk x.inst x.cus.length s z → z.2 / a.inst.i 1 % a.cus.length = s) ∧
      ∀ e < a.inst.i 0 * a.inst.i 1,
        writes chunk x.inst a.cus.length (e / a.inst.i 1 % a.cus.length) (a.inst.t 1, e) := by
  have hop : x.inst.op = opXReduceTwoShot := by
    rw [hx]
    exact hp.producer
  have h0 : x.inst.i 0 = a.inst.i 0 * a.inst.i 1 := by
    rw [hx, ← hi0, ← hi1, hp.size]
    rfl
  have h5 : x.inst.i 5 = a.inst.i 1 := by
    rw [hx, ← hi1]
    rfl
  have h6 : x.inst.t 6 = a.inst.t 1 := by
    rw [hx, ← ht1]
    rfl
  have hc : x.cus = a.cus := by rw [hcusx, hp.cus, hcus]
  refine ⟨hc, fun s z hz => ?_, fun e he => ?_⟩
  · have h := ((writes_xreduce hop).mp hz).2.2.2
    rw [h5, hc] at h
    exact h
  · rw [writes_xreduce hop, h0, h5, h6]
    exact ⟨ht1 ▸ hp.running, .inr (.inr rfl), he, rfl⟩

/-- The operation that a mix is fused into computes its rows where the mix did. -/
theorem rows_of_mix (ht : Topological ops) (ha : ops[p]? = some a) (hp : Mixes ops p)
    (hx : (wholeFused ops)[fusedAt ops p]? = some x) : a.inst.op = opAttnRes ∧ x.cus = a.cus ∧
      (∀ s z, writes chunk x.inst x.cus.length s z → z.2 / a.inst.i 1 % a.cus.length = s) ∧
      (second (pairs₁ ops) p = true → ∀ e < a.inst.i 0 * a.inst.i 1,
        writes chunk x.inst a.cus.length (e / a.inst.i 1 % a.cus.length) (a.inst.t 1, e)) := by
  have hpl := (List.getElem?_eq_some_iff.mp ha).1
  cases h2 : second (pairs₂ ops) (fusedAt₁ ops p) with
  | false =>
    -- a residual and the mix
    have h1 : second (pairs₁ ops) p = true := by
      rcases hp with h | ⟨-, h⟩
      · exact h
      · rw [h2] at h
        cases h
    cases p with
    | zero => cases h1
    | succ h =>
      have hat := fusedAt_second₁ h1
      have hh : Head ops h := ⟨not_second h1, hat ▸ h2⟩
      have hop : ops[h]? = some _ := getElem?_eq_getElem (by omega)
      have hxh := fused_head ht hh hop
      rw [fusedAt_second h1, hxh] at hx
      cases hx
      rcases merged_cases ht hh hop with ⟨hn, -, -⟩ | ⟨-, -, c, hc, hpair, hm⟩ | ⟨-, hs, -⟩
      · have := pair_of_second h1
        rw [hn] at this
        cases this
      · rw [ha] at hc
        cases hc
        rw [hm]
        refine ⟨hpair.consumer, rfl, fun s z hz => ?_, fun _ e he => ?_⟩
        · exact ((writes_attnRes (a := intoAttnRes _ a ()) hpair.consumer).mp hz).2.2
        · exact (writes_attnRes (a := intoAttnRes _ a ()) hpair.consumer).mpr
            ⟨.inr ⟨hpair.left, rfl⟩, he, rfl⟩
      · rw [h1] at hs
        cases hs
  | true =>
    have hgroup : ∀ k, Head ops k → (pairs₂ ops (fusedAt₁ ops k)).isSome →
        fusedAt ops k = fusedAt ops p → (∀ c, ops[k + 1]? = some c →
          let c' := renumbered (pairs₁ ops) intoAttnRes ops (k + 1) c
          c'.cus = a.cus ∧ c'.inst.op = a.inst.op ∧ c'.inst.i 0 = a.inst.i 0 ∧
            c'.inst.i 1 = a.inst.i 1 ∧ c'.inst.t 1 = a.inst.t 1) →
        k < ops.length → a.inst.op = opAttnRes ∧ x.cus = a.cus ∧
          (∀ s z, writes chunk x.inst x.cus.length s z → z.2 / a.inst.i 1 % a.cus.length = s) ∧
          (second (pairs₁ ops) p = true → ∀ e < a.inst.i 0 * a.inst.i 1,
            writes chunk x.inst a.cus.length (e / a.inst.i 1 % a.cus.length) (a.inst.t 1, e)) := by
      intro k hk hsome hat hc' hlt
      have hop : ops[k]? = some _ := getElem?_eq_getElem hlt
      have hxk := fused_head ht hk hop
      rw [hat, hx] at hxk
      cases hxk
      rcases merged_cases ht hk hop with ⟨-, hn, -⟩ | ⟨-, hn, -⟩ | ⟨h1, -, -, -, c, r, hc, hpair, hm⟩
      · rw [hn] at hsome
        cases hsome
      · rw [hn] at hsome
        cases hsome
      · obtain ⟨hcus, hopc, hi0, hi1, ht1⟩ := hc' c hc
        have hk' : renumbered (pairs₁ ops) intoAttnRes ops k ops[k] =
            { ops[k] with
              deps := ops[k].deps.map (Dep.remap (fusedAt₁ ops)), counter := fusedAt₁ ops k } := by
          unfold renumbered
          rw [fusedOp_none h1]
          rfl
        obtain ⟨h2, h3, h4⟩ := @rows_of_xreduce chunk _ { merged ops k ops[k] with
            deps := ops[k].deps.map (Dep.remap (fusedAt ops)), counter := fusedAt ops p }
          _ _ _ _ hpair hcus hi0 hi1 ht1 (by rw [hm, hk']; rfl) (by rw [hm, hk']; rfl)
        exact ⟨hopc ▸ hpair.consumer, h2, h3, fun _ => h4⟩
    cases h1 : second (pairs₁ ops) p with
    | false =>
      have hn : pairs₁ ops p = none := by
        by_contra hne
        have hs := second_of_pair h1 (isSome_iff_ne_none.mpr hne)
        rcases hp with h | ⟨h, -⟩
        · rw [h1] at h
          cases h
        · rw [h] at hs
          cases hs
      obtain ⟨k, rfl, hk, -, hsome, hat⟩ := head_before ht hpl h1 h2
      rw [h1] at hgroup
      refine hgroup k hk hsome hat.symm (fun c hc => ?_) (by omega)
      rw [ha] at hc
      cases hc
      unfold renumbered
      rw [fusedOp_none hn]
      exact ⟨rfl, rfl, rfl, rfl, rfl⟩
    | true =>
      cases p with
      | zero => cases h1
      | succ j =>
        have h2' := h2
        rw [fusedAt_second₁ h1] at h2'
        obtain ⟨k, rfl, hk, -, hsome, hat⟩ := head_before ht (by omega) (not_second h1) h2'
        rw [h1] at hgroup
        refine hgroup k hk hsome (hat.symm.trans (fusedAt_second h1).symm) (fun c hc => ?_) (by omega)
        obtain ⟨d, hd⟩ := isSome_iff_exists.mp (pair_of_second h1)
        unfold renumbered
        rw [fusedOp_some hd ha]
        exact ⟨rfl, rfl, rfl, rfl, rfl⟩

end

/-! ### The whole -/

section
variable {chunk : ℕ}

theorem wholeFused_kept (ht : Topological ops) (hop : ops[i]? = some op)
    (halone : ∀ j < ops.length, j ≠ i → fusedAt ops j ≠ fusedAt ops i) :
    ∃ x : Op, (wholeFused ops)[fusedAt ops i]? = some x ∧ x.inst = op.inst ∧ x.cus = op.cus := by
  have hi := (List.getElem?_eq_some_iff.mp hop).1
  obtain ⟨h, hle, hh, hat⟩ := exists_head ht hi
  obtain rfl : h = i := by
    by_contra hne
    exact halone h (by omega) hne hat
  refine ⟨_, fused_head ht hh hop, ?_⟩
  have hnext : ∀ c, ops[h + 1]? = some c → fusedAt ops (h + 1) ≠ fusedAt ops h := fun c hc =>
    halone (h + 1) (List.getElem?_eq_some_iff.mp hc).1 (Nat.succ_ne_self h)
  rcases merged_cases ht hh hop with ⟨-, -, hm⟩ | ⟨hs, -, c, hc, -⟩ | ⟨-, -, hat1, hs2, c, -, hc, -⟩
  · rw [hm]
    exact ⟨rfl, rfl⟩
  · exact absurd (fusedAt_second hs) (hnext c hc)
  · refine absurd ?_ (hnext c hc)
    show target _ (fusedAt₁ ops (h + 1)) = _
    rw [hat1]
    exact target_second hs2

theorem wholeFused_numbered (ht : Topological ops) (hx : (wholeFused ops)[j]? = some op) :
    op.counter = j ∧ ∀ d ∈ op.deps, d.producer < j := by
  have hj := (List.getElem?_eq_some_iff.mp hx).1
  rw [(fused₂ ht).length] at hj
  obtain ⟨m, hm, hs2, rfl⟩ := exists_first hj
  rw [(fused₁ ht).length] at hm
  obtain ⟨h, hh, hs1, rfl⟩ := exists_first hm
  have hat := fused_head ht ⟨hs1, hs2⟩ (getElem?_eq_getElem hh)
  change (wholeFused ops)[fusedAt ops h]? = some op at hx
  rw [hx] at hat
  cases hat
  refine ⟨rfl, fun d hd => ?_⟩
  obtain ⟨e, he, rfl⟩ := List.mem_map.mp hd
  rw [producer_remap]
  exact target_lt (target_lt (ht h _ (getElem?_eq_getElem hh) e he) hs1) hs2

/-- Only the first operation of a group depends on what is outside. -/
theorem head_of_dep (ht : Topological ops) (hop : ops[i]? = some op) {d : Dep} (hd : d ∈ op.deps)
    (hne : fusedAt ops d.producer ≠ fusedAt ops i) : Head ops i := by
  have hi := (List.getElem?_eq_some_iff.mp hop).1
  have h1 : second (pairs₁ ops) i = false := by
    by_contra hs
    have hs : second (pairs₁ ops) i = true := by simpa using hs
    cases i with
    | zero => cases hs
    | succ k =>
      obtain ⟨x, c, hx, hc, hp⟩ := residual_of_second hs
      rw [hop] at hc
      cases hc
      rw [hp.deps] at hd
      rw [mem_singleton.mp hd] at hne
      exact hne (fusedAt_second hs).symm
  refine ⟨h1, ?_⟩
  by_contra hs
  obtain ⟨k, rfl, hk, hat, hsome, hat2⟩ := head_before ht hi h1 (by simpa using hs)
  obtain ⟨r, hr⟩ := isSome_iff_exists.mp hsome
  obtain ⟨-, -, -, c, hc, -, hp, -⟩ := xreduce_of_pair ht hk.1 (getElem?_eq_getElem
    (show k < ops.length by omega)) hr
  rw [hop] at hc
  cases hc
  have hmem : d.remap (target (pairs₁ ops)) ∈ (renumbered (pairs₁ ops) intoAttnRes ops (k + 1) op).deps :=
    mem_map_of_mem hd
  rw [hp.deps] at hmem
  have hprod := congrArg Dep.producer (mem_singleton.mp hmem)
  rw [producer_remap] at hprod
  refine hne ?_
  rw [hat2]
  exact congrArg (target _) hprod

theorem wholeFused_deps (ht : Topological ops) (hop : ops[i]? = some op) {d : Dep} (hd : d ∈ op.deps)
    (hne : fusedAt ops d.producer ≠ fusedAt ops i) :
    ∃ x : Op, (wholeFused ops)[fusedAt ops i]? = some x ∧ d.remap (fusedAt ops) ∈ x.deps :=
  ⟨_, fused_head ht (head_of_dep ht hop hd hne) hop, mem_map_of_mem hd⟩

theorem wholeFused_run {V : Type} {K : Kernels V} {s s' : Mem V}
    (h : K.run ops s = some s') : K.run (wholeFused ops) s = some s' := by
  refine fuseLoop_run (fun p d x c hx hc hp s s' he => ?_) 0 _ [] _ rfl rfl
    (fuseLoop_run (fun p d x c hx hc hp s s' he => ?_) 0 _ [] _ rfl rfl h)
  · exact exec_xreduce (xreducePair_at hp hx hc) he
  · exact exec_residual (residualPair_at hp hx hc) he

variable {p : ℕ} {map : List (List ℕ)}

theorem mem_successors {d : Dep} (hop : ops[i]? = some op) (hd : d ∈ op.deps)
    (hp : d.producer = p) : i ∈ successors ops p := by
  unfold successors
  refine mem_flatMap.mpr ⟨(op, i), mem_zipIdx_iff_getElem?.mpr hop, ?_⟩
  exact mem_map.mpr ⟨d, mem_filter.mpr ⟨hd, by simpa using hp⟩, rfl⟩

/-- No fine dependency names a reduction that is fused. -/
theorem no_fine_on_xreduce (ht : Topological ops) (hp : Head ops p)
    (hsome : (pairs₂ ops (fusedAt₁ ops p)).isSome) (hpl : p < ops.length) (hop : ops[i]? = some op)
    (hd : .fine p map ∈ op.deps) : False := by
  obtain ⟨r, hr⟩ := isSome_iff_exists.mp hsome
  obtain ⟨-, hs, hat, c, hc, hc1, hpair, hsucc⟩ :=
    xreduce_of_pair ht hp.1 (getElem?_eq_getElem hpl) hr
  have h1 : second (pairs₁ ops) i = false := by
    by_contra hsec
    have hsec : second (pairs₁ ops) i = true := by simpa using hsec
    cases i with
    | zero => cases hsec
    | succ k =>
      obtain ⟨x, c, hx, hc, hres⟩ := residual_of_second hsec
      rw [hop] at hc
      cases hc
      rw [hres.deps] at hd
      cases mem_singleton.mp hd
  have hi := (fused₁ ht).first i op hop h1
  have hmem : Dep.fine (fusedAt₁ ops p) map ∈ (renumbered (pairs₁ ops) intoAttnRes ops i op).deps :=
    mem_map.mpr ⟨_, hd, rfl⟩
  have hin : fusedAt₁ ops i ∈ successors (firstFused ops) (fusedAt₁ ops p) :=
    mem_successors hi hmem rfl
  rw [hsucc, mem_singleton] at hin
  change (firstFused ops)[fusedAt₁ ops i]? = _ at hi
  rw [hin, hc1] at hi
  rw [← Option.some.inj hi, hpair.deps] at hmem
  cases mem_singleton.mp hmem

theorem covers_mix (ht : Topological ops) {a x : Op} {l : List ℕ} (ha : ops[p]? = some a)
    (hp : Mixes ops p) (hx : (wholeFused ops)[fusedAt ops p]? = some x)
    (hl : ∀ s ∈ l, s < a.cus.length) : Covers chunk a x l := by
  obtain ⟨hop, hcus, hrows, -⟩ := rows_of_mix ht ha hp hx
  refine ⟨fun s hs => hcus ▸ hl s hs, fun s hs y hy s' _ hy' => ?_⟩
  have h1 := hrows s' y hy'
  rw [((writes_attnRes hop).mp hy).2.2] at h1
  exact h1 ▸ hs

theorem covers_residual (ht : Topological ops) {x c x' : Op} {l : List ℕ}
    (hx : ops[p]? = some x) (hc : ops[p + 1]? = some c) (hs : second (pairs₁ ops) (p + 1) = true)
    (hx' : (wholeFused ops)[fusedAt ops p]? = some x') :
    Covers chunk x x' l ↔ RowsCovered chunk x c l := by
  obtain ⟨d, hd⟩ := isSome_iff_exists.mp (pair_of_second hs)
  have hpair : ResidualPair p x c := residualPair_at hd hx hc
  rw [← fusedAt_second hs] at hx'
  obtain ⟨-, hcus, hrows, hall⟩ := rows_of_mix ht hc (.inl hs) hx'
  unfold Covers RowsCovered
  rw [hcus] at hrows ⊢
  refine and_congr_right fun hl => ⟨fun h e he hin => ?_, fun h s hs y hy s' hs' hy' => ?_⟩
  · have hlt := hl _ hin
    refine h _ hin (x.inst.t 0, e) ((writes_residual hpair.producer).mpr ⟨rfl, he, rfl⟩) _
      (Nat.mod_lt _ (by omega)) ?_
    rw [hpair.out]
    exact hall hs e (by rw [hpair.size]; exact he)
  · obtain ⟨-, he, rfl⟩ := (writes_residual hpair.producer).mp hy
    rw [← hrows s' y hy']
    exact h _ he hs

/-- Fusion preserves a program exactly if the parts of what it fuses share their join epoch and
their isolation and the fine dependencies fit. -/
theorem fusion_preserves (chunk : ℕ) (ops : List Op) (ht : Topological ops) (hr : InRange ops) :
    ∃ out, (fuseMaterializedResidualInputs ops).bind fuseXreduceAttnres = some out ∧
      (Preserved chunk ops out (fusedAt ops) ↔ Fusable chunk ops) := by
  refine ⟨_, fuse_eq_some ht, fun h => ⟨?_, ?_, ?_⟩, fun h => ?_⟩
  · intro i op k hop hk
    obtain ⟨x, k', hx, hk', -, hj, -⟩ := keeper_spec ht (List.getElem?_eq_some_iff.mp hop).1
    rw [hk] at hk'
    cases hk'
    rw [← hj]
    exact (h.join i op x hop hx).symm
  · intro i op k hop hk hiso
    obtain ⟨x, k', hx, hk', -, -, hi⟩ := keeper_spec ht (List.getElem?_eq_some_iff.mp hop).1
    rw [hk] at hk'
    cases hk'
    rw [← hi]
    exact h.isolated i op x hop hx hiso
  · intro p x c hx hc hs op hop map hd l hl
    obtain ⟨x', -, hx', -⟩ := keeper_spec ht (List.getElem?_eq_some_iff.mp hx).1
    refine (covers_residual ht hx hc hs hx').mp (h.fine op hop p map hd x x' hx ?_ hx' l hl)
    exact ⟨p + 1, (List.getElem?_eq_some_iff.mp hc).1, Nat.succ_ne_self p, fusedAt_second hs⟩
  · refine ⟨?_, fun i j => fusedAt_mono, fun i op => wholeFused_kept ht,
      fun j x => wholeFused_numbered ht, fun i op hop d => wholeFused_deps ht hop, ?_, ?_, ?_,
      fun V K s s' => wholeFused_run⟩
    · intro j hj
      rw [(fused₂ ht).length] at hj
      obtain ⟨m, hm, -, rfl⟩ := exists_first hj
      rw [(fused₁ ht).length] at hm
      obtain ⟨i, hi, -, rfl⟩ := exists_first hm
      exact ⟨i, hi, rfl⟩
    · rintro op hop p map hd x x' hx ⟨q, hq, hne, hat⟩ hx' l hl
      have hpl := (List.getElem?_eq_some_iff.mp hx).1
      have hin : ∀ s ∈ l, s < x.cus.length := fun s hs => by
        have := hr op hop p map hd l hl s hs
        rw [slicesOf_some hx] at this
        exact this
      cases hs : second (pairs₁ ops) (p + 1) with
      | true =>
        obtain ⟨c, hc⟩ : ∃ c, ops[p + 1]? = some c :=
          ⟨_, getElem?_eq_getElem (second_lt (fun _ h => residualPair_lt h) _ hs)⟩
        exact (covers_residual ht hx hc hs hx').mpr (h.fine p x c hx hc hs op hop map hd l hl)
      | false =>
        cases h1 : second (pairs₁ ops) p with
        | true => exact covers_mix ht hx (.inl h1) hx' hin
        | false =>
          cases h2 : second (pairs₂ ops) (fusedAt₁ ops p) with
          | true => exact covers_mix ht hx (.inr ⟨hs, h2⟩) hx' hin
          | false =>
            -- a reduction, since it is not alone
            have hn : pairs₁ ops p = none := by
              by_contra hne
              rw [second_of_pair h1 (isSome_iff_ne_none.mpr hne)] at hs
              cases hs
            have hsome : (pairs₂ ops (fusedAt₁ ops p)).isSome := by
              rw [isSome_iff_ne_none]
              exact fun hn2 => alone_of_head ⟨h1, h2⟩ hn hn2 hne hat
            obtain ⟨i, hi⟩ := mem_iff_getElem?.mp hop
            exact (no_fine_on_xreduce ht ⟨h1, h2⟩ hsome hpl hi hd).elim
    · intro i op x hop hx
      obtain ⟨x', k, hx', hk, -, hj, -⟩ := keeper_spec ht (List.getElem?_eq_some_iff.mp hop).1
      rw [hx] at hx'
      cases hx'
      rw [hj, h.join i op k hop hk]
    · intro i op x hop hx hiso
      obtain ⟨x', k, hx', hk, -, -, hi⟩ := keeper_spec ht (List.getElem?_eq_some_iff.mp hop).1
      rw [hx] at hx'
      cases hx'
      rw [hi]
      exact h.isolated i op k hop hk hiso

/-- a residual into tensor 2, and the mix behind it, `join` epochs later -/
def seam (join : ℕ) : List Op :=
  [{ inst := { Builder.blank opResidual 1 with
       t := ![2, 0, 1, tensorNone, tensorNone, tensorNone, tensorNone, tensorNone]
       i := ![64, 0, 0, 0, 0, 0, 0, 0], f := ![oneF32, 0] }
     isolated := false, keepSingleGrid := false, gqHoist := false, join := 0, cus := [0], deps := []
     counter := 0, work := [1] },
   { inst := { Builder.blank opAttnRes 1 with
       t := ![5, 2, 3, 4, tensorNone, tensorNone, tensorNone, tensorNone]
       i := ![1, 64, 0, 0, 1, tensorNoneI, 0, 0] }
     isolated := false, keepSingleGrid := false, gqHoist := false, join, cus := [0]
     deps := [.coarse 0], counter := 1, work := [1] }]

theorem seam_topological (n : ℕ) : Topological (seam n) := by
  intro i op hop d hd
  match i with
  | 0 =>
    cases hop
    cases hd
  | 1 =>
    cases hop
    rw [mem_singleton.mp hd]
    exact one_pos
  | i + 2 => cases hop

theorem seam_coarse (n : ℕ) {op : Op} (hop : op ∈ seam n) : .fine p map ∉ op.deps := by
  intro hd
  rcases mem_cons.mp hop with rfl | hop
  · cases hd
  · rw [mem_singleton.mp hop] at hd
    cases mem_singleton.mp hd

theorem seam_inRange (n : ℕ) : InRange (seam n) :=
  fun _ hop _ _ hd => absurd hd (seam_coarse n hop)

theorem fusion_preserves_seam : ∃ out,
    (fuseMaterializedResidualInputs (seam 0)).bind fuseXreduceAttnres = some out ∧
      Preserved 4096 (seam 0) out (fusedAt (seam 0)) := by
  obtain ⟨out, hout, hiff⟩ := fusion_preserves 4096 (seam 0) (seam_topological 0) (seam_inRange 0)
  have hflags : ∀ op ∈ seam 0, op.join = 0 ∧ op.isolated = false := by
    intro op hop
    rcases mem_cons.mp hop with rfl | hop
    · exact ⟨rfl, rfl⟩
    · rw [mem_singleton.mp hop]
      exact ⟨rfl, rfl⟩
  refine ⟨out, hout, hiff.mpr ⟨fun i op k hop hk => ?_, fun i op k hop hk hiso => ?_,
    fun _ _ _ _ _ _ _ hop _ hd => absurd hd (seam_coarse 0 hop)⟩⟩
  · rw [(hflags op (mem_of_getElem? hop)).1, (hflags k (mem_of_getElem? hk)).1]
  · rw [(hflags op (mem_of_getElem? hop)).2] at hiso
    cases hiso

/-- Across a join the residual runs behind it, with the mix. -/
theorem fusion_crosses_join : ∃ out,
    (fuseMaterializedResidualInputs (seam 1)).bind fuseXreduceAttnres = some out ∧
      ¬ Preserved 4096 (seam 1) out (fusedAt (seam 1)) := by
  refine ⟨_, fuse_eq_some (seam_topological 1), fun h => ?_⟩
  have hjoin : 1 = 0 := h.join 0 _ _ (show (seam 1)[0]? = some _ from rfl) rfl
  cases hjoin

end

end Plow.Devbuild
