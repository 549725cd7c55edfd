import Plow.Devbuild.Prepare

/-!
# The numbers that fusion gives

`target pair i` is the number of operation `i` after a pass that fuses the pairs `pair` names:
the second operation of a pair has that of the first.  `fuseLoop_spec` says what stands under each
number.
-/

namespace Plow.Devbuild

open List Function Option

section
variable {D : Type} (pair : ℕ → Option D)

/-- operation `i` is the second of a pair -/
def second : ℕ → Bool
  | 0 => false
  | i + 1 => !second i && (pair i).isSome

def target : ℕ → ℕ
  | 0 => 0
  | i + 1 => if second pair (i + 1) then target i else target i + 1

/-- what stands for operation `i` that is not the second of a pair -/
def fusedOp (into : Op → Op → D → Op) (ops : List Op) (i : ℕ) (op : Op) : Op :=
  match pair i, ops[i + 1]? with
  | some d, some consumer => into op consumer d
  | _, _ => op

def renumbered (into : Op → Op → D → Op) (ops : List Op) (i : ℕ) (op : Op) : Op :=
  { fusedOp pair into ops i op with
    deps := op.deps.map (Dep.remap (target pair)), counter := target pair i }

end

section
variable {D : Type} {pair : ℕ → Option D} {i j n : ℕ}

theorem second_succ : second pair (i + 1) = (!second pair i && (pair i).isSome) := rfl

theorem second_of_pair (h : second pair i = false) (hp : (pair i).isSome) :
    second pair (i + 1) = true := by
  rw [second_succ, h, hp]
  rfl

theorem not_second (h : second pair (i + 1) = true) : second pair i = false := by
  rw [second_succ, Bool.and_eq_true] at h
  simpa using h.1

theorem pair_of_second (h : second pair (i + 1) = true) : (pair i).isSome := by
  rw [second_succ, Bool.and_eq_true] at h
  exact h.2

theorem target_second (h : second pair (i + 1) = true) : target pair (i + 1) = target pair i := by
  show (if _ then _ else _) = _
  rw [if_pos h]

theorem target_first (h : second pair (i + 1) = false) :
    target pair (i + 1) = target pair i + 1 := by
  show (if _ then _ else _) = _
  rw [if_neg (by rw [h]; exact Bool.false_ne_true)]

theorem target_step (i : ℕ) :
    target pair i ≤ target pair (i + 1) ∧ target pair (i + 1) ≤ target pair i + 1 := by
  cases h : second pair (i + 1) with
  | true =>
    rw [target_second h]
    omega
  | false =>
    rw [target_first h]
    omega

theorem target_mono (h : i ≤ j) : target pair i ≤ target pair j := by
  induction h with
  | refl => exact le_rfl
  | step _ ih => exact ih.trans (target_step _).1

theorem target_lt (h : i < j) (hj : second pair j = false) : target pair i < target pair j := by
  obtain ⟨k, rfl⟩ := Nat.exists_eq_add_one_of_ne_zero (Nat.ne_zero_of_lt h)
  rw [target_first hj]
  exact Nat.lt_succ_of_le (target_mono (Nat.le_of_lt_succ h))

theorem exists_first (h : j < target pair n) :
    ∃ i < n, second pair i = false ∧ target pair i = j := by
  induction n with
  | zero => exact absurd h (Nat.not_lt_zero j)
  | succ n ih =>
    by_cases hj : j < target pair n
    · obtain ⟨i, hi, hs, ht⟩ := ih hj
      exact ⟨i, hi.trans (Nat.lt_succ_self n), hs, ht⟩
    · have hjn : j = target pair n := by
        have := (@target_step _ pair n).2
        omega
      cases hs : second pair n with
      | false => exact ⟨n, Nat.lt_succ_self n, hs, hjn.symm⟩
      | true =>
        cases n with
        | zero => cases hs
        | succ m => exact ⟨m, by omega, not_second hs, by rw [hjn, target_second hs]⟩

end

/-! ### Pairs -/

structure ResidualPair (p : ℕ) (x c : Op) : Prop where
  producer : x.inst.op = opResidual
  consumer : c.inst.op = opAttnRes
  deps : c.deps = [.coarse p]
  coarse : ∀ d ∈ x.deps, d.isFine = false
  out : x.inst.t 0 = c.inst.t 1
  left : x.inst.t 1 ≠ tensorNone
  right : x.inst.t 2 ≠ tensorNone
  size : c.inst.i 0 * c.inst.i 1 = x.inst.i 0
  scale : x.inst.f 0 = 0x3f800000
  seam : c.inst.t 6 = tensorNone ∧ c.inst.t 7 = tensorNone
  outer : c.inst.i 5 = tensorNoneI

structure XreducePair (p : ℕ) (x c : Op) (residual : ℕ) : Prop where
  producer : x.inst.op = opXReduceTwoShot
  consumer : c.inst.op = opAttnRes
  deps : c.deps = [.coarse p]
  plain : ∀ k : Fin 8, 1 ≤ k → x.inst.t k = tensorNone
  zero : ∀ k : Fin 8, 5 ≤ k → x.inst.i k = 0
  rows : c.inst.i 0 % x.inst.i 1 = 0
  size : c.inst.i 0 * c.inst.i 1 = x.inst.i 0
  cus : x.cus = c.cus
  running : c.inst.t 1 ≠ tensorNone
  push : c.inst.t 4 = tensorNone
  outer : c.inst.i 5 = tensorNoneI
  residual : xreduceResidual x.inst c.inst = some residual

section
variable {ops : List Op} {p : ℕ}

theorem u32_some {n m : ℕ} (h : u32? n = some m) : n = m := by
  unfold u32? at h
  split at h
  · exact Option.some.inj h
  · cases h

theorem residualPair_spec {d : Unit} (h : residualPair ops p = some d) :
    ∃ x c, ops[p]? = some x ∧ ops[p + 1]? = some c ∧ ResidualPair p x c := by
  unfold residualPair at h
  simp only [bind_eq_bind, bind_eq_some_iff, guard_eq_some'] at h
  obtain ⟨x, hx, c, hc, ⟨⟩, -, ⟨⟩, ⟨hopx, hopc⟩, ⟨⟩, hdeps, ⟨⟩, hall, ⟨⟩, hout, ⟨⟩, ⟨ha, hb⟩, ⟨⟩, hn,
    ⟨⟩, hscale, ⟨⟩, h67, hi5⟩ := h
  have hcoarse : ∀ d ∈ x.deps, d.isFine = false := fun d hd => by
    simpa using List.all_eq_true.mp hall d hd
  exact ⟨x, c, hx, hc, hopx, hopc, hdeps, hcoarse, hout, ha, hb, u32_some hn, hscale, h67, hi5⟩

theorem xreducePair_spec {r : ℕ} (h : xreducePair ops p = some r) :
    ∃ x c, ops[p]? = some x ∧ ops[p + 1]? = some c ∧ XreducePair p x c r ∧
      successors ops p = [p + 1] := by
  unfold xreducePair at h
  simp only [bind_eq_bind, bind_eq_some_iff, guard_eq_some'] at h
  obtain ⟨x, hx, c, hc, ⟨⟩, -, ⟨⟩, ⟨hopx, hopc⟩, ⟨⟩, hdeps, ⟨⟩, hsucc, ⟨⟩, hplain, ⟨⟩, hzero, ⟨⟩, -,
    ⟨⟩, hrows, ⟨⟩, hn, ⟨⟩, hcus, ⟨⟩, ⟨h1, -, -, h4, -⟩, ⟨⟩, hi5, hr⟩ := h
  exact ⟨x, c, hx, hc, ⟨hopx, hopc, hdeps, hplain, hzero, hrows, u32_some hn, hcus, h1, h4, hi5, hr⟩,
    hsucc⟩

theorem residualPair_at {d : Unit} (h : residualPair ops p = some d) {x c : Op}
    (hx : ops[p]? = some x) (hc : ops[p + 1]? = some c) : ResidualPair p x c := by
  obtain ⟨x', c', hx', hc', hp⟩ := residualPair_spec h
  rw [hx] at hx'
  rw [hc] at hc'
  cases hx'
  cases hc'
  exact hp

theorem xreducePair_at {r : ℕ} (h : xreducePair ops p = some r) {x c : Op}
    (hx : ops[p]? = some x) (hc : ops[p + 1]? = some c) : XreducePair p x c r := by
  obtain ⟨x', c', hx', hc', hp, -⟩ := xreducePair_spec h
  rw [hx] at hx'
  rw [hc] at hc'
  cases hx'
  cases hc'
  exact hp

theorem residualPair_lt (h : (residualPair ops p).isSome) : p + 1 < ops.length := by
  obtain ⟨d, hd⟩ := isSome_iff_exists.mp h
  obtain ⟨x, c, -, hc, -⟩ := residualPair_spec hd
  exact (List.getElem?_eq_some_iff.mp hc).1

theorem xreducePair_lt (h : (xreducePair ops p).isSome) : p + 1 < ops.length := by
  obtain ⟨d, hd⟩ := isSome_iff_exists.mp h
  obtain ⟨x, c, -, hc, -⟩ := xreducePair_spec hd
  exact (List.getElem?_eq_some_iff.mp hc).1

end

/-! ### The loop -/

section
variable {D : Type} {pair : ℕ → Option D} {into : Op → Op → D → Op} {ops : List Op}

theorem getElem?_of_drop {idx : ℕ} {x : Op} {r : List Op} (h : ops.drop idx = x :: r) :
    ops[idx]? = some x := by
  have := congrArg (·[0]?) h
  simpa using this

theorem drop_of_drop {idx : ℕ} {x : Op} {r : List Op} (h : ops.drop idx = x :: r) :
    ops.drop (idx + 1) = r := by
  rw [← drop_drop, h]
  rfl

theorem remap_eq {map map' : ℕ → ℕ} {deps : List Dep} (h : ∀ d ∈ deps, map d.producer = map' d.producer) :
    deps.map (Dep.remap map) = deps.map (Dep.remap map') := by
  apply map_congr_left
  intro d hd
  have := h d hd
  cases d with
  | coarse c => exact congrArg Dep.coarse this
  | fine p m => exact congrArg (Dep.fine · m) this

variable (hpair : ∀ i, (pair i).isSome → i + 1 < ops.length)
include hpair

theorem second_lt (i : ℕ) (h : second pair i = true) : i < ops.length := by
  cases i with
  | zero => cases h
  | succ i => exact hpair i (pair_of_second h)

theorem second_length : second pair ops.length = false := by
  by_contra h
  exact Nat.lt_irrefl _ (second_lt hpair _ (by simpa using h))

/-- What the loop has put out, and what it puts out for the rest. -/
theorem fuseLoop_spec (ht : Topological ops) (idx : ℕ) (map : ℕ → ℕ) (out l : List Op)
    (hl : ops.drop idx = l) (hidx : idx ≤ ops.length) (hs : second pair idx = false)
    (hmap : ∀ j < idx, map j = target pair j) (hout : out.length = target pair idx) :
    (fuseLoop pair into idx map out l).length = target pair ops.length ∧
      (∀ j < out.length, (fuseLoop pair into idx map out l)[j]? = out[j]?) ∧
      ∀ i, ∀ op : Op, idx ≤ i → ops[i]? = some op → second pair i = false →
        (fuseLoop pair into idx map out l)[target pair i]? =
          some (renumbered pair into ops i op) := by
  induction idx, map, out, l using fuseLoop.induct pair into with
  | case1 idx map out =>
    have hle : ops.length ≤ idx := drop_eq_nil_iff.mp hl
    obtain rfl : idx = ops.length := Nat.le_antisymm hidx hle
    rw [fuseLoop]
    refine ⟨hout, fun _ _ => rfl, fun i op hi hop _ => ?_⟩
    exact absurd (List.getElem?_eq_some_iff.mp hop).1 (by omega)
  | case2 idx map out x =>
    have hx := getElem?_of_drop hl
    have hlt := (List.getElem?_eq_some_iff.mp hx).1
    have hlen : idx + 1 = ops.length := by
      have := congrArg List.length hl
      rw [length_drop] at this
      change ops.length - idx = 1 at this
      omega
    have hnone : pair idx = none := by
      by_contra hsome
      exact absurd (hpair idx (isSome_iff_ne_none.mpr hsome)) (by omega)
    have hfirst : second pair (idx + 1) = false := hlen ▸ second_length hpair
    have hdeps : x.deps.map (Dep.remap map) = x.deps.map (Dep.remap (target pair)) :=
      remap_eq fun d hd => hmap _ (ht idx x hx d hd)
    rw [fuseLoop]
    refine ⟨?_, fun j hj => getElem?_append_left hj, fun i op hi hop _ => ?_⟩
    · rw [length_append, hout, ← hlen, target_first hfirst]
      rfl
    · obtain rfl : i = idx := by
        have := (List.getElem?_eq_some_iff.mp hop).1
        omega
      rw [hx] at hop
      cases hop
      rw [← hout, getElem?_append_right le_rfl, Nat.sub_self, hdeps]
      unfold renumbered fusedOp
      rw [hnone, hout]
      rfl
  | case3 idx map out x c rest d hd ih =>
    have hx := getElem?_of_drop hl
    have hc := getElem?_of_drop (drop_of_drop hl)
    have h1 : second pair (idx + 1) = true := second_of_pair hs (by rw [hd]; rfl)
    have h2 : second pair (idx + 2) = false := by
      rw [second_succ, h1]
      rfl
    have hdeps : x.deps.map (Dep.remap map) = x.deps.map (Dep.remap (target pair)) :=
      remap_eq fun d hd => hmap _ (ht idx x hx d hd)
    rw [fuseLoop, hd]
    obtain ⟨hlen, hold, hnew⟩ := ih (drop_of_drop (drop_of_drop hl))
      (List.getElem?_eq_some_iff.mp hc).1 h2
      (by
        intro j hj
        by_cases hj1 : j = idx + 1
        · rw [hj1, update_self, target_second h1, hout]
        · rw [update_of_ne hj1]
          by_cases hj0 : j = idx
          · rw [hj0, update_self, hout]
          · rw [update_of_ne hj0]
            exact hmap j (by omega))
      (by rw [length_append, hout, target_first h2, target_second h1]; rfl)
    refine ⟨hlen, fun j hj => ?_, fun i op hi hop hsec => ?_⟩
    · rw [← getElem?_append_left hj]
      exact hold j (by rw [length_append]; omega)
    · by_cases hi0 : i = idx
      · subst hi0
        rw [hx] at hop
        cases hop
        have hat := hold (target pair i) (by
          rw [length_append, hout]
          exact Nat.lt_succ_self _)
        refine hat.trans ?_
        rw [← hout, getElem?_append_right le_rfl, Nat.sub_self, hdeps]
        unfold renumbered fusedOp
        rw [hd, hc, hout]
        rfl
      · have hi1 : i ≠ idx + 1 := by
          rintro rfl
          rw [h1] at hsec
          cases hsec
        exact hnew i op (by omega) hop hsec
  | case4 idx map out x c rest hd ih =>
    have hx := getElem?_of_drop hl
    have hlt := (List.getElem?_eq_some_iff.mp hx).1
    have h1 : second pair (idx + 1) = false := by
      rw [second_succ, hd]
      exact Bool.and_false _
    have hdeps : x.deps.map (Dep.remap map) = x.deps.map (Dep.remap (target pair)) :=
      remap_eq fun d hd => hmap _ (ht idx x hx d hd)
    rw [fuseLoop, hd]
    obtain ⟨hlen, hold, hnew⟩ := ih (drop_of_drop hl) hlt h1
      (by
        intro j hj
        by_cases hj0 : j = idx
        · rw [hj0, update_self, hout]
        · rw [update_of_ne hj0]
          exact hmap j (by omega))
      (by rw [length_append, hout, target_first h1]; rfl)
    refine ⟨hlen, fun j hj => ?_, fun i op hi hop hsec => ?_⟩
    · rw [← getElem?_append_left hj]
      exact hold j (by rw [length_append]; omega)
    · by_cases hi0 : i = idx
      · subst hi0
        rw [hx] at hop
        cases hop
        have hat := hold (target pair i) (by
          rw [length_append, hout]
          exact Nat.lt_succ_self _)
        refine hat.trans ?_
        rw [← hout, getElem?_append_right le_rfl, Nat.sub_self, hdeps]
        unfold renumbered fusedOp
        rw [hd, hout]
        rfl
      · exact hnew i op (by omega) hop hsec

end

end Plow.Devbuild
