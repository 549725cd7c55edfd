import Plow.Devbuild.Groups

/-!
# Running the operations in order

`exec` is what the interpreter does for an instruction, over tensors of elements: a `Residual` adds,
an `AttnRes` mixes rows, an `XReduceTwoShot` sums over the ranks.  The arithmetic of the elements is
a parameter (`Kernels`), and so is every other opcode.  A missing operand, a handle that does not
fit the wire and a trap are `none`.

The interpreter is the one built without the banded arm of `AttnRes` (its sixth immediate).
-/

namespace Plow.Devbuild
open Option hiding guard
open Function

abbrev Mem (V : Type) : Type := ℕ → ℕ → V

/-- what the kernels compute for one element; scales and epsilons are the bits of an `f32` -/
structure Kernels (V : Type) where
  /-- the scaled sum, rounded -/
  sum : ℕ → V → V → V
  sum_comm : ∀ scale a b, sum scale a b = sum scale b a
  /-- the sum over the ranks, of a slot of length `n` -/
  reduce : (n ranks slot gateRs gateAg : ℕ) → Mem V → ℕ → V
  /-- the softmax mix over the rows of the ring and the running sum, normed if there is a gamma -/
  mix : (hidden nb cap eps : ℕ) → (running ring score : ℕ → V) → Option (ℕ → V) → ℕ → V
  poison : V
  other : DevInst → Mem V → Option (Mem V)

def Mem.write {V : Type} (s : Mem V) (t n : ℕ) (f : ℕ → V) : Mem V :=
  Function.update s t fun e => if e < n then f e else s t e

def operand (h : ℕ) : Option (Option ℕ) :=
  if h = tensorNone then some none else if h < tensorNoneI then some (some h) else none

def required (h : ℕ) : Option ℕ := (operand h).bind id

def operandI (i : ℕ) : Option ℕ := if i = tensorNoneI then none else some i

def oneF32 : ℕ := 0x3f800000

def attnResMaxB : ℕ := 16

namespace Kernels
variable {V : Type} (K : Kernels V)

/-- `a + b`, and behind an outer addend -/
def addend (scale : ℕ) (pre : Option V) (a b : V) : V :=
  match pre with
  | none => K.sum scale a b
  | some p => K.sum scale p (K.sum oneF32 a b)

/-- `d_residual` -/
def residual (d : DevInst) (s : Mem V) : Option (Mem V) := do
  let out ← required (d.t 0)
  let a ← required (d.t 1)
  let b ← required (d.t 2)
  let pre ← operand (d.t 3)
  return s.write out (d.i 0) fun e => K.addend (d.f 0) (pre.map fun p => s p e) (s a e) (s b e)

/-- `d_materialize_residual`, if the seam is given -/
def materialize (d : DevInst) (s : Mem V) : Option (Mem V) :=
  (operand (d.t 6)).bind fun seam =>
    match seam with
    | none => some s
    | some a => do
      let b ← required (d.t 7)
      let out ← required (d.t 1)
      return s.write out (d.i 0 * d.i 1) fun e =>
        K.addend oneF32 ((operandI (d.i 5)).map fun p => s p e) (s a e) (s b e)

/-- the row a snapshot layer pushes onto the ring of each token -/
def pushed (rows hidden cap ring : ℕ) (push : Option (ℕ × ℕ)) (s : Mem V) : Mem V :=
  match push with
  | none => s
  | some (src, row) => Function.update s ring fun e =>
      if e / hidden % cap = row ∧ e / hidden / cap < rows then
        s src (e / hidden / cap * hidden + e % hidden)
      else s ring e

/-- `d_attn_res` -/
def attn (rows hidden nb cap eps out running ring score : ℕ) (push : Option (ℕ × ℕ))
    (gamma : Option ℕ) (s : Mem V) : Mem V :=
  if attnResMaxB < nb ∨ cap < nb ∨ push.any (fun p => cap ≤ p.2) then
    s.write out (rows * hidden) fun _ => K.poison
  else
    let s := pushed rows hidden cap ring push s
    s.write out (rows * hidden)
      (K.mix hidden nb cap eps (s running) (s ring) (s score) (gamma.map s))

def attnRes (d : DevInst) (s : Mem V) : Option (Mem V) := do
  let s ← K.materialize d s
  let out ← required (d.t 0)
  let running ← required (d.t 1)
  let ring ← required (d.t 2)
  let score ← required (d.t 3)
  let src ← operand (d.t 4)
  let gamma ← operand (d.t 5)
  -- a row without columns has no mean
  guard (d.i 1 ≠ 0)
  return K.attn (d.i 0) (d.i 1) (d.i 2) (d.i 4) (d.f 0) out running ring score
    (src.map fun src => (src, d.i 3)) gamma s

def plainXreduce (d : DevInst) : Bool :=
  decide ((∀ k : Fin 8, 1 ≤ k → d.t k = tensorNone) ∧ ∀ k : Fin 8, 5 ≤ k → d.i k = 0)

def reduced (d : DevInst) (s : Mem V) : ℕ → V :=
  K.reduce (d.i 0) (d.i 1) (d.i 2) (d.i 3) (d.i 4) s

/-- `d_xreduce_twoshot`, with the row consumer of `plow_xreduce_attnres` -/
def xreduce (d : DevInst) (s : Mem V) : Option (Mem V) := do
  let out ← required (d.t 0)
  let resid ← operand (d.t 1)
  let running ← operand (d.t 6)
  match running with
  | none =>
    if plainXreduce d then some (s.write out (d.i 0) (K.reduced d s)) else K.other d s
  | some running => do
    let o ← required (d.t 2)
    let ring ← required (d.t 3)
    let score ← required (d.t 4)
    let gamma ← operand (d.t 5)
    guard (d.i 5 ≠ 0 ∧ d.i 0 % d.i 5 = 0 ∧ d.i 0 / d.i 5 % d.i 1 = 0)
    let s1 := s.write out (d.i 0) (K.reduced d s)
    let s2 := s1.write running (d.i 0) fun e =>
      match resid with
      | some r => K.sum oneF32 (s1 r e) (K.reduced d s e)
      | none => K.reduced d s e
    return K.attn (d.i 0 / d.i 5) (d.i 5) (d.i 6) (d.i 7) (d.f 0) o running ring score none gamma s2

def exec (d : DevInst) (s : Mem V) : Option (Mem V) :=
  if d.op = opResidual then K.residual d s
  else if d.op = opAttnRes then K.attnRes d s
  else if d.op = opXReduceTwoShot then K.xreduce d s
  else K.other d s

def run : List Op → Mem V → Option (Mem V)
  | [], s => some s
  | op :: ops, s => (K.exec op.inst s).bind (run ops)

end Kernels

/-! ### A pair and what it becomes -/

section
variable {V : Type} {K : Kernels V} {s s' : Mem V} {ops : List Op} {p : ℕ}

theorem required_eq_some {h x : ℕ} : required h = some x ↔ operand h = some (some x) := by
  unfold required
  rw [bind_eq_some_iff]
  constructor
  · rintro ⟨_, ho, rfl⟩
    exact ho
  · intro ho
    exact ⟨_, ho, rfl⟩

theorem operand_some {h x : ℕ} (he : operand h = some (some x)) : x = h ∧ h < tensorNoneI := by
  unfold operand at he
  split at he
  · cases he
  · split at he
    next hlt =>
      cases he
      exact ⟨rfl, hlt⟩
    next => cases he

theorem operand_none {h : ℕ} (he : operand h = some none) : h = tensorNone := by
  unfold operand at he
  split at he
  next heq => exact heq
  next =>
    split at he <;> cases he

@[simp] theorem operand_tensorNone : operand tensorNone = some none := if_pos rfl

theorem operandI_outer {h : ℕ} {pre : Option ℕ} (he : operand h = some pre) :
    operandI (if h = tensorNone then tensorNoneI else h) = pre := by
  cases pre with
  | none =>
    rw [operand_none he, if_pos rfl]
    exact if_pos rfl
  | some x =>
    obtain ⟨rfl, hlt⟩ := operand_some he
    rw [if_neg (by unfold tensorNoneI at hlt; unfold tensorNone; omega)]
    exact if_neg (Nat.ne_of_lt hlt)

/-- The residual and the mix behind it are the mix that materializes the residual. -/
theorem exec_residual {x c : Op} (hp : ResidualPair p x c)
    (h : (K.exec x.inst s).bind (K.exec c.inst) = some s') :
    K.exec (intoAttnRes x c ()).inst s = some s' := by
  have hopx := hp.producer
  have hopc := hp.consumer
  obtain ⟨s1, h1, h2⟩ := bind_eq_some_iff.mp h
  unfold Kernels.exec at h1 h2 ⊢
  rw [if_pos hopx] at h1
  have hne : ¬ c.inst.op = opResidual := by rw [hopc]; decide
  have hop : (intoAttnRes x c ()).inst.op = opAttnRes := hopc
  rw [if_neg hne, if_pos hopc] at h2
  rw [if_neg (show ¬ (intoAttnRes x c ()).inst.op = opResidual from hne), if_pos hop]
  unfold Kernels.residual at h1
  simp only [bind_eq_bind, bind_eq_some_iff, pure_def] at h1
  obtain ⟨out, ho, a, ha', b, hb', pre, hpre, h1⟩ := h1
  have hmat : K.materialize (intoAttnRes x c ()).inst s = some s1 := by
    unfold Kernels.materialize
    have h6' : (intoAttnRes x c ()).inst.t 6 = x.inst.t 1 := rfl
    have h7' : (intoAttnRes x c ()).inst.t 7 = x.inst.t 2 := rfl
    have h1' : (intoAttnRes x c ()).inst.t 1 = x.inst.t 0 := hp.out.symm
    have h5' : (intoAttnRes x c ()).inst.i 5 =
      (if x.inst.t 3 = tensorNone then tensorNoneI else x.inst.t 3) := rfl
    have hlen : (intoAttnRes x c ()).inst.i 0 * (intoAttnRes x c ()).inst.i 1 = x.inst.i 0 :=
      hp.size
    rw [h6', h7', h1', h5', hlen, required_eq_some.mp ha', hb', ho, operandI_outer hpre, ← h1,
      hp.scale]
    rfl
  have hsame : K.materialize c.inst s1 = some s1 := by
    unfold Kernels.materialize
    rw [hp.seam.1]
    rfl
  unfold Kernels.attnRes at h2 ⊢
  rw [hsame] at h2
  rw [hmat]
  exact h2

theorem xreduceResidual_cases {x c : DevInst} {r : ℕ} (h : xreduceResidual x c = some r) :
    (c.t 6 = x.t 0 ∧ c.t 7 = r ∧ r ≠ tensorNone) ∨ (c.t 7 = x.t 0 ∧ c.t 6 = r ∧ r ≠ tensorNone) ∨
      (c.t 6 = tensorNone ∧ c.t 7 = tensorNone ∧ c.t 1 = x.t 0 ∧ r = tensorNone) := by
  unfold xreduceResidual at h
  split at h
  next h' =>
    cases h
    exact Or.inl ⟨h'.1, rfl, h'.2⟩
  next =>
    split at h
    next h' =>
      cases h
      exact Or.inr (Or.inl ⟨h'.1, rfl, h'.2⟩)
    next =>
      split at h
      next h' =>
        cases h
        exact Or.inr (Or.inr ⟨h'.1, h'.2.1, h'.2.2, rfl⟩)
      next => cases h

/-- What the mix materializes is what the reduction with its addend does. -/
theorem materialize_xreduce {x c : DevInst} {r out running n : ℕ} {red : ℕ → V} {s1 : Mem V}
    (hr : xreduceResidual x c = some r) (ho : operand (x.t 0) = some (some out))
    (hi5 : c.i 5 = tensorNoneI) (hn : c.i 0 * c.i 1 = n)
    (hm : K.materialize c (s.write out n red) = some s1) (hrun : required (c.t 1) = some running) :
    ∃ resid, operand r = some resid ∧ s1 = (s.write out n red).write running n fun e =>
      match resid with
      | some r => K.sum oneF32 (s.write out n red r e) (red e)
      | none => red e := by
  unfold Kernels.materialize at hm
  -- what has been written is read below `n` only
  have hred : ∀ e < n, s.write out n red out e = red e := by
    intro e he
    unfold Mem.write
    rw [update_self]
    exact if_pos he
  have hwrite : ∀ f g : ℕ → V, (∀ e < n, f e = g e) →
      (s.write out n red).write running n f = (s.write out n red).write running n g := by
    intro f g hfg
    refine congrArg (update _ running) (funext fun e => ?_)
    by_cases he : e < n
    · rw [if_pos he, if_pos he, hfg e he]
    · rw [if_neg he, if_neg he]
  have hpre : operandI (c.i 5) = none := if_pos hi5
  rw [hpre, hn] at hm
  rcases xreduceResidual_cases hr with ⟨h6, h7, hne⟩ | ⟨h7, h6, hne⟩ | ⟨h6, h7, h1, rfl⟩
  · rw [h6, ho, h7, hrun] at hm
    simp only [bind_some, bind_eq_bind, bind_eq_some_iff, pure_def,
      some.injEq] at hm
    obtain ⟨b, hb, rfl⟩ := hm
    refine ⟨some b, required_eq_some.mp hb, hwrite _ _ fun e he => ?_⟩
    show K.sum oneF32 (s.write out n red out e) (s.write out n red b e) = _
    rw [hred e he, K.sum_comm]
  · rw [h6, h7, hrun] at hm
    simp only [required_eq_some.mpr ho, bind_some, bind_eq_bind,
      bind_eq_some_iff, pure_def] at hm
    obtain ⟨seam, hseam, hm⟩ := hm
    cases seam with
    | none => exact absurd (operand_none hseam) hne
    | some a =>
      cases hm
      refine ⟨some a, hseam, hwrite _ _ fun e he => ?_⟩
      show K.sum oneF32 (s.write out n red a e) (s.write out n red out e) = _
      rw [hred e he]
  · rw [h6] at hm
    cases hm
    refine ⟨none, rfl, ?_⟩
    have hsame : running = out := by
      rw [h1, required_eq_some.mpr ho] at hrun
      exact (some.inj hrun).symm
    subst hsame
    funext t e
    unfold Mem.write
    by_cases ht : t = running
    · subst ht
      simp only [update_self]
      split <;> rfl
    · rw [update_of_ne ht, update_of_ne ht, update_of_ne ht]

/-- The reduction and the mix behind it are the reduction with the mix folded in. -/
theorem exec_xreduce {x c : Op} {r : ℕ} (hp : XreducePair p x c r)
    (h : (K.exec x.inst s).bind (K.exec c.inst) = some s') :
    K.exec (intoXreduce x c r).inst s = some s' := by
  have hopx := hp.producer
  have hopc := hp.consumer
  obtain ⟨s1, h1, h2⟩ := bind_eq_some_iff.mp h
  unfold Kernels.exec at h1 h2 ⊢
  have hx4 : ¬ x.inst.op = opResidual := by rw [hopx]; decide
  have hx104 : ¬ x.inst.op = opAttnRes := by rw [hopx]; decide
  have hc4 : ¬ c.inst.op = opResidual := by rw [hopc]; decide
  rw [if_neg hx4, if_neg hx104, if_pos hopx] at h1
  rw [if_neg hc4, if_pos hopc] at h2
  rw [if_neg (show ¬ (intoXreduce x c r).inst.op = opResidual from hx4),
    if_neg (show ¬ (intoXreduce x c r).inst.op = opAttnRes from hx104),
    if_pos (show (intoXreduce x c r).inst.op = opXReduceTwoShot from hopx)]
  -- the reduction
  unfold Kernels.xreduce at h1
  rw [hp.plain 1 (by decide), hp.plain 6 (by decide)] at h1
  have hpl : Kernels.plainXreduce x.inst = true := decide_eq_true ⟨hp.plain, hp.zero⟩
  simp only [bind_eq_bind, operand_tensorNone, bind_some, hpl, if_true,
    bind_eq_some_iff] at h1
  obtain ⟨out, ho, h1⟩ := h1
  cases h1
  -- the mix
  unfold Kernels.attnRes at h2
  rw [hp.push] at h2
  simp only [bind_eq_bind, operand_tensorNone, bind_some, bind_eq_some_iff,
    guard_eq_some', pure_def, some.injEq, map_none] at h2
  obtain ⟨s2, hm, o, ho2, running, hrun, ring, hring, score, hscore, gamma, hgamma, ⟨⟩, hhid, rfl⟩ :=
    h2
  obtain ⟨resid, hresid, rfl⟩ :=
    materialize_xreduce hp.residual (required_eq_some.mp ho) hp.outer hp.size hm hrun
  have hpos : 0 < c.inst.i 1 := Nat.pos_of_ne_zero hhid
  have hrows : x.inst.i 0 / c.inst.i 1 = c.inst.i 0 := by
    rw [← hp.size]
    exact Nat.mul_div_cancel _ hpos
  unfold Kernels.xreduce
  have e0 : (intoXreduce x c r).inst.t 0 = x.inst.t 0 := rfl
  have e1 : (intoXreduce x c r).inst.t 1 = r := rfl
  have e2 : (intoXreduce x c r).inst.t 2 = c.inst.t 0 := rfl
  have e3 : (intoXreduce x c r).inst.t 3 = c.inst.t 2 := rfl
  have e4 : (intoXreduce x c r).inst.t 4 = c.inst.t 3 := rfl
  have e5 : (intoXreduce x c r).inst.t 5 = c.inst.t 5 := rfl
  have e6 : (intoXreduce x c r).inst.t 6 = c.inst.t 1 := rfl
  have i0 : (intoXreduce x c r).inst.i 0 = x.inst.i 0 := rfl
  have i1 : (intoXreduce x c r).inst.i 1 = x.inst.i 1 := rfl
  have i5 : (intoXreduce x c r).inst.i 5 = c.inst.i 1 := rfl
  have i6 : (intoXreduce x c r).inst.i 6 = c.inst.i 2 := rfl
  have i7 : (intoXreduce x c r).inst.i 7 = c.inst.i 4 := rfl
  have f0 : (intoXreduce x c r).inst.f 0 = c.inst.f 0 := rfl
  have hred : K.reduced (intoXreduce x c r).inst s = K.reduced x.inst s := rfl
  have hguard : guard (c.inst.i 1 ≠ 0 ∧ x.inst.i 0 % c.inst.i 1 = 0 ∧
      x.inst.i 0 / c.inst.i 1 % x.inst.i 1 = 0) = some () := by
    rw [guard_eq_some', hrows, ← hp.size]
    exact ⟨hhid, Nat.mul_mod_left _ _, hp.rows⟩
  rw [e0, e1, e2, e3, e4, e5, e6, i0, i1, i5, i6, i7, f0, hred, ho, hresid,
    required_eq_some.mp hrun, ho2, hring, hscore, hgamma, hrows]
  rw [hrows] at hguard
  simp only [bind_eq_bind, bind_some, hguard]
  rfl

/-! ### The whole loop -/

theorem run_append (a b : List Op) (s : Mem V) : K.run (a ++ b) s = (K.run a s).bind (K.run b) := by
  induction a generalizing s with
  | nil => rfl
  | cons op a ih =>
    show (K.exec op.inst s).bind (K.run (a ++ b)) = _
    rw [funext ih]
    exact (bind_assoc ..).symm

theorem run_push {out : List Op} {op : Op} {s0 s s' : Mem V} (h : K.run out s0 = some s)
    (he : K.exec op.inst s = some s') : K.run (out ++ [op]) s0 = some s' := by
  rw [run_append, h]
  show (K.exec op.inst s).bind _ = _
  rw [he]
  rfl

/-- The loop keeps the run if what becomes of a pair does. -/
theorem fuseLoop_run {D : Type} {pair : ℕ → Option D} {into : Op → Op → D → Op}
    (hpair : ∀ p d, ∀ x c : Op, ops[p]? = some x → ops[p + 1]? = some c → pair p = some d →
      ∀ s s', (K.exec x.inst s).bind (K.exec c.inst) = some s' →
        K.exec (into x c d).inst s = some s')
    (idx : ℕ) (map : ℕ → ℕ) (out l : List Op) (hl : ops.drop idx = l) {s0 s s' : Mem V}
    (h0 : K.run out s0 = some s) (h : K.run l s = some s') :
    K.run (fuseLoop pair into idx map out l) s0 = some s' := by
  induction idx, map, out, l using fuseLoop.induct pair into generalizing s with
  | case1 idx map out =>
    rw [fuseLoop, h0]
    exact h
  | case2 idx map out x =>
    rw [fuseLoop]
    obtain ⟨s1, h1, h2⟩ := bind_eq_some_iff.mp h
    cases h2
    exact run_push h0 h1
  | case3 idx map out x c rest d hd ih =>
    rw [fuseLoop, hd]
    have hx := getElem?_of_drop hl
    have hc := getElem?_of_drop (drop_of_drop hl)
    obtain ⟨s1, h1, h2⟩ := bind_eq_some_iff.mp h
    obtain ⟨s2, h2, h3⟩ := bind_eq_some_iff.mp h2
    have hboth := hpair idx d x c hx hc hd s s2 (bind_eq_some_iff.mpr ⟨s1, h1, h2⟩)
    exact ih (drop_of_drop (drop_of_drop hl)) (run_push h0 hboth) h3
  | case4 idx map out x c rest hd ih =>
    rw [fuseLoop, hd]
    obtain ⟨s1, h1, h2⟩ := bind_eq_some_iff.mp h
    exact ih (drop_of_drop hl) (run_push h0 h1) h2

end

end Plow.Devbuild
