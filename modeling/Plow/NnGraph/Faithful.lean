import Plow.NnGraph.Bind

/-!
# Dimensions are the expressions they were built from

A `DimExpr` says how a dimension was built.  Its dimension evaluates as the expression does, every
division coming out even, and two dimensions are the same when their expressions agree everywhere
(`DimExpr.faithful`).
-/

namespace Plow.NnGraph
open Lib MvPolynomial List Option

/-- the ways to build a dimension -/
inductive DimExpr where
  | stat (n : ℤ)
  | sym (id : SymId)
  | add (a b : DimExpr)
  | sub (a b : DimExpr)
  | mul (a b : DimExpr)
  | substitute (a : DimExpr) (values : Values)
  | divStatic (a : DimExpr) (d : ℤ)

namespace DimExpr

/-- `none` when a `div_static` fails -/
def build : DimExpr → Option Dim
  | stat n => some (.stat n)
  | sym id => some (.sym id)
  | add a b => do
    let x ← a.build
    let y ← b.build
    some (x.add y)
  | sub a b => do
    let x ← a.build
    let y ← b.build
    some (x.sub y)
  | mul a b => do
    let x ← a.build
    let y ← b.build
    some (x.mul y)
  | substitute a values => a.build.map (·.substitute values)
  | divStatic a d => a.build.bind (·.divStatic d)

/-- the integer expression -/
def value (v : SymId → ℤ) : DimExpr → ℤ
  | stat n => n
  | sym id => v id
  | add a b => a.value v + b.value v
  | sub a b => a.value v - b.value v
  | mul a b => a.value v * b.value v
  | substitute a values => a.value fun i => (values i).getD (v i)
  | divStatic a d => a.value v / d

/-- every division comes out even -/
def Exact (v : SymId → ℤ) : DimExpr → Prop
  | stat _ | sym _ => True
  | add a b | sub a b | mul a b => a.Exact v ∧ b.Exact v
  | substitute a values => a.Exact fun i => (values i).getD (v i)
  | divStatic a d => a.Exact v ∧ d ≠ 0 ∧ d ∣ a.value v

end DimExpr

namespace Dim
variable {a b d : Dim}

/-- `eval`: known when the symbols of the dimension are -/
def eval (d : Dim) (values : Values) : Option ℤ := (d.substitute values).asStatic

/-- the symbols it refers to -/
def syms (d : Dim) : List SymId := d.monomials.flatMap fun m => m.1.map Var.id

/-! ### Values -/

theorem value_mul (v : ℕ → ℤ) (a b : Dim) : (a.mul b).value v = a.value v * b.value v := by
  rw [value, poly_mul, map_mul]
  rfl

theorem value_sym (v : ℕ → ℤ) (i : SymId) : (sym i).value v = v i := by
  rw [value_eq]
  simp [sym, Var.id, Var.pow]

theorem value_divStatic {q : Dim} {k : ℤ} (h : a.divStatic k = some q) (v : ℕ → ℤ) :
    k ≠ 0 ∧ k * q.value v = a.value v := by
  obtain ⟨hk, heq⟩ := poly_divStatic h
  refine ⟨hk, ?_⟩
  rw [value, value, ← heq, map_mul, eval_C]

theorem value_inj : a = b ↔ ∀ v, a.value v = b.value v :=
  ⟨fun h v => by rw [h], fun h => poly_inj (MvPolynomial.funext h)⟩

theorem substitute_substitute (s t : Values) :
    (a.substitute s).substitute t = a.substitute fun i => (s i).or (t i) := by
  refine value_inj.mpr fun v => ?_
  rw [value_substitute, value_substitute, value_substitute]
  congr 1
  funext i
  cases s i <;> rfl

theorem bindVars_congr {s t : Values} {vs : Vars} (h : ∀ x ∈ vs, s x.id = t x.id) (c : ℤ) :
    bindVars s vs c = bindVars t vs c := by
  induction vs generalizing c with
  | nil => rfl
  | cons x xs ih =>
    unfold bindVars
    rw [h x mem_cons_self]
    cases t x.id <;> simp only [ih fun y hy => h y (mem_cons_of_mem _ hy)]

/-- with all its symbols given, it is its value -/
theorem eval_eq {values : Values} {v : ℕ → ℤ} (h : ∀ i ∈ d.syms, values i = some (v i)) :
    d.eval values = some (d.value v) := by
  have hcongr : d.substitute values = d.substitute fun i => some (v i) := by
    refine Dim.ext (congrArg collect (map_congr_left fun m hm => bindVars_congr (fun x hx => ?_) _))
    exact h _ (mem_flatMap.mpr ⟨m, hm, mem_map.mpr ⟨x, hx, rfl⟩⟩)
  have hstat : (d.substitute fun i => some (v i)) = stat (d.value v) := by
    refine value_inj.mpr fun w => ?_
    rw [value_substitute, value_stat]
    rfl
  rw [eval, hcongr, hstat, asStatic_stat]

end Dim

namespace DimExpr
variable {e f : DimExpr} {a b : Dim}

theorem build_value (h : e.build = some a) (v : SymId → ℤ) : a.value v = e.value v ∧ e.Exact v := by
  induction e generalizing a v with
  | stat n =>
    cases h
    exact ⟨Dim.value_stat v n, trivial⟩
  | sym id =>
    cases h
    exact ⟨Dim.value_sym v id, trivial⟩
  | add e f ihe ihf =>
    obtain ⟨x, hx, y, hy, heq⟩ := by simpa [build, bind_eq_some_iff] using h
    subst heq
    rw [Dim.value_add, (ihe hx v).1, (ihf hy v).1]
    exact ⟨rfl, (ihe hx v).2, (ihf hy v).2⟩
  | sub e f ihe ihf =>
    obtain ⟨x, hx, y, hy, heq⟩ := by simpa [build, bind_eq_some_iff] using h
    subst heq
    rw [Dim.value_sub, (ihe hx v).1, (ihf hy v).1]
    exact ⟨rfl, (ihe hx v).2, (ihf hy v).2⟩
  | mul e f ihe ihf =>
    obtain ⟨x, hx, y, hy, heq⟩ := by simpa [build, bind_eq_some_iff] using h
    subst heq
    rw [Dim.value_mul, (ihe hx v).1, (ihf hy v).1]
    exact ⟨rfl, (ihe hx v).2, (ihf hy v).2⟩
  | substitute e values ih =>
    obtain ⟨x, hx, rfl⟩ := map_eq_some_iff.mp h
    rw [Dim.value_substitute]
    exact ih hx _
  | divStatic e d ih =>
    obtain ⟨x, hx, hdiv⟩ := bind_eq_some_iff.mp h
    obtain ⟨hd, heq⟩ := Dim.value_divStatic hdiv v
    obtain ⟨hval, hexact⟩ := ih hx v
    rw [hval] at heq
    exact ⟨(Int.ediv_eq_of_eq_mul_right hd heq.symm).symm, hexact, hd, ⟨_, heq.symm⟩⟩

/-- However two dimensions were built: they evaluate as their expressions, they are equal when these
agree everywhere, bindings compose, and `provably_ne` is right for positive sizes. -/
theorem faithful (ha : e.build = some a) (hb : f.build = some b) : (∀ v, e.Exact v) ∧
      (∀ v values, (∀ i ∈ a.syms, values i = some (v i)) → a.eval values = some (e.value v)) ∧
      (a = b ↔ ∀ v, e.value v = f.value v) ∧
      (∀ s t, (a.substitute s).substitute t = a.substitute fun i => (s i).or (t i)) ∧
      (a.provablyNe b = true → ∀ v, (∀ i, 0 < v i) → e.value v ≠ f.value v) := by
  have hva v : a.value v = e.value v := (build_value ha v).1
  have hvb v : b.value v = f.value v := (build_value hb v).1
  refine ⟨fun v => (build_value ha v).2, fun v values h => ?_, ?_, Dim.substitute_substitute, ?_⟩
  · rw [← hva]
    exact Dim.eval_eq h
  · simp only [← hva, ← hvb]
    exact Dim.value_inj
  · intro hne v hv
    rw [← hva, ← hvb]
    exact Dim.provablyNe_value hne hv

/-- `(2·B·S + 4·B) / 2` and `B·(S + 2)` are one dimension -/
theorem faithful_factored :
    let e := divStatic (add (mul (stat 2) (mul (sym 0) (sym 1))) (mul (stat 4) (sym 0))) 2
    let f := mul (sym 0) (add (sym 1) (stat 2))
    e.build = f.build ∧ ∀ v, e.Exact v ∧ e.value v = f.value v := by
  intro e f
  have heq : e.build = f.build := by decide +kernel
  obtain ⟨b, hb⟩ : ∃ b, f.build = some b := ⟨_, rfl⟩
  have hall := faithful (heq.trans hb) hb
  exact ⟨heq, fun v => ⟨hall.1 v, hall.2.2.1.mp rfl v⟩⟩

end DimExpr

end Plow.NnGraph
