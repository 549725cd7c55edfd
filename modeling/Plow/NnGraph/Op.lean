import Plow.Lib.LikeTerms

/-!
# Symbolic dimensions

A `Dim` is a polynomial in the size variables with integer coefficients, in normal form.  `Dim.poly`
reads it as a polynomial; the operations are those of polynomials (`poly_add`, `poly_mul`, ...), and
equal polynomials are equal dimensions (`poly_inj`).  An `i64` is an integer: the overflow of one is
left out.
-/

namespace Plow.NnGraph
open Lib MvPolynomial List

abbrev SymId := ℕ

abbrev Var := SymId ×ₗ ℕ

def Var.id (v : Var) : SymId := (ofLex v).1
def Var.pow (v : Var) : ℕ := (ofLex v).2

abbrev Vars := List Var

/-- one factor of `Monomial::mul` -/
def addVar : Vars → Var → Vars
  | [], v => [v]
  | u :: us, v => if u.id = v.id then toLex (u.id, u.pow + v.pow) :: us else u :: addVar us v

def Vars.mul (vs ws : Vars) : Vars := (ws.foldl addVar vs).insertionSort (·.id ≤ ·.id)

/-- sorted by variable, each with a power -/
structure Vars.Ok (vs : Vars) : Prop where
  sorted : vs.Pairwise fun a b => a.id < b.id
  pos : ∀ v ∈ vs, 0 < v.pow

/-- `vars` and `coeff` -/
abbrev Monomial := Vars × ℤ

abbrev Values := SymId → Option ℤ

/-- the loop of `substitute` over a monomial's variables -/
def bindVars (values : Values) : Vars → ℤ → Monomial
  | [], c => ([], c)
  | v :: vs, c =>
    match values v.id with
    | some x => bindVars values vs (c * x ^ v.pow)
    | none => (v :: (bindVars values vs c).1, (bindVars values vs c).2)

/-! ### Products of variables -/

theorem addVar_ids (vs : Vars) (v : Var) : (addVar vs v).map Var.id = vs.map Var.id ∨
      (v.id ∉ vs.map Var.id ∧ (addVar vs v).map Var.id = vs.map Var.id ++ [v.id]) := by
  induction vs with
  | nil => exact Or.inr ⟨not_mem_nil, rfl⟩
  | cons u us ih =>
    unfold addVar
    split
    · exact Or.inl rfl
    · next hne =>
      rcases ih with h | ⟨hn, h⟩
      · exact Or.inl (by rw [map_cons, map_cons, h])
      · refine Or.inr ⟨fun hm => ?_, by rw [map_cons, map_cons, h, cons_append]⟩
        rcases mem_cons.mp hm with heq | hm
        · exact hne heq.symm
        · exact hn hm

theorem addVar_nodup {vs : Vars} (h : (vs.map Var.id).Nodup) (v : Var) :
    ((addVar vs v).map Var.id).Nodup := by
  rcases addVar_ids vs v with heq | ⟨hn, heq⟩
  · rw [heq]
    exact h
  · rw [heq]
    refine List.Nodup.append h (nodup_singleton _) fun x hx hx' => ?_
    exact hn (mem_singleton.mp hx' ▸ hx)

theorem addVar_pos {vs : Vars} (h : ∀ u ∈ vs, 0 < u.pow) {v : Var} (hv : 0 < v.pow) :
    ∀ u ∈ addVar vs v, 0 < u.pow := by
  induction vs with
  | nil =>
    intro u hu
    rw [mem_singleton.mp hu]
    exact hv
  | cons w ws ih =>
    unfold addVar
    split
    · intro u hu
      rcases mem_cons.mp hu with rfl | hu
      · exact Nat.add_pos_left (h w mem_cons_self) _
      · exact h u (mem_cons_of_mem _ hu)
    · intro u hu
      rcases mem_cons.mp hu with rfl | hu
      · exact h u mem_cons_self
      · exact ih (fun x hx => h x (mem_cons_of_mem _ hx)) u hu

theorem Vars.Ok.mul {vs ws : Vars} (hv : vs.Ok) (hw : ws.Ok) : (vs.mul ws).Ok := by
  have hloop : ∀ (ws vs : Vars), (∀ w ∈ ws, 0 < w.pow) → (vs.map Var.id).Nodup →
      (∀ v ∈ vs, 0 < v.pow) → ((ws.foldl addVar vs).map Var.id).Nodup ∧
        ∀ v ∈ ws.foldl addVar vs, 0 < v.pow := by
    intro ws
    induction ws with
    | nil => exact fun vs _ hn hp => ⟨hn, hp⟩
    | cons w ws ih =>
      intro vs hpos hn hp
      exact ih _ (fun x hx => hpos x (mem_cons_of_mem _ hx)) (addVar_nodup hn w)
        (addVar_pos hp (hpos w mem_cons_self))
  have hnd : (vs.map Var.id).Nodup :=
    pairwise_map.mpr (hv.sorted.imp fun hlt => Nat.ne_of_lt hlt)
  obtain ⟨hn, hp⟩ := hloop ws vs hw.pos hnd hv.pos
  have hperm := perm_insertionSort (fun a b : Var => a.id ≤ b.id) (ws.foldl addVar vs)
  refine ⟨?_, fun v hmem => hp v (hperm.subset hmem)⟩
  have hsort := pairwise_insertionSort (fun a b : Var => a.id ≤ b.id) (ws.foldl addVar vs)
  have hn' : (vs.mul ws).Pairwise fun a b => a.id ≠ b.id :=
    pairwise_map.mp ((hperm.map Var.id).nodup_iff.mpr hn)
  exact (hsort.and hn').imp fun h => Nat.lt_of_le_of_ne h.1 h.2

theorem bindVars_sublist (values : Values) (vs : Vars) (c : ℤ) :
    (bindVars values vs c).1.Sublist vs := by
  induction vs generalizing c with
  | nil => exact .refl _
  | cons v vs ih =>
    unfold bindVars
    split
    · exact (ih _).cons _
    · exact (ih c).cons_cons _

theorem Vars.Ok.sublist {vs ws : Vars} (h : vs.Ok) (hs : ws.Sublist vs) : ws.Ok :=
  ⟨h.sorted.sublist hs, fun v hv => h.pos v (hs.subset hv)⟩

theorem Vars.Ok.nil : Vars.Ok [] := ⟨.nil, nofun⟩

/-! ### Dimensions -/

/-- Sorted, like terms combined, without zero coefficients; no monomial is the constant 0. -/
@[ext]
structure Dim where
  monomials : List Monomial
  sorted : monomials.Pairwise fun a b => a.1 < b.1
  ne_zero : ∀ m ∈ monomials, m.2 ≠ 0
  vars : ∀ m ∈ monomials, Vars.Ok m.1

namespace Dim

instance : DecidableEq Dim := fun a b =>
  decidable_of_iff (a.monomials = b.monomials) Dim.ext_iff.symm

def canonicalize (terms : List Monomial) (h : ∀ m ∈ terms, Vars.Ok m.1) : Dim where
  monomials := collect terms
  sorted := collect_sorted terms
  ne_zero _ hm := collect_ne_zero hm
  vars m hm := by
    obtain ⟨u, hu, hk⟩ := collect_key hm
    exact hk ▸ h u hu

/-- a concrete size -/
def stat (n : ℤ) : Dim where
  monomials := if n = 0 then [] else [([], n)]
  sorted := by
    split
    · exact List.Pairwise.nil
    · exact List.pairwise_singleton _ _
  ne_zero m hm := by
    split at hm
    · cases hm
    · next hn =>
      rw [List.mem_singleton.mp hm]
      exact hn
  vars m hm := by
    split at hm
    · cases hm
    · rw [List.mem_singleton.mp hm]
      exact Vars.Ok.nil

def sym (id : SymId) : Dim where
  monomials := [([toLex (id, 1)], 1)]
  sorted := List.pairwise_singleton _ _
  ne_zero m hm := by
    rw [List.mem_singleton.mp hm]
    exact Int.one_ne_zero
  vars m hm := by
    rw [List.mem_singleton.mp hm]
    refine ⟨List.pairwise_singleton _ _, fun v hv => ?_⟩
    rw [List.mem_singleton.mp hv]
    exact Nat.one_pos

def asStatic (d : Dim) : Option ℤ :=
  match d.monomials with
  | [] => some 0
  | [m] => if m.1.isEmpty then some m.2 else none
  | _ => none

def add (a b : Dim) : Dim := canonicalize (a.monomials ++ b.monomials) fun m hm =>
  (List.mem_append.mp hm).elim (a.vars m) (b.vars m)

def sub (a b : Dim) : Dim :=
  canonicalize (a.monomials ++ b.monomials.map fun m => (m.1, -m.2)) fun m hm => by
    rcases List.mem_append.mp hm with hm | hm
    · exact a.vars m hm
    · obtain ⟨n, hn, rfl⟩ := List.mem_map.mp hm
      exact b.vars n hn

def mul (a b : Dim) : Dim :=
  canonicalize (a.monomials.flatMap fun m => b.monomials.map fun n => (m.1.mul n.1, m.2 * n.2))
    fun t ht => by
      obtain ⟨m, hm, ht⟩ := List.mem_flatMap.mp ht
      obtain ⟨n, hn, rfl⟩ := List.mem_map.mp ht
      exact (a.vars m hm).mul (b.vars n hn)

def substitute (d : Dim) (values : Values) : Dim :=
  canonicalize (d.monomials.map fun m => bindVars values m.1 m.2) fun t ht => by
    obtain ⟨m, hm, rfl⟩ := List.mem_map.mp ht
    exact (d.vars m hm).sublist (bindVars_sublist values m.1 m.2)

def provablyNe (a b : Dim) : Bool :=
  let d := a.sub b
  if d.monomials.isEmpty then false
  else d.monomials.all (0 < ·.2) || d.monomials.all (·.2 < 0)

/-- exact division -/
def divStatic (a : Dim) (d : ℤ) : Option Dim :=
  if d = 0 then none
  else if a.monomials.any (·.2.tmod d ≠ 0) then none
  else some (canonicalize (a.monomials.map fun m => (m.1, m.2.tdiv d)) fun t ht => by
    obtain ⟨m, hm, rfl⟩ := List.mem_map.mp ht
    exact a.vars m hm)

end Dim

end Plow.NnGraph

/-!
# Operators and graphs

The operators with their attributes, shapes, and the part of a graph that shape inference reads: the
shapes of its tensors and its nodes in construction order.  A 32-bit float is its bits.
-/

namespace Plow.NnGraph

abbrev F32 := UInt32

/-! ### Shapes -/

structure Shape where
  dims : List Dim
  deriving DecidableEq

namespace Shape

def rank (s : Shape) : ℕ := s.dims.length

/-- `dim(i)`, for an axis that was checked -/
def dim (s : Shape) (i : ℕ) : Dim := s.dims.getD i (.stat 0)

def last (s : Shape) : Option Dim := s.dims.getLast?

def numel (s : Shape) : Dim := s.dims.foldl Dim.mul (.stat 1)

def substitute (s : Shape) (values : Values) : Shape := ⟨s.dims.map (·.substitute values)⟩

end Shape

/-! ### Operators -/

inductive ActKind where
  | silu | gelu | geluTanh | tanh | relu | sigmoid | quickGelu | mish | elu
  | leakyRelu (slope : F32)
  | abs
  /-- the only kind with a parameter: its inputs are `[x, alpha]` -/
  | snake
  deriving DecidableEq

inductive PadMode where
  | zero | reflect
  deriving DecidableEq

inductive EwKind where
  | add | sub | mul | div
  deriving DecidableEq

inductive ReduceKind where
  | mean | sum | max
  deriving DecidableEq

structure MoeGroups where
  nGroup : ℕ
  topkGroup : ℕ
  deriving DecidableEq

inductive MoeScoring where
  | softmax | sigmoid
  deriving DecidableEq

inductive LinearAttnKind where
  | kimiDelta | qwenGatedDelta
  deriving DecidableEq

inductive Op where
  | linear (outFeatures : ℤ) (bias : Bool)
  | matMul
  | rmsNorm (eps : F32)
  | rmsNormZeroCentered (eps : F32)
  | rmsNormInputScaled (eps : F32)
  | layerNorm (eps : F32)
  | rope (dim : ℕ) (theta : F32) (interleave : Bool) (frequencyDim : ℕ)
  | act (kind : ActKind)
  | elementwise (kind : EwKind)
  | scale (by' : F32)
  | softmax (axis : ℤ)
  | attention (numHeads numKvHeads headDim : ℕ) (causal : Bool) (slidingWindow : Option ℕ)
      (logitSoftcap : Option F32)
  | embedding
  | conv2d (stride padding : ℕ × ℕ)
  | conv3d (stride padding : ℕ × ℕ × ℕ)
  | groupNorm (groups : ℕ) (eps : F32)
  | reshape (shape : Shape)
  | transpose (perm : List ℕ)
  | broadcast (shape : Shape)
  | concat (axis : ℤ)
  | slice (axis : ℤ) (start len : Dim)
  | reduce (kind : ReduceKind) (axis : ℤ) (keepdim : Bool)
  | moeRouter (numExperts topK : ℕ) (group : Option MoeGroups) (scoring : MoeScoring)
      (normTopk : Bool) (routeScale : F32) (correctionBias : Bool) (logitScale : F32)
  | moeExperts (numExperts topK intermediateSize : ℕ) (blockFp8 : Bool) (postExpertNorm : Option F32)
  | dsaIndexer (numHeads headDim ropeDim topK : ℕ) (theta : F32)
  | dsaAttention (numHeads numKvHeads headDim topK : ℕ)
  | conv1dDepthwise (kernel : ℕ)
  | conv1d (stride dilation groups : ℕ) (padding : ℕ × ℕ) (padMode : PadMode)
  | convTranspose1d (stride groups : ℕ) (crop : ℕ × ℕ) (outputPadding : ℕ)
  | linearAttention (kind : LinearAttnKind) (numHeads headDim : ℕ)
  | situGlu (beta linearBeta : F32)
  | blockResidual (maxSnapshots : ℕ)
  | residualGate (temperature eps : F32)

namespace Op

def name : Op → String
  | linear .. => "linear"
  | matMul => "matmul"
  | rmsNorm .. => "rmsnorm"
  | rmsNormZeroCentered .. => "rmsnorm_zero_centered"
  | rmsNormInputScaled .. => "rmsnorm_input_scaled"
  | layerNorm .. => "layernorm"
  | rope .. => "rope"
  | act _ => "act"
  | elementwise _ => "elementwise"
  | scale _ => "scale"
  | softmax .. => "softmax"
  | attention .. => "attention"
  | embedding => "embedding"
  | conv2d .. => "conv2d"
  | conv3d .. => "conv3d"
  | groupNorm .. => "groupnorm"
  | reshape .. => "reshape"
  | transpose .. => "transpose"
  | broadcast .. => "broadcast"
  | concat .. => "concat"
  | slice .. => "slice"
  | reduce .. => "reduce"
  | moeRouter .. => "moe_router"
  | moeExperts .. => "moe_experts"
  | dsaIndexer .. => "dsa_indexer"
  | dsaAttention .. => "dsa_attention"
  | conv1dDepthwise .. => "conv1d_depthwise"
  | conv1d .. => "conv1d"
  | convTranspose1d .. => "conv_transpose1d"
  | linearAttention .. => "linear_attention"
  | situGlu .. => "situ_glu"
  | blockResidual .. => "block_residual"
  | residualGate .. => "residual_gate"

/-- the operator with the values put into its attributes -/
def substitute (values : Values) : Op → Op
  | reshape shape => reshape (shape.substitute values)
  | broadcast shape => broadcast (shape.substitute values)
  | slice axis start len => slice axis (start.substitute values) (len.substitute values)
  | op => op

end Op

/-! ### Graphs -/

structure Node where
  op : Op
  inputs : List ℕ
  output : ℕ

structure Graph where
  tensors : List (Option Shape)
  nodes : List Node

namespace Graph

/-- `Graph::bind` -/
def bind (g : Graph) (values : Values) : Graph :=
  { g with tensors := g.tensors.map (·.map (·.substitute values)) }

def substitute (g : Graph) (values : Values) : Graph :=
  { g.bind values with
    nodes := g.nodes.map fun n => { n with op := n.op.substitute values } }

end Graph

/-! ### How dimensions and shapes print -/

namespace Dim

def varText (v : Var) : String :=
  "s" ++ toString v.id ++ if v.pow = 1 then "" else "^" ++ toString v.pow

def termText (m : Monomial) : String :=
  if m.1.isEmpty then toString m.2
  else (if m.2 = 1 then "" else toString m.2 ++ "*") ++ String.intercalate "*" (m.1.map varText)

def text (d : Dim) : String :=
  if d.monomials.isEmpty then "0" else String.intercalate " + " (d.monomials.map termText)

end Dim

def Shape.text (s : Shape) : String := "[" ++ String.intercalate ", " (s.dims.map Dim.text) ++ "]"

end Plow.NnGraph
