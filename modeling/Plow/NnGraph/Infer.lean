import Plow.NnGraph.Op
import Plow.Lib.Results

/-!
# Shape inference

`inferShapes` walks the nodes in construction order and gives each node's output the shape that the
operator's rule finds (`infer`).  A message that reports two dimensions as provably unequal keeps
them (`Msg.differ`).  `panic` is an index out of range or a division by zero.
-/

namespace Plow.NnGraph
open Lib

structure Msg where
  text : String
  /-- the dimensions that were found provably unequal -/
  differ : Option (Dim × Dim) := none

inductive InferError where
  | arity (node : ℕ) (op : String) (expected got : ℕ)
  | missingShape (node : ℕ) (op : String) (idx : ℕ)
  | bad (node : ℕ) (op : String) (msg : Msg)
  | panic

abbrev Infer (α : Type) := Except InferError α

/-- the shapes so far, a node's number and its operator -/
structure Ctx where
  tensors : List (Option Shape)
  ni : ℕ
  op : Op

def require (c : Prop) [Decidable c] (e : InferError) : Infer Unit := if c then .ok () else .error e

namespace Ctx
variable (cx : Ctx)

def err (msg : String) : InferError := .bad cx.ni cx.op.name ⟨msg, none⟩

def agree (a b : Dim) (msg : String) : Infer Unit :=
  if a.provablyNe b then .error (.bad cx.ni cx.op.name ⟨msg, some (a, b)⟩) else .ok ()

def inputShape (inputs : List ℕ) (idx : ℕ) : Infer Shape :=
  match inputs[idx]? with
  | none => .error (.arity cx.ni cx.op.name (idx + 1) inputs.length)
  | some id =>
    match cx.tensors[id]? with
    | none => .error .panic
    | some none => .error (.missingShape cx.ni cx.op.name idx)
    | some (some s) => .ok s

def expectArity (inputs : List ℕ) (n : ℕ) : Infer Unit :=
  require (inputs.length = n) (.arity cx.ni cx.op.name n inputs.length)

def expectArityRange (inputs : List ℕ) (lo hi : ℕ) : Infer Unit :=
  require (lo ≤ inputs.length ∧ inputs.length ≤ hi) (cx.err ("expected between " ++ toString lo ++
    " and " ++ toString hi ++ " inputs, got " ++ toString inputs.length))

def reqStatic (d : Dim) (what : String) : Infer ℤ :=
  match d.asStatic with
  | some n => .ok n
  | none => .error (cx.err (what ++ " must be statically known, got " ++ d.text))

def normalizeAxis (axis : ℤ) (rank : ℕ) : Infer ℕ :=
  let a := if axis < 0 then axis + rank else axis
  if a < 0 ∨ (rank : ℤ) ≤ a then
    .error (cx.err ("axis " ++ toString axis ++ " out of range for rank " ++ toString rank))
  else .ok a.toNat

def broadcastDim : Option Dim → Option Dim → Infer Dim
  | some a, some b =>
    if a = b then .ok a
    else if a.asStatic = some 1 then .ok b
    else if b.asStatic = some 1 then .ok a
    else .error (cx.err ("cannot broadcast dims " ++ a.text ++ " and " ++ b.text))
  | some d, none => .ok d
  | none, some d => .ok d
  | none, none => .error .panic

/-- the loop of `broadcast` and of `broadcast_prefix`, from the right -/
def broadcastDims (a b : List Dim) : Infer (List Dim) :=
  ((List.range (max a.length b.length)).mapM fun i =>
    cx.broadcastDim a.reverse[i]? b.reverse[i]?).map List.reverse

def broadcast (a b : Shape) : Infer Shape := (cx.broadcastDims a.dims b.dims).map Shape.mk

/-- all but the last `tail` dims -/
def broadcastPrefix (a b : Shape) (tail : ℕ) : Infer (List Dim) :=
  cx.broadcastDims (a.dims.take (a.rank - tail)) (b.dims.take (b.rank - tail))

def conv2dDim (input : Dim) (kernel : ℤ) (stride padding : ℕ) : Infer Dim :=
  if stride = 0 then .error (cx.err "conv2d stride must be positive")
  else
    let offset := 2 * (padding : ℤ) - kernel
    match input.asStatic with
    | some input => .ok (.stat ((input + offset) / stride + 1))
    | none =>
      -- only the constant remainder is floored when the symbolic part divides exactly
      match input.divStatic stride with
      | some d => .ok (d.add (.stat (offset / stride + 1)))
      | none =>
        match (input.add (.stat offset)).divStatic stride with
        | some d => .ok (d.add (.stat 1))
        | none => .error (cx.err
            "conv2d cannot represent this symbolic output size; bind the input size first")

/-- one extent of `Conv3d`, whose division truncates -/
def conv3dDim (input kernel : ℤ) (stride padding : ℕ) : Infer Dim :=
  if stride = 0 then .error .panic
  else .ok (.stat ((input + 2 * padding - kernel).tdiv stride + 1))

/-- the bias of a 1-D convolution, when it is there and has a shape -/
def conv1dBias (inputs : List ℕ) (outC : Dim) : Infer Unit :=
  let msg := "conv1d bias must be [" ++ outC.text ++ "]"
  match inputs[2]? with
  | none => .ok ()
  | some b =>
    match cx.tensors[b]? with
    | none => .error .panic
    | some none => .ok ()
    | some (some b) => do
      require (b.rank = 1) (cx.err msg)
      cx.agree (b.dim 0) outC msg

/-- the weight axes of `Conv1d` and of `ConvTranspose1d` differ -/
def conv1dOut (w : Shape) (inAxis : ℕ) (g : ℤ) : Infer Dim :=
  if inAxis = 1 then .ok (w.dim 0)
  else (cx.reqStatic (w.dim 1) "weight output channels").map fun n => .stat (n * g)

/-- `(x, kernel, out_channels)` of a channels-last convolution -/
def conv1dOperands (inputs : List ℕ) (inAxis groups : ℕ) : Infer (Shape × ℤ × Dim) := do
  cx.expectArityRange inputs 2 3
  let x ← cx.inputShape inputs 0
  let w ← cx.inputShape inputs 1
  require (x.rank = 3 ∧ w.rank = 3)
    (cx.err "conv1d expects [B, T, C] input and a rank-3 weight")
  let g : ℤ := max groups 1
  let c ← cx.reqStatic (x.dim 2) "input channels"
  let wIn ← cx.reqStatic (w.dim inAxis) "weight input channels"
  let perGroup := if inAxis = 1 then wIn * g else wIn
  require (c = perGroup ∧ c.tmod g = 0) (cx.err ("conv1d channel mismatch: input " ++ toString c ++
    ", weight " ++ toString wIn ++ " at groups " ++ toString g))
  let k ← cx.reqStatic (w.dim 2) "kernel"
  let outC ← cx.conv1dOut w inAxis g
  cx.conv1dBias inputs outC
  .ok (x, k, outC)

end Ctx

def replaceLast (s : Shape) (last : Dim) : Shape := ⟨s.dims.set (s.dims.length - 1) last⟩

namespace Ctx
variable (cx : Ctx) (inputs : List ℕ)

def inferLinear (outFeatures : ℤ) (bias : Bool) : Infer Shape := do
  cx.expectArity inputs (if bias then 3 else 2)
  let x ← cx.inputShape inputs 0
  require (x.rank ≠ 0) (cx.err "linear input must have rank >= 1")
  .ok (replaceLast x (.stat outFeatures))

def inferMatMul : Infer Shape := do
  cx.expectArity inputs 2
  let a ← cx.inputShape inputs 0
  let b ← cx.inputShape inputs 1
  require (2 ≤ a.rank ∧ 2 ≤ b.rank) (cx.err "matmul operands must have rank >= 2")
  let batch ← cx.broadcastPrefix a b 2
  .ok ⟨batch ++ [a.dim (a.rank - 2), b.dim (b.rank - 1)]⟩

def inferSnake : Infer Shape := do
  cx.expectArity inputs 2
  let x ← cx.inputShape inputs 0
  let alpha ← cx.inputShape inputs 1
  match x.last with
  | none => .error (cx.err "snake input must have rank >= 1")
  | some c =>
    let msg := "snake alpha must be [" ++ c.text ++ "], got Shape" ++ alpha.text
    require (alpha.rank = 1) (cx.err msg)
    cx.agree (alpha.dim 0) c msg
    .ok x

def inferSame (n : ℕ) : Infer Shape := do
  cx.expectArity inputs n
  cx.inputShape inputs 0

def inferRmsNorm : Infer Shape := do
  cx.expectArityRange inputs 1 2
  cx.inputShape inputs 0

def inferAttention : Infer Shape := do
  cx.expectArityRange inputs 3 4
  let q ← cx.inputShape inputs 0
  let k ← cx.inputShape inputs 1
  let v ← cx.inputShape inputs 2
  require (2 ≤ q.rank ∧ 2 ≤ k.rank ∧ 2 ≤ v.rank)
    (cx.err "attention q/k/v must have rank >= 2")
  let qd := q.dim (q.rank - 1)
  let kd := k.dim (k.rank - 1)
  cx.agree qd kd ("attention q/k head dim mismatch: " ++ qd.text ++ " vs " ++ kd.text)
  .ok (replaceLast q (v.dim (v.rank - 1)))

def inferElementwise : Infer Shape := do
  cx.expectArity inputs 2
  let a ← cx.inputShape inputs 0
  let b ← cx.inputShape inputs 1
  cx.broadcast a b

def inferEmbedding : Infer Shape := do
  cx.expectArity inputs 2
  let ids ← cx.inputShape inputs 0
  let table ← cx.inputShape inputs 1
  require (table.rank = 2) (cx.err "embedding table must be rank-2 [vocab, hidden]")
  .ok ⟨ids.dims ++ [table.dim 1]⟩

def inferConv2d (stride padding : ℕ × ℕ) : Infer Shape := do
  cx.expectArityRange inputs 2 3
  let x ← cx.inputShape inputs 0
  let w ← cx.inputShape inputs 1
  require (x.rank = 4 ∧ w.rank = 4) (cx.err "conv2d expects NCHW input and OIHW weight")
  let kh ← cx.reqStatic (w.dim 2) "kernel h"
  let kw ← cx.reqStatic (w.dim 3) "kernel w"
  let oh ← cx.conv2dDim (x.dim 2) kh stride.1 padding.1
  let ow ← cx.conv2dDim (x.dim 3) kw stride.2 padding.2
  .ok ⟨[x.dim 0, w.dim 0, oh, ow]⟩

def inferConv3d (stride padding : ℕ × ℕ × ℕ) : Infer Shape := do
  cx.expectArityRange inputs 2 3
  let x ← cx.inputShape inputs 0
  let w ← cx.inputShape inputs 1
  require (x.rank = 5 ∧ w.rank = 5) (cx.err "conv3d expects NCDHW input and OIDHW weight")
  let kd ← cx.reqStatic (w.dim 2) "kernel d"
  let kh ← cx.reqStatic (w.dim 3) "kernel h"
  let kw ← cx.reqStatic (w.dim 4) "kernel w"
  let id ← cx.reqStatic (x.dim 2) "input d"
  let ih ← cx.reqStatic (x.dim 3) "input h"
  let iw ← cx.reqStatic (x.dim 4) "input w"
  let od ← conv3dDim id kd stride.1 padding.1
  let oh ← conv3dDim ih kh stride.2.1 padding.2.1
  let ow ← conv3dDim iw kw stride.2.2 padding.2.2
  .ok ⟨[x.dim 0, w.dim 0, od, oh, ow]⟩

def inferReshape (shape : Shape) : Infer Shape := do
  let x ← cx.inputShape inputs 0
  cx.agree x.numel shape.numel ("reshape changes element count: " ++ x.numel.text ++ " -> " ++
    shape.numel.text)
  .ok shape

def inferBroadcast (shape : Shape) : Infer Shape := do
  let x ← cx.inputShape inputs 0
  require (x.rank = shape.rank) (cx.err "broadcast target rank != input rank")
  (List.range x.rank).forM fun i =>
    require (x.dim i = shape.dim i ∨ (x.dim i).asStatic = some 1) (cx.err ("axis " ++ toString i ++
      " not broadcastable: " ++ (x.dim i).text ++ " -> " ++ (shape.dim i).text))
  .ok shape

def inferTranspose (perm : List ℕ) : Infer Shape := do
  let x ← cx.inputShape inputs 0
  require (perm.length = x.rank) (cx.err "transpose perm length != input rank")
  require (∀ p ∈ perm, p < x.rank) .panic
  .ok ⟨perm.map x.dim⟩

/-- one further input of `Concat` -/
def concatInput (first : Shape) (ax : ℕ) (dims : List Dim) (i : ℕ) : Infer (List Dim) := do
  let s ← cx.inputShape inputs i
  require (s.rank = first.rank) (cx.err "concat inputs differ in rank")
  (List.range first.rank).forM fun d =>
    if d = ax then .ok ()
    else cx.agree (first.dim d) (s.dim d) ("concat input " ++ toString i ++ " axis " ++ toString d ++
      " mismatch: " ++ (first.dim d).text ++ " vs " ++ (s.dim d).text)
  .ok (dims.modify ax fun d => d.add (s.dim ax))

def inferConcat (axis : ℤ) : Infer Shape := do
  require (2 ≤ inputs.length) (cx.err "concat needs >= 2 inputs")
  let first ← cx.inputShape inputs 0
  let ax ← cx.normalizeAxis axis first.rank
  let dims ← (List.range' 1 (inputs.length - 1)).foldlM (cx.concatInput inputs first ax) first.dims
  .ok ⟨dims⟩

def inBounds (start len d : Dim) : Bool :=
  match start.asStatic, len.asStatic, d.asStatic with
  | some st, some ln, some d => 0 ≤ st && 0 ≤ ln && decide (st + ln ≤ d)
  | _, _, _ => true

def inferSlice (axis : ℤ) (start len : Dim) : Infer Shape := do
  let x ← cx.inputShape inputs 0
  let ax ← cx.normalizeAxis axis x.rank
  require (inBounds start len (x.dim ax)) (cx.err ("slice out of bounds: [" ++ start.text ++ ", " ++
    (start.add len).text ++ ") on axis " ++ toString ax ++ " of size " ++ (x.dim ax).text))
  .ok ⟨x.dims.set ax len⟩

def inferReduce (axis : ℤ) (keepdim : Bool) : Infer Shape := do
  let x ← cx.inputShape inputs 0
  let ax ← cx.normalizeAxis axis x.rank
  .ok ⟨if keepdim then x.dims.set ax (.stat 1) else x.dims.eraseIdx ax⟩

/-- The experts are cut into contiguous equal groups, some of which are kept. -/
def checkGroups (numExperts : ℕ) : Option MoeGroups → Infer Unit
  | none => .ok ()
  | some g => do
    require (¬ (1 < g.nGroup ∧ numExperts % g.nGroup ≠ 0)) (cx.err ("moe_router: num_experts = " ++
      toString numExperts ++ " is not divisible by n_group = " ++ toString g.nGroup ++
      "; group-limited routing partitions the experts into contiguous equal groups and the " ++
      "remainder would belong to none"))
    require (1 ≤ g.topkGroup ∧ g.topkGroup ≤ max g.nGroup 1) (cx.err ("moe_router: topk_group = " ++
      toString g.topkGroup ++ " must be in 1..=n_group = " ++ toString g.nGroup))

def inferMoeRouter (numExperts : ℕ) (group : Option MoeGroups) (correctionBias : Bool) :
    Infer Shape := do
  cx.expectArity inputs (if correctionBias then 3 else 2)
  let x ← cx.inputShape inputs 0
  require (x.rank ≠ 0) (cx.err "moe_router input must have rank >= 1")
  cx.checkGroups numExperts group
  .ok (replaceLast x (.stat numExperts))

def vectorOf (w : Shape) (hidden : Dim) (msg : String) : Infer Unit := do
  require (w.rank = 1) (cx.err msg)
  cx.agree (w.dim 0) hidden msg

def inferMoeExperts (postExpertNorm : Option F32) : Infer Shape := do
  cx.expectArity inputs (if postExpertNorm.isSome then 3 else 2)
  let x ← cx.inputShape inputs 0
  match postExpertNorm with
  | none => .ok x
  | some _ =>
    match x.last with
    | none => .error (cx.err "moe_experts input must have rank >= 1")
    | some hidden =>
      let w ← cx.inputShape inputs 2
      cx.vectorOf w hidden ("moe_experts post_expert_norm weight has shape " ++ w.text ++
        ", expected [" ++ hidden.text ++ "]")
      .ok x

def inferDsaIndexer (numHeads headDim ropeDim topK : ℕ) : Infer Shape := do
  cx.expectArity inputs 7
  let hidden ← cx.inputShape inputs 0
  require (hidden.rank = 3) (cx.err "dsa_indexer hidden input must be [B,S,H]")
  require (numHeads ≠ 0 ∧ headDim ≠ 0 ∧ topK ≠ 0 ∧ ropeDim ≤ headDim)
    (cx.err "dsa_indexer has invalid head/rope/top-k geometry")
  .ok (replaceLast hidden (.stat topK))

def inferDsaAttention (topK : ℕ) : Infer Shape := do
  cx.expectArity inputs 4
  let q ← cx.inputShape inputs 0
  let k ← cx.inputShape inputs 1
  let v ← cx.inputShape inputs 2
  let indices ← cx.inputShape inputs 3
  require (q.rank = 4 ∧ k.rank = 4 ∧ v.rank = 4 ∧ indices.rank = 3)
    (cx.err "dsa_attention expects q/k/v rank 4 and indices rank 3")
  require ((indices.dim 2).asStatic = some topK)
    (cx.err "dsa_attention index width does not match top_k")
  .ok v

def inferConv1dDepthwise (kernel : ℕ) : Infer Shape := do
  cx.expectArityRange inputs 2 3
  let x ← cx.inputShape inputs 0
  let w ← cx.inputShape inputs 1
  require (x.rank = 3) (cx.err "conv1d_depthwise expects [B, S, C]")
  require (w.rank = 3) (cx.err "conv1d_depthwise weight must be [C, 1, kernel]")
  let per ← cx.reqStatic (w.dim 1) "input channels per group"
  require (per = 1) (cx.err ("conv1d_depthwise input channels per group is " ++ (w.dim 1).text ++
    ", expected 1"))
  let kw ← cx.reqStatic (w.dim 2) "kernel"
  require (kw = kernel) (cx.err ("conv1d_depthwise weight kernel is " ++ toString kw ++
    ", op says " ++ toString kernel))
  cx.agree (x.dim 2) (w.dim 0) ("conv1d_depthwise channel mismatch: input " ++ (x.dim 2).text ++
    " vs weight " ++ (w.dim 0).text)
  .ok x

def inferConv1d (stride dilation groups : ℕ) (padding : ℕ × ℕ) : Infer Shape := do
  let (x, k, outC) ← cx.conv1dOperands inputs 1 groups
  let span := (dilation : ℤ) * (k - 1) + 1
  let padded := (x.dim 1).add (.stat ((padding.1 : ℤ) + padding.2 - span))
  match padded.divStatic stride with
  | none => .error (cx.err ("stride " ++ toString stride ++ " does not divide the padded length " ++
      padded.text))
  | some d => .ok ⟨[x.dim 0, d.add (.stat 1), outC]⟩

def inferConvTranspose1d (stride groups : ℕ) (crop : ℕ × ℕ) (outputPadding : ℕ) : Infer Shape := do
  let (x, k, outC) ← cx.conv1dOperands inputs 0 groups
  let outT := (((x.dim 1).sub (.stat 1)).mul (.stat stride)).add
    (.stat (k + outputPadding - crop.1 - crop.2))
  .ok ⟨[x.dim 0, outT, outC]⟩

/-- `k` or `v` of a linear attention against `q` -/
def likeQ (q s : Shape) (name : String) : Infer Unit := do
  require (s.rank = 4) (cx.err ("linear_attention " ++ name ++ " must be rank-4 like q"))
  cx.agree (s.dim 3) (q.dim 3) ("linear_attention " ++ name ++ " head dim " ++ (s.dim 3).text ++
    " != q head dim " ++ (q.dim 3).text)
  (List.range 3).forM fun axis => cx.agree (s.dim axis) (q.dim axis)
    ("linear_attention " ++ name ++ " axis " ++ toString axis ++ " differs from q")

/-- the first axes of the gate or of beta against those of `q` -/
def axesLikeQ (q s : Shape) (rank : ℕ) (name : String) : Infer Unit :=
  (List.range rank).forM fun axis => cx.agree (s.dim axis) (q.dim axis)
    ("linear_attention " ++ name ++ " axis " ++ toString axis ++ " differs from q")

def gateRank : LinearAttnKind → ℕ
  | .kimiDelta => 4
  | .qwenGatedDelta => 3

def kindText : LinearAttnKind → String
  | .kimiDelta => "KimiDelta"
  | .qwenGatedDelta => "QwenGatedDelta"

def dtWidth (nh hd : ℤ) : LinearAttnKind → ℤ
  | .kimiDelta => nh * hd
  | .qwenGatedDelta => nh

def inferLinearAttention (kind : LinearAttnKind) (numHeads headDim : ℕ) : Infer Shape := do
  cx.expectArity inputs 7
  let q ← cx.inputShape inputs 0
  let k ← cx.inputShape inputs 1
  let v ← cx.inputShape inputs 2
  let gate ← cx.inputShape inputs 3
  let beta ← cx.inputShape inputs 4
  let aLog ← cx.inputShape inputs 5
  let dtBias ← cx.inputShape inputs 6
  require (q.rank = 4) (cx.err "linear_attention q must be [B, S, heads, head_dim]")
  cx.likeQ q k "k"
  cx.likeQ q v "v"
  require (gate.rank = gateRank kind) (cx.err ("linear_attention gate must be rank " ++
    toString (gateRank kind) ++ " for " ++ kindText kind))
  cx.axesLikeQ q gate (gateRank kind) "gate"
  -- beta is one scalar per (token, head), not a per-channel gate
  require (beta.rank = 3) (cx.err "linear_attention beta must be [B, S, heads]")
  cx.axesLikeQ q beta 3 "beta"
  let hd ← cx.reqStatic (q.dim 3) "head_dim"
  require (hd = headDim) (cx.err ("linear_attention head_dim is " ++ toString hd ++
    " in the tensors, " ++ toString headDim ++ " on the op"))
  let nh ← cx.reqStatic (q.dim 2) "num_heads"
  require (nh = numHeads) (cx.err ("linear_attention num_heads is " ++ toString nh ++
    " in the tensors, " ++ toString numHeads ++ " on the op"))
  cx.vectorOf aLog (q.dim 2) ("linear_attention A_log shape " ++ aLog.text ++
    " must be [num_heads = " ++ (q.dim 2).text ++ "]")
  let msg := "linear_attention dt_bias shape " ++ dtBias.text ++ " must have width " ++
    toString (dtWidth nh hd kind)
  require (dtBias.rank = 1) (cx.err msg)
  let width ← cx.reqStatic (dtBias.dim 0) "dt_bias width"
  require (width = dtWidth nh hd kind) (cx.err msg)
  .ok (replaceLast q (v.dim 3))

def inferResidualGate : Infer Shape := do
  cx.expectArity inputs 3
  let residual ← cx.inputShape inputs 0
  let h ← cx.inputShape inputs 1
  let out ← cx.broadcast residual h
  match out.last with
  | none => .error (cx.err "residual_gate input must have rank >= 1")
  | some hidden =>
    let gate ← cx.inputShape inputs 2
    cx.vectorOf gate hidden ("residual_gate gate has shape " ++ gate.text ++ ", expected [" ++
      hidden.text ++ "]")
    .ok out

def inferBlockResidual (maxSnapshots : ℕ) : Infer Shape := do
  cx.expectArityRange inputs 3 (3 + maxSnapshots)
  let pre ← cx.inputShape inputs 0
  require (pre.rank ≠ 0) (cx.err "block_residual prefix must have rank >= 1")
  let hidden := pre.dim (pre.rank - 1)
  (List.range' 1 (inputs.length - 3)).forM fun i => do
    let s ← cx.inputShape inputs i
    let msg := "block_residual snapshot " ++ toString i ++ " has shape " ++ s.text ++
      ", expected the prefix shape " ++ pre.text
    require (s.rank = pre.rank) (cx.err msg)
    cx.agree (s.dim (s.rank - 1)) hidden msg
  let norm ← cx.inputShape inputs (inputs.length - 2)
  cx.vectorOf norm hidden ("block_residual norm weight has shape " ++ norm.text ++ ", expected [" ++
    hidden.text ++ "]")
  let proj ← cx.inputShape inputs (inputs.length - 1)
  let msg := "block_residual projection weight has shape " ++ proj.text ++ ", expected [1, " ++
    hidden.text ++ "]"
  require (proj.rank = 2) (cx.err msg)
  let rows ← cx.reqStatic (proj.dim 0) "projection rows"
  require (rows = 1) (cx.err msg)
  cx.agree (proj.dim 1) hidden msg
  .ok pre

/-- `Ctx::infer` -/
def infer : Infer Shape :=
  match cx.op with
  | .linear outFeatures bias => cx.inferLinear inputs outFeatures bias
  | .matMul => cx.inferMatMul inputs
  | .act .snake => cx.inferSnake inputs
  | .act _ => cx.inferSame inputs 1
  | .scale _ => cx.inferSame inputs 1
  | .softmax _ => cx.inferSame inputs 1
  | .rmsNorm _ => cx.inferRmsNorm inputs
  | .rmsNormZeroCentered _ => cx.inferSame inputs 2
  | .rmsNormInputScaled _ => cx.inferSame inputs 2
  | .layerNorm _ => cx.inferSame inputs 3
  | .rope .. => cx.inferSame inputs 1
  | .attention .. => cx.inferAttention inputs
  | .elementwise _ => cx.inferElementwise inputs
  | .embedding => cx.inferEmbedding inputs
  | .conv2d stride padding => cx.inferConv2d inputs stride padding
  | .conv3d stride padding => cx.inferConv3d inputs stride padding
  | .groupNorm .. => cx.inputShape inputs 0
  | .reshape shape => cx.inferReshape inputs shape
  | .broadcast shape => cx.inferBroadcast inputs shape
  | .transpose perm => cx.inferTranspose inputs perm
  | .concat axis => cx.inferConcat inputs axis
  | .slice axis start len => cx.inferSlice inputs axis start len
  | .reduce _ axis keepdim => cx.inferReduce inputs axis keepdim
  | .moeRouter numExperts _ group _ _ _ correctionBias _ =>
    cx.inferMoeRouter inputs numExperts group correctionBias
  | .moeExperts _ _ _ _ postExpertNorm => cx.inferMoeExperts inputs postExpertNorm
  | .dsaIndexer numHeads headDim ropeDim topK _ =>
    cx.inferDsaIndexer inputs numHeads headDim ropeDim topK
  | .dsaAttention _ _ _ topK => cx.inferDsaAttention inputs topK
  | .conv1dDepthwise kernel => cx.inferConv1dDepthwise inputs kernel
  | .conv1d stride dilation groups padding _ =>
    cx.inferConv1d inputs stride dilation groups padding
  | .convTranspose1d stride groups crop outputPadding =>
    cx.inferConvTranspose1d inputs stride groups crop outputPadding
  | .linearAttention kind numHeads headDim => cx.inferLinearAttention inputs kind numHeads headDim
  | .situGlu .. => cx.inferElementwise inputs
  | .residualGate .. => cx.inferResidualGate inputs
  | .blockResidual maxSnapshots => cx.inferBlockResidual inputs maxSnapshots

end Ctx

end Plow.NnGraph
