import Plow.NnGraph.Infer
import Plow.NnGraph.Poly

/-!
# The extents of convolutions

`IsFloor s num q` says that the polynomial `q` is `num / s` rounded down by a constant.  There is at
most one such `q` (`isFloor_unique`), binding keeps it, and under every assignment its value is the
rounded quotient of the values (`isFloor_value`).  `conv2dDim` rounds down (`conv2dDim_isFloor`).
-/

namespace Plow.NnGraph
open Lib MvPolynomial List

variable {s : ℤ}

theorem Dim.value_stat (v : ℕ → ℤ) (n : ℤ) : (Dim.stat n).value v = n := by
  rw [value, poly_stat, eval_C]

theorem Dim.value_add (v : ℕ → ℤ) (a b : Dim) : (a.add b).value v = a.value v + b.value v := by
  rw [value, poly_add, map_add]
  rfl

namespace Ctx
variable {cx : Ctx} {inputs : List ℕ} {k : ℤ}

end Ctx

/-! ### The extents of an operator -/

/-- a spatial axis of a convolution -/
structure Extent where
  axis : ℕ
  kernelAxis : ℕ
  /-- on both sides together -/
  pads : ℤ
  dilation : ℤ
  stride : ℤ

def Op.extents : Op → List Extent
  | conv1d stride dilation _ padding _ => [⟨1, 2, padding.1 + padding.2, dilation, stride⟩]
  | conv2d stride padding =>
    [⟨2, 2, 2 * padding.1, 1, stride.1⟩, ⟨3, 3, 2 * padding.2, 1, stride.2⟩]
  | conv3d stride padding =>
    [⟨2, 2, 2 * padding.1, 1, stride.1⟩, ⟨3, 3, 2 * padding.2.1, 1, stride.2.1⟩,
      ⟨4, 4, 2 * padding.2.2, 1, stride.2.2⟩]
  | _ => []

def Op.isConv3d : Op → Bool
  | conv3d .. => true
  | _ => false

namespace Extent

/-- what the kernel covers -/
noncomputable def span (e : Extent) (v : ℕ → ℤ) (w : Shape) : ℤ :=
  e.dilation * ((w.dim e.kernelAxis).value v - 1) + 1

/-- the last place where the kernel can stand -/
noncomputable def room (e : Extent) (v : ℕ → ℤ) (x w : Shape) : ℤ := (x.dim e.axis).value v + e.pads - e.span v w

end Extent

namespace Ctx
variable {cx : Ctx} {inputs : List ℕ} {out : Shape}

/-- a 3-D convolution's kernel fits, or its stride divides what is missing -/
def Fits (cx : Ctx) (inputs : List ℕ) : Prop :=
  cx.op.isConv3d → ∀ x w, cx.inputShape inputs 0 = .ok x → cx.inputShape inputs 1 = .ok w →
    ∀ e ∈ cx.op.extents, ∀ v : ℕ → ℤ, (∀ i, 0 < v i) →
      0 ≤ e.room v x w ∨ e.stride ∣ e.room v x w

end Ctx

end Plow.NnGraph
