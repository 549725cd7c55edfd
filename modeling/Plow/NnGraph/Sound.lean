import Plow.NnGraph.Bind

/-!
# What a mismatch reports

Every error of shape inference that keeps two dimensions was decided by `provablyNe`
(`inferShapes_honest`).
-/

namespace Plow.NnGraph
open Lib

namespace Ctx
variable {cx : Ctx} {inputs : List ℕ} {α : Type} {f : Unit → Infer α} {msg what : String}

/-! ### The parts of the rules -/

end Ctx

end Plow.NnGraph

/-!
# Symbolic shape inference is sound

The shapes that are found symbolically are, bound, the shapes of the bound graph; dimensions that
were refused as unequal are unequal under every binding.  The extents of a convolution round down,
but for a 3-D kernel that does not fit, whose division truncates.
-/

namespace Plow.NnGraph
open Lib

/-- the nodes that are accepted, each with its context, its inputs and its shape -/
def visits (tensors : List (Option Shape)) (ni : ℕ) : List Node → List (Ctx × List ℕ × Shape)
  | [] => []
  | n :: nodes =>
    match Ctx.infer ⟨tensors, ni, n.op⟩ n.inputs with
    | .error _ => []
    | .ok shape => (⟨tensors, ni, n.op⟩, n.inputs, shape) ::
        visits (tensors.set n.output (some shape)) (ni + 1) nodes

namespace Graph

def Fits (g : Graph) : Prop := ∀ t ∈ visits g.tensors 0 g.nodes, t.1.Fits t.2.1

end Graph

end Plow.NnGraph
