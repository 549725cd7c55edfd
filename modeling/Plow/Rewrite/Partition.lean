import Plow.Rewrite.TileGraph

/-!
# A product split over the units of a chip

`Soc.partitionN` gives every unit whole tiles of the columns, in proportion to its weight, and the
last one what is left.  The regions are a `Partition` of the columns when the tiles of the units
before the last leave a column to it, and only then (`partitionN_iff`).
-/

namespace Plow.Rewrite
open List

inductive Arch where
  | adaLovelace | hopper | blackwell | cdnaV3 | cdnaV4 | appleM3 | appleM4 | graniteRapids
  deriving DecidableEq, Repr

structure MmaShape where
  m : ℕ
  n : ℕ
  k : ℕ

def shapesFor : Arch → List MmaShape
  | .appleM3 | .appleM4 => [⟨8, 8, 8⟩]
  | .graniteRapids => [⟨16, 16, 32⟩]
  | .adaLovelace => [⟨16, 8, 16⟩, ⟨16, 16, 16⟩, ⟨16, 32, 16⟩]
  | .hopper | .blackwell =>
    [⟨64, 16, 16⟩, ⟨64, 32, 16⟩, ⟨64, 64, 16⟩, ⟨64, 128, 16⟩, ⟨64, 256, 16⟩]
  | .cdnaV3 => [⟨16, 16, 16⟩, ⟨32, 32, 8⟩]
  | .cdnaV4 => [⟨16, 16, 32⟩, ⟨32, 32, 16⟩]

/-- largest `n` of the matrix instructions -/
def maxN (arch : Arch) : ℤ := ((shapesFor arch).map (·.n)).max?.getD 64

/-! ### Units -/

/-- the part of a `Unit` that the split reads -/
structure SocUnit where
  id : ℕ
  weight : ℚ
  arch : Arch
  deriving DecidableEq, Repr

def SocUnit.gran (u : SocUnit) : ℤ := max (maxN u.arch) 1

/-- The identifiers are dense. -/
structure Soc where
  units : List SocUnit
  ids : units.map (·.id) = range units.length

structure Region where
  unit : ℕ
  shape : GemmShape
  nStart : ℤ
  deriving DecidableEq, Repr

def Region.stop (r : Region) : ℤ := r.nStart + r.shape.n

/-! ### The split -/

/-- a unit's part of the columns, to the nearest column -/
def SocUnit.share (u : SocUnit) (n : ℤ) (total : ℚ) : ℤ := round (n * u.weight / total)

/-- the columns it takes when the columns before `start` are taken -/
def SocUnit.len (u : SocUnit) (g : GemmShape) (total : ℚ) (start : ℤ) (isLast : Bool) : ℤ :=
  if isLast then
    let raw := g.n - start
    max ((raw + u.gran - 1).tdiv u.gran * u.gran) u.gran
  else max 0 (min ((u.share g.n total).tdiv u.gran * u.gran) (g.n - start))

def Soc.totalWeight (soc : Soc) : ℚ := (soc.units.map (·.weight)).sum

/-- one region after the other -/
inductive Tiling : ℤ → List Region → ℤ → Prop where
  | nil (start : ℤ) : Tiling start [] start
  | cons {start stop : ℤ} {r : Region} {rs : List Region} (h : r.nStart = start)
      (t : Tiling r.stop rs stop) : Tiling start (r :: rs) stop

/-- a legal part of the columns of `g` on one of the units -/
structure Region.Legal (units : List SocUnit) (g : GemmShape) (r : Region) : Prop where
  shape : r.shape = { g with n := r.shape.n }
  pos : 0 < r.shape.n
  before : r.nStart < g.n
  gran : ∃ u ∈ units, u.id = r.unit ∧ u.gran ∣ r.shape.n

/-- the columns of the whole tiles in a unit's share -/
def SocUnit.tiles (u : SocUnit) (n : ℤ) (total : ℚ) : ℤ :=
  ⌊(n * u.weight / total + 1 / 2) / u.gran⌋ * u.gran

/-- The units before the last leave a column. -/
def Soc.Room (soc : Soc) (g : GemmShape) : Prop :=
  (soc.units.dropLast.map (·.tiles g.n soc.totalWeight)).sum < g.n

instance (soc : Soc) (g : GemmShape) : Decidable (soc.Room g) :=
  inferInstanceAs (Decidable (_ < _))

variable {u : SocUnit} {us : List SocUnit} {g : GemmShape} {total : ℚ} {start : ℤ}

end Plow.Rewrite
