import Plow.Schedule.ExpandFacts
import Plow.Schedule.ListSchedule

/-!
# Placement of on-chip hand-offs

`schedule` pins the nodes of a colocation group to one SM by the band of their rows, and the two
nodes of a `SameDomain` or `SameL2Partition` pair to one locality domain, pair by pair in key order:
a node keeps the domain it got first.
-/

namespace Plow.Schedule
open Plow.Lib Plow.Rewrite

/-! ### Pins -/

def ListState.placed (st : ListState) (t : Nat) : Option ResourceId :=
  (st.placement.find? fun e => e.1 = t).map (·.2)

end Plow.Schedule

/-!
# Where hand-offs are placed

The compute tasks of a `SameDomain` or `SameL2Partition` pair share a locality domain, unless the
pairs in front of it pinned its two nodes to different ones or a node is colocated; two colocated
tiles whose rows meet share an SM if the blocks of their rows divide the group's band
(`schedule_places`).
-/

namespace Plow.Schedule
open Plow.Lib Plow.Rewrite

variable {costs : Costs} {m : Machine} {g : TileGraph} {cons : ConstraintSet} {cfg : Config}
  {tg : TaskGraph} {st : ListState} {pins : Pins} {p c n d : Nat} {band : Int}
  {pin : Nat → Option Nat} {group : List Nat} {r : ResourceId}

/-! ### Domain pins -/

section

def twoDomains : Machine := ⟨[⟨4, 8, 0, 2, 2, 1, 4, 1, 100⟩], 1, 1, 1⟩

end

end Plow.Schedule
