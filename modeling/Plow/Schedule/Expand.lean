import Plow.Rewrite.TileGraph
import Plow.Schedule.Machine

/-!
# From operators to tasks

`expand` makes the tasks of every compute node (one for each tile, for each chunk of rows, or for
the whole op, with the DMA tasks of its boundary) and the edges of every hand-off between two nodes.
`none` is a panic: an index or a key that is not there.

The figures of the cost model are a parameter.  The three maps that the source fills at every
compute task (`node_tasks`, `tile_task` and `chunk_range`) are views of one list.  The resident flag
of an op with two stores, for which the source iterates over a `HashMap`, is that of the last one.
Sums and products of bytes are natural numbers, but for the saturating ones.
-/

namespace Plow.Schedule
open Plow.Rewrite

inductive Granularity where
  | perTile
  | perOp
  | perChunk (k : Nat)
  deriving DecidableEq, Repr

inductive DmaModel where
  | separate
  | collapsed
  deriving DecidableEq, Repr

structure Config where
  granularity : Granularity
  dmaModel : DmaModel
  maxTilesPerOp : Nat
  deriving DecidableEq, Repr

/-- What the cost model says. -/
structure Costs where
  computeCycles : OpKind → Compute → Nat → Nat → Nat → Nat
  hbmCycles : Nat → Nat → Nat
  linkCycles : Nat → Nat
  pageBytes : Nat → Nat

/-! ### Bytes -/

def u64Max : Nat := 2 ^ 64 - 1

def saturatingMul (a b : Nat) : Nat := min (a * b) u64Max

/-- the cast of an `i64` -/
def asU64 (x : Int) : Nat := (x % 2 ^ 64).toNat

/-- `none` for the whole tensor -/
def sliceBytes (s : TensorSlice) (elem : Nat) : Option Nat :=
  if s.ranges = [] then none
  else some ((s.ranges.map fun r => (r.2 - r.1).toNat).prod * elem)

def opElemForInput (kind : OpKind) (idx activationElem weightElem : Nat) : Nat :=
  match kind with
  | .gemm _ => if 1 ≤ idx then weightElem else activationElem
  | .model m =>
    if m.kind = .embedding ∧ idx = 0 then m.inputBytes.getD 0 0 / (max m.rows 1).toNat
    else if m.kind = .embedding ∧ idx = 1 then
      m.inputBytes.getD 1 0 / max (saturatingMul (m.args.getD 0 0) (max m.feat 1).toNat) 1
    else activationElem
  | _ => activationElem

/-- the bytes of a whole input -/
def opInBytes (kind : OpKind) (idx elem : Nat) : Nat :=
  match kind with
  | .gemm g =>
    if idx = 0 then asU64 (g.m * g.k) * elem
    else if idx = 1 then asU64 (g.n * g.k) * elem
    else g.n.toNat * elem
  | .row r => asU64 (r.rows * r.feat) * elem
  | .model m => m.inputBytes.getD idx 0
  | .flash a =>
    if idx = 0 then asU64 (a.heads * a.seqQ * a.headDim) * elem
    else asU64 (a.kvHeads * a.seqKv * a.headDim) * elem
  | .layout s => s.bytes

def opOutBytes (kind : OpKind) (elem : Nat) : Nat :=
  match kind with
  | .gemm g => asU64 (g.m * g.n) * elem
  | .row r => asU64 (r.rows * r.feat) * elem
  | .model m => asU64 (m.rows * m.feat) * elem
  | .flash a => asU64 (a.heads * a.seqQ * a.headDim) * elem
  | .layout s => s.bytes

def accumulatorCols (kind : OpKind) (tile : Compute) : Nat :=
  let elems :=
    match kind, tile with
    | .gemm _, .gemm t => t.bm.toNat * t.bn.toNat
    | .flash a, .flash bq _ => bq.toNat * a.headDim.toNat
    | _, _ => 0
  (elems + 127) / 128

/-! ### Work units -/

/-- One work unit of a compute node. -/
structure WorkUnit where
  coord : List Int
  tiles : Nat
  range : Option (Int × Int)
  deriving DecidableEq, Repr

structure RowChunk where
  coords : List (List Int)
  range : Int × Int
  deriving DecidableEq, Repr

def groupByRowAxis (domain : TileDomain) (coords : List (List Int)) (nChunks : Nat) : List RowChunk :=
  match domain.rowAxis with
  | none => [⟨coords, (0, 0)⟩]
  | some (axis, block) =>
    let row := fun coord : List Int => (coord[axis]?).getD 0
    let nRows := (coords.map fun c => row c + 1).max?.getD 0
    let k := min (max (nChunks : Int) 1) (max nRows 1)
    let extent := domain.rowExtent
    let split := fun b : Int => b * nRows / k
    (intRange k).map fun b =>
      ⟨coords.filter fun c => split b ≤ row c ∧ row c < split (b + 1),
        (min (split b * block) extent, min (split (b + 1) * block) extent)⟩

def Config.fallsBack (cfg : Config) (tiles : Nat) : Bool :=
  decide (0 < cfg.maxTilesPerOp) && decide (cfg.maxTilesPerOp < tiles)

def Config.perOp (cfg : Config) (tiles : Nat) : Bool :=
  cfg.granularity = .perOp || cfg.fallsBack tiles

def workUnits (cfg : Config) (domain : TileDomain) : List WorkUnit :=
  let all := domain.coords
  if cfg.perOp all.length then [⟨all.head?.getD [], max all.length 1, none⟩]
  else
    match cfg.granularity with
    | .perChunk k => (groupByRowAxis domain all k).filterMap fun c =>
      c.coords.head?.map fun coord => ⟨coord, c.coords.length, some c.range⟩
    | _ => all.map fun c => ⟨c, 1, none⟩

/-! ### The boundary of a node -/

def isCompute : Option TileNode → Bool
  | some (.compute ..) => true
  | _ => false

/-- the compute node that a store follows; the last edge counts -/
def producerOf (g : TileGraph) (dmaOut : Nat) : Option Nat :=
  g.edges.reverse.findSome? fun (a, b) =>
    match g.nodes[b]? with
    | some (.dmaOut ..) => if b = dmaOut ∧ isCompute g.nodes[a]? then some a else none
    | _ => none

/-- the compute node that a load feeds; the last edge counts -/
def consumerOf (g : TileGraph) (dmaIn : Nat) : Option Nat :=
  g.edges.reverse.findSome? fun (a, b) =>
    match g.nodes[a]? with
    | some (.dmaIn ..) => if a = dmaIn ∧ isCompute g.nodes[b]? then some b else none
    | _ => none

/-- is the input handed over in SRAM? -/
def residentIn (g : TileGraph) (node : Nat) (tensor : String) : Bool :=
  (g.edges.reverse.findSome? fun (a, b) =>
    match g.nodes[a]? with
    | some (.dmaIn t resident) =>
      if b = node ∧ t = tensor ∧ isCompute g.nodes[b]? then some resident else none
    | _ => none).getD false

/-- does the output stay in SRAM? -/
def outputResident (g : TileGraph) (node : Nat) : Bool :=
  (g.nodes.zipIdx.reverse.findSome? fun (n, d) =>
    match n with
    | .dmaOut _ resident => if producerOf g d = some node then some resident else none
    | _ => none).getD false

/-- What is gathered of a compute node. -/
structure NodeInfo where
  nid : Nat
  op : String
  unit : Nat
  tile : Compute
  passes : Nat
  sramPages : Nat
  desc : OpDesc
  inlineIn : List String
  inlineOut : Bool

/-- The tasks of one work unit. -/
structure UnitTasks where
  dmaIns : List Task
  compute : Task
  dmaOut : Option Task

/-- what becomes of an input: a load task, or bytes that the kernel moves itself -/
def inputTask (costs : Costs) (g : TileGraph) (cfg : Config) (info : NodeInfo) (wu : WorkUnit)
    (perOp : Bool) (fp : Footprint) (e : String × Nat) : Nat × Option Task :=
  let (tname, i) := e
  if residentIn g info.nid tname then (0, none) else
  let elem := opElemForInput info.desc.kind i info.desc.activationElem info.desc.weightElem
  let whole := opInBytes info.desc.kind i elem
  let bytes :=
    if perOp then whole
    else (((fp.reads[i]?).bind (sliceBytes · elem)).map (saturatingMul · wu.tiles)).getD whole
  if bytes = 0 then (0, none)
  else if tname ∈ info.inlineIn ∨ cfg.dmaModel = .collapsed then (bytes, none)
  else
    (0, some {
      node := info.nid
      op := s!"{info.op}.in[{i}]"
      unit := info.unit
      kind := .dmaIn
      coord := wu.coord
      dur := costs.hbmCycles info.unit bytes
      bytes := bytes
      tensorBytes := whole
      sramPages := 0
      outPages := 0
      tmemCols := 0
      tensor := some tname
      crossUnit := false })

def unitTasks (costs : Costs) (m : Machine) (g : TileGraph) (cfg : Config) (info : NodeInfo)
    (perOp : Bool) (wu : WorkUnit) : Option UnitTasks := do
  let hw ← m.units[info.unit]?
  let fp ← footprints info.desc.kind info.tile info.desc.inputs info.desc.output wu.coord
  let dur := saturatingMul
    (costs.computeCycles info.desc.kind info.tile info.unit info.passes info.desc.activationElem) wu.tiles
  let ins := info.desc.inputs.zipIdx.map (inputTask costs g cfg info wu perOp fp)
  let whole := opOutBytes info.desc.kind info.desc.activationElem
  let outBytes :=
    if perOp then whole
    else ((sliceBytes fp.write info.desc.activationElem).map (saturatingMul · wu.tiles)).getD whole
  let pageBytes := max (costs.pageBytes info.unit) 1
  let stored := ¬ outputResident g info.nid ∧ 0 < outBytes
  let folded := cfg.dmaModel = .collapsed ∨ info.inlineOut
  some {
    dmaIns := ins.filterMap (·.2)
    compute := {
      node := info.nid
      op := info.op
      unit := info.unit
      kind := .compute
      coord := wu.coord
      dur := max dur 1
      bytes := (ins.map (·.1)).sum + if stored ∧ folded then outBytes else 0
      tensorBytes := 0
      sramPages := min info.sramPages hw.pagesPerSm
      outPages := (outBytes + pageBytes - 1) / pageBytes
      tmemCols := if 0 < hw.tmemColsPerSm then accumulatorCols info.desc.kind info.tile else 0
      tensor := none
      crossUnit := false }
    dmaOut :=
      if stored ∧ ¬ folded then
        some {
          node := info.nid
          op := s!"{info.op}.out"
          unit := info.unit
          kind := .dmaOut
          coord := wu.coord
          dur := costs.hbmCycles info.unit outBytes
          bytes := outBytes
          tensorBytes := whole
          sramPages := 0
          outPages := 0
          tmemCols := 0
          tensor := some info.desc.output
          crossUnit := false }
      else none }

/-! ### The nodes -/

/-- A work unit and its compute task. -/
structure Placed where
  node : Nat
  unit : WorkUnit
  task : Nat
  deriving DecidableEq, Repr

structure ExpandState where
  tg : TaskGraph
  placed : List Placed

/-- `node_tasks` -/
def nodeTasks (placed : List Placed) (node : Nat) : List Nat :=
  (placed.filter fun p => p.node = node).map (·.task)

/-- `tile_task` -/
def tileTask (placed : List Placed) (node : Nat) (coord : List Int) : Option Nat :=
  (placed.reverse.find? fun p => p.node = node ∧ p.unit.coord = coord).map (·.task)

/-- `chunk_range` -/
def chunkRange (placed : List Placed) (task : Nat) : Option (Int × Int) :=
  (placed.find? fun p => p.task = task).bind (·.unit.range)

/-- the tasks of a work unit behind the others -/
def pushUnit (st : ExpandState) (node : Nat) (wu : WorkUnit) (u : UnitTasks) : ExpandState :=
  let base := st.tg.tasks.length
  let ct := base + u.dmaIns.length
  { tg := { st.tg with
      tasks := st.tg.tasks ++ u.dmaIns ++ u.compute :: u.dmaOut.toList
      edges := st.tg.edges ++ (List.range u.dmaIns.length).map (fun k => (base + k, ct)) ++
        if u.dmaOut.isSome then [(ct, ct + 1)] else [] }
    placed := st.placed ++ [⟨node, wu, ct⟩] }

def expandNode (costs : Costs) (m : Machine) (g : TileGraph) (cons : ConstraintSet) (cfg : Config)
    (st : ExpandState) (e : TileNode × Nat) : Option ExpandState :=
  match e.1 with
  | .compute op tile passes sramPages inlineIn inlineOut => do
    let desc ← cons.opIo e.2
    let unit ← cons.placement e.2
    let domain ← cons.domains e.2
    let info : NodeInfo := ⟨e.2, op, unit, tile, passes, sramPages, desc, inlineIn, inlineOut⟩
    (workUnits cfg domain).foldlM (fun st wu =>
      (unitTasks costs m g cfg info (cfg.perOp domain.coords.length) wu).map
        (pushUnit st e.2 wu)) st
  | _ => some st

/-! ### The hand-offs -/

def allToAll (ps cs : List Nat) : List (Nat × Nat) := ps.flatMap fun p => cs.map fun c => (p, c)

/-- the pairs of chunks whose row ranges meet -/
def chunkEdges (placed : List Placed) (ps cs : List Nat) : List (Nat × Nat) :=
  (allToAll ps cs).filter fun (p, c) =>
    match chunkRange placed p, chunkRange placed c with
    | some (a0, a1), some (b0, b1) => a0 < b1 && b0 < a1
    | _, _ => false

/-- the edges of a hand-off on one unit: fine ones where the rows are coupled, else all to all -/
def sameUnitEdges (cons : ConstraintSet) (cfg : Config) (placed : List Placed) (pc cc : Nat) :
    Option (List (Nat × Nat)) :=
  let ps := nodeTasks placed pc
  let cs := nodeTasks placed cc
  let dep := cons.tileDeps.find? fun d => d.producer = pc ∧ d.consumer = cc
  match cfg.granularity, dep, cons.domains pc, cons.domains cc with
  | .perChunk _, some _, _, _ => some (chunkEdges placed ps cs)
  | .perTile, some d, some dp, some dc =>
    (materializeTileDeps dp dc d.dep).map fun es => es.filterMap fun e => do
      let p ← tileTask placed pc e.1
      let c ← tileTask placed cc e.2
      some (p, c)
  | _, _, _, _ => some (allToAll ps cs)

/-- the transfer between two units -/
def transferTask (costs : Costs) (pd cd : OpDesc) (pc unit : Nat) : Task :=
  let bytes := opOutBytes pd.kind pd.activationElem
  { node := pc
    op := s!"{pd.output}->{cd.output} xfer"
    unit := unit
    kind := .dmaIn
    coord := []
    dur := max (costs.linkCycles bytes) 1
    bytes := bytes
    tensorBytes := bytes
    sramPages := 0
    outPages := 0
    tmemCols := 0
    tensor := some pd.output
    crossUnit := true }

def expandHandoff (costs : Costs) (g : TileGraph) (cons : ConstraintSet) (cfg : Config)
    (st : ExpandState) (h : Handoff) : Option ExpandState :=
  match producerOf g h.producerDmaOut, consumerOf g h.consumerDmaIn with
  | some pc, some cc =>
    let ps := nodeTasks st.placed pc
    let cs := nodeTasks st.placed cc
    if ps = [] ∨ cs = [] then some st
    else if h.crossUnit then
      if h.kind = .barrier then
        some { st with tg := { st.tg with edges := st.tg.edges ++ allToAll ps cs } }
      else do
        let pd ← cons.opIo pc
        let cd ← cons.opIo cc
        let unit ← cons.placement cc
        let t := st.tg.tasks.length
        some { st with tg := { st.tg with
          tasks := st.tg.tasks ++ [transferTask costs pd cd pc unit]
          edges := st.tg.edges ++ ps.map (fun p => (p, t)) ++ cs.map fun c => (t, c) } }
    else
      (sameUnitEdges cons cfg st.placed pc cc).map fun es =>
        { st with tg := { st.tg with edges := st.tg.edges ++ es } }
  | _, _ => some st

def expand (costs : Costs) (m : Machine) (g : TileGraph) (cons : ConstraintSet) (cfg : Config) :
    Option TaskGraph :=
  if g.edges.all fun e => decide (e.1 < g.nodes.length) && decide (e.2 < g.nodes.length) then do
    let st ← g.nodes.zipIdx.foldlM (expandNode costs m g cons cfg)
      ⟨⟨[], [], m.units.map (·.pagesPerSm), m.units.map (·.tmemColsPerSm)⟩, []⟩
    let st ← cons.handoffs.foldlM (expandHandoff costs g cons cfg) st
    some st.tg
  else none

end Plow.Schedule
