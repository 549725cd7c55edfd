import Plow.Lib.Results

/-!
# Packed prefill

The planner of one packed prefill launch (`planWithLimit`), the stages a launch is cut into
(`planStage`, `stageSlots`, `stagesNeeded`), and the checks of a manifest that the sliding rings
rest on (`Manifest.validateRows`).

A `usize` is a natural number below `2 ^ 64` and an `i32` is an integer; the casts between them are
`asI32`, `asUsize` and `asU32`.  A sum or a difference that leaves its type is the outcome
`Halt.overflow`, an index outside a slice is `Halt.panic`.

Left out: `live_kv::Manifest::validate` before the checks here, and what `validate` checks behind
them (table handles, descriptor maps, attention operands).
-/

namespace Plow.PackedPrefill

inductive Halt where
  | refused (reason : String)
  | overflow
  | panic
  deriving DecidableEq, Repr

abbrev Res := Except Halt

def need (ok : Bool) (text : String) : Res Unit :=
  if ok then .ok () else .error (.refused ("packed prefill: " ++ text))

def i32Max : Nat := 2 ^ 31 - 1

/-- `as i32` -/
def asI32 (n : Nat) : Int := (n : Int).bmod (2 ^ 32)

/-- `as usize` of an `i32` -/
def asUsize (x : Int) : Nat := (x % 2 ^ 64).toNat

def asU32 (n : Nat) : Nat := n % 2 ^ 32

/-- `usize::checked_add` -/
def checkedAdd (a b : Nat) : Option Nat := if a + b < 2 ^ 64 then some (a + b) else none

def checkedMul (a b : Nat) : Option Nat := if a * b < 2 ^ 64 then some (a * b) else none

/-- `Option::ok_or` -/
def okOr {α : Type} : Option α → String → Res α
  | some a, _ => .ok a
  | none, reason => .error (.refused reason)

def index {α : Type} (xs : List α) (i : Nat) : Res α :=
  match xs[i]? with
  | some x => .ok x
  | none => .error .panic

/-- an `i32` result -/
def int32 (x : Int) : Res Int := if -2 ^ 31 ≤ x ∧ x < 2 ^ 31 then .ok x else .error .overflow

/-- a `usize` result -/
def usize (n : Nat) : Res Nat := if n < 2 ^ 64 then .ok n else .error .overflow

/-! ### The planner -/

structure Request where
  slot : Nat
  start : Nat
  len : Nat
  prompt : Nat
  deriving DecidableEq, Repr

/-- One launch: the span table, and for every packed row its slot (`-1`: not written) and its
position. -/
structure Plan where
  table : List Int
  slots : List Int
  positions : List Int
  mappedEnds : List (Nat × Nat)
  deriving DecidableEq, Repr

/-- one turn of the planner's loop: the rows taken and the plan, `prior` are the requests of the
turns before -/
def packOne (frontiers : List Nat) (bucket maxCtx : Nat) (limit : Option Nat)
    (prior : List Request) (r : Request) (state : Nat × Plan) : Res (Nat × Plan) := do
  let total := state.1
  let out := state.2
  need (limit.all fun limit => r.len ≤ limit) "request exceeds compiled chunk limit"
  need (r.slot < frontiers.length ∧ (!prior.any fun p => p.slot = r.slot) ∧ r.slot ≤ i32Max)
    "physical slot or duplicate"
  let stop ← okOr (checkedAdd r.start r.len) "packed request overflow"
  need (r.len > 0 ∧ r.start = frontiers.getD r.slot 0 ∧ stop ≤ r.prompt ∧ stop ≤ maxCtx)
    "request frontier/extent"
  let next ← okOr (checkedAdd total r.len) "packed row overflow"
  need (next ≤ bucket) "packed bucket overflow"
  pure (next, {
    table := out.table ++ [asI32 total, asI32 r.len, asI32 r.slot, asI32 stop]
    slots := out.slots ++ List.replicate r.len (asI32 r.slot)
    positions := out.positions ++ (List.range r.len).map fun i => asI32 (r.start + i)
    mappedEnds := out.mappedEnds ++ [(r.slot, asU32 stop)] })

def packLoop (frontiers : List Nat) (bucket maxCtx : Nat) (limit : Option Nat) :
    List Request → List Request → Nat × Plan → Res (Nat × Plan)
  | _, [], state => pure state
  | prior, r :: rs, state => do
    let state ← packOne frontiers bucket maxCtx limit prior r state
    packLoop frontiers bucket maxCtx limit (prior ++ [r]) rs state

def paddedEnd (padding maxCtx : Nat) (r : Request) : Option Nat := do
  let stop ← checkedAdd r.start r.len
  let padded ← checkedAdd stop padding
  if padded ≤ maxCtx then some padded else none

/-- the last request whose padding fits the context -/
def paddingOwner (requests : List Request) (padding maxCtx : Nat) : Option (Nat × Request × Nat) :=
  requests.zipIdx.reverse.findSome? fun (r, index) =>
    (paddedEnd padding maxCtx r).map fun padded => (index, r, padded)

/-- `Vec::resize` -/
def resize {α : Type} (xs : List α) (n : Nat) (a : α) : List α :=
  xs.take n ++ List.replicate (n - xs.length) a

/-- the padding rows behind the packed ones -/
def pad (requests : List Request) (bucket maxCtx : Nat) (limit : Option Nat) (total : Nat)
    (out : Plan) : Res Plan :=
  if limit.isSome then
    .ok { out with slots := resize out.slots bucket (-1), positions := resize out.positions bucket 0 }
  else
    let padding := bucket - total
    match paddingOwner requests padding maxCtx with
    | none => .error (.refused "packed prefill: padding exceeds every request's physical context")
    | some (index, r, padded) =>
      let stop := r.start + r.len
      .ok { out with
        slots := out.slots ++ List.replicate padding (asI32 r.slot)
        positions := out.positions ++ (List.range (padded - stop)).map fun i => asI32 (stop + i)
        mappedEnds := out.mappedEnds.modify index fun e => (e.1, asU32 padded) }

def planWithLimit (requests : List Request) (frontiers : List Nat) (bucket maxCtx : Nat)
    (limit : Option Nat) : Res Plan := do
  need (requests ≠ [] ∧ requests.length ≤ frontiers.length ∧ bucket > 0 ∧ bucket ≤ i32Max ∧
      maxCtx ≤ i32Max)
    "request/table capacity"
  let (total, out) ← packLoop frontiers bucket maxCtx limit [] requests
    (0, ⟨[asI32 requests.length], [], [], []⟩)
  pad requests bucket maxCtx limit total out

def plan (requests : List Request) (frontiers : List Nat) (bucket maxCtx : Nat) : Res Plan :=
  planWithLimit requests frontiers bucket maxCtx none

/-! ### Stages -/

def stageTableReqs (table : List Int) (stageRows : Nat) : Res Nat := do
  need (stageRows > 0) "stage_rows must be non-zero"
  need (table ≠ [] ∧ table.length % 4 = 1) "span table shape"
  let first ← index table 0
  let nreq := asUsize (max first 0)
  need (table.length = 1 + 4 * nreq) "span table request count"
  pure nreq

/-- the entry of request `r` in the table of a stage that begins behind `skip` rows -/
def stageEntry (table : List Int) (skip stageRows r : Nat) : Res (List Int) := do
  let rq0 ← index table (1 + 4 * r)
  let qlen ← index table (2 + 4 * r)
  let slot ← index table (3 + 4 * r)
  let kvlen ← index table (4 + 4 * r)
  need (qlen ≥ 0 ∧ kvlen ≥ qlen) "span entry"
  let start ← int32 (kvlen - qlen)
  let taken := asI32 (min (asUsize qlen) skip)
  let rest ← int32 (qlen - taken)
  let len := asI32 (min (asUsize rest) stageRows)
  let row0 ← int32 (rq0 + taken)
  let from_ ← int32 (start + taken)
  let kvlen ← int32 (from_ + len)
  pure [row0, len, slot, kvlen]

def planStage (plan : Plan) (stage stageRows : Nat) : Res (List Int) := do
  let nreq ← stageTableReqs plan.table stageRows
  let skip ← okOr (checkedMul stage stageRows) "stage offset overflow"
  let first ← index plan.table 0
  let entries ← (List.range nreq).mapM (stageEntry plan.table skip stageRows)
  pure (first :: entries.flatten)

def tableRows (table : List Int) (r : Nat) : Res Nat := do
  let qlen ← index table (2 + 4 * r)
  pure (asUsize (max qlen 0))

/-- `out[from..from + len].copy_from_slice(&xs[from..from + len])` -/
def copySlice (out xs : List Int) (from_ len : Nat) : List Int :=
  out.take from_ ++ (xs.drop from_).take len ++ out.drop (from_ + len)

/-- the rows of request `r` in a stage -/
def stageCopy (plan : Plan) (skip stageRows r : Nat) (out : List Int) : Res (List Int) := do
  let rq0 ← index plan.table (1 + 4 * r)
  let qlen ← tableRows plan.table r
  let taken := min qlen skip
  let len := min (qlen - taken) stageRows
  let from_ ← usize (asUsize rq0 + taken)
  let stop ← usize (from_ + len)
  need (stop ≤ plan.slots.length) "stage row extent"
  pure (copySlice out plan.slots from_ len)

def stageSlots (plan : Plan) (stage stageRows : Nat) : Res (List Int) := do
  let nreq ← stageTableReqs plan.table stageRows
  let skip ← okOr (checkedMul stage stageRows) "stage offset overflow"
  let lens ← (List.range nreq).mapM (tableRows plan.table)
  let covered ← usize lens.sum
  need (plan.slots.length ≥ covered ∧ (plan.slots.drop covered).all fun s => s < 0)
    "stage slots need a masked-padding plan (plan_with_limit with max_request_rows)"
  (List.range nreq).foldlM (fun out r => stageCopy plan skip stageRows r out)
    (List.replicate plan.slots.length (-1))

/-- `usize::div_ceil` -/
def divCeil (a b : Nat) : Nat := a / b + if a % b > 0 then 1 else 0

def stagesNeeded (plan : Plan) (stageRows : Nat) : Res Nat := do
  let nreq ← stageTableReqs plan.table stageRows
  let lens ← (List.range nreq).mapM (tableRows plan.table)
  pure (max (divCeil (lens.foldl max 0) stageRows) 1)

/-! ### The manifest's checks of the rings -/

/-- The opcodes that the checks tell apart. -/
inductive DevOp where
  | flashPrefill
  | flashPrefillFp8
  | headNormRope
  | headNormRopeFp8
  | qwenHeadNormRope
  | other
  deriving DecidableEq, Repr

structure DevInst where
  op : DevOp
  fj : Fin 3 → Nat
  t : Fin 8 → Nat
  i : Fin 8 → Nat

def tensorNone16 : Nat := 0xffff

/-- A program: its rows, its instructions, and the instructions of its segmented stream. -/
structure Program where
  rows : Nat
  insts : List DevInst
  gqStream : List Nat
  gqSegOfs : List Nat

structure Packet where
  tp : Bool
  prefillCount : Nat
  programs : List Program

/-- A K/V cache (`live_kv::Cache`). -/
structure Cache where
  pair : Nat × Nat
  stride : Nat
  window : Nat
  mask : Nat
  deriving DecidableEq, Repr

/-- `live_kv::Manifest` -/
structure Live where
  version : Nat
  batch : Nat
  maxCtx : Nat
  caches : List Cache

structure Stage where
  slot : Nat
  request : Nat
  deriving DecidableEq, Repr

structure Manifest where
  version : Nat
  maxRequestRows : Option Nat
  stageRows : Option Nat
  stages : List Stage
  programs : List String

def isAttention (d : DevInst) : Bool := d.op = .flashPrefill || d.op = .flashPrefillFp8

def isCacheWriter (d : DevInst) : Bool :=
  match d.op with
  | .headNormRope | .headNormRopeFp8 => d.fj 1 ≠ 0
  | .qwenHeadNormRope => d.i 4 ≠ 0
  | _ => false

/-- the sites with `p`, by position -/
def sites (insts : List DevInst) (p : DevInst → Bool) : List Nat :=
  (insts.zipIdx.filter fun (d, _) => p d).map (·.2)

def readers (insts : List DevInst) (pair : Nat × Nat) : List Nat :=
  sites insts fun d => isAttention d && (d.t 3, d.t 4) = pair

def cacheWriters (insts : List DevInst) (h : Nat) : List Nat :=
  sites insts fun d => isCacheWriter d && d.t 0 = h

def Cache.isRing (live : Live) (c : Cache) : Bool := c.window > 0 && c.stride < live.maxCtx

def segment (g : Program) (pc : Nat) : Option Nat :=
  (g.gqSegOfs.zip g.gqSegOfs.tail).findIdx? fun (a, b) =>
    a ≤ b && b ≤ g.gqStream.length && ((g.gqStream.take b).drop a).contains pc

/-- the stages from `k` on, `n` of them; `last` is the segment of the reader before -/
def stageOrder (g : Program) (rs wk wv : List Nat) : Nat → Nat → Option Nat → Res Unit
  | 0, _, _ => pure ()
  | n + 1, k, last => do
    let r ← index rs k
    let w0 ← index wk k
    let w1 ← index wv k
    match segment g r, segment g w0, segment g w1 with
    | some sr, some s0, some s1 => do
      need (s0 < sr ∧ s1 < sr ∧ last.all fun l => l < s0 && l < s1) "stage order"
      let d ← index g.insts r
      need (d.t 5 ≠ tensorNone16) "staged attention must write its own output"
      stageOrder g rs wk wv n (k + 1) (some sr)
    | _, _, _ => need false "staged site outside the segment chain"

def checkStageOrder (g : Program) (rs wk wv : List Nat) : Res Unit := do
  need (rs.length > 1 ∧ wk.length = rs.length ∧ wv.length = rs.length)
    "one writer pair and one reader per stage"
  stageOrder g rs wk wv rs.length 0 none

/-- no pair but a ring's is read twice -/
def readPairs (live : Live) : List (Nat × Nat) → List (Nat × Nat) → Res Unit
  | _, [] => pure ()
  | seen, pair :: pairs => do
    need (!seen.contains pair || live.caches.any fun c => c.pair = pair && c.isRing live)
      "staged packet reads a non-ring cache more than once"
    readPairs live (pair :: seen) pairs

/-- a ring is staged, or holds a whole request -/
def validateRing (g : Program) (requestRows stages : Nat) (c : Cache) : Res Unit :=
  let rs := readers g.insts c.pair
  if rs.length ≤ 1 then
    need (c.stride ≥ c.window + requestRows - 1) "unstaged ring must hold a whole request"
  else do
    need (rs.length = stages) "one writer pair and one reader per stage"
    checkStageOrder g rs (cacheWriters g.insts c.pair.1) (cacheWriters g.insts c.pair.2)

def validateStages (g : Program) (live : Live) (requestRows stageRows : Nat) : Res Unit := do
  let stages := divCeil requestRows stageRows
  readPairs live [] ((g.insts.filter isAttention).map fun d => (d.t 3, d.t 4))
  (live.caches.filter (·.isRing live)).forM (validateRing g requestRows stages)

namespace Manifest

/-- rows that one launch may write for a request -/
def writeRows (m : Manifest) (requestRows : Nat) : Res Nat :=
  match m.stageRows with
  | none => do
    need (m.stages = []) "stages without stage_rows"
    pure requestRows
  | some stageRows => do
    need m.maxRequestRows.isSome "staging requires masked padding (max_request_rows): a stage masks the rows outside it to -1, and on an unmasked plan the padding rows carry a real slot"
    need (stageRows > 0 ∧ stageRows ≤ requestRows)
      "stage_rows must be non-zero and within the request limit"
    need (m.stages.length = divCeil requestRows stageRows)
      "one stage binding per stage the request limit needs"
    pure stageRows

/-- the ring's condition on a cache -/
def ringHolds (live : Live) (writeRows : Nat) (c : Cache) : Res Unit :=
  need (c.window = 0 ∨ c.stride ≥ live.maxCtx ∨ c.stride ≥ c.window + writeRows - 1)
    "ring must retain the attention window across all padded KV writes"

def prefill (p : Packet) : Res (List Program) :=
  if p.prefillCount ≤ p.programs.length then .ok (p.programs.take p.prefillCount)
  else .error .panic

def widest (programs : List Program) : Res Nat :=
  match (programs.map (·.rows)).max? with
  | some rows => .ok rows
  | none => .error .panic

/-- the request limit is the width of a prefill program -/
def limitOk (m : Manifest) (programs : List Program) (rows requestRows : Nat) : Res Unit :=
  if m.maxRequestRows.isSome then
    need (requestRows > 0 ∧ requestRows ≤ rows ∧ programs.any fun g => g.rows = requestRows)
      "request limit must match a prefill rung"
  else .ok ()

/-- every prefill program's stages -/
def stagesOk (m : Manifest) (programs : List Program) (live : Live) (requestRows : Nat) :
    Res Unit :=
  match m.stageRows with
  | none => .ok ()
  | some stageRows =>
    programs.forM fun g => validateStages g live (min requestRows g.rows) stageRows

/-- `validate` up to the checks of the stages -/
def validateRows (m : Manifest) (p : Packet) (live : Live) : Res Unit := do
  need (m.version = live.version ∧ !p.tp ∧ p.prefillCount > 0) "version/topology"
  need (m.programs.length = p.prefillCount ∧ live.batch ≤ i32Max / 4) "bucket/table capacity"
  let programs ← prefill p
  let rows ← widest programs
  need (rows ≤ i32Max) "row index width"
  let requestRows := m.maxRequestRows.getD rows
  m.limitOk programs rows requestRows
  let writeRows ← m.writeRows requestRows
  live.caches.forM (ringHolds live writeRows)
  m.stagesOk programs live requestRows

end Manifest

end Plow.PackedPrefill
