import Plow.Lib.Copies

/-!
# Boundaries as blocks

A boundary of a sequence is a set of blocks: the last rows of the sliding windows, every row of the
full layers and the recurrent state.  `planBlocks` tells which blocks, `blockLayouts` how a block's
bytes lie in the cache tensors of a slot, and `runBlocks` copies blocks to or from a slot.  A block is
keyed by the chained hash of the tokens up to its last row, and one that the store has under its key
is not filled again.

An address is a place, a tensor or a block, and an offset from its base.  The copy kernel and the loop
of memory copies are the same copies.  The state of a slot is always copied whole; the packed prefill
that reads it from the block itself is left out, and so are failed copies, holds and seals.
-/

namespace Plow.KvBlocks
open Plow.Lib

def ROWS_PER_BLOCK : ℕ := 32

def STATE_CHUNK : ℕ := 64 * 1024

inductive Class
  | window
  | tail
  | scale
  | state
  deriving DecidableEq

structure Geometry where
  kvhFull : ℕ
  hdFull : ℕ
  kvhSlide : ℕ
  hdSlide : ℕ
  window : ℕ
  elem : ℕ
  elemSlide : ℕ
  maxCtx : ℕ

/-- What the loader made of a packet: tensors are indices. -/
structure Serve where
  geo : Geometry
  /-- K and V of a sliding layer, and the bytes of a slot in each -/
  slide : List (ℕ × ℕ × ℕ)
  slideScale : List (ℕ × ℕ)
  fullScale : List (ℕ × ℕ)
  tensorTracks : List ℕ
  ring : ℕ
  blockRows : ℕ
  /-- a state tensor and its bytes of a slot -/
  stateTensors : List (ℕ × ℕ)

/-- A run of a class between a slot's tensor and a block. -/
structure Layout where
  tensor : ℕ
  off : ℕ
  slotStride : ℕ
  rowBytes : ℕ
  blockOff : ℕ
  bytes : ℕ
  deriving DecidableEq

structure Desc where
  block : ℕ
  row : ℕ
  slot : ℕ

inductive Place
  | tensor (i : ℕ)
  | block (b : ℕ)
  deriving DecidableEq

/-! ### Layouts -/

/-- what a layout is pushed with -/
structure Run where
  tensor : ℕ
  off : ℕ
  slotStride : ℕ
  rowBytes : ℕ
  bytes : ℕ
  deriving DecidableEq

def push (list : List Layout) (r : Run) : List Layout :=
  let blockOff := (list.getLast?.map fun l => l.blockOff + l.bytes).getD 0
  list ++ [⟨r.tensor, r.off, r.slotStride, r.rowBytes, blockOff, r.bytes⟩]

/-- A tensor of a class: `heads` head windows of `rows` rows of `elem` bytes, slot after slot. -/
structure Track where
  tensor : ℕ
  slotStride : ℕ
  heads : ℕ
  rows : ℕ
  elem : ℕ
  deriving DecidableEq

/-- the run of a head, `n` rows of it -/
def Track.run (t : Track) (n h : ℕ) : Run :=
  ⟨t.tensor, h * t.rows * t.elem, t.slotStride, t.elem, n * t.elem⟩

def Track.runs (t : Track) (n : ℕ) : List Run := (List.range t.heads).map (t.run n)

namespace Serve

variable (v : Serve)

def slideTracks : List Track :=
  let hdB := v.geo.hdSlide * v.geo.elemSlide
  v.slide.flatMap fun s => [s.1, s.2.1].map fun i => ⟨i, s.2.2, v.geo.kvhSlide, v.ring, hdB⟩

def slideScaleTracks : List Track :=
  let stride := v.geo.kvhSlide * v.ring * 4
  v.slideScale.flatMap fun s => [s.1, s.2].map fun i => ⟨i, stride, v.geo.kvhSlide, v.ring, 4⟩

def fullTracks : List Track :=
  let rowBytes := v.geo.hdFull * v.geo.elem
  let stride := v.geo.kvhFull * v.geo.maxCtx * rowBytes
  v.tensorTracks.map fun i => ⟨i, stride, v.geo.kvhFull, v.geo.maxCtx, rowBytes⟩

def fullScaleTracks : List Track :=
  let stride := v.geo.kvhFull * v.geo.maxCtx * 4
  v.fullScale.flatMap fun s => [s.1, s.2].map fun i => ⟨i, stride, v.geo.kvhFull, v.geo.maxCtx, 4⟩

def tracks : Class → List Track
  | .window => v.slideTracks ++ v.slideScaleTracks
  | .tail => v.fullTracks ++ v.fullScaleTracks
  | .scale => v.fullScaleTracks
  | .state => []

/-- a slot's bytes of a state tensor, in pieces of at most `STATE_CHUNK` -/
def stateRuns (s : ℕ × ℕ) : List Run :=
  (List.range ((s.2 + STATE_CHUNK - 1) / STATE_CHUNK)).map fun k =>
    ⟨s.1, k * STATE_CHUNK, s.2, 0, min STATE_CHUNK (s.2 - k * STATE_CHUNK)⟩

def runs : Class → List Run
  | .window => (v.tracks .window).flatMap (·.runs ROWS_PER_BLOCK)
  | .tail => (v.tracks .tail).flatMap (·.runs ROWS_PER_BLOCK)
  | .scale => (v.tracks .scale).flatMap (·.runs v.blockRows)
  | .state => v.stateTensors.flatMap stateRuns

/-- the list of a class in `block_layouts` -/
def blockLayouts (c : Class) : List Layout := (v.runs c).foldl push []

def blockDesc (b : ℕ) (c : Class) (row0 va : ℕ) : Desc :=
  let row := match c with
    | .window => row0 % v.ring
    | .tail | .scale => row0
    | .state => 0
  ⟨va, row, b⟩

end Serve

/-! ### Copies -/

def copyOf (toBlock : Bool) (d : Desc) (l : Layout) : Copy Place :=
  let dev := l.off + d.slot * l.slotStride + d.row * l.rowBytes
  if toBlock then ⟨.block d.block, l.blockOff, .tensor l.tensor, dev, l.bytes⟩
  else ⟨.tensor l.tensor, dev, .block d.block, l.blockOff, l.bytes⟩

/-- the copies of the descriptors of each class -/
def Serve.copies (v : Serve) (descs : Class → List Desc) (toBlock : Bool) : List (Copy Place) :=
  [Class.window, .tail, .scale, .state].flatMap fun c =>
    (descs c).flatMap fun d => (v.blockLayouts c).map (copyOf toBlock d)

def Serve.runBlocks {V : Type} (v : Serve) (descs : Class → List Desc) (toBlock : Bool)
    (m : Place → ℕ → V) : Place → ℕ → V :=
  runCopies (v.copies descs toBlock) m

/-! ### The blocks of a boundary -/

/-- The blocks of a boundary at `pA` rows: class, first row, and the index of the chained hash of the
tokens up to the last row. -/
def planBlocks (present : Class → Bool) (blockRows pA window : ℕ) : List (Class × ℕ × ℕ) :=
  let key := fun stop => stop / ROWS_PER_BLOCK - 1
  let w := min window pA / ROWS_PER_BLOCK * ROWS_PER_BLOCK
  (if present .window then
    (List.range (w / ROWS_PER_BLOCK)).map fun k =>
      let r := pA - w + k * ROWS_PER_BLOCK
      (.window, r, key (r + ROWS_PER_BLOCK))
  else []) ++
  (if present .tail then
    (List.range ((pA + ROWS_PER_BLOCK - 1) / ROWS_PER_BLOCK)).map fun k =>
      let r := k * ROWS_PER_BLOCK
      (.tail, r, key (r + ROWS_PER_BLOCK))
  else []) ++
  (if present .scale then
    (List.range (pA / blockRows)).map fun k =>
      let r := k * blockRows
      (.scale, r, key (r + blockRows))
  else []) ++
  (if present .state && pA > 0 then [(.state, pA, key pA)] else [])

/-- the classes of the store: those with bytes in a row; none has the scales -/
def Serve.present (v : Serve) : Class → Bool
  | .window =>
    0 < v.slide.length * 2 * v.geo.kvhSlide * (v.geo.hdSlide * v.geo.elemSlide) +
      v.slideScale.length * 2 * v.geo.kvhSlide * 4
  | .tail =>
    0 < v.tensorTracks.length * v.geo.kvhFull * (v.geo.hdFull * v.geo.elem) +
      v.fullScale.length * 2 * v.geo.kvhFull * 4
  | .scale => false
  | .state => 0 < (v.stateTensors.map (·.2)).sum

def Serve.plan (v : Serve) (pA : ℕ) : List (Class × ℕ × ℕ) :=
  planBlocks v.present v.blockRows pA v.geo.window

/-! ### Keys -/

abbrev Token := ℕ

/-- the two hash functions and their seeds -/
structure Hashing (K : Type) where
  fx : K → List Token → K
  sip : K → List Token → K
  seedChain : K
  seedCheck : K

variable {K V : Type}

/-- `chain_hashes`: each whole group of rows is hashed with the hash of the groups before it -/
def chainFrom (hash : K → List Token → K) (prev : K) : ℕ → List Token → List K
  | 0, _ => []
  | n + 1, toks =>
    let h := hash prev (toks.take ROWS_PER_BLOCK)
    h :: chainFrom hash h n (toks.drop ROWS_PER_BLOCK)

def chainHashes (hash : K → List Token → K) (seed : K) (toks : List Token) : List K :=
  chainFrom hash seed (toks.length / ROWS_PER_BLOCK) toks

structure BlockKey (K : Type) where
  chain : K
  check : K
  deriving DecidableEq

/-- the key with an index, of the tokens of a boundary -/
def Hashing.key (hs : Hashing K) (toks : List Token) (i : ℕ) : Option (BlockKey K) := do
  let chain ← (chainHashes hs.fx hs.seedChain toks)[i]?
  let check ← (chainHashes hs.sip hs.seedCheck toks)[i]?
  pure ⟨chain, check⟩

/-! ### Publishing and gathering -/

abbrev Handle := List (Class × ℕ × ℕ)

abbrev Store (K : Type) := List (Class × BlockKey K × ℕ)

/-- The blocks of a plan: those the store has, and new ones from `ids`, which are to be filled. -/
def acquireAll [DecidableEq K] : Store K → List ℕ → List (Class × ℕ × BlockKey K) →
    Option (Store K × Handle × Handle)
  | store, _, [] => some (store, [], [])
  | store, ids, (c, row0, k) :: plan =>
    match store.find? fun e => e.1 = c ∧ e.2.1 = k with
    | some e => do
      let (store, handle, fills) ← acquireAll store ids plan
      pure (store, (c, row0, e.2.2) :: handle, fills)
    | none =>
      match ids with
      | [] => none
      | id :: ids => do
        let (store, handle, fills) ← acquireAll (store ++ [(c, k, id)]) ids plan
        pure (store, (c, row0, id) :: handle, (c, row0, id) :: fills)

/-- the descriptors of blocks of slot `b` -/
def Serve.descs (v : Serve) (b : ℕ) (blocks : Handle) (c : Class) : List Desc :=
  (blocks.filter (·.1 = c)).map fun e => v.blockDesc b c e.2.1 e.2.2

/-- `blocks_publish`: the blocks of the boundary at `pA` rows of slot `b`, new ones filled -/
def Serve.publish [DecidableEq K] (v : Serve) (hs : Hashing K) (toks : List Token) (b pA : ℕ)
    (ids : List ℕ) (store : Store K) (m : Place → ℕ → V) :
    Option (Store K × Handle × (Place → ℕ → V)) := do
  let plan ← (v.plan pA).mapM fun e => (hs.key (toks.take pA) e.2.2).map fun k => (e.1, e.2.1, k)
  let (store, handle, fills) ← acquireAll store ids plan
  pure (store, handle, v.runBlocks (v.descs b fills) true m)

/-- `blocks_gather` -/
def Serve.gather (v : Serve) (b : ℕ) (handle : Handle) (m : Place → ℕ → V) : Place → ℕ → V :=
  v.runBlocks (v.descs b handle) false m

end Plow.KvBlocks
