import Mathlib

/-!
# The radix prefix cache

`PrefixCache` is a tree of token blocks kept in one node table: `roots` and the `children` of a node
map a block hash to a node id.  An evicted node stays in the table as a tombstone until `insert`
reuses its id.  The hashes are the caller's; a match is verified on the tokens of the block.

The roots and the children of a node are read and written in the same way everywhere, so both are
`links cur`, the links below `cur`: the roots for `none`.  `now` is the time the source reads from
its clock.
-/

namespace Plow.Prefix

abbrev Token := ℕ
abbrev BlockHash := ℕ
/-- an index into `nodes` -/
abbrev NodeId := ℕ
/-- `(owner_seq, block_idx)` -/
abbrev Key := ℕ × ℕ

/-- One attention layer's per-head pool of key and value rows. -/
structure GrowablePool where
  base : ℕ
  kv_factor : ℕ
  kv_heads : ℕ
  max_seqs : ℕ
  head_slot_bytes : ℕ

def GrowablePool.inRange (p : GrowablePool) (kv head seq : ℕ) : Bool :=
  kv < p.kv_factor && head < p.kv_heads && seq < p.max_seqs

def GrowablePool.headSlotOffset (p : GrowablePool) (kv head seq : ℕ) : ℕ :=
  p.base + ((kv * p.kv_heads + head) * p.max_seqs + seq) * p.head_slot_bytes

structure Run where
  kv : ℕ
  head : ℕ
  addr : ℕ
  bytes : ℕ
  deriving DecidableEq, Repr

/-- One shared block of tokens. -/
structure Node where
  parent : Option NodeId
  children : List (BlockHash × NodeId)
  tokens : List Token
  owner_seq : ℕ
  block_idx : ℕ
  refs : ℕ
  last_used : ℕ
  pinned_until : Option ℕ
  evicted : Bool
  deriving DecidableEq, Repr

def Node.key (n : Node) : Key := (n.owner_seq, n.block_idx)

structure Match where
  blocks : ℕ
  runs : List Run
  placed : List Key
  deriving DecidableEq, Repr

structure PrefixCache where
  pool : GrowablePool
  block_tokens : ℕ
  token_bytes : ℕ
  nodes : List Node
  free : List NodeId
  roots : List (BlockHash × NodeId)
  tick : ℕ
  collisions : ℕ

namespace PrefixCache

def new (pool : GrowablePool) (block_tokens token_bytes : ℕ) : Option PrefixCache :=
  if block_tokens = 0 ∨ token_bytes = 0 then none
  else if pool.head_slot_bytes < block_tokens * token_bytes then none
  else some ⟨pool, block_tokens, token_bytes, [], [], [], 0, 0⟩

variable (c : PrefixCache)

/-- the links below `cur` -/
def links : Option NodeId → List (BlockHash × NodeId)
  | none => c.roots
  | some p => (c.nodes[p]?).elim [] (·.children)

def setLinks (f : List (BlockHash × NodeId) → List (BlockHash × NodeId)) :
    Option NodeId → PrefixCache
  | none => { c with roots := f c.roots }
  | some p => { c with nodes := c.nodes.modify p fun n => { n with children := f n.children } }

/-- the node that the hash `h` leads to from `cur` -/
def next (cur : Option NodeId) (h : BlockHash) : Option NodeId := (c.links cur).lookup h

def mapNode (id : NodeId) (f : Node → Node) : PrefixCache :=
  { c with nodes := c.nodes.modify id f }

def blockSlice (tokens : List Token) (i : ℕ) : Option (List Token) :=
  if (i + 1) * c.block_tokens ≤ tokens.length then
    some ((tokens.drop (i * c.block_tokens)).take c.block_tokens)
  else none

/-- the block `i` of `tokens` is the one that the node `id` holds -/
def holds (id : NodeId) (tokens : List Token) (i : ℕ) : Bool :=
  (c.nodes[id]?).any fun n => c.blockSlice tokens i == some n.tokens

/-! ### Matching -/

/-- the walk of `lookup`: the path, and whether a collision ended it -/
def lookupPath (tokens : List Token) : Option NodeId → ℕ → List BlockHash → List NodeId × Bool
  | _, _, [] => ([], false)
  | cur, i, h :: hs =>
    match c.next cur h with
    | none => ([], false)
    | some n =>
      if c.holds n tokens i then
        let (path, hit) := lookupPath tokens (some n) (i + 1) hs
        (n :: path, hit)
      else ([], true)

/-- maximal spans `(owner, first block, blocks)` of consecutive blocks of one owner -/
def spansOf : List (ℕ × ℕ × ℕ) → List Key → List (ℕ × ℕ × ℕ)
  | spans, [] => spans
  | spans, (owner, blk) :: rest =>
    match spans.getLast? with
    | some (o, first, n) =>
      if o = owner ∧ first + n = blk then spansOf (spans.dropLast ++ [(o, first, n + 1)]) rest
      else spansOf (spans ++ [(owner, blk, 1)]) rest
    | none => spansOf (spans ++ [(owner, blk, 1)]) rest

def runsFor (placed : List Key) : List Run :=
  (List.range c.pool.kv_factor).flatMap fun kv =>
    (List.range c.pool.kv_heads).flatMap fun head =>
      (spansOf [] placed).filterMap fun (owner, first, n) =>
        if c.pool.inRange kv head owner then
          some ⟨kv, head, c.pool.headSlotOffset kv head owner + first * c.block_tokens * c.token_bytes,
            n * c.block_tokens * c.token_bytes⟩
        else none

def keyOf (id : NodeId) : Key := (c.nodes[id]?).elim (0, 0) Node.key

/-- one more reference and the recency `tick` -/
def bump (tick : ℕ) (id : NodeId) : PrefixCache :=
  c.mapNode id fun n => { n with refs := n.refs + 1, last_used := tick }

def lookup (hashes : List BlockHash) (tokens : List Token) : PrefixCache × Match :=
  let c := { c with tick := c.tick + 1 }
  let (path, hit) := c.lookupPath tokens none 0 hashes
  let c := if hit then { c with collisions := c.collisions + 1 } else c
  let c := path.foldl (fun c id => c.bump c.tick id) c
  let placed := path.map c.keyOf
  (c, ⟨path.length, c.runsFor placed, placed⟩)

def peekFrom (tokens : List Token) : Option NodeId → ℕ → List BlockHash → List Key
  | _, _, [] => []
  | cur, i, h :: hs =>
    match c.next cur h with
    | none => []
    | some n => if c.holds n tokens i then c.keyOf n :: peekFrom tokens (some n) (i + 1) hs else []

def peek (hashes : List BlockHash) (tokens : List Token) : List Key := c.peekFrom tokens none 0 hashes

def matchedFrom (tokens : List Token) : Option NodeId → ℕ → List BlockHash → ℕ
  | _, i, [] => i
  | cur, i, h :: hs =>
    match c.next cur h with
    | none => i
    | some n => if c.holds n tokens i then matchedFrom tokens (some n) (i + 1) hs else i

def matchedBlocks (hashes : List BlockHash) (tokens : List Token) : ℕ :=
  c.matchedFrom tokens none 0 hashes

/-! ### Publishing -/

/-- the re-walk of the shared path: where it ends, or the first block that is not there -/
def rewalk (tokens : List Token) : Option NodeId → ℕ → List BlockHash → Except ℕ (Option NodeId)
  | cur, _, [] => .ok cur
  | cur, i, h :: hs =>
    match c.next cur h with
    | none => .error i
    | some n => if c.holds n tokens i then rewalk tokens (some n) (i + 1) hs else .error i

/-- a fresh node for the block `blk` under `cur`: a tombstone's id when there is one -/
def addNode (cur : Option NodeId) (h : BlockHash) (blk : List Token) (owner_seq i : ℕ) :
    PrefixCache × NodeId :=
  let node : Node := ⟨cur, [], blk, owner_seq, i, 1, c.tick, none, false⟩
  let (c, id) := match c.free with
    | id :: free => ({ c with nodes := c.nodes.set id node, free := free }, id)
    | [] => ({ c with nodes := c.nodes ++ [node] }, c.nodes.length)
  (c.setLinks ((h, id) :: ·) cur, id)

/-- the loop of `insert`; `some i`: it stopped at the block `i` -/
def insertFrom (tokens : List Token) (owner_seq : ℕ) :
    PrefixCache → Option NodeId → ℕ → List BlockHash → PrefixCache × Option ℕ
  | c, _, _, [] => (c, none)
  | c, cur, i, h :: hs =>
    match c.blockSlice tokens i with
    | none => (c, some i)
    | some blk =>
      match c.next cur h with
      | some n =>
        if c.holds n tokens i then insertFrom tokens owner_seq c (some n) (i + 1) hs
        else ({ c with collisions := c.collisions + 1 }, some i)
      | none =>
        let (c, id) := c.addNode cur h blk owner_seq i
        insertFrom tokens owner_seq c (some id) (i + 1) hs

def insert (hashes : List BlockHash) (tokens : List Token) (owner_seq from_block : ℕ) :
    PrefixCache × ℕ :=
  let c := { c with tick := c.tick + 1 }
  match c.rewalk tokens none 0 (hashes.take from_block) with
  | .error i => (c, i)
  | .ok cur =>
    let (c, stop) := insertFrom tokens owner_seq c cur from_block (hashes.drop from_block)
    (c, stop.getD hashes.length)

/-! ### Pins and references -/

def pinFrom (tokens : List Token) (limit : ℕ) :
    PrefixCache → Option NodeId → ℕ → List BlockHash → PrefixCache
  | c, _, _, [] => c
  | c, cur, i, h :: hs =>
    match c.next cur h with
    | none => c
    | some n =>
      if c.holds n tokens i then
        pinFrom tokens limit (c.mapNode n fun e =>
          { e with pinned_until := some (e.pinned_until.elim limit (max · limit)) })
          (some n) (i + 1) hs
      else c

def pin (hashes : List BlockHash) (tokens : List Token) (limit : ℕ) : PrefixCache :=
  pinFrom tokens limit c none 0 hashes

def dropRef (id : NodeId) : PrefixCache := c.mapNode id fun n => { n with refs := n.refs - 1 }

def releaseFrom : PrefixCache → Option NodeId → List BlockHash → PrefixCache
  | c, _, [] => c
  | c, cur, h :: hs =>
    match c.next cur h with
    | none => c
    | some n => releaseFrom (c.dropRef n) (some n) hs

def release (hashes : List BlockHash) (blocks : ℕ) : PrefixCache :=
  releaseFrom c none (hashes.take blocks)

/-! ### Eviction -/

/-- the unlinked leaf `id` becomes a tombstone -/
def tombstone (id : NodeId) : PrefixCache :=
  { c.mapNode id fun n => { n with refs := 0, children := [], tokens := [], evicted := true } with
    free := id :: c.free }

/-- `id` is taken out of the links below its parent -/
def unlink (id : NodeId) (parent : Option NodeId) : PrefixCache :=
  (c.setLinks (·.filter (·.2 ≠ id)) parent).tombstone id

def idleLeaf (n : Node) : Bool := !n.evicted && n.refs == 0 && n.children.isEmpty

def evictLruWhere (now : ℕ) (pick : Key → Bool) : PrefixCache × Option Key :=
  let victim := ((c.nodes.zipIdx.filter fun e => idleLeaf e.1 && pick e.1.key).argmin fun e =>
    toLex (e.1.pinned_until.any (now < ·), e.1.last_used))
  match victim with
  | none => (c, none)
  | some (n, id) => (c.unlink id n.parent, some n.key)

def evictLru (now : ℕ) : PrefixCache × Option Key := c.evictLruWhere now fun _ => true

def find (key : Key) : Option (Node × NodeId) :=
  c.nodes.zipIdx.find? fun e => !e.1.evicted && e.1.key == key

def nodeRefs (key : Key) : Option ℕ := (c.find key).map (·.1.refs)

/-- The climb of `evict_chain_from`.  Every turn unlinks a node, so the table bounds the turns. -/
def evictChain (keep : Key → Bool) : ℕ → PrefixCache → Option NodeId → PrefixCache × List Key
  | 0, c, _ => (c, [])
  | _ + 1, c, none => (c, [])
  | turns + 1, c, some id =>
    match c.nodes[id]? with
    | none => (c, [])
    | some n =>
      if !idleLeaf n || keep n.key then (c, [])
      else
        let (c, evicted) := evictChain keep turns (c.unlink id n.parent) n.parent
        (c, n.key :: evicted)

def evictChainFrom (key : Key) (keep : Key → Bool) : PrefixCache × List Key :=
  evictChain keep c.nodes.length c ((c.find key).map (·.2))

def pathOf : Option NodeId → List BlockHash → List NodeId
  | _, [] => []
  | cur, h :: hs =>
    match c.next cur h with
    | none => []
    | some n => n :: pathOf (some n) hs

/-- the loop of `evict_tail` over the rest of the path, deepest node first -/
def evictPath : PrefixCache → List NodeId → PrefixCache × List Key
  | c, [] => (c, [])
  | c, id :: path =>
    match c.nodes[id]? with
    | none => (c, [])
    | some n =>
      if !idleLeaf n then (c, [])
      else
        let (c, evicted) := evictPath (c.unlink id n.parent) path
        (c, n.key :: evicted)

def evictTail (hashes : List BlockHash) (from_depth keep : ℕ) : PrefixCache × List Key :=
  evictPath c ((c.pathOf none (hashes.take from_depth)).drop keep).reverse

end PrefixCache

end Plow.Prefix
