import Plow.Prefix.Cache

/-!
# The tree in the node table

`Tree` says that the links of the table form a forest: a link leads to a live node that names the
place it hangs at, every live node hangs somewhere, and a free id is a tombstone.  `Reach p cur`:
the labelled path `p` leads from the roots to `cur`.  In a `Tree` every live node has exactly one
path, and `lookup` walks the longest path that agrees with the hashes and the tokens
(`lookupPath_get`, `lookupPath_max`).
-/

namespace Plow.Prefix

open List

namespace PrefixCache

/-- the live node `n` has the id `id` -/
def At (c : PrefixCache) (id : NodeId) (n : Node) : Prop :=
  c.nodes[id]? = some n ∧ n.evicted = false

/-- the block index of the nodes below `cur` -/
def depth (c : PrefixCache) : Option NodeId → ℕ
  | none => 0
  | some p => (c.nodes[p]?).elim 0 (·.block_idx + 1)

structure Tree (c : PrefixCache) : Prop where
  linked : ∀ {cur h id}, (h, id) ∈ c.links cur →
    ∃ n, c.At id n ∧ n.parent = cur ∧ n.block_idx = c.depth cur
  up : ∀ {id : NodeId} {n : Node}, c.At id n → ∃ h, (h, id) ∈ c.links n.parent
  dead : ∀ {id : NodeId} {n : Node}, c.nodes[id]? = some n → n.evicted = true → n.children = []
  hashes : ∀ cur, ((c.links cur).map Prod.fst).Nodup
  ids : ∀ cur, ((c.links cur).map Prod.snd).Nodup
  free : ∀ id ∈ c.free, ∃ n, c.nodes[id]? = some n ∧ n.evicted = true
  free_nodup : c.free.Nodup

/-- the labels of the blocks of `tokens` from the block `i` on -/
def labels (c : PrefixCache) (tokens : List Token) : ℕ → List BlockHash → List (BlockHash × List Token)
  | _, [] => []
  | i, h :: hs =>
    match c.blockSlice tokens i with
    | none => []
    | some b => (h, b) :: labels c tokens (i + 1) hs

/-- the path `p` leads to `cur` -/
inductive Reach (c : PrefixCache) : List (BlockHash × List Token) → Option NodeId → Prop
  | root : Reach c [] none
  | snoc {p cur h id n} : Reach c p cur → c.next cur h = some id → c.At id n →
      Reach c (p ++ [(h, n.tokens)]) (some id)

variable {c : PrefixCache} {cur cur' : Option NodeId} {id id' : NodeId} {n n' : Node} {h : BlockHash}
  {p q : List (BlockHash × List Token)} {x y : Option NodeId} {tokens b : List Token} {i : ℕ}
  {hs : List BlockHash} {l : List (BlockHash × NodeId)}

theorem At.inj (h1 : c.At id n) (h2 : c.At id n') : n = n' :=
  Option.some.inj (h1.1.symm.trans h2.1)

theorem At.lt (h1 : c.At id n) : id < c.nodes.length := (List.getElem?_eq_some_iff.mp h1.1).1

theorem depth_some (h1 : c.At id n) : c.depth (some id) = n.block_idx + 1 := by
  rw [depth, h1.1]
  rfl

theorem keyOf_at (h1 : c.At id n) : c.keyOf id = n.key := by
  rw [keyOf, h1.1]
  rfl

/-! ### Links -/

theorem lookup_mem (hl : l.lookup h = some id) : (h, id) ∈ l := by
  induction l with
  | nil => simp at hl
  | cons e l ih =>
    obtain ⟨k, v⟩ := e
    rw [lookup_cons] at hl
    split at hl
    · next heq =>
      cases hl
      rw [eq_of_beq heq]
      exact mem_cons_self
    · exact mem_cons_of_mem _ (ih hl)

theorem lookup_of_mem (hk : (l.map Prod.fst).Nodup) (hm : (h, id) ∈ l) : l.lookup h = some id := by
  induction l with
  | nil => simp at hm
  | cons e l ih =>
    obtain ⟨k, v⟩ := e
    obtain ⟨hnk, hk⟩ := nodup_cons.mp hk
    rw [lookup_cons]
    rcases mem_cons.mp hm with heq | hl
    · cases heq
      simp
    · have hne : h ≠ k := by
        rintro rfl
        exact hnk (mem_map.mpr ⟨(h, id), hl, rfl⟩)
      rw [beq_eq_false_iff_ne.mpr hne]
      exact ih hk hl

theorem Tree.next_iff (T : c.Tree) : c.next cur h = some id ↔ (h, id) ∈ c.links cur :=
  ⟨lookup_mem, lookup_of_mem (T.hashes cur)⟩

theorem Tree.next_at (T : c.Tree) (hn : c.next cur h = some id) :
    ∃ n, c.At id n ∧ n.parent = cur ∧ n.block_idx = c.depth cur :=
  T.linked (lookup_mem hn)

theorem Tree.links_at (T : c.Tree) {e} (he : e ∈ c.links (some id)) : ∃ n, c.At id n := by
  cases hn : c.nodes[id]? with
  | none => simp [links, hn] at he
  | some n =>
    simp only [links, hn, Option.elim_some] at he
    refine ⟨n, hn, ?_⟩
    by_contra hev
    have hnil := T.dead hn (by simpa using hev)
    rw [hnil] at he
    simp at he

/-! ### Paths -/

theorem Tree.step (T : c.Tree) (hp : c.Reach p cur) (hn : c.next cur h = some id) :
    ∃ n, c.At id n ∧ c.Reach (p ++ [(h, n.tokens)]) (some id) := by
  obtain ⟨n, hat, -⟩ := T.next_at hn
  exact ⟨n, hat, .snoc hp hn hat⟩

theorem Tree.reach_depth (T : c.Tree) (hr : c.Reach p cur) : c.depth cur = p.length := by
  induction hr with
  | root => rfl
  | snoc _ hn hat ih =>
    obtain ⟨n', hat', -, hb⟩ := T.next_at hn
    obtain rfl := hat.inj hat'
    rw [depth_some hat, hb, ih, length_append]
    rfl

theorem reach_snoc (hr : c.Reach (p ++ [(h, b)]) x) : ∃ cur id n, x = some id ∧ c.Reach p cur ∧
    c.next cur h = some id ∧ c.At id n ∧ n.tokens = b := by
  generalize hq : p ++ [(h, b)] = q at hr
  cases hr with
  | root => simp at hq
  | snoc hr hn hat =>
    obtain ⟨rfl, heq⟩ := append_inj' hq rfl
    obtain ⟨rfl, rfl⟩ := Prod.mk.inj (List.cons.inj heq).1
    exact ⟨_, _, _, rfl, hr, hn, hat, rfl⟩

theorem reach_nil (hr : c.Reach [] x) : x = none := by
  generalize hq : ([] : List (BlockHash × List Token)) = q at hr
  cases hr with
  | root => rfl
  | snoc => simp at hq

theorem Reach.unique (hx : c.Reach p x) (hy : c.Reach p y) : x = y := by
  induction hx generalizing y with
  | root => exact (reach_nil hy).symm
  | snoc hr hn hat ih =>
    obtain ⟨cur', id', n', rfl, hr', hn', -, -⟩ := reach_snoc hy
    rw [← ih hr', hn] at hn'
    exact hn'

theorem reach_append (hr : c.Reach (p ++ q) x) : ∃ cur, c.Reach p cur := by
  induction q using List.reverseRecOn generalizing x with
  | nil => exact ⟨x, by simpa using hr⟩
  | append_singleton q e ih =>
    rw [← append_assoc] at hr
    obtain ⟨cur, _, _, -, hr, -⟩ := reach_snoc hr
    exact ih hr

theorem Tree.reach_of_at (T : c.Tree) (hat : c.At id n) : ∃ p, c.Reach p (some id) := by
  obtain ⟨k, hk⟩ : ∃ k, n.block_idx = k := ⟨_, rfl⟩
  induction k using Nat.strong_induction_on generalizing id n with
  | _ k ih =>
  obtain ⟨h, hl⟩ := T.up hat
  obtain ⟨n', hat', hpar, hidx⟩ := T.linked hl
  obtain rfl := hat.inj hat'
  have hn := T.next_iff.mpr hl
  cases hc : n.parent with
  | none =>
    rw [hc] at hn
    exact ⟨_, .snoc .root hn hat⟩
  | some q =>
    rw [hc] at hl hn hidx
    obtain ⟨m, hm⟩ := T.links_at hl
    rw [depth_some hm] at hidx
    obtain ⟨p, hp⟩ := ih m.block_idx (by omega) hm rfl
    exact ⟨_, .snoc hp hn hat⟩

theorem Tree.reach_inj (T : c.Tree) (hp : c.Reach p x) (hq : c.Reach q x) : p = q := by
  induction hp generalizing q with
  | root =>
    cases hq with
    | root => rfl
  | snoc hr hn hat ih =>
    cases hq with
    | snoc hr' hn' hat' =>
      obtain rfl := hat.inj hat'
      obtain ⟨m, hm, hpar, -⟩ := T.next_at hn
      obtain ⟨m', hm', hpar', -⟩ := T.next_at hn'
      obtain rfl := hm.inj hm'
      obtain rfl := hpar.symm.trans hpar'
      have heq := inj_on_of_nodup_map (T.ids _) (lookup_mem hn) (lookup_mem hn') rfl
      rw [ih hr', (Prod.mk.inj heq).1]

/-! ### The walks -/

theorem holds_iff (hat : c.At id n) : c.holds id tokens i = true ↔ c.blockSlice tokens i = some n.tokens := by
  rw [holds, hat.1]
  simp

theorem peekFrom_eq : c.peekFrom tokens cur i hs = (c.lookupPath tokens cur i hs).1.map c.keyOf := by
  induction hs generalizing cur i with
  | nil => rfl
  | cons h hs ih =>
    rw [peekFrom, lookupPath]
    cases c.next cur h with
    | none => rfl
    | some n =>
      by_cases hh : c.holds n tokens i = true
      · simp only [hh, if_true, map_cons, ih]
      · simp only [hh]
        rfl

theorem matchedFrom_eq : c.matchedFrom tokens cur i hs = i + (c.lookupPath tokens cur i hs).1.length := by
  induction hs generalizing cur i with
  | nil => rfl
  | cons h hs ih =>
    rw [matchedFrom, lookupPath]
    cases c.next cur h with
    | none => rfl
    | some n =>
      by_cases hh : c.holds n tokens i = true
      · simp only [hh, if_true, length_cons, ih]
        omega
      · simp only [hh]
        rfl

theorem Tree.lookupPath_get (T : c.Tree) (hp : c.Reach p cur) {j : ℕ}
    (hj : (c.lookupPath tokens cur i hs).1[j]? = some id) :
    c.Reach (p ++ (c.labels tokens i hs).take (j + 1)) (some id) ∧ j < (c.labels tokens i hs).length := by
  induction hs generalizing cur p i j with
  | nil => simp [lookupPath] at hj
  | cons h hs ih =>
    rw [lookupPath] at hj
    cases hn : c.next cur h with
    | none => simp [hn] at hj
    | some m =>
      obtain ⟨n, hat, hr⟩ := T.step hp hn
      simp only [hn] at hj
      by_cases hh : c.holds m tokens i = true
      · have hb := (holds_iff hat).mp hh
        simp only [hh, if_true] at hj
        rw [labels, hb]
        cases j with
        | zero =>
          obtain rfl : m = id := by simpa using hj
          exact ⟨by simpa using hr, by simp⟩
        | succ j =>
          have hih := ih hr (j := j) (i := i + 1) (by simpa using hj)
          refine ⟨by simpa using hih.1, by simpa using hih.2⟩
      · simp [hh] at hj

/-- a node that the labels lead to is on the walk -/
theorem lookupPath_max (hp : c.Reach p cur) (hne : q ≠ [])
    (hq : q <+: c.labels tokens i hs) (hr : c.Reach (p ++ q) (some id)) :
    (c.lookupPath tokens cur i hs).1[q.length - 1]? = some id := by
  induction hs generalizing cur p i q with
  | nil => exact absurd (prefix_nil.mp hq) hne
  | cons h hs ih =>
    rw [labels] at hq
    cases hb : c.blockSlice tokens i with
    | none =>
      rw [hb] at hq
      exact absurd (prefix_nil.mp hq) hne
    | some b =>
      rw [hb] at hq
      obtain ⟨e, q', rfl⟩ := exists_cons_of_ne_nil hne
      obtain ⟨rfl, hq'⟩ := cons_prefix_cons.mp hq
      rw [append_cons] at hr
      obtain ⟨y, hy⟩ := reach_append hr
      obtain ⟨cur', m, n, rfl, hr', hn, hat, rfl⟩ := reach_snoc hy
      obtain rfl := hr'.unique hp
      have hh := (holds_iff hat).mpr hb
      rw [lookupPath, hn]
      simp only [hh, if_true]
      by_cases hnil : q' = []
      · subst hnil
        have heq := hy.unique (by simpa using hr)
        simpa using heq
      · have hpos := length_pos_iff.mpr hnil
        have := ih hy hnil hq' hr
        rw [length_cons, Nat.add_sub_cancel, getElem?_cons]
        rw [if_neg (by omega)]
        exact this

end PrefixCache
end Plow.Prefix

/-!
# What the operations do to the tree

Three things can happen to the table.  The references, the recency and the pins of nodes change and
the tree stays as it is (`Shape`); a leaf is hung up (`Tree.addNode`); a leaf is taken off
(`Tree.unlink`).  `Grown` and `Pruned` say the last two for a whole `insert` and for the evictions.
-/

namespace Plow.Prefix

def Node.core (n : Node) : Node := { n with refs := 0, last_used := 0, pinned_until := none }

namespace PrefixCache

variable {c c' c'' : PrefixCache} {cur x : Option NodeId} {id id' : NodeId} {n n' : Node}
  {h : BlockHash} {p : List (BlockHash × List Token)} {tokens blk : List Token} {i owner : ℕ}
  {hs : List BlockHash}

theorem core_eq (h1 : n'.core = n.core) : n'.parent = n.parent ∧ n'.children = n.children ∧
    n'.tokens = n.tokens ∧ n'.owner_seq = n.owner_seq ∧ n'.block_idx = n.block_idx ∧
    n'.evicted = n.evicted := by
  simp only [Node.core, Node.mk.injEq] at h1
  exact ⟨h1.1, h1.2.1, h1.2.2.1, h1.2.2.2.1, h1.2.2.2.2.1, h1.2.2.2.2.2.2.2.2⟩

theorem core_key (h1 : n'.core = n.core) : n'.key = n.key := by
  obtain ⟨-, -, -, ho, hb, -⟩ := core_eq h1
  rw [Node.key, Node.key, ho, hb]

/-! ### Changes that leave the tree alone -/

structure Shape (c c' : PrefixCache) : Prop where
  roots : c'.roots = c.roots
  nodes : c'.nodes.map Node.core = c.nodes.map Node.core
  free : c'.free = c.free
  block : c'.block_tokens = c.block_tokens

theorem Shape.refl (c : PrefixCache) : Shape c c := ⟨rfl, rfl, rfl, rfl⟩

theorem Shape.trans (h1 : Shape c c') (h2 : Shape c' c'') : Shape c c'' :=
  ⟨h2.roots.trans h1.roots, h2.nodes.trans h1.nodes, h2.free.trans h1.free, h2.block.trans h1.block⟩

theorem Shape.symm (h1 : Shape c c') : Shape c' c :=
  ⟨h1.roots.symm, h1.nodes.symm, h1.free.symm, h1.block.symm⟩

theorem shape_tick (t k : ℕ) : Shape c { c with tick := t, collisions := k } := ⟨rfl, rfl, rfl, rfl⟩

theorem shape_mapNode {f : Node → Node} (hf : ∀ n, (f n).core = n.core) : Shape c (c.mapNode id f) := by
  refine ⟨rfl, List.ext_getElem? fun j => ?_, rfl, rfl⟩
  rw [mapNode, List.getElem?_map, List.getElem?_map, List.getElem?_modify]
  cases c.nodes[j]? with
  | none => rfl
  | some n =>
    by_cases hj : id = j
    · simp [hj, hf]
    · simp [hj]

section

variable (S : Shape c c')
include S

theorem Shape.get (hn : c.nodes[id]? = some n) :
    ∃ n', c'.nodes[id]? = some n' ∧ n'.core = n.core := by
  have heq : (c'.nodes[id]?).map Node.core = (c.nodes[id]?).map Node.core := by
    rw [← List.getElem?_map, ← List.getElem?_map, S.nodes]
  rw [hn] at heq
  exact Option.map_eq_some_iff.mp heq

theorem Shape.at (hat : c.At id n) : ∃ n', c'.At id n' ∧ n'.core = n.core := by
  obtain ⟨n', hn', hc⟩ := S.get hat.1
  exact ⟨n', ⟨hn', (core_eq hc).2.2.2.2.2.trans hat.2⟩, hc⟩

theorem Shape.get_none (hn : c.nodes[id]? = none) : c'.nodes[id]? = none := by
  have heq : (c'.nodes[id]?).map Node.core = (c.nodes[id]?).map Node.core := by
    rw [← List.getElem?_map, ← List.getElem?_map, S.nodes]
  rw [hn] at heq
  exact Option.map_eq_none_iff.mp heq

theorem Shape.links : c'.links cur = c.links cur := by
  cases cur with
  | none => exact S.roots
  | some q =>
    rw [PrefixCache.links, PrefixCache.links]
    cases hn : c.nodes[q]? with
    | none => rw [S.get_none hn]
    | some n =>
      obtain ⟨n', hn', hc⟩ := S.get hn
      rw [hn']
      exact (core_eq hc).2.1

theorem Shape.next : c'.next cur h = c.next cur h := by
  rw [PrefixCache.next, PrefixCache.next, S.links]

theorem Shape.depth : c'.depth cur = c.depth cur := by
  cases cur with
  | none => rfl
  | some q =>
    rw [PrefixCache.depth, PrefixCache.depth]
    cases hn : c.nodes[q]? with
    | none => rw [S.get_none hn]
    | some n =>
      obtain ⟨n', hn', hc⟩ := S.get hn
      rw [hn', Option.elim_some, Option.elim_some, (core_eq hc).2.2.2.2.1]

theorem Shape.keyOf : c'.keyOf id = c.keyOf id := by
  rw [PrefixCache.keyOf, PrefixCache.keyOf]
  cases hn : c.nodes[id]? with
  | none => rw [S.get_none hn]
  | some n =>
    obtain ⟨n', hn', hc⟩ := S.get hn
    rw [hn', Option.elim_some, Option.elim_some, core_key hc]

theorem Shape.holds : c'.holds id tokens i = c.holds id tokens i := by
  rw [PrefixCache.holds, PrefixCache.holds]
  cases hn : c.nodes[id]? with
  | none =>
    rw [S.get_none hn]
    rfl
  | some n =>
    obtain ⟨n', hn', hc⟩ := S.get hn
    rw [hn', Option.any_some, Option.any_some, (core_eq hc).2.2.1, blockSlice, blockSlice, S.block]

theorem Shape.tree (T : c.Tree) : c'.Tree where
  linked := by
    intro cur h id hl
    rw [S.links] at hl
    obtain ⟨n, hat, hpar, hidx⟩ := T.linked hl
    obtain ⟨n', hat', hc⟩ := S.at hat
    obtain ⟨h1, -, -, -, h2, -⟩ := core_eq hc
    exact ⟨n', hat', h1.trans hpar, by rw [h2, hidx, S.depth]⟩
  up := by
    intro id n hat
    obtain ⟨n', hat', hc⟩ := S.symm.at hat
    obtain ⟨h, hl⟩ := T.up hat'
    exact ⟨h, by rw [S.links, ← (core_eq hc).1]; exact hl⟩
  dead := by
    intro id n hn hev
    obtain ⟨n', hn', hc⟩ := S.symm.get hn
    have hc' := core_eq hc
    rw [← hc'.2.1]
    exact T.dead hn' (hc'.2.2.2.2.2.trans hev)
  hashes := fun cur => by rw [S.links]; exact T.hashes cur
  ids := fun cur => by rw [S.links]; exact T.ids cur
  free := by
    intro id hid
    rw [S.free] at hid
    obtain ⟨n, hn, hev⟩ := T.free id hid
    obtain ⟨n', hn', hc⟩ := S.get hn
    exact ⟨n', hn', (core_eq hc).2.2.2.2.2.trans hev⟩
  free_nodup := S.free ▸ T.free_nodup

theorem Shape.reach (hr : c.Reach p x) : c'.Reach p x := by
  induction hr with
  | root => exact .root
  | snoc _ hn hat ih =>
    obtain ⟨n', hat', hc⟩ := S.at hat
    rw [← (core_eq hc).2.2.1]
    exact .snoc ih (S.next.trans hn) hat'

end

theorem shape_bump (t : ℕ) : Shape c (c.bump t id) := shape_mapNode fun _ => rfl

theorem shape_dropRef : Shape c (c.dropRef id) := shape_mapNode fun _ => rfl

theorem shape_foldl {f : PrefixCache → NodeId → PrefixCache} (hf : ∀ c id, Shape c (f c id))
    (l : List NodeId) (c : PrefixCache) : Shape c (l.foldl f c) := by
  induction l generalizing c with
  | nil => exact .refl c
  | cons id l ih => exact (hf c id).trans (ih _)

theorem shape_lookup (tokens : List Token) : Shape c (c.lookup hs tokens).1 := by
  refine Shape.trans ?_ (shape_foldl (fun c id => shape_bump c.tick) _ _)
  split
  · exact shape_tick _ _
  · exact shape_tick _ _

theorem shape_releaseFrom : Shape c (releaseFrom c cur hs) := by
  induction hs generalizing c cur with
  | nil => exact .refl c
  | cons h hs ih =>
    rw [releaseFrom]
    cases c.next cur h with
    | none => exact .refl c
    | some n => exact shape_dropRef.trans ih

theorem shape_release (blocks : ℕ) : Shape c (c.release hs blocks) := shape_releaseFrom

theorem shape_pinFrom {limit : ℕ} : Shape c (pinFrom tokens limit c cur i hs) := by
  induction hs generalizing c cur i with
  | nil => exact .refl c
  | cons h hs ih =>
    rw [pinFrom]
    cases c.next cur h with
    | none => exact .refl c
    | some n =>
      simp only
      split
      · refine Shape.trans (shape_mapNode fun _ => ?_) ih
        rfl
      · exact .refl c

theorem shape_pin (limit : ℕ) : Shape c (c.pin hs tokens limit) := shape_pinFrom

/-! ### The match of a lookup -/

theorem lookupPath_shape (S : Shape c c') : c'.lookupPath tokens cur i hs = c.lookupPath tokens cur i hs := by
  induction hs generalizing cur i with
  | nil => rfl
  | cons h hs ih =>
    rw [lookupPath, lookupPath, S.next]
    cases c.next cur h with
    | none => rfl
    | some n =>
      simp only
      rw [S.holds, ih]

theorem lookup_blocks : (c.lookup hs tokens).2.blocks = (c.lookupPath tokens none 0 hs).1.length := by
  rw [← lookupPath_shape (shape_tick (c.tick + 1) c.collisions)]
  rfl

theorem lookup_placed : (c.lookup hs tokens).2.placed = (c.lookupPath tokens none 0 hs).1.map c.keyOf := by
  have hS : Shape c (c.lookup hs tokens).1 := shape_lookup tokens
  have hkey : ∀ id, (c.lookup hs tokens).1.keyOf id = c.keyOf id := fun id => hS.keyOf
  calc (c.lookup hs tokens).2.placed
      = (c.lookupPath tokens none 0 hs).1.map (c.lookup hs tokens).1.keyOf := by
        rw [← lookupPath_shape (shape_tick (c.tick + 1) c.collisions)]
        rfl
    _ = _ := List.map_congr_left fun id _ => hkey id

theorem peek_eq_placed : c.peek hs tokens = (c.lookup hs tokens).2.placed := by
  rw [lookup_placed, peek, peekFrom_eq]

theorem matchedBlocks_eq : c.matchedBlocks hs tokens = (c.lookup hs tokens).2.blocks := by
  rw [matchedBlocks, matchedFrom_eq, Nat.zero_add, lookup_blocks]

theorem placed_length : (c.lookup hs tokens).2.placed.length = (c.lookup hs tokens).2.blocks := by
  rw [lookup_placed, List.length_map, lookup_blocks]

end PrefixCache
end Plow.Prefix
