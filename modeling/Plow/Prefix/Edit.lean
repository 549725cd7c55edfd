import Plow.Prefix.Tree

/-!
# A leaf hung up, a leaf taken off

`Added` is the table after `addNode`, `Removed` the table after `unlink`: which links there are, and
that the other nodes keep everything but their links.  Both keep the forest, and both say which
paths lead where afterwards.
-/

namespace Plow.Prefix

open List Option

def Node.frame (n : Node) : Node := { n with children := [] }

namespace PrefixCache

variable {c c' : PrefixCache} {cur x : Option NodeId} {id id' : NodeId} {n n' node : Node}
  {h : BlockHash} {p q : List (BlockHash × List Token)} {tokens blk : List Token} {i owner : ℕ}
  {hs : List BlockHash} {f : List (BlockHash × NodeId) → List (BlockHash × NodeId)}

theorem frame_eq (h1 : n'.frame = n.frame) : n'.parent = n.parent ∧ n'.tokens = n.tokens ∧
    n'.key = n.key ∧ n'.block_idx = n.block_idx ∧ n'.refs = n.refs ∧ n'.evicted = n.evicted := by
  simp only [Node.frame, Node.mk.injEq, true_and] at h1
  obtain ⟨h1, h2, h3, h4, h5, -, -, h6⟩ := h1
  exact ⟨h1, h2, by rw [Node.key, Node.key, h3, h4], h4, h5, h6⟩

theorem setLinks_get (j : NodeId) : (c.setLinks f cur).nodes[j]? =
    (c.nodes[j]?).map fun n => if cur = some j then { n with children := f n.children } else n := by
  cases cur with
  | none => simp [setLinks]
  | some k =>
    rw [setLinks, getElem?_modify]
    cases c.nodes[j]? with
    | none => rfl
    | some n =>
      by_cases hk : k = j
      · simp [hk]
      · simp [hk]

theorem setLinks_links (hf : (∀ k, cur = some k → k < c.nodes.length) ∨ f [] = []) :
    (c.setLinks f cur).links x = if x = cur then f (c.links cur) else c.links x := by
  cases x with
  | none =>
    cases cur with
    | none => rfl
    | some k => rfl
  | some j =>
    rw [links, setLinks_get]
    by_cases hj : some j = cur
    · subst hj
      rw [if_pos rfl, links]
      cases hn : c.nodes[j]? with
      | none =>
        rcases hf with hf | hf
        · exact absurd (hf j rfl) (by simpa using hn)
        · exact hf.symm
      | some n => simp
    · rw [if_neg hj, links]
      cases hn : c.nodes[j]? with
      | none => rfl
      | some n => simp [Ne.symm hj]

theorem links_some (hn : c.nodes[id]? = some n) : c.links (some id) = n.children := by
  rw [links, hn]
  rfl

/-! ### A leaf hung up -/

structure Added (c c' : PrefixCache) (cur : Option NodeId) (h : BlockHash) (id : NodeId)
    (node : Node) : Prop where
  fresh : ∀ n, ¬ c.At id n
  new : c'.At id node
  node : node.parent = cur ∧ node.block_idx = c.depth cur
  other : ∀ j, j ≠ id → (c'.nodes[j]?).map Node.frame = (c.nodes[j]?).map Node.frame
  links : ∀ x, c'.links x = if x = cur then (h, id) :: c.links cur else c.links x
  free : ∀ j ∈ c'.free, j ∈ c.free ∧ j ≠ id
  free_nodup : c.free.Nodup → c'.free.Nodup
  block : c'.block_tokens = c.block_tokens

section

variable (A : Added c c' cur h id node)
include A

theorem Added.at (hat : c.At id' n) :
    ∃ n', c'.At id' n' ∧ n'.frame = n.frame := by
  have hne : id' ≠ id := fun heq => A.fresh n (heq ▸ hat)
  have hm := A.other id' hne
  rw [hat.1] at hm
  obtain ⟨n', hn', hf⟩ := map_eq_some_iff.mp hm
  exact ⟨n', ⟨hn', (frame_eq hf).2.2.2.2.2.trans hat.2⟩, hf⟩

theorem Added.back (hne : id' ≠ id) (hat : c'.At id' n') :
    ∃ n, c.At id' n ∧ n'.frame = n.frame := by
  have hm := A.other id' hne
  rw [hat.1] at hm
  obtain ⟨n, hn, hf⟩ := map_eq_some_iff.mp hm.symm
  exact ⟨n, ⟨hn, (frame_eq hf).2.2.2.2.2.trans hat.2⟩, hf.symm⟩

theorem Added.depth (hx : x ≠ some id) : c'.depth x = c.depth x := by
  cases x with
  | none => rfl
  | some j =>
    have hm := A.other j fun heq => hx (by rw [heq])
    rw [PrefixCache.depth, PrefixCache.depth]
    cases hn : c.nodes[j]? with
    | none =>
      rw [hn, map_none, map_eq_none_iff] at hm
      rw [hm]
    | some n =>
      rw [hn] at hm
      obtain ⟨n', hn', hf⟩ := map_eq_some_iff.mp hm
      rw [hn', elim_some, elim_some, (frame_eq hf).2.2.2.1]

theorem Added.tree (T : c.Tree) (hcur : ∀ k, cur = some k → ∃ n, c.At k n)
    (hno : c.next cur h = none) : c'.Tree := by
  have hcid : cur ≠ some id := fun heq => (hcur id heq).elim fun n hn => A.fresh n hn
  have hlive : ∀ {x : Option NodeId} {h' id'}, (h', id') ∈ c.links x → x ≠ some id := by
    rintro x h' id' hl rfl
    obtain ⟨n, hat⟩ := T.links_at hl
    exact A.fresh n hat
  have hold : ∀ {x : Option NodeId} {h' id'}, (h', id') ∈ c.links x →
      ∃ n, c'.At id' n ∧ n.parent = x ∧ n.block_idx = c'.depth x := by
    intro x h' id' hl
    obtain ⟨n, hat, hpar, hidx⟩ := T.linked hl
    obtain ⟨n', hat', hf⟩ := A.at hat
    obtain ⟨h1, -, -, h2, -⟩ := frame_eq hf
    exact ⟨n', hat', h1.trans hpar, by rw [h2, hidx, A.depth (hlive hl)]⟩
  constructor
  · intro x h' id' hl
    rw [A.links] at hl
    split at hl
    · next hx =>
      subst hx
      rcases mem_cons.mp hl with heq | hl
      · obtain ⟨-, rfl⟩ := Prod.mk.inj heq
        exact ⟨node, A.new, A.node.1, by rw [A.node.2, A.depth hcid]⟩
      · exact hold hl
    · exact hold hl
  · intro id' n' hat
    by_cases hid : id' = id
    · subst hid
      obtain rfl := A.new.inj hat
      exact ⟨h, by rw [A.links, A.node.1, if_pos rfl]; exact mem_cons_self⟩
    · obtain ⟨n, hat0, hf⟩ := A.back hid hat
      obtain ⟨h', hl⟩ := T.up hat0
      refine ⟨h', ?_⟩
      rw [(frame_eq hf).1, A.links]
      split
      · next hx => exact mem_cons_of_mem _ (hx ▸ hl)
      · exact hl
  · intro j m hm hev
    have hj : j ≠ id := by
      rintro rfl
      rw [A.new.1] at hm
      cases hm
      exact absurd (A.new.2.symm.trans hev) (by decide)
    have ho := A.other j hj
    rw [hm] at ho
    obtain ⟨m0, hm0, hf⟩ := map_eq_some_iff.mp ho.symm
    have hev0 : m0.evicted = true := (frame_eq hf).2.2.2.2.2.trans hev
    have hjc : some j ≠ cur := by
      intro heq
      obtain ⟨m1, hat⟩ := hcur j heq.symm
      cases hm0.symm.trans hat.1
      exact absurd (hat.2.symm.trans hev0) (by decide)
    rw [← links_some hm, A.links, if_neg hjc, links_some hm0]
    exact T.dead hm0 hev0
  · intro x
    rw [A.links]
    split
    · rw [map_cons, nodup_cons]
      refine ⟨fun hmem => ?_, T.hashes cur⟩
      obtain ⟨⟨h', id'⟩, hl, rfl⟩ := List.mem_map.mp hmem
      rw [T.next_iff.mpr hl] at hno
      exact absurd hno (by simp)
    · exact T.hashes x
  · intro x
    rw [A.links]
    split
    · rw [map_cons, nodup_cons]
      refine ⟨fun hmem => ?_, T.ids cur⟩
      obtain ⟨⟨h', id'⟩, hl, rfl⟩ := List.mem_map.mp hmem
      obtain ⟨n, hat, -⟩ := T.linked hl
      exact A.fresh n hat
    · exact T.ids x
  · intro j hj
    obtain ⟨hjc, hne⟩ := A.free j hj
    obtain ⟨m, hm, hev⟩ := T.free j hjc
    have ho := A.other j hne
    rw [hm] at ho
    obtain ⟨m', hm', hf⟩ := map_eq_some_iff.mp ho
    exact ⟨m', hm', (frame_eq hf).2.2.2.2.2.trans hev⟩
  · exact A.free_nodup T.free_nodup

theorem Added.reach (hno : c.next cur h = none)
    (hr : c.Reach p x) : c'.Reach p x := by
  induction hr with
  | root => exact .root
  | @snoc p y h' id' n hr hn hat ih =>
    obtain ⟨n', hat', hf⟩ := A.at hat
    rw [← (frame_eq hf).2.1]
    refine .snoc ih ?_ hat'
    rw [PrefixCache.next, A.links]
    split
    · next hy =>
      subst hy
      have hne : h' ≠ h := by
        rintro rfl
        rw [hno] at hn
        exact absurd hn (by simp)
      rw [lookup_cons, beq_eq_false_iff_ne.mpr hne]
      exact hn
    · exact hn

theorem Added.reach_new (hno : c.next cur h = none)
    (hr : c.Reach p cur) : c'.Reach (p ++ [(h, node.tokens)]) (some id) := by
  refine .snoc (A.reach hno hr) ?_ A.new
  rw [PrefixCache.next, A.links, if_pos rfl, lookup_cons, beq_self_eq_true]

/-- a path leads to the new leaf, or is a path of before -/
theorem Added.reach_back (T : c.Tree)
    (hcur : ∀ k, cur = some k → ∃ n, c.At k n) (hno : c.next cur h = none)
    (hr : c'.Reach p x) : c.Reach p x ∨ x = some id ∧ ∃ q, c.Reach q cur ∧ p = q ++ [(h, node.tokens)] := by
  have T' := A.tree T hcur hno
  have hcid : cur ≠ some id := fun heq => (hcur id heq).elim fun n hn => A.fresh n hn
  induction hr with
  | root => exact .inl .root
  | @snoc p y h' id' n' hr hn hat ih =>
    rcases ih with hr0 | ⟨rfl, -⟩
    · by_cases hid : id' = id
      · subst hid
        obtain rfl := A.new.inj hat
        obtain ⟨m, hm, hpar, -⟩ := T'.next_at hn
        obtain rfl := hat.inj hm
        have hyc : y = cur := hpar.symm.trans A.node.1
        subst hyc
        have hheq : h' = h := by
          rw [PrefixCache.next, A.links, if_pos rfl, lookup_cons] at hn
          by_contra hne
          rw [beq_eq_false_iff_ne.mpr hne] at hn
          obtain ⟨k, hk, -⟩ := T.linked (lookup_mem hn)
          exact A.fresh k hk
        exact .inr ⟨rfl, p, hr0, by rw [hheq]⟩
      · obtain ⟨n, hat0, hf⟩ := A.back hid hat
        rw [(frame_eq hf).2.1]
        refine .inl (.snoc hr0 ?_ hat0)
        rw [PrefixCache.next, A.links] at hn
        split at hn
        · next hy =>
          subst hy
          rw [lookup_cons] at hn
          split at hn
          · exact absurd (Option.some.inj hn).symm hid
          · exact hn
        · exact hn
    · rw [PrefixCache.next, A.links, if_neg (Ne.symm hcid)] at hn
      have hl := lookup_mem hn
      obtain ⟨m, hat0⟩ := T.links_at hl
      exact absurd hat0 (A.fresh m)

end

theorem added_addNode (T : c.Tree) (hcur : ∀ k, cur = some k → ∃ n, c.At k n) (hi : i = c.depth cur) :
    Added c (c.addNode cur h blk owner i).1 cur h (c.addNode cur h blk owner i).2
      ⟨cur, [], blk, owner, i, 1, c.tick, none, false⟩ := by
  -- both ways to get an id put the node at a place that holds no live node
  suffices hput : ∀ (c1 : PrefixCache) (id : NodeId), (∀ n, ¬ c.At id n) → id < c1.nodes.length →
      (∀ j, c1.nodes[j]? = if j = id then some ⟨cur, [], blk, owner, i, 1, c.tick, none, false⟩
        else c.nodes[j]?) → c1.roots = c.roots → (∀ j ∈ c1.free, j ∈ c.free ∧ j ≠ id) →
      (c.free.Nodup → c1.free.Nodup) → c1.block_tokens = c.block_tokens →
      Added c (c1.setLinks ((h, id) :: ·) cur) cur h id
        ⟨cur, [], blk, owner, i, 1, c.tick, none, false⟩ by
    unfold addNode
    cases hfree : c.free with
    | nil =>
      refine hput _ c.nodes.length ?_ (by simp) ?_ rfl (by simp [hfree]) (fun _ => by simp) rfl
      · intro n hat
        exact absurd hat.lt (lt_irrefl _)
      · intro j
        simp only
        by_cases hj : j = c.nodes.length
        · rw [if_pos hj, hj]
          exact getElem?_concat_length
        · rw [if_neg hj]
          rcases Nat.lt_or_gt_of_ne hj with hlt | hgt
          · exact getElem?_append_left hlt
          · rw [getElem?_eq_none (by simp; omega), getElem?_eq_none (by omega)]
    | cons id rest =>
      have hnd := hfree ▸ T.free_nodup
      obtain ⟨m, hm, hev⟩ := T.free id (by rw [hfree]; exact mem_cons_self)
      have hlt : id < c.nodes.length := (List.getElem?_eq_some_iff.mp hm).1
      refine hput _ id ?_ (by simpa using hlt) ?_ rfl ?_ (fun _ => (nodup_cons.mp hnd).2) rfl
      · intro n hat
        cases hm.symm.trans hat.1
        exact absurd (hat.2.symm.trans hev) (by decide)
      · intro j
        rw [getElem?_set]
        by_cases hj : id = j
        · subst hj
          simp [hlt]
        · simp [hj, Ne.symm hj]
      · intro j hj
        refine ⟨by rw [hfree]; exact mem_cons_of_mem _ hj, ?_⟩
        rintro rfl
        exact (nodup_cons.mp hnd).1 hj
  intro c1 id hfresh hlt hget hroots hfree hnd hblock
  have hcid : cur ≠ some id := fun heq => (hcur id heq).elim fun n hn => hfresh n hn
  have hfix : ∀ y, y ≠ some id → c1.links y = c.links y := by
    intro y hy
    cases y with
    | none => exact hroots
    | some j =>
      have hj : j ≠ id := fun heq => hy (by rw [heq])
      rw [PrefixCache.links, PrefixCache.links, hget, if_neg hj]
  refine ⟨hfresh, ?_, ⟨rfl, hi⟩, ?_, ?_, ?_, ?_, ?_⟩
  · refine ⟨?_, rfl⟩
    rw [setLinks_get, hget, if_pos rfl]
    simp [hcid]
  · intro j hj
    rw [setLinks_get, hget, if_neg hj]
    cases c.nodes[j]? with
    | none => rfl
    | some n =>
      by_cases hc : cur = some j
      · simp [hc, Node.frame]
      · simp [hc]
  · intro y
    rw [setLinks_links (.inl ?_)]
    · by_cases hy : y = cur
      · rw [if_pos hy, if_pos hy, hfix cur hcid]
      · rw [if_neg hy, if_neg hy]
        by_cases hyid : y = some id
        · -- the new leaf has no links, and its place had none
          subst hyid
          rw [PrefixCache.links, hget, if_pos rfl]
          have hnil : c.links (some id) = [] := by
            by_contra hne
            obtain ⟨e, l, heq⟩ := exists_cons_of_ne_nil hne
            obtain ⟨n, hat⟩ := T.links_at (e := e) (by rw [heq]; exact mem_cons_self)
            exact hfresh n hat
          rw [hnil]
          rfl
        · exact hfix y hyid
    · intro k hk
      obtain ⟨n, hat⟩ := hcur k hk
      have hkid : k ≠ id := fun heq => hcid (by rw [hk, heq])
      have hg := hget k
      rw [if_neg hkid, hat.1] at hg
      exact (List.getElem?_eq_some_iff.mp hg).1
  · cases cur with
    | none => exact hfree
    | some k => exact hfree
  · cases cur with
    | none => exact hnd
    | some k => exact hnd
  · cases cur with
    | none => exact hblock
    | some k => exact hblock

/-! ### A leaf taken off -/

structure Removed (c c' : PrefixCache) (id : NodeId) (n : Node) : Prop where
  leaf : c.At id n ∧ n.children = []
  gone : ∃ m, c'.nodes[id]? = some m ∧ m.evicted = true ∧ m.children = []
  other : ∀ j, j ≠ id → (c'.nodes[j]?).map Node.frame = (c.nodes[j]?).map Node.frame
  links : ∀ x, c'.links x = if x = n.parent then (c.links x).filter (·.2 ≠ id) else c.links x
  free : c'.free = id :: c.free
  block : c'.block_tokens = c.block_tokens

section

variable (R : Removed c c' id n)
include R

theorem Removed.at {m : Node} (hne : id' ≠ id) (hat : c.At id' m) :
    ∃ m', c'.At id' m' ∧ m'.frame = m.frame := by
  have hm := R.other id' hne
  rw [hat.1] at hm
  obtain ⟨m', hm', hf⟩ := map_eq_some_iff.mp hm
  exact ⟨m', ⟨hm', (frame_eq hf).2.2.2.2.2.trans hat.2⟩, hf⟩

theorem Removed.back {m' : Node} (hat : c'.At id' m') :
    id' ≠ id ∧ ∃ m, c.At id' m ∧ m'.frame = m.frame := by
  have hne : id' ≠ id := by
    rintro rfl
    obtain ⟨m, hm, hev, -⟩ := R.gone
    cases hm.symm.trans hat.1
    exact absurd (hat.2.symm.trans hev) (by decide)
  have hm := R.other id' hne
  rw [hat.1] at hm
  obtain ⟨m, hm0, hf⟩ := map_eq_some_iff.mp hm.symm
  exact ⟨hne, m, ⟨hm0, (frame_eq hf).2.2.2.2.2.trans hat.2⟩, hf.symm⟩

theorem Removed.depth (hx : x ≠ some id) : c'.depth x = c.depth x := by
  cases x with
  | none => rfl
  | some j =>
    have hm := R.other j fun heq => hx (by rw [heq])
    rw [PrefixCache.depth, PrefixCache.depth]
    cases hn : c.nodes[j]? with
    | none =>
      rw [hn, map_none, map_eq_none_iff] at hm
      rw [hm]
    | some m =>
      rw [hn] at hm
      obtain ⟨m', hm', hf⟩ := map_eq_some_iff.mp hm
      rw [hm', elim_some, elim_some, (frame_eq hf).2.2.2.1]

theorem Removed.mem_links (T : c.Tree) :
    (h, id') ∈ c'.links x ↔ (h, id') ∈ c.links x ∧ id' ≠ id := by
  rw [R.links]
  split
  · next hx => simp
  · next hx =>
    refine ⟨fun hl => ⟨hl, ?_⟩, And.left⟩
    rintro rfl
    obtain ⟨m, hat, hpar, -⟩ := T.linked hl
    obtain rfl := R.leaf.1.inj hat
    exact hx hpar.symm

theorem Removed.tree (T : c.Tree) : c'.Tree := by
  have hlive : ∀ {y : Option NodeId} {h' id'}, (h', id') ∈ c.links y → y ≠ some id := by
    rintro y h' id' hl rfl
    rw [links_some R.leaf.1.1, R.leaf.2] at hl
    simp at hl
  have hsub : ∀ y, (c'.links y).Sublist (c.links y) := by
    intro y
    rw [R.links]
    split
    · exact filter_sublist
    · exact .refl _
  constructor
  · intro y h' id' hl
    obtain ⟨hl, hne⟩ := (R.mem_links T).mp hl
    obtain ⟨m, hat, hpar, hidx⟩ := T.linked hl
    obtain ⟨m', hat', hf⟩ := R.at hne hat
    obtain ⟨h1, -, -, h2, -⟩ := frame_eq hf
    exact ⟨m', hat', h1.trans hpar, by rw [h2, hidx, R.depth (hlive hl)]⟩
  · intro id' m' hat
    obtain ⟨hne, m, hat0, hf⟩ := R.back hat
    obtain ⟨h', hl⟩ := T.up hat0
    exact ⟨h', (R.mem_links T).mpr ⟨(frame_eq hf).1 ▸ hl, hne⟩⟩
  · intro j m hm hev
    by_cases hj : j = id
    · subst hj
      obtain ⟨m0, hm0, -, hnil⟩ := R.gone
      cases hm0.symm.trans hm
      exact hnil
    · have ho := R.other j hj
      rw [hm] at ho
      obtain ⟨m0, hm0, hf⟩ := map_eq_some_iff.mp ho.symm
      have hnil := T.dead hm0 ((frame_eq hf).2.2.2.2.2.trans hev)
      have hs := hsub (some j)
      rw [links_some hm0, hnil, links_some hm] at hs
      exact sublist_nil.mp hs
  · exact fun y => (T.hashes y).sublist ((hsub y).map _)
  · exact fun y => (T.ids y).sublist ((hsub y).map _)
  · intro j hj
    rw [R.free] at hj
    by_cases hjid : j = id
    · subst hjid
      obtain ⟨m0, hm0, hev, -⟩ := R.gone
      exact ⟨m0, hm0, hev⟩
    · obtain ⟨m, hm, hev⟩ := T.free j ((mem_cons.mp hj).resolve_left hjid)
      have ho := R.other j hjid
      rw [hm] at ho
      obtain ⟨m', hm', hf⟩ := map_eq_some_iff.mp ho
      exact ⟨m', hm', (frame_eq hf).2.2.2.2.2.trans hev⟩
  · rw [R.free]
    refine nodup_cons.mpr ⟨fun hmem => ?_, T.free_nodup⟩
    obtain ⟨m, hm, hev⟩ := T.free id hmem
    cases hm.symm.trans R.leaf.1.1
    exact absurd (R.leaf.1.2.symm.trans hev) (by decide)

theorem Removed.next (T : c.Tree) :
    c'.next x h = some id' ↔ c.next x h = some id' ∧ id' ≠ id := by
  rw [(R.tree T).next_iff, T.next_iff, R.mem_links T]

theorem Removed.reach_iff (T : c.Tree) :
    c'.Reach p x ↔ c.Reach p x ∧ x ≠ some id := by
  constructor
  · intro hr
    induction hr with
    | root => exact ⟨.root, nofun⟩
    | snoc _ hn hat ih =>
      obtain ⟨hne, m, hat0, hf⟩ := R.back hat
      rw [(frame_eq hf).2.1]
      exact ⟨.snoc ih.1 ((R.next T).mp hn).1 hat0, fun heq => hne (Option.some.inj heq)⟩
  · rintro ⟨hr, hx⟩
    induction hr with
    | root => exact .root
    | @snoc p y h' id' m hr hn hat ih =>
      have hne : id' ≠ id := fun heq => hx (by rw [heq])
      have hy : y ≠ some id := by
        rintro rfl
        have hl := lookup_mem hn
        rw [links_some R.leaf.1.1, R.leaf.2] at hl
        simp at hl
      obtain ⟨m', hat', hf⟩ := R.at hne hat
      rw [← (frame_eq hf).2.1]
      exact .snoc (ih hy) ((R.next T).mpr ⟨hn, hne⟩) hat'

end

theorem removed_unlink (T : c.Tree) (hat : c.At id n) (hleaf : n.children = []) :
    Removed c (c.unlink id n.parent) id n := by
  have hpar : n.parent ≠ some id := by
    intro heq
    obtain ⟨h', hl⟩ := T.up hat
    rw [heq, links_some hat.1, hleaf] at hl
    simp at hl
  have hget : ∀ j, (c.unlink id n.parent).nodes[j]? = (c.nodes[j]?).map fun m =>
      if j = id then { m with refs := 0, children := [], tokens := [], evicted := true }
      else if n.parent = some j then { m with children := m.children.filter (·.2 ≠ id) } else m := by
    intro j
    rw [unlink, tombstone]
    simp only [mapNode]
    rw [getElem?_modify, setLinks_get]
    cases c.nodes[j]? with
    | none => simp
    | some m =>
      by_cases hj : id = j
      · subst hj
        simp [hpar]
      · simp [hj, Ne.symm hj]
  refine ⟨⟨hat, hleaf⟩, ?_, ?_, ?_, ?_, ?_⟩
  · exact ⟨_, by rw [hget, hat.1]; rfl, by simp, by simp⟩
  · intro j hj
    rw [hget]
    cases c.nodes[j]? with
    | none => rfl
    | some m =>
      by_cases hp : n.parent = some j
      · simp [hj, hp, Node.frame]
      · simp [hj, hp]
  · intro y
    cases y with
    | none =>
      cases hp : n.parent with
      | none => rfl
      | some k => rfl
    | some j =>
      rw [PrefixCache.links, hget, PrefixCache.links]
      by_cases hj : j = id
      · subst hj
        rw [if_neg (Ne.symm hpar), hat.1]
        simp [hleaf]
      · cases c.nodes[j]? with
        | none => simp
        | some m =>
          by_cases hp : n.parent = some j
          · simp [hj, hp]
          · simp [hj, hp, Ne.symm hp]
  · cases n.parent with
    | none => rfl
    | some k => rfl
  · cases n.parent with
    | none => rfl
    | some k => rfl

end PrefixCache
end Plow.Prefix
