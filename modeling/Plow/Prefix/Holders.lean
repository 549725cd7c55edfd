import Plow.Prefix.Ops

/-!
# Who holds which nodes

`refsOf` under `lookup`, `insert` and `release`: each of them counts along a path.  `pathOf` is the
path that `release` walks; it stays the same while the nodes on it stay.
-/

namespace Plow.Prefix

open List

namespace PrefixCache

/-- the references on the node `id` -/
def refsOf (c : PrefixCache) (id : NodeId) : ℕ := (c.nodes[id]?).elim 0 (·.refs)

variable {c c' : PrefixCache} {cur x : Option NodeId} {id j : NodeId} {n : Node}
  {h : BlockHash} {tokens : List Token} {i k owner : ℕ} {hs : List BlockHash} {path : List NodeId}
  {p : List (BlockHash × List Token)}

theorem refsOf_at (hat : c.At id n) : c.refsOf id = n.refs := by
  rw [refsOf, hat.1]
  rfl

theorem refsOf_bump {t : ℕ} (hj : j < c.nodes.length) :
    (c.bump t j).refsOf id = c.refsOf id + if id = j then 1 else 0 := by
  rw [refsOf, refsOf, bump, mapNode, getElem?_modify]
  by_cases hid : j = id
  · subst hid
    rw [getElem?_eq_getElem hj]
    simp
  · cases c.nodes[id]? with
    | none => simp [Ne.symm hid]
    | some n => simp [hid, Ne.symm hid]

theorem refsOf_dropRef : (c.dropRef j).refsOf id = c.refsOf id - if id = j then 1 else 0 := by
  rw [refsOf, refsOf, dropRef, mapNode, getElem?_modify]
  by_cases hid : j = id
  · subst hid
    cases c.nodes[j]? with
    | none => simp
    | some n => simp
  · cases c.nodes[id]? with
    | none => simp
    | some n => simp [hid, Ne.symm hid]

theorem refsOf_bumps (hp : ∀ j ∈ path, j < c.nodes.length) :
    (path.foldl (fun c id => c.bump c.tick id) c).refsOf id = c.refsOf id + path.count id := by
  induction path generalizing c with
  | nil => rfl
  | cons j path ih =>
    obtain ⟨hj, hp⟩ := forall_mem_cons.mp hp
    have hlen : (c.bump c.tick j).nodes.length = c.nodes.length := length_modify _ _ _
    rw [foldl_cons, ih fun k hk => hlen ▸ hp k hk, refsOf_bump hj, count_cons]
    simp only [beq_iff_eq, eq_comm (a := j)]
    omega

/-! ### Paths by hash -/

theorem pathOf_congr (hn : ∀ cur h, c'.next cur h = c.next cur h) : c'.pathOf cur hs = c.pathOf cur hs := by
  induction hs generalizing cur with
  | nil => rfl
  | cons h hs ih =>
    rw [pathOf, pathOf, hn]
    cases c.next cur h with
    | none => rfl
    | some m => simp only [ih]

theorem Shape.pathOf (S : Shape c c') : c'.pathOf cur hs = c.pathOf cur hs :=
  pathOf_congr fun _ _ => S.next

theorem Tree.pathOf_at (T : c.Tree) (hj : j ∈ c.pathOf cur hs) : ∃ n, c.At j n := by
  induction hs generalizing cur with
  | nil => simp [PrefixCache.pathOf] at hj
  | cons h hs ih =>
    rw [PrefixCache.pathOf] at hj
    cases hn : c.next cur h with
    | none => simp [hn] at hj
    | some m =>
      simp only [hn] at hj
      rcases mem_cons.mp hj with rfl | hj
      · obtain ⟨n, hat, -⟩ := T.next_at hn
        exact ⟨n, hat⟩
      · exact ih hj

theorem lookupPath_pathOf : (c.lookupPath tokens cur i hs).1 =
    c.pathOf cur (hs.take (c.lookupPath tokens cur i hs).1.length) := by
  induction hs generalizing cur i with
  | nil => rfl
  | cons h hs ih =>
    rw [lookupPath]
    cases hn : c.next cur h with
    | none => rfl
    | some m =>
      simp only
      by_cases hh : c.holds m tokens i = true
      · simp only [hh, if_true, length_cons, take_succ_cons]
        rw [pathOf, hn]
        simp only
        rw [← ih]
      · simp only [hh]
        rfl

theorem pathOf_append (a b : List BlockHash) (ha : (c.pathOf cur a).length = a.length) :
    c.pathOf cur (a ++ b) = c.pathOf cur a ++ c.pathOf ((c.pathOf cur a).getLast?.elim cur some) b := by
  induction a generalizing cur with
  | nil => rfl
  | cons h a ih =>
    rw [pathOf] at ha
    rw [cons_append, pathOf, pathOf]
    cases hn : c.next cur h with
    | none =>
      rw [hn] at ha
      simp at ha
    | some m =>
      rw [hn] at ha
      simp only at ha ⊢
      rw [ih (by simpa using ha), cons_append, getLast?_cons]
      cases (c.pathOf (some m) a).getLast? with
      | none => rfl
      | some k => rfl

theorem refsOf_releaseFrom :
    (releaseFrom c cur hs).refsOf id = c.refsOf id - (c.pathOf cur hs).count id := by
  induction hs generalizing c cur with
  | nil => rfl
  | cons h hs ih =>
    rw [releaseFrom, pathOf]
    cases hn : c.next cur h with
    | none => rfl
    | some m =>
      simp only
      have S : Shape c (c.dropRef m) := shape_dropRef
      rw [ih, S.pathOf, refsOf_dropRef, count_cons]
      simp only [beq_iff_eq, eq_comm (a := m)]
      omega

theorem refsOf_release (blocks : ℕ) :
    (c.release hs blocks).refsOf id = c.refsOf id - (c.pathOf none (hs.take blocks)).count id :=
  refsOf_releaseFrom

theorem Tree.refsOf_lookup (T : c.Tree) : (c.lookup hs tokens).1.refsOf id =
    c.refsOf id + (c.pathOf none (hs.take (c.lookup hs tokens).2.blocks)).count id := by
  have hpath := @lookupPath_shape c { c with tick := c.tick + 1 } none tokens 0 hs (shape_tick _ c.collisions)
  rw [lookup_blocks, ← lookupPath_pathOf]
  unfold lookup
  simp only
  rw [hpath, refsOf_bumps]
  · split
    · rfl
    · rfl
  · intro j hj
    rw [lookupPath_pathOf] at hj
    obtain ⟨n, hat⟩ := T.pathOf_at hj
    have hlt := hat.lt
    split
    · exact hlt
    · exact hlt

/-! ### The path of an insert -/

theorem labels_fst : (c.labels tokens i hs).map Prod.fst = hs.take (c.labels tokens i hs).length := by
  induction hs generalizing i with
  | nil => rfl
  | cons h hs ih =>
    rw [labels]
    cases c.blockSlice tokens i with
    | none => rfl
    | some b => simp only [map_cons, length_cons, take_succ_cons, ih]

theorem pathOf_reach (hr : c.Reach p x) : (c.pathOf none (p.map Prod.fst)).length = p.length ∧
      (c.pathOf none (p.map Prod.fst)).getLast?.elim none some = x := by
  induction hr with
  | root => exact ⟨rfl, rfl⟩
  | @snoc p cur h id n hr hn hat ih =>
    rw [map_append, pathOf_append _ _ (by rw [ih.1, length_map]), ih.2]
    simp [pathOf, hn, ih.1]

theorem Grown.next {pre ls : List (BlockHash × List Token)} (G : Grown c c' pre ls owner k) (T : c.Tree)
    (hr : c.Reach p cur) (hn : c.next cur h = some id) : c'.next cur h = some id := by
  obtain ⟨n, -, hr'⟩ := T.step hr hn
  obtain ⟨cur', id', n', heq, hp, hn', -, -⟩ := reach_snoc (G.reach hr')
  cases heq
  rwa [hp.unique (G.reach hr)] at hn'

theorem Grown.pathOf {pre ls : List (BlockHash × List Token)} (G : Grown c c' pre ls owner k) (T : c.Tree)
    (hr : c.Reach p cur) (hfull : (c.pathOf cur hs).length = hs.length) :
    c'.pathOf cur hs = c.pathOf cur hs := by
  induction hs generalizing cur p with
  | nil => rfl
  | cons h hs ih =>
    rw [PrefixCache.pathOf] at hfull
    rw [PrefixCache.pathOf, PrefixCache.pathOf]
    cases hn : c.next cur h with
    | none =>
      rw [hn] at hfull
      simp at hfull
    | some m =>
      rw [hn] at hfull
      obtain ⟨n, -, hr'⟩ := T.step hr hn
      rw [G.next T hr hn]
      simp only
      rw [ih hr' (by simpa using hfull)]

theorem lookupPath_length_le : (c.lookupPath tokens cur i hs).1.length ≤ hs.length := by
  induction hs generalizing cur i with
  | nil => exact le_rfl
  | cons h hs ih =>
    rw [lookupPath]
    cases c.next cur h with
    | none => exact Nat.zero_le _
    | some m =>
      simp only
      by_cases hh : c.holds m tokens i = true
      · simp only [hh, if_true, length_cons]
        exact Nat.succ_le_succ ih
      · simp only [hh]
        exact Nat.zero_le _

theorem labels_at (hk : k ≤ hs.length) (hl : (c.labels tokens 0 (hs.take k)).length = k) :
    c.labels tokens 0 hs = c.labels tokens 0 (hs.take k) ++ c.labels tokens k (hs.drop k) := by
  have h0 := @labels_split c tokens 0 (hs.take k) (hs.drop k) (by
    rw [hl, length_take, Nat.min_eq_left hk])
  rwa [take_append_drop, length_take, Nat.min_eq_left hk, Nat.zero_add] at h0

/-- What a publish does to the tree: an `insert` from where the walk of its own prompt ends. -/
theorem grown_publish (T : c.Tree) (hk : (c.lookup hs tokens).2.blocks = k) (owner : ℕ) :
    k ≤ hs.length ∧ ∃ m, Grown c (c.insert hs tokens owner k).1 ((c.labels tokens 0 hs).take k)
        ((c.labels tokens 0 hs).drop k) owner m ∧
      (c.insert hs tokens owner k).2 = k + m ∧ k + m ≤ (c.labels tokens 0 hs).length := by
  have hpath := @lookupPath_shape c { c with tick := c.tick + 1 } none tokens 0 hs (shape_tick _ c.collisions)
  have hle : k ≤ hs.length := by
    rw [← hk, lookup_blocks]
    exact lookupPath_length_le
  obtain ⟨x, hw⟩ := @rewalk_lookupPath { c with tick := c.tick + 1 } none tokens 0 hs
  rw [hpath, ← lookup_blocks, hk] at hw
  obtain ⟨m, G, hn, hl⟩ := @grown_insert_ok c _ tokens owner hs k T hw hle
  have hsplit := labels_at hle hl
  have htake : (c.labels tokens 0 hs).take k = c.labels tokens 0 (hs.take k) := by
    rw [hsplit, take_append_of_le_length hl.ge, take_of_length_le hl.le]
  have hdrop : (c.labels tokens 0 hs).drop k = c.labels tokens k (hs.drop k) := by
    rw [hsplit, drop_append_of_le_length hl.ge, drop_eq_nil_of_le hl.le, nil_append]
  refine ⟨hle, m, htake ▸ hdrop ▸ G, hn, ?_⟩
  rw [hsplit, length_append, hl]
  exact Nat.add_le_add_left G.le k

end PrefixCache
end Plow.Prefix
