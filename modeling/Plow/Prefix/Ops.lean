import Plow.Prefix.Edit

/-!
# `insert` and the evictions

`Grown` is what an `insert` does to the paths: it hangs up the blocks that were not there, one below
the other, and every path of before stays.  `Pruned` is what an eviction does: it takes leaves off
one after the other and returns their keys.
-/

namespace Plow.Prefix

open List

namespace PrefixCache

variable {c c' c1 : PrefixCache} {cur x : Option NodeId} {id : NodeId} {n : Node}
  {h : BlockHash} {p pre ls : List (BlockHash × List Token)} {tokens b : List Token} {i k owner : ℕ}
  {hs : List BlockHash} {ks : List Key}

/-! ### Growth -/

/-- Below the path `pre` the first `k` of the labels `ls` are there now, the new ones as nodes of
`owner`. -/
structure Grown (c c' : PrefixCache) (pre ls : List (BlockHash × List Token)) (owner k : ℕ) : Prop where
  tree : c'.Tree
  keep : ∀ {id : NodeId} {n : Node}, c.At id n → ∃ n', c'.At id n' ∧ n'.frame = n.frame
  reach : ∀ {p x}, c.Reach p x → c'.Reach p x
  back : ∀ {p x}, c'.Reach p x → c.Reach p x ∨ ∃ j id node, j < k ∧ x = some id ∧
    p = pre ++ ls.take (j + 1) ∧ c'.At id node ∧ node.key = (owner, pre.length + j) ∧ node.refs = 1 ∧
    ∀ m, ¬ c.At id m
  done : ∀ j < k, ∃ id, c'.Reach (pre ++ ls.take (j + 1)) (some id)
  le : k ≤ ls.length
  block : c'.block_tokens = c.block_tokens

theorem Grown.of_eq (T : c.Tree) : Grown c c pre ls owner 0 where
  tree := T
  keep hat := ⟨_, hat, rfl⟩
  reach hr := hr
  back hr := .inl hr
  done := nofun
  le := Nat.zero_le _
  block := rfl

theorem Grown.cons (G : Grown c c' (pre ++ [(h, b)]) ls owner k) (hr : c.Reach (pre ++ [(h, b)]) x)
    (hx : x ≠ none) : Grown c c' pre ((h, b) :: ls) owner (k + 1) where
  tree := G.tree
  keep := G.keep
  reach := G.reach
  back hr := by
    rcases G.back hr with h1 | ⟨j, id, node, hj, rfl, rfl, hat, hkey, hrefs, hnew⟩
    · exact .inl h1
    · refine .inr ⟨j + 1, id, node, by omega, rfl, by simp, hat, ?_, hrefs, hnew⟩
      rw [hkey, length_append, length_singleton]
      congr 1
      omega
  done := by
    intro j hj
    cases j with
    | zero =>
      obtain ⟨id, rfl⟩ := Option.ne_none_iff_exists'.mp hx
      exact ⟨id, by simpa using G.reach hr⟩
    | succ j =>
      obtain ⟨id, hid⟩ := G.done j (by omega)
      exact ⟨id, by simpa using hid⟩
  le := by
    have := G.le
    rw [length_cons]
    omega
  block := G.block

theorem labels_block (hb : c'.block_tokens = c.block_tokens) :
    c'.labels tokens i hs = c.labels tokens i hs := by
  induction hs generalizing i with
  | nil => rfl
  | cons h hs ih =>
    have hs1 : c'.blockSlice tokens i = c.blockSlice tokens i := by rw [blockSlice, blockSlice, hb]
    rw [labels, labels, hs1, ih]

/-- one block of `insertFrom` that was not there -/
theorem Grown.added {node : Node} (A : Added c c1 cur h id node) (T : c.Tree)
    (hcur : ∀ k, cur = some k → ∃ n, c.At k n) (hno : c.next cur h = none) (hr : c.Reach pre cur)
    (hkey : node.key = (owner, pre.length)) (hrefs : node.refs = 1)
    (G : Grown c1 c' (pre ++ [(h, node.tokens)]) ls owner k) :
    Grown c c' pre ((h, node.tokens) :: ls) owner (k + 1) := by
  have hnew : c1.Reach (pre ++ [(h, node.tokens)]) (some id) := A.reach_new hno hr
  have G' := G.cons hnew (Option.some_ne_none _)
  refine ⟨G.tree, ?_, fun hr => G.reach (A.reach hno hr), ?_, G'.done, G'.le, G.block.trans A.block⟩
  · intro id' n hat
    obtain ⟨n1, hat1, hf1⟩ := A.at hat
    obtain ⟨n2, hat2, hf2⟩ := G.keep hat1
    exact ⟨n2, hat2, hf2.trans hf1⟩
  · intro p x hr'
    rcases G'.back hr' with h1 | ⟨j, id', node', hj, rfl, rfl, hat, hk, hrf, hfresh⟩
    · rcases A.reach_back T hcur hno h1 with h0 | ⟨rfl, q, hq, rfl⟩
      · exact .inl h0
      · obtain rfl := T.reach_inj hq hr
        obtain ⟨node', hat', hf⟩ := G.keep A.new
        refine .inr ⟨0, id, node', by omega, rfl, by simp, hat', ?_, (frame_eq hf).2.2.2.2.1.trans hrefs,
          A.fresh⟩
        rw [(frame_eq hf).2.2.1, hkey, Nat.add_zero]
    · refine .inr ⟨j, id', node', hj, rfl, rfl, hat, hk, hrf, fun m hm => ?_⟩
      obtain ⟨m1, hm1, -⟩ := A.at hm
      exact hfresh m1 hm1

theorem reach_some (hr : c.Reach p cur) : ∀ k, cur = some k → ∃ n, c.At k n := by
  rintro k rfl
  cases hr with
  | snoc _ _ hat => exact ⟨_, hat⟩

theorem grown_insertFrom (T : c.Tree) (hr : c.Reach pre cur) (hi : i = pre.length) :
    ∃ k, Grown c (insertFrom tokens owner c cur i hs).1 pre (c.labels tokens i hs) owner k ∧
      (insertFrom tokens owner c cur i hs).2 = if k = hs.length then none else some (i + k) := by
  induction hs generalizing c cur i pre with
  | nil => exact ⟨0, .of_eq T, rfl⟩
  | cons h hs ih =>
    rw [insertFrom, labels]
    cases hb : c.blockSlice tokens i with
    | none => exact ⟨0, .of_eq T, rfl⟩
    | some b =>
      simp only
      cases hn : c.next cur h with
      | some m =>
        simp only
        by_cases hh : c.holds m tokens i = true
        · simp only [hh, if_true]
          obtain ⟨n, hat, hr'⟩ := T.step hr hn
          have hbn := (holds_iff hat).mp hh
          obtain rfl : b = n.tokens := Option.some.inj (hb.symm.trans hbn)
          obtain ⟨k, G, hk⟩ := ih T hr' (i := i + 1) (by rw [hi, length_append]; rfl)
          refine ⟨k + 1, G.cons hr' (Option.some_ne_none _), ?_⟩
          rw [hk, length_cons]
          by_cases hkl : k = hs.length
          · rw [if_pos hkl, if_pos (by omega)]
          · rw [if_neg hkl, if_neg (by omega)]
            congr 1
            omega
        · simp only [hh]
          refine ⟨0, ?_, rfl⟩
          have S : Shape c { c with collisions := c.collisions + 1 } := shape_tick _ _
          refine ⟨S.tree T, fun hat => ⟨_, hat, rfl⟩, S.reach, fun hr' => .inl (S.symm.reach hr'),
            fun _ hj => absurd hj (Nat.not_lt_zero _),
            Nat.zero_le _, rfl⟩
      | none =>
        simp only
        have hcur := reach_some hr
        have A : Added c (c.addNode cur h b owner i).1 cur h (c.addNode cur h b owner i).2
            ⟨cur, [], b, owner, i, 1, c.tick, none, false⟩ :=
          added_addNode T hcur (hi.trans (T.reach_depth hr).symm)
        have T1 := A.tree T hcur hn
        have hlab : ∀ j, (c.addNode cur h b owner i).1.labels tokens j hs = c.labels tokens j hs :=
          fun j => labels_block A.block
        obtain ⟨k, G, hk⟩ := ih T1 (A.reach_new hn hr) (i := i + 1) (by rw [hi, length_append]; rfl)
        rw [hlab] at G
        refine ⟨k + 1, G.added A T hcur hn hr (by rw [hi]; rfl) rfl, ?_⟩
        rw [hk, length_cons]
        by_cases hkl : k = hs.length
        · rw [if_pos hkl, if_pos (by omega)]
        · rw [if_neg hkl, if_neg (by omega)]
          congr 1
          omega

theorem Tree.rewalk_ok (T : c.Tree) (hr : c.Reach pre cur) (hw : c.rewalk tokens cur i hs = .ok x) :
    c.Reach (pre ++ c.labels tokens i hs) x ∧ (c.labels tokens i hs).length = hs.length := by
  induction hs generalizing cur i pre with
  | nil =>
    rw [rewalk] at hw
    obtain rfl := Except.ok.inj hw
    exact ⟨by simpa [labels] using hr, rfl⟩
  | cons h hs ih =>
    rw [rewalk] at hw
    cases hn : c.next cur h with
    | none => simp [hn] at hw
    | some m =>
      simp only [hn] at hw
      by_cases hh : c.holds m tokens i = true
      · simp only [hh, if_true] at hw
        obtain ⟨n, hat, hr'⟩ := T.step hr hn
        have hbn := (holds_iff hat).mp hh
        have hih := ih hr' hw
        rw [labels, hbn]
        exact ⟨by simpa using hih.1, by simpa using hih.2⟩
      · simp [hh] at hw

theorem rewalk_lookupPath :
    ∃ x, c.rewalk tokens cur i (hs.take (c.lookupPath tokens cur i hs).1.length) = .ok x := by
  induction hs generalizing cur i with
  | nil => exact ⟨cur, rfl⟩
  | cons h hs ih =>
    rw [lookupPath]
    cases hn : c.next cur h with
    | none => exact ⟨cur, rfl⟩
    | some m =>
      simp only
      by_cases hh : c.holds m tokens i = true
      · simp only [hh, if_true, length_cons, take_succ_cons]
        rw [rewalk, hn]
        simp only [hh, if_true]
        exact ih
      · simp only [hh]
        exact ⟨cur, rfl⟩

theorem labels_split (a b : List BlockHash) (hl : (c.labels tokens i a).length = a.length) :
    c.labels tokens i (a ++ b) = c.labels tokens i a ++ c.labels tokens (i + a.length) b := by
  induction a generalizing i with
  | nil => rfl
  | cons h a ih =>
    rw [labels] at hl
    rw [cons_append, labels, labels]
    cases hb : c.blockSlice tokens i with
    | none =>
      rw [hb] at hl
      simp at hl
    | some s =>
      rw [hb] at hl
      simp only at hl ⊢
      rw [ih (by simpa using hl), cons_append, length_cons, Nat.add_assoc, Nat.add_comm 1]

/-- `insert` below a path that is there grows the tree below that path. -/
theorem grown_insert_ok {from_block : ℕ} (T : c.Tree)
    (hw : { c with tick := c.tick + 1 }.rewalk tokens none 0 (hs.take from_block) = .ok cur)
    (hfrom : from_block ≤ hs.length) :
    ∃ k, Grown c (c.insert hs tokens owner from_block).1 (c.labels tokens 0 (hs.take from_block))
        (c.labels tokens from_block (hs.drop from_block)) owner k ∧
      (c.insert hs tokens owner from_block).2 = from_block + k ∧
      (c.labels tokens 0 (hs.take from_block)).length = from_block := by
  have S : Shape c { c with tick := c.tick + 1 } := shape_tick _ c.collisions
  have T1 := S.tree T
  obtain ⟨hr, hlen⟩ := T1.rewalk_ok .root hw
  rw [nil_append] at hr
  have hlab : ∀ j l, { c with tick := c.tick + 1 }.labels tokens j l = c.labels tokens j l :=
    fun j l => labels_block rfl
  rw [hlab] at hr hlen
  rw [length_take, Nat.min_eq_left hfrom] at hlen
  obtain ⟨k, G, hk⟩ := @grown_insertFrom _ _ _ tokens _ owner (hs.drop from_block) T1 hr hlen.symm
  rw [hlab] at G
  unfold insert
  simp only [hw]
  refine ⟨k, ⟨G.tree, ?_, fun hr => G.reach (S.reach hr), ?_, G.done, G.le, G.block⟩, ?_, hlen⟩
  · intro id n hat
    exact G.keep hat
  · intro p x hr
    rcases G.back hr with h1 | h1
    · exact .inl (S.symm.reach h1)
    · exact .inr h1
  · rw [hk]
    by_cases hkl : k = (hs.drop from_block).length
    · rw [if_pos hkl, Option.getD_none, hkl, length_drop]
      omega
    · rw [if_neg hkl]
      rfl

theorem grown_insert (T : c.Tree) (tokens : List Token) (hs : List BlockHash) (owner from_block : ℕ) :
    Shape c (c.insert hs tokens owner from_block).1 ∨
      from_block ≤ hs.length ∧ ∃ k, Grown c (c.insert hs tokens owner from_block).1
        (c.labels tokens 0 (hs.take from_block)) (c.labels tokens from_block (hs.drop from_block)) owner k ∧
        (c.insert hs tokens owner from_block).2 = from_block + k ∧
        (c.labels tokens 0 (hs.take from_block)).length = from_block := by
  have S : Shape c { c with tick := c.tick + 1 } := shape_tick _ c.collisions
  cases hw : { c with tick := c.tick + 1 }.rewalk tokens none 0 (hs.take from_block) with
  | error i =>
    left
    unfold insert
    simp only [hw]
    exact S
  | ok cur =>
    by_cases hfrom : from_block ≤ hs.length
    · exact .inr ⟨hfrom, grown_insert_ok T hw hfrom⟩
    · left
      unfold insert
      simp only [hw]
      rw [drop_eq_nil_of_le (by omega)]
      exact S

theorem tree_insert (T : c.Tree) (from_block : ℕ) : (c.insert hs tokens owner from_block).1.Tree := by
  rcases grown_insert T tokens hs owner from_block with S | ⟨-, k, G, -⟩
  · exact S.tree T
  · exact G.tree

/-! ### Eviction -/

/-- The leaves with the keys `ks` are taken off, one after the other. -/
inductive Pruned : PrefixCache → List Key → PrefixCache → Prop
  | nil : ∀ {c : PrefixCache}, Pruned c [] c
  | cons : ∀ {c c1 c' : PrefixCache} {id : NodeId} {n : Node} {ks : List Key}, Removed c c1 id n → n.refs = 0 → Pruned c1 ks c' → Pruned c (n.key :: ks) c'

theorem idleLeaf_iff : idleLeaf n = true ↔ n.evicted = false ∧ n.refs = 0 ∧ n.children = [] := by
  simp [idleLeaf, and_assoc]

theorem Pruned.tree (P : Pruned c ks c') (T : c.Tree) : c'.Tree := by
  induction P with
  | nil => exact T
  | cons R _ _ ih => exact ih (R.tree T)

theorem Pruned.block (P : Pruned c ks c') : c'.block_tokens = c.block_tokens := by
  induction P with
  | nil => rfl
  | cons R _ _ ih => exact ih.trans R.block

theorem removed_idle (T : c.Tree) (hn : c.nodes[id]? = some n) (hi : idleLeaf n = true) :
    Removed c (c.unlink id n.parent) id n ∧ n.refs = 0 := by
  obtain ⟨hev, hrefs, hnil⟩ := idleLeaf_iff.mp hi
  exact ⟨removed_unlink T ⟨hn, hev⟩ hnil, hrefs⟩

theorem evictLruWhere_cases (T : c.Tree) (now : ℕ) (pick : Key → Bool) :
    c.evictLruWhere now pick = (c, none) ∨ ∃ id n c', Removed c c' id n ∧ n.refs = 0 ∧
      pick n.key = true ∧ c.evictLruWhere now pick = (c', some n.key) := by
  unfold evictLruWhere
  cases hv : (c.nodes.zipIdx.filter fun e => idleLeaf e.1 && pick e.1.key).argmin fun e =>
      toLex (e.1.pinned_until.any (now < ·), e.1.last_used) with
  | none => exact .inl rfl
  | some e =>
    obtain ⟨n, id⟩ := e
    obtain ⟨hmem, hpass⟩ := mem_filter.mp (argmin_mem hv)
    obtain ⟨hidle, hpick⟩ := (Bool.and_eq_true _ _).mp hpass
    have hn : c.nodes[id]? = some n := mem_zipIdx_iff_getElem?.mp hmem
    obtain ⟨R, hrefs⟩ := removed_idle T hn hidle
    exact .inr ⟨id, n, _, R, hrefs, hpick, rfl⟩

theorem pruned_evictChain {keep : Key → Bool} {turns : ℕ} (T : c.Tree) :
    Pruned c (evictChain keep turns c x).2 (evictChain keep turns c x).1 ∧
      ∀ k ∈ (evictChain keep turns c x).2, keep k = false := by
  induction turns generalizing c x with
  | zero => exact ⟨.nil, nofun⟩
  | succ turns ih =>
    cases x with
    | none => exact ⟨.nil, nofun⟩
    | some id =>
      rw [evictChain]
      cases hn : c.nodes[id]? with
      | none => exact ⟨.nil, nofun⟩
      | some n =>
        simp only
        by_cases hc : (!idleLeaf n || keep n.key) = true
        · simp only [hc, if_true]
          exact ⟨.nil, nofun⟩
        · simp only [hc]
          obtain ⟨hidle, hkeep⟩ : idleLeaf n = true ∧ keep n.key = false := by simpa using hc
          obtain ⟨R, hrefs⟩ := removed_idle T hn hidle
          obtain ⟨P, hks⟩ := ih (x := n.parent) (R.tree T)
          exact ⟨.cons R hrefs P, forall_mem_cons.mpr ⟨hkeep, hks⟩⟩

theorem keyOf_unlink (j : NodeId) : (c.unlink id x).keyOf j = c.keyOf j := by
  rw [keyOf, keyOf, unlink, tombstone]
  simp only [mapNode]
  rw [getElem?_modify, setLinks_get]
  cases c.nodes[j]? with
  | none => simp
  | some n =>
    by_cases hj : id = j
    · by_cases hx : x = some j
      · simp [hj, hx, Node.key]
      · simp [hj, hx, Node.key]
    · by_cases hx : x = some j
      · simp [hj, hx, Node.key]
      · simp [hj, hx, Node.key]

theorem pruned_evictPath {path : List NodeId} (T : c.Tree) :
    Pruned c (evictPath c path).2 (evictPath c path).1 ∧
      (evictPath c path).2 <+: path.map c.keyOf := by
  induction path generalizing c with
  | nil => exact ⟨.nil, prefix_rfl⟩
  | cons id path ih =>
    rw [evictPath]
    cases hn : c.nodes[id]? with
    | none => exact ⟨.nil, nil_prefix⟩
    | some n =>
      simp only
      by_cases hc : (!idleLeaf n) = true
      · simp only [hc, if_true]
        exact ⟨.nil, nil_prefix⟩
      · simp only [hc]
        have hidle : idleLeaf n = true := by simpa using hc
        obtain ⟨R, hrefs⟩ := removed_idle T hn hidle
        obtain ⟨P, hks⟩ := ih (R.tree T)
        refine ⟨.cons R hrefs P, ?_⟩
        rw [map_cons, keyOf_at ⟨hn, (idleLeaf_iff.mp hidle).1⟩]
        refine cons_prefix_cons.mpr ⟨rfl, ?_⟩
        rwa [map_congr_left fun j _ => keyOf_unlink j] at hks

end PrefixCache
end Plow.Prefix
