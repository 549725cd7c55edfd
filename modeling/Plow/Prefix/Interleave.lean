import Plow.Prefix.Holders
import Plow.Prefix.History

/-!
# Sequences that share the prefix cache

A sequence looks its prompt up, inserts from where the match ended and releases the whole path once.
`Sys` is the cache with the sequences that hold a part of it.  When every insert still finds its
match where the lookup left it (`Fresh`), the references on a node are the sequences that hold it
(`Held`, `held_run`), so nothing that is held is evicted.  Two lookups before two inserts break it
(`second_insert_holds_nothing`).
-/

namespace Plow.Prefix

open List

namespace PrefixCache

/-- a sequence between its lookup and its release: it holds `n` blocks -/
structure Holder where
  hashes : List BlockHash
  tokens : List Token
  n : ℕ

structure Sys where
  cache : PrefixCache
  held : List Holder

inductive Event where
  | lookup (hashes : List BlockHash) (tokens : List Token)
  /-- the sequence `i` publishes from the block where its match ended -/
  | insert (i owner : ℕ)
  | release (i : ℕ)
  | pin (hashes : List BlockHash) (tokens : List Token) (limit : ℕ)
  | evictLruWhere (now : ℕ) (pick : Key → Bool)
  | evictChainFrom (key : Key) (keep : Key → Bool)
  | evictTail (hashes : List BlockHash) (from_depth keep : ℕ)

def Sys.step (s : Sys) : Event → Sys
  | .lookup hashes tokens =>
    let (c, m) := s.cache.lookup hashes tokens
    ⟨c, ⟨hashes, tokens, m.blocks⟩ :: s.held⟩
  | .insert i owner =>
    match s.held[i]? with
    | none => s
    | some h =>
      let (c, n) := s.cache.insert h.hashes h.tokens owner h.n
      ⟨c, s.held.set i { h with n := n }⟩
  | .release i =>
    match s.held[i]? with
    | none => s
    | some h => ⟨s.cache.release h.hashes h.n, s.held.eraseIdx i⟩
  | .pin hashes tokens limit => { s with cache := s.cache.pin hashes tokens limit }
  | .evictLruWhere now pick => { s with cache := (s.cache.evictLruWhere now pick).1 }
  | .evictChainFrom key keep => { s with cache := (s.cache.evictChainFrom key keep).1 }
  | .evictTail hashes from_depth keep => { s with cache := (s.cache.evictTail hashes from_depth keep).1 }

def Sys.run (s : Sys) (evs : List Event) : Sys := evs.foldl Sys.step s

def Event.evicts : Event → Bool
  | .evictLruWhere _ _ => true
  | .evictChainFrom _ _ => true
  | .evictTail _ _ _ => true
  | _ => false

def Fresh (s : Sys) : Event → Prop
  | .insert i _ => ∀ h, s.held[i]? = some h → (s.cache.lookup h.hashes h.tokens).2.blocks = h.n
  | _ => True

/-- every event of the run is `Fresh` -/
def FreshRun (s : Sys) : List Event → Prop
  | [] => True
  | e :: evs => Fresh s e ∧ FreshRun (s.step e) evs

def Holder.path (c : PrefixCache) (h : Holder) : List NodeId := c.pathOf none (h.hashes.take h.n)

/-- The references on a node are the sequences that hold it. -/
structure Held (s : Sys) : Prop where
  tree : s.cache.Tree
  full : ∀ h ∈ s.held, h.n ≤ h.hashes.length ∧ (h.path s.cache).length = h.n
  refs : ∀ id n, s.cache.At id n → n.refs = (s.held.flatMap (Holder.path s.cache)).count id

variable {c c' : PrefixCache} {s : Sys} {e : Event} {id : NodeId} {n : Node} {tokens : List Token}
  {k owner j : ℕ} {hs : List BlockHash} {x : Option NodeId} {held : List Holder}

/-! ### The path of an insert -/

theorem pathOf_take (j : ℕ) : (c.pathOf x hs).take j = c.pathOf x (hs.take j) := by
  induction hs generalizing x j with
  | nil => simp [pathOf]
  | cons h hs ih =>
    cases j with
    | zero => simp [pathOf]
    | succ j =>
      rw [take_succ_cons, pathOf, pathOf]
      cases c.next x h with
      | none => rfl
      | some m => simp only [take_succ_cons, ih]

theorem pathOf_get {p : List (BlockHash × List Token)} (hp : p.map Prod.fst = hs.take (j + 1))
    (hl : p.length = j + 1) (hr : c.Reach p (some id)) : (c.pathOf none hs)[j]? = some id := by
  obtain ⟨hlen, hlast⟩ := pathOf_reach hr
  rw [hp, ← pathOf_take] at hlen hlast
  have hget : ((c.pathOf none hs).take (j + 1)).getLast? = (c.pathOf none hs)[j]? := by
    rw [getLast?_eq_getElem?, hlen, hl, Nat.add_sub_cancel, getElem?_take,
      if_pos (Nat.lt_succ_self j)]
  rw [hget] at hlast
  cases hj : (c.pathOf none hs)[j]? with
  | none => simp [hj] at hlast
  | some y =>
    rw [hj] at hlast
    exact hlast

section
variable {P : List (BlockHash × List Token)} {N : ℕ} (hP : P.map Prod.fst = hs.take P.length) (hN : N ≤ P.length)
  (hreach : ∀ j < N, ∃ id, c.Reach (P.take (j + 1)) (some id))
include hP hN hreach

theorem walked_length : (c.pathOf none (hs.take N)).length = N := by
  obtain ⟨y, hy⟩ : ∃ y, c.Reach (P.take N) y := by
    cases N with
    | zero => exact ⟨none, by simpa using Reach.root⟩
    | succ j =>
      obtain ⟨id, hid⟩ := hreach j (Nat.lt_succ_self j)
      exact ⟨_, hid⟩
  have hl := (pathOf_reach hy).1
  rwa [map_take, hP, take_take, min_eq_left hN, length_take, min_eq_left hN] at hl

theorem walked_get (hj : j < N) :
    (c.pathOf none (hs.take N))[j]? = some id ↔ c.Reach (P.take (j + 1)) (some id) := by
  have hget : ∀ {y : NodeId}, c.Reach (P.take (j + 1)) (some y) →
      (c.pathOf none (hs.take N))[j]? = some y := by
    intro y hr
    refine pathOf_get ?_ ?_ hr
    · rw [map_take, hP, take_take, take_take]
      congr 1
      omega
    · rw [length_take]
      omega
  refine ⟨fun hid => ?_, hget⟩
  obtain ⟨y, hy⟩ := hreach j hj
  rw [hget hy] at hid
  exact Option.some.inj hid ▸ hy

end

/-- The path of an insert is the walked path and new nodes, each with the inserter's reference; the
other nodes and the other paths stay as they are. -/
theorem insert_path (T : c.Tree) (hk : (c.lookup hs tokens).2.blocks = k) (owner : ℕ) :
    (c.insert hs tokens owner k).1.Tree ∧ (c.insert hs tokens owner k).2 ≤ hs.length ∧
    (∀ hs', (c.pathOf none hs').length = hs'.length →
      (c.insert hs tokens owner k).1.pathOf none hs' = c.pathOf none hs') ∧
    ∃ new, (c.insert hs tokens owner k).1.pathOf none (hs.take (c.insert hs tokens owner k).2)
        = c.pathOf none (hs.take k) ++ new ∧ (c.insert hs tokens owner k).2 = k + new.length ∧
      (∀ id n', (c.insert hs tokens owner k).1.At id n' →
        (∃ n, c.At id n ∧ n'.refs = n.refs ∧ new.count id = 0) ∨
        (∀ n, ¬ c.At id n) ∧ n'.refs = 1 ∧ new.count id = 1) := by
  obtain ⟨hle, m, G, hn, hmP⟩ := grown_publish T hk owner
  set c' := (c.insert hs tokens owner k).1
  generalize hP : c.labels tokens 0 hs = P at G hmP
  have hfst : P.map Prod.fst = hs.take P.length := hP ▸ labels_fst
  have hPlen : P.length ≤ hs.length := by
    have hlen := congrArg length hfst
    rw [length_map, length_take] at hlen
    omega
  have hpre : ∀ j, P.take k ++ (P.drop k).take (j + 1) = P.take (k + j + 1) := fun j => by
    rw [Nat.add_assoc, ← take_add]
  have hklook : c.pathOf none (hs.take k) = (c.lookupPath tokens none 0 hs).1 := by
    rw [← hk, lookup_blocks, ← lookupPath_pathOf]
  have hkfull : (c.pathOf none (hs.take k)).length = k := by rw [hklook, ← lookup_blocks, hk]
  -- the walked blocks are reached before, the others after
  have hreach : ∀ j < k + m, ∃ id, c'.Reach (P.take (j + 1)) (some id) := by
    intro j hj
    by_cases hjk : j < k
    · have hget := getElem?_eq_getElem (hklook ▸ hkfull.symm ▸ hjk :
        j < (c.lookupPath tokens none 0 hs).1.length)
      exact ⟨_, hP ▸ G.reach (T.lookupPath_get .root hget).1⟩
    · obtain ⟨id, hid⟩ := G.done (j - k) (by omega)
      rw [hpre, Nat.add_sub_cancel' (by omega)] at hid
      exact ⟨id, hid⟩
  have hlen := walked_length hfst hmP hreach
  have hnew : ∀ {j id}, ((c'.pathOf none (hs.take (k + m))).drop k)[j]? = some id →
      j < m ∧ c'.Reach (P.take (k + j + 1)) (some id) := by
    intro j id hj
    rw [getElem?_drop] at hj
    have hlt := (List.getElem?_eq_some_iff.mp hj).1
    rw [hlen] at hlt
    exact ⟨by omega, (walked_get hfst hmP hreach hlt).mp hj⟩
  have hnodup : ((c'.pathOf none (hs.take (k + m))).drop k).Nodup := by
    rw [nodup_iff_getElem?_ne_getElem?]
    intro i j hij hj heq
    obtain ⟨id, hid⟩ : ∃ id, ((c'.pathOf none (hs.take (k + m))).drop k)[j]? = some id :=
      ⟨_, getElem?_eq_getElem hj⟩
    obtain ⟨hjm, hrj⟩ := hnew hid
    obtain ⟨-, hri⟩ := hnew (heq.trans hid)
    have hl := congrArg length (G.tree.reach_inj hri hrj)
    rw [length_take, length_take] at hl
    omega
  -- the walk ended before the new blocks
  have hnotold : ∀ {j id}, j < m → ¬ c.Reach (P.take (k + j + 1)) (some id) := by
    intro j id hj hr
    have hmax := @lookupPath_max c none id [] (P.take (k + j + 1)) tokens 0 hs .root
      (by rw [← length_pos_iff, length_take]; omega) (hP ▸ take_prefix _ _) hr
    rw [← hklook, length_take, getElem?_eq_none (by omega)] at hmax
    exact absurd hmax (by simp)
  refine ⟨G.tree, by omega, fun hs' hfull => G.pathOf T .root hfull,
    (c'.pathOf none (hs.take (k + m))).drop k, ?_, ?_, fun id n' hat => ?_⟩
  · have htake : (c'.pathOf none (hs.take (k + m))).take k = c.pathOf none (hs.take k) := by
      rw [pathOf_take, take_take, min_eq_left (by omega)]
      exact G.pathOf T .root (by rw [hkfull, length_take]; omega)
    rw [hn, ← htake, take_append_drop]
  · rw [hn, length_drop, hlen]
    omega
  · -- a node of the grown tree is an old one, or it is at exactly one of the new places
    obtain ⟨p, hp⟩ := G.tree.reach_of_at hat
    have hplace : ∀ {j}, ((c'.pathOf none (hs.take (k + m))).drop k)[j]? = some id →
        j < m ∧ p = P.take (k + j + 1) := fun hj => ⟨(hnew hj).1, G.tree.reach_inj hp (hnew hj).2⟩
    rcases G.back hp with h0 | ⟨j, id', node, hj, heq, hpj, hnode, -, hrefs, hfresh⟩
    · left
      obtain ⟨n, hn0⟩ := reach_some h0 id rfl
      obtain ⟨n1, hn1, hf⟩ := G.keep hn0
      obtain rfl := hat.inj hn1
      refine ⟨n, hn0, (frame_eq hf).2.2.2.2.1, count_eq_zero.mpr fun hmem => ?_⟩
      obtain ⟨j, hj⟩ := mem_iff_getElem?.mp hmem
      obtain ⟨hjm, rfl⟩ := hplace hj
      exact hnotold hjm h0
    · right
      cases heq
      obtain rfl := hat.inj hnode
      refine ⟨hfresh, hrefs, ?_⟩
      rw [hpre] at hpj
      have hj0 : ((c'.pathOf none (hs.take (k + m))).drop k)[j]? = some id := by
        rw [getElem?_drop]
        exact (walked_get hfst hmP hreach (by omega)).mpr (hpj ▸ hp)
      exact count_eq_one_of_mem hnodup (mem_of_getElem? hj0)

/-! ### Evictions -/

theorem Removed.pathOf (R : Removed c c' id n) (T : c.Tree) (hno : id ∉ c.pathOf x hs) :
    c'.pathOf x hs = c.pathOf x hs := by
  induction hs generalizing x with
  | nil => rfl
  | cons h hs ih =>
    rw [PrefixCache.pathOf] at hno
    rw [PrefixCache.pathOf, PrefixCache.pathOf]
    cases hn : c.next x h with
    | none =>
      cases hn' : c'.next x h with
      | none => rfl
      | some m => rw [((R.next T).mp hn').1] at hn; exact absurd hn (by simp)
    | some m =>
      rw [hn] at hno
      obtain ⟨hne, hno⟩ := not_or.mp (mt mem_cons.mpr hno)
      rw [(R.next T).mpr ⟨hn, Ne.symm hne⟩]
      simp only
      rw [ih hno]

theorem path_le_flatMap {h : Holder} (hh : h ∈ held) (hid : id ∈ h.path c) :
    0 < (held.flatMap (Holder.path c)).count id :=
  count_pos_iff.mpr (mem_flatMap.mpr ⟨h, hh, hid⟩)

theorem Held.of_shape (H : Held s) (S : Shape s.cache c')
    (hrefs : ∀ id, c'.refsOf id = s.cache.refsOf id) : Held { s with cache := c' } := by
  have hpath : ∀ h : Holder, h.path c' = h.path s.cache := fun h => S.pathOf
  refine ⟨S.tree H.tree, fun h hh => ?_, fun id n hat => ?_⟩
  · rw [hpath]
    exact H.full h hh
  · obtain ⟨n0, hat0, -⟩ := S.symm.at hat
    rw [← refsOf_at hat, hrefs, refsOf_at hat0, H.refs id n0 hat0, funext hpath]

theorem held_pruned {ks : List Key} (P : Pruned c ks c') (H : Held ⟨c, held⟩) :
    Held ⟨c', held⟩ ∧ ∀ h ∈ held, h.path c' = h.path c := by
  induction P with
  | nil => exact ⟨H, fun h _ => rfl⟩
  | @cons c c1 c' id n ks R hrefs _ ih =>
    have hcount : (held.flatMap (Holder.path c)).count id = 0 := by
      rw [← H.refs id n R.leaf.1, hrefs]
    have hpath : ∀ h ∈ held, h.path c1 = h.path c := by
      intro h hh
      refine R.pathOf H.tree fun hmem => ?_
      have := path_le_flatMap hh hmem
      omega
    have hflat : held.flatMap (Holder.path c1) = held.flatMap (Holder.path c) :=
      flatMap_congr hpath
    have H1 : Held ⟨c1, held⟩ := by
      refine ⟨R.tree H.tree, fun h hh => ?_, fun j m hat => ?_⟩
      · rw [hpath h hh]
        exact H.full h hh
      · obtain ⟨-, m0, hat0, hf⟩ := R.back hat
        rw [(frame_eq hf).2.2.2.2.1, hflat]
        exact H.refs j m0 hat0
    obtain ⟨H2, hp2⟩ := ih H1
    exact ⟨H2, fun h hh => (hp2 h hh).trans (hpath h hh)⟩

theorem pruned_event (T : s.cache.Tree) (he : e.evicts = true) :
    (s.step e).held = s.held ∧ ∃ ks, Pruned s.cache ks (s.step e).cache := by
  cases e with
  | evictLruWhere now pick => exact ⟨rfl, pruned_evictLruWhere T now pick⟩
  | evictChainFrom key keep => exact ⟨rfl, _, (pruned_evictChain T).1⟩
  | evictTail hs d k => exact ⟨rfl, _, (pruned_evictPath T).1⟩
  | _ => exact absurd he (by simp [Event.evicts])

/-! ### Runs -/

theorem refsOf_mapNode {f : Node → Node} (hf : ∀ n, (f n).refs = n.refs) (j : NodeId) :
    (c.mapNode j f).refsOf id = c.refsOf id := by
  rw [refsOf, refsOf, mapNode, getElem?_modify]
  by_cases hid : j = id
  · subst hid
    cases c.nodes[j]? with
    | none => simp
    | some n => simp [hf]
  · simp [hid]

theorem refsOf_pin (limit : ℕ) : (c.pin hs tokens limit).refsOf id = c.refsOf id := by
  suffices h : ∀ (c : PrefixCache) x i, (pinFrom tokens limit c x i hs).refsOf id = c.refsOf id from h c none 0
  induction hs with
  | nil => exact fun c x i => rfl
  | cons h hs ih =>
    intro c x i
    rw [pinFrom]
    cases c.next x h with
    | none => rfl
    | some m =>
      simp only
      split
      · rw [ih, refsOf_mapNode]
        exact fun n => rfl
      · rfl

theorem held_lookup (H : Held s) (hashes : List BlockHash) (tokens : List Token) :
    Held (s.step (.lookup hashes tokens)) := by
  have S : Shape s.cache (s.cache.lookup hashes tokens).1 := shape_lookup tokens
  have hpath : ∀ h : Holder, h.path (s.cache.lookup hashes tokens).1 = h.path s.cache := fun h => S.pathOf
  have hk := @lookupPath_pathOf s.cache none tokens 0 hashes
  have hself : (s.cache.lookup hashes tokens).2.blocks ≤ hashes.length ∧
      (s.cache.pathOf none (hashes.take (s.cache.lookup hashes tokens).2.blocks)).length
        = (s.cache.lookup hashes tokens).2.blocks := by
    rw [lookup_blocks, ← hk]
    exact ⟨lookupPath_length_le, rfl⟩
  refine ⟨S.tree H.tree, forall_mem_cons.mpr ⟨⟨hself.1, ?_⟩, fun h hh => ?_⟩, fun id n hat => ?_⟩
  · exact (congrArg length (hpath _)).trans hself.2
  · exact (H.full h hh).imp_right fun hl => (congrArg length (hpath h)).trans hl
  · obtain ⟨n0, hat0, -⟩ := S.symm.at hat
    have hafter : n.refs = (s.cache.pathOf none (hashes.take (s.cache.lookup hashes tokens).2.blocks)).count id
        + s.cache.refsOf id := by
      rw [← refsOf_at hat, Nat.add_comm]
      exact H.tree.refsOf_lookup
    rw [hafter, refsOf_at hat0, H.refs id n0 hat0, ← count_append]
    show _ = count id (flatMap (Holder.path (s.cache.lookup hashes tokens).1) (_ :: s.held))
    rw [flatMap_cons, funext hpath]
    rfl

theorem held_release (H : Held s) (i : ℕ) : Held (s.step (.release i)) := by
  rw [Sys.step]
  cases hi : s.held[i]? with
  | none => exact H
  | some h =>
    simp only
    have S : Shape s.cache (s.cache.release h.hashes h.n) := shape_release h.n
    have hpath : ∀ h' : Holder, h'.path (s.cache.release h.hashes h.n) = h'.path s.cache := fun h' => S.pathOf
    obtain ⟨hlt, rfl⟩ := List.getElem?_eq_some_iff.mp hi
    refine ⟨S.tree H.tree, fun h' hh => ?_, fun id n hat => ?_⟩
    · rw [hpath]
      exact H.full h' (mem_of_mem_eraseIdx hh)
    · obtain ⟨n0, hat0, -⟩ := S.symm.at hat
      have hperm := (getElem_cons_eraseIdx_perm hlt).flatMap_right (Holder.path s.cache)
      have hcount := hperm.count_eq id
      rw [flatMap_cons, count_append] at hcount
      rw [← refsOf_at hat, refsOf_release, refsOf_at hat0, H.refs id n0 hat0, ← hcount, funext hpath,
        Holder.path, Nat.add_sub_cancel_left]

theorem held_insert (H : Held s) {i : ℕ} (hf : Fresh s (.insert i owner)) : Held (s.step (.insert i owner)) := by
  rw [Sys.step]
  cases hi : s.held[i]? with
  | none => exact H
  | some h =>
    simp only
    obtain ⟨T', hle, hpaths, new, hpath, hn, hnodes⟩ := insert_path H.tree (hf h hi) owner
    obtain ⟨hlt, rfl⟩ := List.getElem?_eq_some_iff.mp hi
    set c' := (s.cache.insert s.held[i].hashes s.held[i].tokens owner s.held[i].n).1
    set n' := (s.cache.insert s.held[i].hashes s.held[i].tokens owner s.held[i].n).2
    have hkeep : ∀ h ∈ s.held, h.path c' = h.path s.cache := by
      intro h hh
      obtain ⟨h1, h2⟩ := H.full h hh
      refine hpaths _ ?_
      rw [length_take, min_eq_left h1]
      exact h2
    have hself := (H.full _ (getElem_mem hlt)).2
    have hnew : Holder.path c' { s.held[i] with n := n' } = s.held[i].path s.cache ++ new := hpath
    refine ⟨T', fun h hh => ?_, fun id n hat => ?_⟩
    · rcases mem_or_eq_of_mem_set hh with hh | rfl
      · rw [hkeep h hh]
        exact H.full h hh
      · refine ⟨hle, ?_⟩
        rw [hnew, length_append, hself]
        exact hn.symm
    · -- the changed list of paths is the old one and the new nodes
      have hcount : ((s.held.set i { s.held[i] with n := n' }).flatMap (Holder.path c')).count id
          = (s.held.flatMap (Holder.path s.cache)).count id + new.count id := by
        have hset : s.held.set i { s.held[i] with n := n' }
            = s.held.take i ++ { s.held[i] with n := n' } :: s.held.drop (i + 1) := by
          rw [set_eq_take_append_cons_drop, if_pos hlt]
        have hsplit : s.held = s.held.take i ++ s.held[i] :: s.held.drop (i + 1) := by
          rw [getElem_cons_drop, take_append_drop]
        have htake : (s.held.take i).flatMap (Holder.path c') = (s.held.take i).flatMap (Holder.path s.cache) :=
          flatMap_congr fun h hh => hkeep h (mem_of_mem_take hh)
        have hdrop : (s.held.drop (i + 1)).flatMap (Holder.path c')
            = (s.held.drop (i + 1)).flatMap (Holder.path s.cache) :=
          flatMap_congr fun h hh => hkeep h (mem_of_mem_drop hh)
        conv_rhs => rw [hsplit]
        rw [hset, flatMap_append, flatMap_append, flatMap_cons, flatMap_cons, hnew, htake,
          hdrop]
        simp only [count_append]
        omega
      rw [hcount]
      rcases hnodes id n hat with ⟨n0, hat0, hrefs, h0⟩ | ⟨hfresh, hrefs, h1⟩
      · rw [hrefs, h0, H.refs id n0 hat0]
        rfl
      · have hzero : (s.held.flatMap (Holder.path s.cache)).count id = 0 := by
          refine count_eq_zero.mpr fun hmem => ?_
          obtain ⟨h, -, hid⟩ := mem_flatMap.mp hmem
          obtain ⟨m, hm⟩ := H.tree.pathOf_at hid
          exact hfresh m hm
        rw [hrefs, h1, hzero]

theorem held_step (H : Held s) (hf : Fresh s e) : Held (s.step e) := by
  by_cases he : e.evicts = true
  · obtain ⟨hheld, ks, P⟩ := pruned_event H.tree he
    have h1 := (held_pruned P H).1
    rwa [← hheld] at h1
  · cases e with
    | lookup hashes tokens => exact held_lookup H hashes tokens
    | insert i owner => exact held_insert H hf
    | release i => exact held_release H i
    | pin hashes tokens limit =>
      exact H.of_shape (shape_pin limit) fun id => refsOf_pin limit
    | _ => exact absurd rfl he

theorem held_run {evs : List Event} (H : Held s) (hf : FreshRun s evs) : Held (s.run evs) := by
  induction evs generalizing s with
  | nil => exact H
  | cons e evs ih => exact ih (held_step H hf.1) hf.2

theorem held_new {pool : GrowablePool} {bt tb : ℕ} (hc : new pool bt tb = some c) : Held ⟨c, []⟩ := by
  obtain ⟨T, hempty, -⟩ := tree_new hc
  exact ⟨T, nofun, fun id n hat => absurd hat (hempty id n)⟩

/-- In a run whose inserts find their match where the lookup left it, the references on a node are
the sequences that hold it; so no eviction takes a node that a sequence holds, and when all have
released no live node has a reference. -/
theorem references_sound {pool : GrowablePool} {bt tb : ℕ} (hc : new pool bt tb = some c) (evs : List Event)
    (hf : FreshRun ⟨c, []⟩ evs) : (∀ id n, ((Sys.mk c []).run evs).cache.At id n →
      n.refs = (((Sys.mk c []).run evs).held.flatMap (Holder.path ((Sys.mk c []).run evs).cache)).count id) ∧
    (∀ e h, e.evicts = true → h ∈ ((Sys.mk c []).run evs).held →
      (h.path ((Sys.mk c []).run evs).cache).length = h.n ∧
      h.path (((Sys.mk c []).run evs).step e).cache = h.path ((Sys.mk c []).run evs).cache ∧
      ∀ id ∈ h.path ((Sys.mk c []).run evs).cache, ∃ n, (((Sys.mk c []).run evs).step e).cache.At id n) ∧
    (((Sys.mk c []).run evs).held = [] → ∀ id n, ((Sys.mk c []).run evs).cache.At id n → n.refs = 0) := by
  have H := held_run (held_new hc) hf
  refine ⟨H.refs, fun e h he hh => ?_, fun hnil id n hat => ?_⟩
  · obtain ⟨-, ks, P⟩ := pruned_event H.tree he
    have hp := (held_pruned P H).2 h hh
    refine ⟨(H.full h hh).2, hp, fun id hid => ?_⟩
    rw [← hp] at hid
    exact (P.tree H.tree).pathOf_at hid
  · rw [H.refs id n hat, hnil]
    rfl

def raced : List Event :=
  [.lookup [7] [1, 2], .lookup [7] [1, 2], .insert 1 3, .insert 0 4, .release 1]

/-- The second insert finds the block and takes no reference, but its sequence releases one: when the
first has released, the block is evicted under the second. -/
theorem second_insert_holds_nothing : new ⟨0, 1, 1, 4, 8⟩ 2 1 = some small ∧
    ((Sys.mk small []).run raced).held.map (fun h => (h.hashes, h.n)) = [([7], 1)] ∧
    ((Sys.mk small []).run raced).cache.pathOf none [7] = [0] ∧
    (((Sys.mk small []).run raced).cache.nodes[0]?).map (fun n => n.refs) = some 0 ∧
    (((Sys.mk small []).run raced).step (.evictLruWhere 0 fun _ => true)).cache.pathOf none [7] = [] :=
  ⟨rfl, rfl, rfl, rfl, rfl⟩

/-- A sequence that publishes and one that follows it: the block has both references. -/
theorem two_in_order_held : ((Sys.mk small []).run
    [.lookup [7] [1, 2], .insert 0 3, .lookup [7] [1, 2]]).cache.nodes.map (fun n => n.refs) = [2] ∧
    ∃ n, ((Sys.mk small []).run [.lookup [7] [1, 2], .insert 0 3, .lookup [7] [1, 2]]).cache.At 0 n ∧
      n.refs = 2 := by
  have hf : FreshRun ⟨small, []⟩ [.lookup [7] [1, 2], .insert 0 3, .lookup [7] [1, 2]] := by
    refine ⟨trivial, fun h hh => ?_, trivial, trivial⟩
    cases hh
    rfl
  have hc : new ⟨0, 1, 1, 4, 8⟩ 2 1 = some small := rfl
  refine ⟨rfl, _, ⟨rfl, rfl⟩, ?_⟩
  exact ((references_sound hc _ hf).1 0 _ ⟨rfl, rfl⟩).trans rfl

end PrefixCache
end Plow.Prefix
