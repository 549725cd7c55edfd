import Plow.Prefix.Ops

/-!
# Histories of the prefix cache

`run` does the operations of a history one after the other.  Every live node has its origin in the
history (`origin_run`): the `insert` that hung it up, since when no eviction took it off.  So a match
never serves a block of another prompt (`never_another_prompts_rows`).
-/

namespace Plow.Prefix

open List

namespace PrefixCache

inductive Op where
  | insert (hashes : List BlockHash) (tokens : List Token) (owner_seq from_block : ℕ)
  | lookup (hashes : List BlockHash) (tokens : List Token)
  | peek (hashes : List BlockHash) (tokens : List Token)
  | matchedBlocks (hashes : List BlockHash) (tokens : List Token)
  | pin (hashes : List BlockHash) (tokens : List Token) (limit : ℕ)
  | release (hashes : List BlockHash) (blocks : ℕ)
  | evictLruWhere (now : ℕ) (pick : Key → Bool)
  | evictChainFrom (key : Key) (keep : Key → Bool)
  | evictTail (hashes : List BlockHash) (from_depth keep : ℕ)

def step (c : PrefixCache) : Op → PrefixCache
  | .insert hashes tokens owner_seq from_block => (c.insert hashes tokens owner_seq from_block).1
  | .lookup hashes tokens => (c.lookup hashes tokens).1
  | .peek _ _ => c
  | .matchedBlocks _ _ => c
  | .pin hashes tokens limit => c.pin hashes tokens limit
  | .release hashes blocks => c.release hashes blocks
  | .evictLruWhere now pick => (c.evictLruWhere now pick).1
  | .evictChainFrom key keep => (c.evictChainFrom key keep).1
  | .evictTail hashes from_depth keep => (c.evictTail hashes from_depth keep).1

def run (c : PrefixCache) (ops : List Op) : PrefixCache := ops.foldl step c

variable {c c' : PrefixCache} {id : NodeId} {n : Node} {p : List (BlockHash × List Token)}
  {tokens tokens' : List Token} {i k : ℕ} {hs hs' : List BlockHash} {ops : List Op} {op : Op}

theorem run_snoc : c.run (ops ++ [op]) = (c.run ops).step op := by
  rw [run, foldl_append]
  rfl

/-! ### One operation -/

/-- the live nodes of `c'` are live in `c`, at the same places -/
def Kept (c c' : PrefixCache) : Prop :=
  ∀ p id n', c'.Reach p (some id) → c'.At id n' → ∃ n, c.Reach p (some id) ∧ c.At id n ∧ n'.key = n.key

theorem Shape.kept (S : Shape c c') : Kept c c' := by
  intro p id n' hr hat
  obtain ⟨n, hn, hc⟩ := S.symm.at hat
  exact ⟨n, S.symm.reach hr, hn, (core_key hc).symm⟩

theorem Pruned.kept {ks : List Key} (P : Pruned c ks c') (T : c.Tree) : Kept c c' := by
  induction P with
  | nil => exact fun p id n' hr hat => ⟨n', hr, hat, rfl⟩
  | cons R _ _ ih =>
    intro p id n' hr hat
    obtain ⟨n1, hr1, hat1, hk1⟩ := ih (R.tree T) p id n' hr hat
    obtain ⟨-, n0, hat0, hf⟩ := R.back hat1
    exact ⟨n0, ((R.reach_iff T).mp hr1).1, hat0, hk1.trans (frame_eq hf).2.2.1⟩

theorem pruned_evictLruWhere (T : c.Tree) (now : ℕ) (pick : Key → Bool) :
    ∃ ks, Pruned c ks (c.evictLruWhere now pick).1 := by
  rcases evictLruWhere_cases T now pick with h | ⟨id, n, c', R, hrefs, -, h⟩
  · exact ⟨[], by rw [h]; exact .nil⟩
  · exact ⟨[n.key], by rw [h]; exact .cons R hrefs .nil⟩

theorem kept_step (T : c.Tree) (hop : ∀ hs ts o f, op ≠ .insert hs ts o f) : (c.step op).Tree ∧ Kept c (c.step op) := by
  cases op with
  | insert hs ts o f => exact absurd rfl (hop hs ts o f)
  | lookup hs ts => exact ⟨(shape_lookup ts).tree T, (shape_lookup ts).kept⟩
  | peek hs ts => exact ⟨T, (Shape.refl c).kept⟩
  | matchedBlocks hs ts => exact ⟨T, (Shape.refl c).kept⟩
  | pin hs ts l => exact ⟨(shape_pin l).tree T, (shape_pin l).kept⟩
  | release hs b => exact ⟨(shape_release b).tree T, (shape_release b).kept⟩
  | evictLruWhere now pick =>
    obtain ⟨ks, P⟩ := pruned_evictLruWhere T now pick
    exact ⟨P.tree T, P.kept T⟩
  | evictChainFrom key keep =>
    have P : Pruned c _ (c.evictChainFrom key keep).1 := (pruned_evictChain T).1
    exact ⟨P.tree T, P.kept T⟩
  | evictTail hs d k =>
    have P : Pruned c _ (c.evictTail hs d k).1 := (pruned_evictPath T).1
    exact ⟨P.tree T, P.kept T⟩

theorem tree_step (T : c.Tree) : (c.step op).Tree := by
  cases op with
  | insert hs ts o f => exact tree_insert T f
  | _ => exact (kept_step T (by simp)).1

theorem tree_run (T : c.Tree) : (c.run ops).Tree := by
  induction ops generalizing c with
  | nil => exact T
  | cons op ops ih => exact ih (tree_step T)

theorem tree_new {pool : GrowablePool} {bt tb : ℕ} (hc : new pool bt tb = some c) :
    c.Tree ∧ (∀ id n, ¬ c.At id n) ∧ c.block_tokens = bt := by
  unfold new at hc
  split at hc
  · simp at hc
  · split at hc
    · simp at hc
    · cases hc
      have hl : ∀ cur, links ⟨pool, bt, tb, [], [], [], 0, 0⟩ cur = [] := by
        intro cur
        cases cur with
        | none => rfl
        | some j => simp [links]
      refine ⟨⟨?_, ?_, ?_, ?_, ?_, fun _ h => absurd h not_mem_nil, nodup_nil⟩, ?_, rfl⟩
      · intro cur h id hm
        rw [hl] at hm
        simp at hm
      · intro id n hat
        simp [At] at hat
      · intro id n hn
        simp at hn
      · exact fun cur => by rw [hl]; exact nodup_nil
      · exact fun cur => by rw [hl]; exact nodup_nil
      · intro id n hat
        simp [At] at hat

theorem block_step (T : c.Tree) : (c.step op).block_tokens = c.block_tokens := by
  cases op with
  | insert hs ts o f =>
    rcases grown_insert T ts hs o f with S | ⟨-, k, G, -⟩
    · exact S.block
    · exact G.block
  | lookup hs ts => exact (shape_lookup ts : Shape c (c.lookup hs ts).1).block
  | peek hs ts => rfl
  | matchedBlocks hs ts => rfl
  | pin hs ts l => exact (shape_pin l : Shape c (c.pin hs ts l)).block
  | release hs b => exact (shape_release b : Shape c (c.release hs b)).block
  | evictLruWhere now pick =>
    obtain ⟨ks, P⟩ := pruned_evictLruWhere T now pick
    exact P.block
  | evictChainFrom key keep => exact (pruned_evictChain T).1.block
  | evictTail hs d k => exact (pruned_evictPath T).1.block

theorem block_run (T : c.Tree) : (c.run ops).block_tokens = c.block_tokens := by
  induction ops generalizing c with
  | nil => rfl
  | cons op ops ih => exact (ih (tree_step T)).trans (block_step T)

/-! ### Labels and tokens -/

theorem labels_flat (hk : k ≤ (c.labels tokens i hs).length) :
    ((c.labels tokens i hs).take k).flatMap Prod.snd = (tokens.drop (i * c.block_tokens)).take (k * c.block_tokens) := by
  induction hs generalizing i k with
  | nil =>
    obtain rfl : k = 0 := by simpa [labels] using hk
    simp
  | cons h hs ih =>
    cases k with
    | zero => simp
    | succ k =>
      rw [labels] at hk ⊢
      cases hb : c.blockSlice tokens i with
      | none =>
        rw [hb] at hk
        simp at hk
      | some b =>
        rw [hb] at hk
        simp only at hk ⊢
        rw [take_succ_cons, flatMap_cons, ih (by simpa using hk)]
        unfold blockSlice at hb
        split at hb
        · cases hb
          rw [Nat.succ_mul k, Nat.add_comm (k * _), take_add, drop_drop, Nat.succ_mul i]
        · simp at hb

theorem labels_fit (hk : k + 1 ≤ (c.labels tokens i hs).length) :
    (i + k + 1) * c.block_tokens ≤ tokens.length := by
  induction hs generalizing i k with
  | nil => simp [labels] at hk
  | cons h hs ih =>
    rw [labels] at hk
    cases hb : c.blockSlice tokens i with
    | none =>
      rw [hb] at hk
      simp at hk
    | some b =>
      rw [hb] at hk
      cases k with
      | zero =>
        unfold blockSlice at hb
        split at hb
        · next hle => exact hle
        · simp at hb
      | succ k =>
        have hih := ih (i := i + 1) (k := k) (by simpa using hk)
        rwa [Nat.add_right_comm i 1 k] at hih

theorem take_of_labels (hk : k ≤ (c.labels tokens 0 hs).length) (hk' : k ≤ (c.labels tokens' 0 hs').length)
    (heq : (c.labels tokens 0 hs).take k = (c.labels tokens' 0 hs').take k) :
    tokens.take (k * c.block_tokens) = tokens'.take (k * c.block_tokens) := by
  have h1 := labels_flat hk
  rw [heq, labels_flat hk'] at h1
  simpa using h1.symm

/-! ### The origin of a node -/

/-- The node `id`, which hangs at the path `p`, was hung up by the operation `t`, an `insert` of
`owner` whose tokens lead along `p`, and has been live ever since. -/
def Origin (c : PrefixCache) (ops : List Op) (p : List (BlockHash × List Token)) (id owner idx : ℕ) : Prop :=
  ∃ t hs ts f, ops[t]? = some (.insert hs ts owner f) ∧ idx + 1 ≤ (c.labels ts 0 hs).length ∧
    p = (c.labels ts 0 hs).take (idx + 1) ∧ (∀ n, ¬ (c.run (ops.take t)).At id n) ∧
    ∀ u, t < u → u ≤ ops.length → ∃ n, (c.run (ops.take u)).At id n ∧ n.key = (owner, idx)

theorem origin_snoc {owner idx : ℕ} (ho : Origin c ops p id owner idx)
    (hat : (c.run (ops ++ [op])).At id n) (hk : n.key = (owner, idx)) :
    Origin c (ops ++ [op]) p id owner idx := by
  obtain ⟨t, hs, ts, f, ht, hle, hp, hfresh, hsince⟩ := ho
  have htl : t < ops.length := (List.getElem?_eq_some_iff.mp ht).1
  refine ⟨t, hs, ts, f, by rwa [getElem?_append_left htl], hle, hp, ?_, fun u htu hu => ?_⟩
  · rwa [take_append_of_le_length htl.le]
  · by_cases hul : u ≤ ops.length
    · rw [take_append_of_le_length hul]
      exact hsince u htu hul
    · rw [length_append, length_singleton] at hu
      rw [take_of_length_le (by rw [length_append, length_singleton]; omega)]
      exact ⟨n, hat, hk⟩

theorem origin_run (T : c.Tree) (hempty : ∀ id n, ¬ c.At id n) (hr : (c.run ops).Reach p (some id))
    (hat : (c.run ops).At id n) : Origin c ops p id n.owner_seq n.block_idx := by
  induction ops using List.reverseRecOn generalizing p id n with
  | nil => exact absurd hat (hempty id n)
  | append_singleton ops op ih =>
    have T1 : (c.run ops).Tree := tree_run T
    have hold : ∀ m, (c.run ops).Reach p (some id) → (c.run ops).At id m → n.key = m.key →
        Origin c (ops ++ [op]) p id n.owner_seq n.block_idx := by
      intro m hr0 hm hkey
      have hmk : m.owner_seq = n.owner_seq ∧ m.block_idx = n.block_idx := by
        simpa [Node.key, eq_comm] using hkey
      have ho := ih hr0 hm
      rw [hmk.1, hmk.2] at ho
      exact origin_snoc ho hat rfl
    by_cases hop : ∀ hs ts o f, op ≠ .insert hs ts o f
    · rw [run_snoc] at hr hat
      obtain ⟨m, hr0, hm, hkey⟩ := (kept_step T1 hop).2 p id n hr hat
      exact hold m hr0 hm hkey
    · push Not at hop
      obtain ⟨hs, ts, o, f, rfl⟩ := hop
      have hr1 := hr
      have hat1 := hat
      rw [run_snoc] at hr1 hat1
      rcases grown_insert T1 ts hs o f with S | ⟨hf, k, G, -, hlen⟩
      · obtain ⟨m, hr0, hm, hkey⟩ := S.kept p id n hr1 hat1
        exact hold m hr0 hm hkey
      · rcases G.back hr1 with hr0 | ⟨j, id', node, hj, hid, hp, hnode, hkey, -, hfresh⟩
        · obtain ⟨m, hm⟩ := reach_some hr0 id rfl
          obtain ⟨n', hn', hfr⟩ := G.keep hm
          obtain rfl := hat1.inj hn'
          exact hold m hr0 hm (frame_eq hfr).2.2.1
        · -- the node is one of those that this `insert` hangs up
          cases hid
          obtain rfl := hat1.inj hnode
          have hlab : ∀ a l, (c.run ops).labels ts a l = c.labels ts a l := fun a l => labels_block (block_run T)
          rw [hlab, hlab] at hp
          rw [hlab] at hkey hlen
          obtain ⟨ho, hidx⟩ : n.owner_seq = o ∧ n.block_idx = f + j := by
            simpa [Node.key, hlen] using hkey
          have hsplit : c.labels ts 0 hs = c.labels ts 0 (hs.take f) ++ c.labels ts f (hs.drop f) := by
            have h0 := @labels_split c ts 0 (hs.take f) (hs.drop f) (by
              rw [hlen, length_take, Nat.min_eq_left hf])
            rwa [take_append_drop, length_take, Nat.min_eq_left hf, Nat.zero_add] at h0
          have hjl : j < (c.labels ts f (hs.drop f)).length := by
            have := G.le
            rw [hlab] at this
            omega
          refine ⟨ops.length, hs, ts, f, ?_, ?_, ?_, ?_, ?_⟩
          · rw [ho]
            exact getElem?_concat_length
          · rw [hsplit, length_append, hlen, hidx]
            omega
          · have hpre : (c.labels ts 0 (hs.take f)).take (f + j + 1) = c.labels ts 0 (hs.take f) :=
              take_of_length_le (by omega)
            rw [hp, hsplit, hidx, take_append, hpre, hlen, Nat.add_assoc, Nat.add_sub_cancel_left]
          · rw [take_append_of_le_length le_rfl, take_length]
            exact hfresh
          · intro u hu hul
            rw [length_append, length_singleton] at hul
            rw [take_of_length_le (by rw [length_append, length_singleton]; omega)]
            exact ⟨n, hat, rfl⟩

/-- A match serves blocks of inserts whose tokens are the query's, and whose nodes were not evicted
since; the three walks agree on how many blocks match. -/
theorem never_another_prompts_rows {pool : GrowablePool} {bt tb : ℕ} (hc : new pool bt tb = some c)
    (ops : List Op) (hashes : List BlockHash) (tokens : List Token) :
    (c.run ops).peek hashes tokens = ((c.run ops).lookup hashes tokens).2.placed ∧
    (c.run ops).matchedBlocks hashes tokens = ((c.run ops).lookup hashes tokens).2.blocks ∧
    ((c.run ops).lookup hashes tokens).2.placed.length = ((c.run ops).lookup hashes tokens).2.blocks ∧
    ∀ i owner b, ((c.run ops).lookup hashes tokens).2.placed[i]? = some (owner, b) →
      b = i ∧ (i + 1) * bt ≤ tokens.length ∧
      ∃ t hs ts f id, ops[t]? = some (.insert hs ts owner f) ∧ (i + 1) * bt ≤ ts.length ∧
        ts.take ((i + 1) * bt) = tokens.take ((i + 1) * bt) ∧
        (∀ n, ¬ (c.run (ops.take t)).At id n) ∧
        ∀ u, t < u → u ≤ ops.length → ∃ n, (c.run (ops.take u)).At id n ∧ n.key = (owner, i) := by
  obtain ⟨T, hempty, rfl⟩ := tree_new hc
  have T1 : (c.run ops).Tree := tree_run T
  refine ⟨peek_eq_placed, matchedBlocks_eq, placed_length, fun i owner b hi => ?_⟩
  rw [lookup_placed, getElem?_map] at hi
  obtain ⟨id, hid, hkey⟩ := Option.map_eq_some_iff.mp hi
  obtain ⟨hr, hlt⟩ := T1.lookupPath_get .root hid
  have hlab : (c.run ops).labels tokens 0 hashes = c.labels tokens 0 hashes := labels_block (block_run T)
  rw [nil_append, hlab] at hr
  rw [hlab] at hlt
  obtain ⟨n, hat⟩ := reach_some hr id rfl
  rw [keyOf_at hat] at hkey
  have hdepth := T1.reach_depth hr
  rw [depth_some hat, length_take, Nat.min_eq_left hlt] at hdepth
  obtain ⟨hown, hidx⟩ := Prod.mk.inj hkey
  have hbi : n.block_idx = i := by omega
  obtain ⟨t, hs, ts, f, ht, hle, hp, hfresh, hsince⟩ := origin_run T hempty hr hat
  rw [hbi] at hle hp
  refine ⟨hidx.symm.trans hbi, ?_, t, hs, ts, f, id, hown ▸ ht, ?_, ?_, hfresh, fun u h1 h2 => ?_⟩
  · simpa using labels_fit (i := 0) hlt
  · simpa using labels_fit (i := 0) hle
  · exact take_of_labels hle hlt hp.symm
  · rw [← hown, ← hbi]
    exact hsince u h1 h2

/-! ### One published block -/

def small : PrefixCache := ⟨⟨0, 1, 1, 4, 8⟩, 2, 1, [], [], [], 0, 0⟩

/-- the block that the owner 3 publishes is served to a prompt that starts with its tokens -/
theorem one_block_served : ∃ t hs ts f id, [Op.insert [7] [1, 2] 3 0][t]? = some (.insert hs ts 3 f) ∧
    2 ≤ ts.length ∧ ts.take 2 = [1, 2] ∧ (∀ n, ¬ (small.run ([Op.insert [7] [1, 2] 3 0].take t)).At id n) ∧
    ∀ u, t < u → u ≤ 1 → ∃ n, (small.run ([Op.insert [7] [1, 2] 3 0].take u)).At id n ∧ n.key = (3, 0) :=
  have hc : new ⟨0, 1, 1, 4, 8⟩ 2 1 = some small := rfl
  have h0 := (never_another_prompts_rows hc [.insert [7] [1, 2] 3 0] [7] [1, 2, 5]).2.2.2 0 3 0 rfl
  h0.2.2

end PrefixCache
end Plow.Prefix
