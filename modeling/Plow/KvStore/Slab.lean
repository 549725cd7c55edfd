import Plow.Lib.Results

/-!
# The slabs of the KV block store

A slab is one tier's store of equal slots, cut into chunks of `chunkSlots` slots: slot `s` is in
chunk `s / chunkSlots`.  A chunk keeps its index when it is released (`chunks c = none`, `c` in
`dead`), so that slot arithmetic never changes.

`Vec`s that are only indexed are functions with a length beside them (`nChunks`), a `Vec` used as
a stack is a list with its top at the head, and `by_free` (a `BTreeSet` of `(free slots, chunk)`)
is a sorted list.  A call that panics returns the error `panic`.

`Slab.Ok` is the invariant of one slab: `free`, `by_free`, `dead`, `free_slots` and `live_chunks`
agree.  Each operation comes with what it does to the free counts and the live chunks.
-/

namespace Plow.KvStore

open List Function

/-- why a store or slab call fails -/
inductive Err where
  | oom
  | rejected
  | device
  | panic
  deriving DecidableEq, Repr

/-- The tier a slab, its slots and its chunks are on. -/
inductive Tier where
  | dev
  | host
  deriving DecidableEq, Repr

/-- A slot of one tier's slab. -/
structure Slot (t : Tier) where
  ix : Nat
  deriving DecidableEq, Repr

/-- A chunk of one tier's bytes the store owns. -/
structure Chunk (t : Tier) where
  va : Nat
  bytes : Nat
  deriving DecidableEq, Repr

/-- A block's identity: its index in the block table and the entry's generation. -/
structure BlockId where
  index : Nat
  gen : Nat
  deriving DecidableEq, Repr

def u32Max : Nat := 4294967295

structure Slab (t : Tier) where
  slotBytes : Nat
  chunkSlots : Nat
  nChunks : Nat
  /-- `none` = released -/
  chunks : Nat → Option (Chunk t)
  free : Nat → List (Slot t)
  byFree : List (Nat × Nat)
  owner : Slot t → Option BlockId
  dead : List Nat
  liveChunks : Nat
  freeSlots : Nat

/-- the order of `by_free` -/
def byFreeLe (a b : Nat × Nat) : Prop := a.1 < b.1 ∨ (a.1 = b.1 ∧ a.2 ≤ b.2)

instance : DecidableRel byFreeLe := fun _ _ => inferInstanceAs (Decidable (_ ∨ _))

/-- `BTreeSet::insert` -/
def insertByFree (x : Nat × Nat) (l : List (Nat × Nat)) : List (Nat × Nat) :=
  if x ∈ l then l else l.orderedInsert byFreeLe x

namespace Slab
variable {t : Tier} {sl sl' : Slab t} {s x : Slot t} {l : List (Nat × Nat)} {c : Nat}

def new (t : Tier) (slotBytes chunkBytes : Nat) : Slab t where
  slotBytes := slotBytes
  chunkSlots := min (max (chunkBytes / max slotBytes 1) 1) u32Max
  nChunks := 0
  chunks := fun _ => none
  free := fun _ => []
  byFree := []
  owner := fun _ => none
  dead := []
  liveChunks := 0
  freeSlots := 0

def chunkBytes (sl : Slab t) : Nat := sl.chunkSlots * sl.slotBytes

def chunkOf (sl : Slab t) (s : Slot t) : Nat := s.ix / sl.chunkSlots

def va (sl : Slab t) (s : Slot t) : Nat :=
  ((sl.chunks (sl.chunkOf s)).map Chunk.va).getD 0 + s.ix % sl.chunkSlots * sl.slotBytes

def reservedBytes (sl : Slab t) : Nat := sl.liveChunks * sl.chunkBytes

/-- chunk `c` had `n` free slots and is left with `rest` -/
def popped (sl : Slab t) (n c : Nat) (rest : List (Slot t)) : Slab t :=
  { sl with
    free := Function.update sl.free c rest
    byFree := if 1 < n then insertByFree (n - 1, c) (sl.byFree.erase (n, c))
      else sl.byFree.erase (n, c)
    freeSlots := sl.freeSlots - 1 }

/-- take the top of the `n` counted free slots of chunk `c` -/
def pop (sl : Slab t) (n c : Nat) : Except Err (Slot t × Slab t) :=
  match sl.free c with
  | [] => .error .panic
  | s :: rest => .ok (s, sl.popped n c rest)

def growIx (sl : Slab t) : Nat := sl.dead.headD sl.nChunks

/-- the new chunk's slots go out in order, the first to the caller -/
def addChunk (sl : Slab t) (chunk : Chunk t) : Slot t × Slab t :=
  let n := sl.chunkSlots
  let c := sl.growIx
  (⟨c * n⟩, { sl with
    nChunks := if sl.dead = [] then sl.nChunks + 1 else sl.nChunks
    chunks := Function.update sl.chunks c (some chunk)
    free := Function.update sl.free c ((List.range' (c * n + 1) (n - 1)).map Slot.mk)
    byFree := if 1 < n then insertByFree (n - 1, c) sl.byFree else sl.byFree
    dead := sl.dead.tail
    liveChunks := sl.liveChunks + 1
    freeSlots := sl.freeSlots + (n - 1) })

/-- A free slot from the fullest chunk that has one; a new chunk when none is free and `budget`
covers it. -/
def take (sl : Slab t) (budget : Nat) (grow : Nat → Except Err (Chunk t)) :
    Except Err (Option (Slot t × Slab t)) :=
  match sl.byFree.head? with
  | some (n, c) => (sl.pop n c).map some
  | none =>
    if budget < sl.chunkSlots * sl.slotBytes then .ok none
    else match grow (sl.chunkSlots * sl.slotBytes) with
      | .error e => .error e
      | .ok chunk => .ok (some (sl.addChunk chunk))

/-- `take` calls `grow` -/
def grows (sl : Slab t) (budget : Nat) : Bool :=
  sl.byFree.isEmpty && decide (sl.chunkSlots * sl.slotBytes ≤ budget)

/-- A free slot in any chunk but `not`, the fullest first; no growth. -/
def takeOutside (sl : Slab t) (not : Nat) : Option (Slot t × Slab t) :=
  match sl.byFree.find? (fun x => x.2 ≠ not) with
  | none => none
  | some (n, c) => (sl.pop n c).toOption

def holesOutside (sl : Slab t) (not : Nat) : Nat := sl.freeSlots - (sl.free not).length

def assign (sl : Slab t) (s : Slot t) (id : BlockId) : Slab t :=
  { sl with owner := Function.update sl.owner s (some id) }

/-- Take `s` out of use for good. -/
def leak (sl : Slab t) (s : Slot t) : Slab t :=
  { sl with owner := Function.update sl.owner s none }

/-- Return `s` to its chunk. -/
def put (sl : Slab t) (s : Slot t) : Slab t :=
  let c := sl.chunkOf s
  let n := (sl.free c).length
  { sl with
    owner := Function.update sl.owner s none
    free := Function.update sl.free c (s :: sl.free c)
    byFree := insertByFree (n + 1, c) (if 0 < n then sl.byFree.erase (n, c) else sl.byFree)
    freeSlots := sl.freeSlots + 1 }

/-- chunk `c`, whose `count` slots are all free, is released -/
def dropChunk (sl : Slab t) (count c : Nat) : Slab t :=
  { sl with
    byFree := sl.byFree.erase (count, c)
    free := Function.update sl.free c []
    freeSlots := sl.freeSlots - sl.chunkSlots
    chunks := Function.update sl.chunks c none
    dead := c :: sl.dead
    liveChunks := sl.liveChunks - 1 }

/-- the loop of `release_empty_chunks`: every round takes one element off `by_free` -/
def releaseEmptyLoop : Nat → Slab t → List (Chunk t) → Slab t × List (Chunk t)
  | 0, sl, freed => (sl, freed)
  | k + 1, sl, freed =>
    match sl.byFree.getLast? with
    | none => (sl, freed)
    | some (count, c) =>
      if count < sl.chunkSlots then (sl, freed)
      else releaseEmptyLoop k (sl.dropChunk count c) (freed ++ (sl.chunks c).toList)

/-- Release every chunk whose slots are all free.  The second component is what goes to the
`free` callback; the bytes released are `chunk_bytes` for each. -/
def releaseEmptyChunks (sl : Slab t) : Slab t × List (Chunk t) :=
  releaseEmptyLoop sl.byFree.length sl []

def releaseCandidates (sl : Slab t) : List Nat :=
  sl.byFree.reverse.map Prod.snd ++
    (List.range sl.nChunks).filter (fun c => (sl.chunks c).isSome && (sl.free c).isEmpty)

def occupants (sl : Slab t) (chunk : Nat) : List BlockId :=
  (List.range sl.chunkSlots).filterMap (fun i => sl.owner ⟨chunk * sl.chunkSlots + i⟩)

/-! ## one slab's invariant -/

/-- how often `s` is on its chunk's free list -/
def count (sl : Slab t) (s : Slot t) : Nat := (sl.free (sl.chunkOf s)).count s

/-- `s` is a slot of a live chunk -/
def live (sl : Slab t) (s : Slot t) : Prop := (sl.chunks (sl.chunkOf s)).isSome

/-- `free`, `by_free`, `dead`, `free_slots` and `live_chunks` agree -/
structure Ok (sl : Slab t) : Prop where
  pos : 0 < sl.chunkSlots
  inChunk : ∀ c, ∀ s ∈ sl.free c, sl.chunkOf s = c
  nodup : ∀ c, (sl.free c).Nodup
  freeLive : ∀ c, sl.free c ≠ [] → (sl.chunks c).isSome
  byFree : ∀ k c, (k, c) ∈ sl.byFree ↔ 0 < k ∧ (sl.free c).length = k
  byFreeNodup : sl.byFree.Nodup
  freeSlots : sl.freeSlots = ∑ c ∈ Finset.range sl.nChunks, (sl.free c).length
  liveChunks : sl.liveChunks =
    ∑ c ∈ Finset.range sl.nChunks, if (sl.chunks c).isSome then 1 else 0
  dead : ∀ c, c ∈ sl.dead ↔ c < sl.nChunks ∧ sl.chunks c = none
  deadNodup : sl.dead.Nodup
  chunksLt : ∀ c, (sl.chunks c).isSome → c < sl.nChunks

theorem mem_insertByFree {x y : Nat × Nat} : y ∈ insertByFree x l ↔ y = x ∨ y ∈ l := by
  unfold insertByFree
  split
  · next h => exact ⟨Or.inr, fun hy => hy.elim (fun e => e ▸ h) id⟩
  · exact mem_orderedInsert byFreeLe

theorem insertByFree_nodup {x : Nat × Nat} (h : l.Nodup) : (insertByFree x l).Nodup := by
  unfold insertByFree
  split
  · exact h
  · next hx => exact (perm_orderedInsert byFreeLe x l).nodup_iff.mpr (nodup_cons.mpr ⟨hx, h⟩)

theorem sum_update_add {α : Type*} (f : Nat → α) (g : α → Nat) {n c : Nat} (hc : c < n) (a : α) :
    (∑ i ∈ Finset.range n, g (update f c a i)) + g (f c)
      = (∑ i ∈ Finset.range n, g (f i)) + g a := by
  have hm : c ∈ Finset.range n := Finset.mem_range.mpr hc
  rw [← Finset.sum_erase_add _ _ hm, ← Finset.sum_erase_add (Finset.range n) (fun i => g (f i)) hm,
    update_self]
  have h : ∑ i ∈ (Finset.range n).erase c, g (update f c a i)
      = ∑ i ∈ (Finset.range n).erase c, g (f i) :=
    Finset.sum_congr rfl (fun i hi => by rw [update_of_ne (Finset.ne_of_mem_erase hi)])
  rw [h]
  omega

namespace Ok
variable {sl : Slab t} {s : Slot t} {c n : Nat}

theorem count_of_mem (h : sl.Ok) (hm : s ∈ sl.free c) : sl.count s = 1 := by
  unfold count
  rw [h.inChunk c s hm]
  exact count_eq_one_of_mem (h.nodup c) hm

theorem mem_of_count (hc : sl.count s ≠ 0) : s ∈ sl.free (sl.chunkOf s) :=
  count_pos_iff.mp (Nat.pos_of_ne_zero hc)

theorem live_of_count (h : sl.Ok) (hc : sl.count s ≠ 0) : sl.live s :=
  h.freeLive _ (ne_nil_of_mem (mem_of_count hc))

end Ok

/-! ## the operations -/

theorem new_ok (slotBytes chunkBytes : Nat) : (new t slotBytes chunkBytes).Ok where
  pos := by simp only [new, u32Max]; omega
  inChunk c s h := by simp [new] at h
  nodup c := by simp [new]
  freeLive c h := absurd rfl h
  byFree k c := by simp only [new, not_mem_nil, length_nil, false_iff]; omega
  byFreeNodup := nodup_nil
  freeSlots := by simp [new]
  liveChunks := by simp [new]
  dead c := by simp [new]
  deadNodup := nodup_nil
  chunksLt c h := by simp [new] at h

/-- `sl'` is `sl` after the free slot `s` was taken, perhaps from a new chunk -/
structure Took (sl : Slab t) (s : Slot t) (sl' : Slab t) : Prop where
  ok : sl'.Ok
  gone : sl'.count s = 0
  liveSlot : sl'.live s
  was : sl.live s → sl.count s = 1
  keep : ∀ x, sl.live x → sl'.live x ∧ (x ≠ s → sl'.count x = sl.count x)
  fresh : ∀ x, ¬ sl.live x → sl'.live x → x ≠ s → sl'.count x = 1
  owner : sl'.owner = sl.owner
  chunkSlots : sl'.chunkSlots = sl.chunkSlots
  slotBytes : sl'.slotBytes = sl.slotBytes
  va : ∀ x, sl.live x → sl'.va x = sl.va x

theorem pop_took (h : sl.Ok) {n : Nat} (hm : (n, c) ∈ sl.byFree) :
    ∃ s sl', sl.pop n c = .ok (s, sl') ∧ Took sl s sl' ∧ sl'.chunks = sl.chunks := by
  obtain ⟨hn, hlen⟩ := (h.byFree n c).mp hm
  cases hf : sl.free c with
  | nil => rw [hf] at hlen; simp at hlen; omega
  | cons s rest =>
    have hsc : sl.chunkOf s = c := h.inChunk c s (by rw [hf]; exact mem_cons_self)
    have hnd : s ∉ rest ∧ rest.Nodup := nodup_cons.mp (hf ▸ h.nodup c)
    have hcs : (sl.chunks c).isSome := h.freeLive c (by rw [hf]; simp)
    have hrl : rest.length + 1 = n := by rw [hf] at hlen; simpa using hlen
    refine ⟨s, sl.popped n c rest, by simp only [pop, hf], ⟨⟨h.pos, ?_, ?_, ?_, ?_, ?_, ?_, h.liveChunks, h.dead,
      h.deadNodup, h.chunksLt⟩, ?_, ?_, ?_, ?_, ?_, rfl, rfl, rfl, fun _ _ => rfl⟩, rfl⟩
    · intro c' x hx
      change x ∈ update sl.free c rest c' at hx
      by_cases e : c' = c
      · subst e
        rw [update_self] at hx
        exact h.inChunk c' x (by rw [hf]; exact mem_cons_of_mem _ hx)
      · rw [update_of_ne e] at hx
        exact h.inChunk c' x hx
    · intro c'
      show (update sl.free c rest c').Nodup
      by_cases e : c' = c
      · subst e; rw [update_self]; exact hnd.2
      · rw [update_of_ne e]; exact h.nodup c'
    · intro c' hc'
      change update sl.free c rest c' ≠ [] at hc'
      by_cases e : c' = c
      · subst e; exact hcs
      · rw [update_of_ne e] at hc'; exact h.freeLive c' hc'
    · intro k c'
      show (k, c') ∈ (if 1 < n then _ else _) ↔ 0 < k ∧ (update sl.free c rest c').length = k
      have her : (k, c') ∈ sl.byFree.erase (n, c) ↔ (k, c') ≠ (n, c) ∧ (k, c') ∈ sl.byFree :=
        h.byFreeNodup.mem_erase_iff
      by_cases e : c' = c
      · subst e
        rw [update_self]
        have hno : (k, c') ∉ sl.byFree.erase (n, c') := by
          rw [her, h.byFree]
          rintro ⟨hne, hk, hl⟩
          exact hne (by rw [← hl, hlen])
        split
        · rw [mem_insertByFree]
          simp only [Prod.mk.injEq, and_true, hno, or_false]
          omega
        · simp only [hno, false_iff]
          omega
      · rw [update_of_ne e, ← h.byFree]
        split
        · rw [mem_insertByFree, her]
          simp [e]
        · rw [her]
          simp [e]
    · have hnd' := h.byFreeNodup.erase (n, c)
      show (if 1 < n then _ else _ : List (Nat × Nat)).Nodup
      split
      · exact insertByFree_nodup hnd'
      · exact hnd'
    · have hs := sum_update_add sl.free length (h.chunksLt c hcs) rest
      rw [← h.freeSlots, hlen] at hs
      show sl.freeSlots - 1 = ∑ i ∈ Finset.range sl.nChunks, (update sl.free c rest i).length
      omega
    · show (update sl.free c rest (sl.chunkOf s)).count s = 0
      rw [hsc, update_self]
      exact count_eq_zero.mpr hnd.1
    · show (sl.chunks (sl.chunkOf s)).isSome
      rw [hsc]; exact hcs
    · intro _
      exact h.count_of_mem (c := c) (by rw [hf]; exact mem_cons_self)
    · intro x hx
      refine ⟨hx, fun hne => ?_⟩
      show (update sl.free c rest (sl.chunkOf x)).count x = (sl.free (sl.chunkOf x)).count x
      by_cases e : sl.chunkOf x = c
      · rw [e, update_self, hf, count_cons_of_ne (Ne.symm hne)]
      · rw [update_of_ne e]
    · intro x hx hx' _
      exact absurd hx' hx

theorem chunks_growIx (h : sl.Ok) : sl.chunks sl.growIx = none := by
  unfold growIx
  cases hd : sl.dead with
  | nil =>
    rw [headD_nil]
    by_contra hc
    have := h.chunksLt _ (Option.isSome_iff_ne_none.mpr hc)
    omega
  | cons c rest =>
    rw [headD_cons]
    exact ((h.dead c).mp (by rw [hd]; exact mem_cons_self)).2

theorem free_growIx (h : sl.Ok) : sl.free sl.growIx = [] := by
  by_contra hc
  have := h.freeLive _ hc
  rw [chunks_growIx h] at this
  simp at this

theorem chunkOf_eq_iff (h : sl.Ok) :
    sl.chunkOf s = c ↔ c * sl.chunkSlots ≤ s.ix ∧ s.ix < c * sl.chunkSlots + sl.chunkSlots := by
  unfold chunkOf
  rw [Nat.div_eq_iff h.pos]
  have := h.pos
  omega

theorem addChunk_took (h : sl.Ok) (chunk : Chunk t) :
    Took sl (sl.addChunk chunk).1 (sl.addChunk chunk).2 := by
  set n := sl.chunkSlots with hn
  set c := sl.growIx with hc
  have hpos := h.pos
  have hnone : sl.chunks c = none := chunks_growIx h
  have hfree : sl.free c = [] := free_growIx h
  -- what the new chunk's list holds
  have hmem : ∀ x : Slot t, x ∈ (range' (c * n + 1) (n - 1)).map Slot.mk ↔
      sl.chunkOf x = c ∧ x ≠ ⟨c * n⟩ := by
    intro x
    obtain ⟨i⟩ := x
    rw [chunkOf_eq_iff h, ← hn]
    simp only [mem_map, mem_range'_1, Slot.mk.injEq, exists_eq_right, ne_eq]
    omega
  have hnod : ((range' (c * n + 1) (n - 1)).map (Slot.mk (t := t))).Nodup :=
    (nodup_range' : (range' (c * n + 1) (n - 1) 1).Nodup).map (fun a b e => Slot.mk.inj e)
  have hself : sl.chunkOf (⟨c * n⟩ : Slot t) = c := by
    rw [chunkOf_eq_iff h, ← hn]
    exact ⟨le_refl _, Nat.lt_add_of_pos_right hpos⟩
  have hlt : c < (if sl.dead = [] then sl.nChunks + 1 else sl.nChunks) := by
    rw [hc]
    unfold growIx
    cases hd : sl.dead with
    | nil => simp
    | cons a rest =>
      have := ((h.dead a).mp (by rw [hd]; exact mem_cons_self)).1
      simpa using this
  have hrange : ∀ f : Nat → Nat, f sl.nChunks = 0 ∨ sl.dead ≠ [] →
      ∑ i ∈ Finset.range (if sl.dead = [] then sl.nChunks + 1 else sl.nChunks), f i
        = ∑ i ∈ Finset.range sl.nChunks, f i := by
    intro f hf
    by_cases hd : sl.dead = []
    · rw [if_pos hd, Finset.sum_range_succ, hf.resolve_right (fun hne => hne hd), Nat.add_zero]
    · rw [if_neg hd]
  have hlast : sl.dead = [] → sl.free sl.nChunks = [] ∧ sl.chunks sl.nChunks = none := by
    intro hd
    have e : c = sl.nChunks := by rw [hc]; unfold growIx; rw [hd]; rfl
    exact ⟨e ▸ hfree, e ▸ hnone⟩
  refine ⟨⟨h.pos, ?_, ?_, ?_, ?_, ?_, ?_, ?_, ?_, ?_, ?_⟩, ?_, ?_, ?_, ?_, ?_, rfl, rfl, rfl, ?_⟩
  · intro c' x hx
    change x ∈ update sl.free c _ c' at hx
    by_cases e : c' = c
    · rw [e, update_self] at hx
      rw [e]
      exact ((hmem x).mp hx).1
    · rw [update_of_ne e] at hx
      exact h.inChunk c' x hx
  · intro c'
    show (update sl.free c _ c').Nodup
    by_cases e : c' = c
    · rw [e, update_self]
      exact hnod
    · rw [update_of_ne e]
      exact h.nodup c'
  · intro c' hc'
    show (update sl.chunks c (some chunk) c').isSome
    by_cases e : c' = c
    · rw [e, update_self]; rfl
    · rw [update_of_ne e]
      change update sl.free c _ c' ≠ [] at hc'
      rw [update_of_ne e] at hc'
      exact h.freeLive c' hc'
  · intro k c'
    show (k, c') ∈ (if 1 < n then _ else _) ↔ 0 < k ∧ (update sl.free c _ c').length = k
    have hno : ∀ k, (k, c) ∉ sl.byFree := by
      intro k
      rw [h.byFree, hfree, length_nil]
      omega
    by_cases e : c' = c
    · rw [e, update_self, length_map, length_range']
      split
      · rw [mem_insertByFree]
        simp only [Prod.mk.injEq, hno, or_false]
        omega
      · simp only [hno, false_iff]
        omega
    · rw [update_of_ne e, ← h.byFree]
      have hne : (k, c') ≠ (n - 1, c) := fun he => e (Prod.mk.inj he).2
      split
      · rw [mem_insertByFree]
        exact ⟨fun hx => hx.resolve_left hne, Or.inr⟩
      · exact Iff.rfl
  · show (if 1 < n then _ else _ : List (Nat × Nat)).Nodup
    split
    · exact insertByFree_nodup h.byFreeNodup
    · exact h.byFreeNodup
  · have hs := sum_update_add sl.free length hlt
      ((range' (c * n + 1) (n - 1)).map (Slot.mk (t := t)))
    rw [hrange (fun i => (sl.free i).length), hfree, ← h.freeSlots, length_map,
      length_range', length_nil] at hs
    · exact hs.symm
    · by_cases hd : sl.dead = []
      · exact Or.inl (by rw [(hlast hd).1]; rfl)
      · exact Or.inr hd
  · have hs := sum_update_add sl.chunks (fun o => if o.isSome then 1 else 0) hlt (some chunk)
    rw [hrange (fun i => if (sl.chunks i).isSome then 1 else 0), hnone, ← h.liveChunks] at hs
    · exact hs.symm
    · by_cases hd : sl.dead = []
      · exact Or.inl (by rw [(hlast hd).2]; rfl)
      · exact Or.inr hd
  · intro c'
    show c' ∈ sl.dead.tail ↔ c' < (if sl.dead = [] then _ else _) ∧
      update sl.chunks c (some chunk) c' = none
    cases hd : sl.dead with
    | nil =>
      have e0 : c = sl.nChunks := by rw [hc]; unfold growIx; rw [hd]; rfl
      simp only [tail_nil, not_mem_nil, ↓reduceIte, false_iff, not_and]
      intro hlt' hnone'
      by_cases e : c' = c
      · rw [e, update_self] at hnone'
        cases hnone'
      · rw [update_of_ne e] at hnone'
        have := (h.dead c').mpr ⟨by omega, hnone'⟩
        rw [hd] at this
        cases this
    | cons a rest =>
      have e0 : c = a := by rw [hc]; unfold growIx; rw [hd]; rfl
      have hnd := nodup_cons.mp (hd ▸ h.deadNodup)
      have hiff := h.dead c'
      rw [hd] at hiff
      simp only [tail_cons, reduceCtorEq, ↓reduceIte]
      by_cases e : c' = c
      · rw [e, update_self, e0]
        simp [hnd.1]
      · rw [update_of_ne e, ← hiff, mem_cons]
        rw [e0] at e
        simp [e]
  · exact h.deadNodup.tail
  · intro c' hc'
    change (update sl.chunks c (some chunk) c').isSome at hc'
    show c' < (if sl.dead = [] then sl.nChunks + 1 else sl.nChunks)
    by_cases e : c' = c
    · rw [e]; exact hlt
    · rw [update_of_ne e] at hc'
      have := h.chunksLt c' hc'
      split <;> omega
  · show (update sl.free c _ (sl.chunkOf (⟨c * n⟩ : Slot t))).count _ = 0
    rw [hself, update_self]
    exact count_eq_zero.mpr (fun hm => ((hmem _).mp hm).2 rfl)
  · show (update sl.chunks c (some chunk) (sl.chunkOf (⟨c * n⟩ : Slot t))).isSome
    rw [hself, update_self]
    rfl
  · intro hl
    change (sl.chunks (sl.chunkOf (⟨c * n⟩ : Slot t))).isSome at hl
    rw [hself, hnone] at hl
    cases hl
  · intro x hx
    have e : sl.chunkOf x ≠ c := by
      intro e
      change (sl.chunks (sl.chunkOf x)).isSome at hx
      rw [e, hnone] at hx
      cases hx
    refine ⟨?_, fun _ => ?_⟩
    · show (update sl.chunks c (some chunk) (sl.chunkOf x)).isSome
      rw [update_of_ne e]
      exact hx
    · show (update sl.free c _ (sl.chunkOf x)).count x = (sl.free (sl.chunkOf x)).count x
      rw [update_of_ne e]
  · intro x hx hx' hne
    change (update sl.chunks c (some chunk) (sl.chunkOf x)).isSome at hx'
    have e : sl.chunkOf x = c := by
      by_contra e
      rw [update_of_ne e] at hx'
      exact hx hx'
    show (update sl.free c _ (sl.chunkOf x)).count x = 1
    rw [e, update_self]
    exact count_eq_one_of_mem hnod ((hmem x).mpr ⟨e, hne⟩)
  · intro x hx
    have e : sl.chunkOf x ≠ c := by
      intro e
      change (sl.chunks (sl.chunkOf x)).isSome at hx
      rw [e, hnone] at hx
      cases hx
    show ((update sl.chunks c (some chunk) (sl.chunkOf x)).map Chunk.va).getD 0 + _ = _
    rw [update_of_ne e]
    rfl

theorem take_ok (h : sl.Ok) {budget : Nat} {grow : Nat → Except Err (Chunk t)}
    (ht : sl.take budget grow = .ok (some (s, sl'))) : Took sl s sl' := by
  unfold take at ht
  split at ht
  · next n c hh =>
    obtain ⟨s₁, sl₁, hp, hk, _⟩ := pop_took h (mem_of_head? hh)
    rw [hp] at ht
    obtain ⟨rfl, rfl⟩ := Prod.mk.inj (Option.some.inj (Except.ok.inj ht))
    exact hk
  · split at ht
    · cases ht
    · split at ht
      · cases ht
      · next chunk _ =>
        have e := Option.some.inj (Except.ok.inj ht)
        have hk := addChunk_took h chunk
        rw [e] at hk
        exact hk

theorem takeOutside_ok (h : sl.Ok) {not : Nat}
    (ht : sl.takeOutside not = some (s, sl')) : Took sl s sl' ∧ sl'.chunks = sl.chunks := by
  unfold takeOutside at ht
  split at ht
  · cases ht
  · next n c hf =>
    obtain ⟨s₁, sl₁, hp, hk, hch⟩ := pop_took h (mem_of_find?_eq_some hf)
    rw [hp] at ht
    cases ht
    exact ⟨hk, hch⟩

/-- a slot goes back to its chunk -/
theorem put_ok (h : sl.Ok) (hl : sl.live s) (h0 : sl.count s = 0) : (sl.put s).Ok := by
  set c := sl.chunkOf s
  have hns : s ∉ sl.free c := count_eq_zero.mp h0
  refine ⟨h.pos, ?_, ?_, ?_, ?_, ?_, ?_, h.liveChunks, h.dead, h.deadNodup, h.chunksLt⟩
  · intro c' x hx
    change x ∈ update sl.free c (s :: sl.free c) c' at hx
    by_cases e : c' = c
    · rw [e, update_self] at hx
      rcases mem_cons.mp hx with e' | hx
      · rw [e, e']; rfl
      · rw [e]; exact h.inChunk c x hx
    · rw [update_of_ne e] at hx
      exact h.inChunk c' x hx
  · intro c'
    show (update sl.free c (s :: sl.free c) c').Nodup
    by_cases e : c' = c
    · rw [e, update_self]
      exact nodup_cons.mpr ⟨hns, h.nodup c⟩
    · rw [update_of_ne e]
      exact h.nodup c'
  · intro c' hc'
    change update sl.free c (s :: sl.free c) c' ≠ [] at hc'
    by_cases e : c' = c
    · rw [e]; exact hl
    · rw [update_of_ne e] at hc'
      exact h.freeLive c' hc'
  · intro k c'
    show (k, c') ∈ insertByFree ((sl.free c).length + 1, c)
      (if 0 < (sl.free c).length then sl.byFree.erase ((sl.free c).length, c) else sl.byFree)
      ↔ 0 < k ∧ (update sl.free c (s :: sl.free c) c').length = k
    rw [mem_insertByFree]
    have her : (k, c') ∈ sl.byFree.erase ((sl.free c).length, c) ↔
        (k, c') ≠ ((sl.free c).length, c) ∧ (k, c') ∈ sl.byFree := h.byFreeNodup.mem_erase_iff
    by_cases e : c' = c
    · rw [e] at her ⊢
      rw [update_self, length_cons]
      have hno : (k, c) ∉ (if 0 < (sl.free c).length then
          sl.byFree.erase ((sl.free c).length, c) else sl.byFree) := by
        split
        · rw [her, h.byFree]
          rintro ⟨hne, hk, hl'⟩
          exact hne (by rw [hl'])
        · rw [h.byFree]
          omega
      simp only [Prod.mk.injEq, and_true, hno, or_false]
      omega
    · rw [update_of_ne e, ← h.byFree]
      split
      · rw [her]
        simp [e]
      · simp [e]
  · refine insertByFree_nodup ?_
    split
    · exact h.byFreeNodup.erase _
    · exact h.byFreeNodup
  · have hs := sum_update_add sl.free length (h.chunksLt c hl) (s :: sl.free c)
    rw [← h.freeSlots, length_cons] at hs
    show sl.freeSlots + 1 =
      ∑ i ∈ Finset.range sl.nChunks, (update sl.free c (s :: sl.free c) i).length
    omega

theorem count_put_self (h0 : sl.count s = 0) : (sl.put s).count s = 1 := by
  show (update sl.free (sl.chunkOf s) (s :: sl.free (sl.chunkOf s)) (sl.chunkOf s)).count s = 1
  rw [update_self, count_cons_self]
  unfold count at h0
  omega

theorem count_put_of_ne (hne : x ≠ s) : (sl.put s).count x = sl.count x := by
  show (update sl.free (sl.chunkOf s) (s :: sl.free (sl.chunkOf s)) (sl.chunkOf x)).count x = _
  by_cases e : sl.chunkOf x = sl.chunkOf s
  · rw [e, update_self, count_cons_of_ne (Ne.symm hne)]
    unfold count
    rw [e]
  · rw [update_of_ne e]
    rfl

theorem assign_ok (h : sl.Ok) (s : Slot t) (id : BlockId) : (sl.assign s id).Ok :=
  ⟨h.pos, h.inChunk, h.nodup, h.freeLive, h.byFree, h.byFreeNodup, h.freeSlots, h.liveChunks,
    h.dead, h.deadNodup, h.chunksLt⟩

theorem leak_ok (h : sl.Ok) (s : Slot t) : (sl.leak s).Ok :=
  ⟨h.pos, h.inChunk, h.nodup, h.freeLive, h.byFree, h.byFreeNodup, h.freeSlots, h.liveChunks,
    h.dead, h.deadNodup, h.chunksLt⟩

/-! ## releasing empty chunks -/

theorem count_of_full (h : sl.Ok) (hf : sl.chunkSlots ≤ (sl.free c).length)
    (hx : sl.chunkOf x = c) : sl.count x = 1 := by
  have hsub : (sl.free c).map Slot.ix ⊆ range' (c * sl.chunkSlots) sl.chunkSlots := by
    intro i hi
    obtain ⟨s, hs, rfl⟩ := mem_map.mp hi
    rw [mem_range'_1]
    exact (chunkOf_eq_iff h).mp (h.inChunk c s hs)
  have hnd : ((sl.free c).map Slot.ix).Nodup :=
    (h.nodup c).map (fun a b e => by cases a; cases b; simp_all)
  have hperm := (hnd.subperm hsub).perm_of_length_le (by
    rw [length_range', length_map]; exact hf)
  have hm : x.ix ∈ (sl.free c).map Slot.ix := by
    rw [hperm.mem_iff, mem_range'_1]
    exact (chunkOf_eq_iff h).mp hx
  obtain ⟨s, hs, e⟩ := mem_map.mp hm
  have e' : s = x := by cases s; cases x; simp_all
  exact h.count_of_mem (e' ▸ hs)

/-- `sl'` is `sl` after chunks whose slots are all free were released -/
structure Released (sl sl' : Slab t) : Prop where
  ok : sl'.Ok
  keep : ∀ x, sl'.live x → sl.live x ∧ sl'.count x = sl.count x
  ended : ∀ x, sl.live x → ¬ sl'.live x → sl.count x = 1
  owner : sl'.owner = sl.owner
  chunkSlots : sl'.chunkSlots = sl.chunkSlots
  slotBytes : sl'.slotBytes = sl.slotBytes
  va : ∀ x, sl'.live x → sl'.va x = sl.va x

theorem Released.refl (h : sl.Ok) : Released sl sl :=
  ⟨h, fun _ hx => ⟨hx, rfl⟩, fun _ hx hx' => absurd hx hx', rfl, rfl, rfl, fun _ _ => rfl⟩

theorem Released.trans {a b c : Slab t} (h : Released a b) (h' : Released b c) : Released a c where
  ok := h'.ok
  keep x hx := by
    obtain ⟨h1, h2⟩ := h'.keep x hx
    obtain ⟨h3, h4⟩ := h.keep x h1
    exact ⟨h3, h2.trans h4⟩
  ended x hx hx' := by
    by_cases hb : b.live x
    · rw [← (h.keep x hb).2]
      exact h'.ended x hb hx'
    · exact h.ended x hx hb
  owner := h'.owner.trans h.owner
  chunkSlots := h'.chunkSlots.trans h.chunkSlots
  slotBytes := h'.slotBytes.trans h.slotBytes
  va x hx := (h'.va x hx).trans (h.va x (h'.keep x hx).1)

theorem dropChunk_released (h : sl.Ok) {count : Nat} (hm : (count, c) ∈ sl.byFree)
    (hcount : sl.chunkSlots ≤ count) : Released sl (sl.dropChunk count c) := by
  obtain ⟨hpos, hlen⟩ := (h.byFree count c).mp hm
  have hcs : (sl.chunks c).isSome :=
    h.freeLive c (fun e => by rw [e] at hlen; simp at hlen; omega)
  have hclt := h.chunksLt c hcs
  have hfull : (sl.free c).length = sl.chunkSlots := by
    have hsub : (sl.free c).map Slot.ix ⊆ range' (c * sl.chunkSlots) sl.chunkSlots := by
      intro i hi
      obtain ⟨s, hs, rfl⟩ := mem_map.mp hi
      rw [mem_range'_1]
      exact (chunkOf_eq_iff h).mp (h.inChunk c s hs)
    have hnd : ((sl.free c).map Slot.ix).Nodup :=
      (h.nodup c).map (fun a b e => by cases a; cases b; simp_all)
    have := (hnd.subperm hsub).length_le
    rw [length_range', length_map] at this
    omega
  have hlive : ∀ x, (sl.dropChunk count c).live x ↔ sl.chunkOf x ≠ c ∧ sl.live x := by
    intro x
    show (update sl.chunks c none (sl.chunkOf x)).isSome = true ↔ _
    by_cases e : sl.chunkOf x = c
    · rw [e, update_self]
      simp
    · rw [update_of_ne e]
      exact ⟨fun hx => ⟨e, hx⟩, fun hx => hx.2⟩
  refine ⟨⟨h.pos, ?_, ?_, ?_, ?_, h.byFreeNodup.erase _, ?_, ?_, ?_, ?_, ?_⟩, ?_, ?_, rfl, rfl, rfl,
    ?_⟩
  · intro c' x hx
    change x ∈ update sl.free c [] c' at hx
    by_cases e : c' = c
    · rw [e, update_self] at hx
      cases hx
    · rw [update_of_ne e] at hx
      exact h.inChunk c' x hx
  · intro c'
    show (update sl.free c [] c').Nodup
    by_cases e : c' = c
    · rw [e, update_self]
      exact nodup_nil
    · rw [update_of_ne e]
      exact h.nodup c'
  · intro c' hc'
    change update sl.free c [] c' ≠ [] at hc'
    show (update sl.chunks c none c').isSome
    by_cases e : c' = c
    · rw [e, update_self] at hc'
      exact absurd rfl hc'
    · rw [update_of_ne e] at hc' ⊢
      exact h.freeLive c' hc'
  · intro k c'
    show (k, c') ∈ sl.byFree.erase (count, c) ↔ 0 < k ∧ (update sl.free c [] c').length = k
    rw [h.byFreeNodup.mem_erase_iff, h.byFree]
    by_cases e : c' = c
    · rw [e, update_self, length_nil]
      constructor
      · rintro ⟨hne, hk, hl⟩
        exact absurd (by rw [← hl, hlen]) hne
      · rintro ⟨hk, hl⟩
        omega
    · rw [update_of_ne e]
      exact ⟨fun hx => hx.2, fun hx => ⟨fun he => e (Prod.mk.inj he).2, hx⟩⟩
  · have hs := sum_update_add sl.free length hclt []
    rw [← h.freeSlots, length_nil, hfull] at hs
    show sl.freeSlots - sl.chunkSlots =
      ∑ i ∈ Finset.range sl.nChunks, (update sl.free c [] i).length
    omega
  · have hs := sum_update_add sl.chunks (fun o => if o.isSome then 1 else 0) hclt none
    rw [← h.liveChunks, hcs] at hs
    show sl.liveChunks - 1 =
      ∑ i ∈ Finset.range sl.nChunks, if (update sl.chunks c none i).isSome then 1 else 0
    simp only [↓reduceIte, Option.isSome_none, Bool.false_eq_true] at hs
    omega
  · intro c'
    show c' ∈ c :: sl.dead ↔ c' < sl.nChunks ∧ update sl.chunks c none c' = none
    rw [mem_cons]
    by_cases e : c' = c
    · rw [e, update_self]
      simp [hclt]
    · rw [update_of_ne e, h.dead]
      simp [e]
  · refine nodup_cons.mpr ⟨fun hd => ?_, h.deadNodup⟩
    rw [((h.dead c).mp hd).2] at hcs
    cases hcs
  · intro c' hc'
    change (update sl.chunks c none c').isSome at hc'
    by_cases e : c' = c
    · rw [e, update_self] at hc'
      cases hc'
    · rw [update_of_ne e] at hc'
      exact h.chunksLt c' hc'
  · intro x hx
    obtain ⟨e, hx⟩ := (hlive x).mp hx
    refine ⟨hx, ?_⟩
    show (update sl.free c [] (sl.chunkOf x)).count x = (sl.free (sl.chunkOf x)).count x
    rw [update_of_ne e]
  · intro x hx hx'
    rw [hlive] at hx'
    exact count_of_full h (c := c) (by omega) (by by_contra e; exact hx' ⟨e, hx⟩)
  · intro x hx
    show ((update sl.chunks c none (sl.chunkOf x)).map Chunk.va).getD 0 + _ = _
    rw [update_of_ne ((hlive x).mp hx).1]
    rfl

theorem releaseEmptyLoop_released (k : Nat) (h : sl.Ok) (freed : List (Chunk t)) :
    Released sl (releaseEmptyLoop k sl freed).1 := by
  induction k generalizing sl freed with
  | zero => exact Released.refl h
  | succ k ih =>
    unfold releaseEmptyLoop
    split
    · exact Released.refl h
    · next count c hl =>
      split
      · exact Released.refl h
      · next hc =>
        have hr := dropChunk_released h (mem_of_getLast? hl) (by omega)
        exact hr.trans (ih hr.ok _)

theorem releaseEmptyChunks_released (h : sl.Ok) : Released sl sl.releaseEmptyChunks.1 :=
  releaseEmptyLoop_released _ h []

end Slab
end Plow.KvStore
