import Mathlib

/-!
# Which rank a request goes to

`choose` looks at the ranks as the router sees them (`Cand`) and is pure.  Its arithmetic is over
any type with the operations that the source does on `f32`: no rule of the router's accounting
depends on what they round to.
-/

namespace Plow.Dp

def maxDp : Nat := 32

/-- `usePrefix`: probe the ranks' prefix caches; `spill`: queue depth past which affinity yields -/
structure RouteCfg (F : Type) where
  usePrefix : Bool
  spill : Option UInt32
  slack : F

inductive Reason where
  | session | prefixHit | leastLoaded | spill | retry
  deriving DecidableEq, Repr

structure Cand where
  up : Bool := false
  pending : UInt32 := 0
  active : UInt32 := 0
  capacity : UInt32 := 0
  kvMilli : UInt32 := 0
  /-- prompt rows its prefix cache would restore -/
  cached : UInt32 := 0
  /-- sessions pinned here; set only when placing a new session -/
  sessions : UInt32 := 0
  deriving DecidableEq, Repr

def kvFullMilli : UInt32 := 900

section
variable {F : Type} [NatCast F] [Add F] [Sub F] [Mul F] [Div F] [Max F] [LT F] [LE F]
  [DecidableLT F] [DecidableLE F]

/-- slot occupancy, queue included, plus a steep penalty once the cache is past 80% committed -/
def load (c : Cand) : F :=
  let kv : F := (c.kvMilli.toNat : F) / ((1000 : Nat) : F)
  ((c.pending + c.active).toNat : F) / ((max c.capacity 1).toNat : F) +
    max (kv - ((8 : Nat) : F) / ((10 : Nat) : F)) ((0 : Nat) : F) * ((4 : Nat) : F)

def spillMargin : F := ((1 : Nat) : F) / ((2 : Nat) : F)

def spill (cfg : RouteCfg F) (c : Cand) : UInt32 := cfg.spill.getD (max (c.capacity / 4) 4)

/-- a turn of `choose`'s first loop: rank `(rr + k) % n` against the least loaded so far -/
def leastTurn (cands : List Cand) (rr : Nat) (least : Option (Nat × F)) (k : Nat) :
    Option (Nat × F) :=
  let i := (rr + k) % cands.length
  match cands[i]? with
  | none => least
  | some c =>
    if !c.up then least
    else
      let l : F := load c + (c.sessions.toNat : F) / ((max c.capacity 1).toNat : F)
      match least with
      | none => some (i, l)
      | some (_, b) => if l < b then some (i, l) else least

def leastLoaded (cands : List Cand) (rr : Nat) : Option (Nat × F) :=
  (List.range cands.length).foldl (leastTurn cands rr) none

/-- a turn of `choose`'s second loop -/
def cachedTurn (cands : List Cand) (promptRows : Nat) (blockRows : UInt32) (cfg : RouteCfg F)
    (lMin : F) (hit : Option Nat) (i : Nat) : Option Nat :=
  match cands[i]? with
  | none => hit
  | some c =>
    let saved : F := (c.cached.toNat : F) / (promptRows : F)
    if !c.up ∨ c.cached < blockRows ∨ lMin + spillMargin + cfg.slack * saved < load c then hit
    else
      match hit.bind (cands[·]?) with
      | none => some i
      | some b =>
        if b.cached < c.cached ∨ (c.cached = b.cached ∧ (load c : F) < load b) then some i
        else hit

def mostCached (cands : List Cand) (promptRows : Nat) (blockRows : UInt32) (cfg : RouteCfg F)
    (lMin : F) : Option Nat :=
  (List.range cands.length).foldl (cachedTurn cands promptRows blockRows cfg lMin) none

/-- the rank for one request, and why -/
def choose (cands : List Cand) (sticky : Option Nat) (promptRows : Nat) (blockRows : UInt32)
    (cfg : RouteCfg F) (rr : Nat) : Option (Nat × Reason) :=
  match leastLoaded (F := F) cands rr with
  | none => none
  | some (least, _) =>
    let lMin : F := load (cands.getD least {})
    let stays (i : Nat) : Bool :=
      match cands[i]? with
      | none => false
      | some c => c.up && (decide (c.pending ≤ spill cfg c) || decide (load c ≤ lMin + spillMargin))
    match sticky.filter stays with
    | some i => some (i, .session)
    | none =>
      let hit := if cfg.usePrefix ∧ 0 < blockRows ∧ blockRows.toNat ≤ promptRows then
          mostCached cands promptRows blockRows cfg lMin
        else none
      match hit with
      | some h => some (h, .prefixHit)
      | none => some (least, if sticky.isSome then .spill else .leastLoaded)

variable {cands : List Cand} {sticky : Option Nat} {promptRows : Nat} {blockRows : UInt32}
  {cfg : RouteCfg F} {rr i : Nat}

theorem leastLoaded_up {x : Nat × F} (h : leastLoaded cands rr = some x) :
    ∃ c, cands[x.1]? = some c ∧ c.up = true := by
  have hinv : ∀ x, leastLoaded (F := F) cands rr = some x →
      ∃ c, cands[x.1]? = some c ∧ c.up = true := by
    refine List.foldlRecOn (motive := fun o : Option (Nat × F) => ∀ x, o = some x →
      ∃ c, cands[x.1]? = some c ∧ c.up = true) _ _ (fun _ h => nomatch h) fun least ih k _ => ?_
    unfold leastTurn
    simp only
    split
    · exact ih
    · next c hc =>
      split
      · exact ih
      · next hup =>
        have hnew : ∃ c, cands[(rr + k) % cands.length]? = some c ∧ c.up = true :=
          ⟨c, hc, by simpa using hup⟩
        split
        · intro x hx
          cases hx
          exact hnew
        · split
          · intro x hx
            cases hx
            exact hnew
          · exact ih
  exact hinv x h

theorem mostCached_lt {lMin : F}
    (h : mostCached cands promptRows blockRows cfg lMin = some i) : i < cands.length := by
  have hinv : ∀ i, mostCached cands promptRows blockRows cfg lMin = some i → i < cands.length := by
    refine List.foldlRecOn (motive := fun o : Option Nat => ∀ i, o = some i → i < cands.length)
      _ _ (fun _ h => nomatch h) fun hit ih k hk => ?_
    have hnew : ∀ i, some k = some i → i < cands.length := fun i hi => by
      cases hi
      exact List.mem_range.mp hk
    unfold cachedTurn
    simp only
    split
    · exact ih
    · split
      · exact ih
      · split
        · exact hnew
        · split
          · exact hnew
          · exact ih
  exact hinv i h

theorem choose_spec {reason : Reason}
    (h : choose cands sticky promptRows blockRows cfg rr = some (i, reason)) :
    i < cands.length ∧ ∃ c ∈ cands, c.up = true := by
  unfold choose at h
  split at h
  · cases h
  · next least _ hleast =>
    obtain ⟨c, hc, hup⟩ := leastLoaded_up hleast
    obtain ⟨hlt, -⟩ := List.getElem?_eq_some_iff.mp hc
    refine ⟨?_, c, List.mem_of_getElem? hc, hup⟩
    simp only at h
    split at h
    · next j hj =>
      cases h
      have hstay := (Option.filter_eq_some_iff.mp hj).2
      match hi : cands[i]? with
      | none =>
        rw [hi] at hstay
        cases hstay
      | some _ => exact (List.getElem?_eq_some_iff.mp hi).1
    · split at h
      · next hhit =>
        cases h
        split at hhit
        · exact mostCached_lt hhit
        · cases hhit
      · cases h
        exact hlt

end

end Plow.Dp

/-!
# The session table

`Sessions` is the table session id → rank, in shards, with a count for each rank.  The steps under a
shard's lock are `get` and `put`.  A hash map is the list of its entries.
-/

namespace Plow.Dp

def shardCount : Nat := 64
def shardCap : Nat := 4096
def sessionTtlS : UInt32 := 900
def sessionRefreshS : UInt32 := 30

structure Pinned where
  key : UInt64
  rank : Nat
  time : UInt32
  deriving DecidableEq, Repr

abbrev Shard := List Pinned
abbrev Counts := Nat → UInt32

structure Sessions where
  shards : Nat → Shard
  counts : Counts

/-- `fetch_add(1)` -/
def Counts.add (counts : Counts) (rank : Nat) : Counts :=
  Function.update counts rank (counts rank + 1)

/-- `fetch_sub(1)` -/
def Counts.sub (counts : Counts) (rank : Nat) : Counts :=
  Function.update counts rank (counts rank - 1)

def Counts.forget (counts : Counts) (rank : Nat) : Counts :=
  if rank < maxDp then counts.sub rank else counts

namespace Shard

def find (s : Shard) (h : UInt64) : Option Pinned := s.find? (·.key = h)

def expired (now : UInt32) (p : Pinned) : Bool := sessionTtlS ≤ now - p.time

def remove (s : Shard) (h : UInt64) : Shard := s.filter (·.key ≠ h)

/-- `Sessions::get` on the shard of `h` -/
def get (s : Shard) (counts : Counts) (h : UInt64) (now : UInt32) :
    Shard × Counts × Option (Nat × UInt32) :=
  match s.find h with
  | none => (s, counts, none)
  | some p =>
    if expired now p then (s.remove h, counts.forget p.rank, none)
    else (s, counts, some (p.rank, p.time))

/-- the start of `Sessions::put`: a full shard drops its expired entries, else all of them -/
def room (s : Shard) (counts : Counts) (h : UInt64) (now : UInt32) : Shard × Counts :=
  if shardCap ≤ s.length ∧ s.find h = none then
    let kept := s.filter (!expired now ·)
    let counts := (s.filter (expired now ·)).foldl (fun c p => c.forget p.rank) counts
    if shardCap ≤ kept.length then ([], kept.foldl (fun c p => c.forget p.rank) counts)
    else (kept, counts)
  else (s, counts)

/-- `Sessions::put` on the shard of `h`; `reserved`: the count of `rank` already holds the session -/
def put (s : Shard) (counts : Counts) (h : UInt64) (rank : Nat) (now : UInt32) (reserved : Bool) :
    Shard × Counts :=
  let (s, counts) := room s counts h now
  let s' := s.remove h ++ [⟨h, rank, now⟩]
  match s.find h with
  | some old =>
    if old.rank = rank then (s', if reserved then counts.forget old.rank else counts)
    else
      let counts := counts.forget old.rank
      (s', if reserved then counts else counts.add rank)
  | none => (s', if reserved then counts else counts.add rank)

end Shard

def shardOf (h : UInt64) : Nat := (h >>> 58).toNat % shardCount

namespace Sessions

def new : Sessions := ⟨fun _ => [], fun _ => 0⟩

def get (t : Sessions) (h : UInt64) (now : UInt32) : Sessions × Option (Nat × UInt32) :=
  let (s, counts, found) := (t.shards (shardOf h)).get t.counts h now
  (⟨Function.update t.shards (shardOf h) s, counts⟩, found)

def put (t : Sessions) (h : UInt64) (rank : Nat) (now : UInt32) (reserved : Bool) : Sessions :=
  let (s, counts) := (t.shards (shardOf h)).put t.counts h rank now reserved
  ⟨Function.update t.shards (shardOf h) s, counts⟩

end Sessions

/-! ### Counting a shard -/

namespace Shard

def held (s : Shard) (r : Nat) : Nat := s.countP (·.rank = r)

structure Ok (k : Nat) (s : Shard) : Prop where
  keys : (s.map Pinned.key).Nodup
  home : ∀ p ∈ s, shardOf p.key = k
  rank : ∀ p ∈ s, p.rank < maxDp
  cap : s.length ≤ shardCap

variable {k : Nat} {s : Shard} {h : UInt64} {p : Pinned}

theorem find_some (hf : s.find h = some p) : p ∈ s ∧ p.key = h := by
  have hk := List.find?_some hf
  exact ⟨List.mem_of_find?_eq_some hf, of_decide_eq_true hk⟩

theorem find_none (hf : s.find h = none) : ∀ p ∈ s, p.key ≠ h := by
  intro p hp
  have := List.find?_eq_none.mp hf p hp
  exact fun e => this (decide_eq_true e)

theorem remove_of_find_none (hf : s.find h = none) : s.remove h = s :=
  List.filter_eq_self.mpr fun p hp => decide_eq_true (find_none hf p hp)

theorem held_remove (hk : (s.map Pinned.key).Nodup) (hf : s.find h = some p) (r : Nat) :
    s.held r = (s.remove h).held r + if p.rank = r then 1 else 0 := by
  unfold held remove
  induction s with
  | nil => cases hf
  | cons q s ih =>
    obtain ⟨hq, hk⟩ := List.nodup_cons.mp hk
    unfold find at hf
    rw [List.find?_cons] at hf
    split at hf
    · next heq =>
      cases hf
      have heq : p.key = h := of_decide_eq_true heq
      have hrest : (p :: s).filter (·.key ≠ h) = s := by
        rw [List.filter_cons, if_neg (by simp [heq])]
        refine List.filter_eq_self.mpr fun x hx => decide_eq_true fun e => hq ?_
        rw [heq, ← e]
        exact List.mem_map_of_mem hx
      rw [hrest, List.countP_cons]
      simp only [decide_eq_true_eq]
    · next hne =>
      have hne : q.key ≠ h := of_decide_eq_false hne
      have hrest : (q :: s).filter (·.key ≠ h) = q :: s.filter (·.key ≠ h) := by
        rw [List.filter_cons, if_pos (decide_eq_true hne)]
      rw [hrest, List.countP_cons, List.countP_cons, ih hk hf]
      omega

theorem held_partition (s : Shard) (q : Pinned → Bool) (r : Nat) :
    s.held r = held (s.filter q) r + held (s.filter (!q ·)) r := by
  unfold held
  induction s with
  | nil => rfl
  | cons p s ih =>
    rw [List.countP_cons, ih, List.filter_cons, List.filter_cons]
    cases q p <;> simp [List.countP_cons] <;> omega

end Shard

/-! ### What an operation does to the counts -/

theorem Counts.add_apply (c : Counts) (rank r : Nat) :
    c.add rank r = c r + UInt32.ofNat (if rank = r then 1 else 0) := by
  unfold Counts.add
  rw [Function.update_apply]
  split
  · next h =>
    rw [h, if_pos rfl]
    rfl
  · next h =>
    rw [if_neg (Ne.symm h)]
    exact (UInt32.add_zero _).symm

theorem Counts.sub_apply (c : Counts) (rank r : Nat) :
    c.sub rank r + UInt32.ofNat (if rank = r then 1 else 0) = c r := by
  unfold Counts.sub
  rw [Function.update_apply]
  split
  · next h =>
    rw [h, if_pos rfl]
    exact UInt32.sub_add_cancel _ _
  · next h =>
    rw [if_neg (Ne.symm h)]
    exact UInt32.add_zero _

theorem Counts.forget_apply (c : Counts) {rank : Nat} (hr : rank < maxDp) (r : Nat) :
    c.forget rank r + UInt32.ofNat (if rank = r then 1 else 0) = c r := by
  rw [Counts.forget, if_pos hr]
  exact c.sub_apply rank r

theorem forgets_apply (s : Shard) (hs : ∀ p ∈ s, p.rank < maxDp) (c : Counts) (r : Nat) :
    s.foldl (fun c p => c.forget p.rank) c r + UInt32.ofNat (s.held r) = c r := by
  induction s generalizing c with
  | nil => exact UInt32.add_zero _
  | cons p s ih =>
    have hp := c.forget_apply (hs p List.mem_cons_self) r
    have hrest := ih (fun q hq => hs q (List.mem_cons_of_mem _ hq)) (c.forget p.rank)
    rw [List.foldl_cons, ← hp, ← hrest, Shard.held, List.countP_cons, UInt32.ofNat_add,
      ← UInt32.add_assoc]
    simp only [decide_eq_true_eq]
    rfl

namespace Shard
variable {k rank : Nat} {s s' : Shard} {c : Counts} {h : UInt64} {now : UInt32} {p : Pinned}

theorem Ok.sublist (hs : s.Ok k) (hsub : s'.Sublist s) : Ok k s' where
  keys := hs.keys.sublist (hsub.map _)
  home p hp := hs.home p (hsub.subset hp)
  rank p hp := hs.rank p (hsub.subset hp)
  cap := le_trans hsub.length_le hs.cap

theorem Ok.nil (k : Nat) : Ok k [] := ⟨List.nodup_nil, nofun, nofun, Nat.zero_le _⟩

theorem get_spec (hs : s.Ok k) (h : UInt64) (now : UInt32) (c : Counts) : Ok k (s.get c h now).1 ∧
    (∀ r, (s.get c h now).2.1 r + UInt32.ofNat (s.held r) =
      c r + UInt32.ofNat (held (s.get c h now).1 r)) ∧
    ∀ r t, (s.get c h now).2.2 = some (r, t) → r < maxDp := by
  unfold get
  split
  · exact ⟨hs, fun _ => rfl, nofun⟩
  · next p hf =>
    have hp := hs.rank p (find_some hf).1
    split
    · refine ⟨hs.sublist List.filter_sublist, fun r => ?_, nofun⟩
      have hc := c.forget_apply hp r
      rw [held_remove hs.keys hf, UInt32.ofNat_add, ← hc]
      grind
    · refine ⟨hs, fun _ => rfl, fun r t heq => ?_⟩
      cases heq
      exact hp

/-- After `room` there is a place for the key. -/
theorem room_spec (hs : s.Ok k) (h : UInt64) (now : UInt32) (c : Counts) : Ok k (s.room c h now).1 ∧
    (∀ r, (s.room c h now).2 r + UInt32.ofNat (s.held r) =
      c r + UInt32.ofNat (held (s.room c h now).1 r)) ∧
    (find (s.room c h now).1 h = none → (s.room c h now).1.length < shardCap) := by
  unfold room
  split
  · have hgone : ∀ p ∈ s.filter (expired now ·), p.rank < maxDp :=
      fun p hp => hs.rank p (List.mem_of_mem_filter hp)
    have hkept : ∀ p ∈ s.filter (!expired now ·), p.rank < maxDp :=
      fun p hp => hs.rank p (List.mem_of_mem_filter hp)
    simp only
    split
    · refine ⟨Ok.nil k, fun r => ?_, fun _ => Nat.zero_lt_succ _⟩
      have h1 := forgets_apply _ hgone c r
      have h2 := forgets_apply _ hkept ((s.filter (expired now ·)).foldl (fun c p => c.forget p.rank) c) r
      rw [held_partition s (expired now ·) r, UInt32.ofNat_add]
      show _ = c r + UInt32.ofNat 0
      grind
    · next hlt =>
      refine ⟨hs.sublist List.filter_sublist, fun r => ?_, fun _ => Nat.not_le.mp hlt⟩
      have h1 := forgets_apply _ hgone c r
      rw [held_partition s (expired now ·) r, UInt32.ofNat_add]
      grind
  · next hn =>
    refine ⟨hs, fun _ => rfl, fun hf => ?_⟩
    exact Nat.not_le.mp fun hle => hn ⟨hle, hf⟩

theorem held_append (s : Shard) (p : Pinned) (r : Nat) :
    held (s ++ [p]) r = s.held r + if p.rank = r then 1 else 0 := by
  unfold held
  rw [List.countP_append, List.countP_singleton]
  simp only [decide_eq_true_eq]

theorem Ok.insert (hs : s.Ok k) (hh : shardOf h = k) (hr : rank < maxDp)
    (hroom : s.find h = none → s.length < shardCap) (now : UInt32) :
    Ok k (s.remove h ++ [⟨h, rank, now⟩]) where
  keys := by
    rw [List.map_append]
    refine List.Nodup.append (hs.keys.sublist (List.filter_sublist.map _)) (List.nodup_singleton _) ?_
    intro x hx hx'
    obtain ⟨q, hq, rfl⟩ := List.mem_map.mp hx
    have hne := (List.mem_filter.mp hq).2
    exact absurd (List.mem_singleton.mp hx') (of_decide_eq_true hne)
  home p hp := by
    rcases List.mem_append.mp hp with hp | hp
    · exact hs.home p (List.mem_of_mem_filter hp)
    · rw [List.mem_singleton.mp hp]
      exact hh
  rank p hp := by
    rcases List.mem_append.mp hp with hp | hp
    · exact hs.rank p (List.mem_of_mem_filter hp)
    · rw [List.mem_singleton.mp hp]
      exact hr
  cap := by
    rw [List.length_append]
    show (s.remove h).length < shardCap
    match hf : s.find h with
    | none => exact lt_of_le_of_lt (List.length_filter_le _ _) (hroom hf)
    | some p =>
      obtain ⟨hp, hk⟩ := find_some hf
      refine lt_of_lt_of_le (List.length_filter_lt_length_iff_exists.mpr ⟨p, hp, ?_⟩) hs.cap
      exact fun hne => of_decide_eq_true hne hk

/-- `put` stores the key for the rank and settles what was reserved for it. -/
theorem put_spec (hs : s.Ok k) (hh : shardOf h = k) (hr : rank < maxDp) (now : UInt32)
    (c : Counts) (reserved : Bool) :
    Ok k (s.put c h rank now reserved).1 ∧
    ∀ r, (s.put c h rank now reserved).2 r + UInt32.ofNat (s.held r) +
        UInt32.ofNat (if reserved ∧ rank = r then 1 else 0) =
      c r + UInt32.ofNat (held (s.put c h rank now reserved).1 r) := by
  obtain ⟨hok, hcount, hroom⟩ := room_spec hs h now c
  unfold put
  generalize s.room c h now = sc at hok hcount hroom ⊢
  obtain ⟨s', c'⟩ := sc
  have hins := hok.insert hh hr hroom now
  simp only
  split
  · next old hf =>
    have hold := hok.rank old (find_some hf).1
    have hheld := held_remove hok.keys hf
    split
    · next heq =>
      refine ⟨hins, fun r => ?_⟩
      have h1 := hcount r
      have h2 := c'.forget_apply hold r
      rw [hheld r, UInt32.ofNat_add, heq] at h1
      rw [heq] at h2 ⊢
      show _ = c r + UInt32.ofNat (held _ r)
      rw [held_append, UInt32.ofNat_add]
      cases reserved <;> simp <;> grind
    · refine ⟨hins, fun r => ?_⟩
      have h1 := hcount r
      have h2 := c'.forget_apply hold r
      have h3 := (c'.forget old.rank).add_apply rank r
      rw [hheld r, UInt32.ofNat_add] at h1
      show _ = c r + UInt32.ofNat (held _ r)
      rw [held_append, UInt32.ofNat_add]
      cases reserved <;> simp <;> grind
  · next hf =>
    refine ⟨hins, fun r => ?_⟩
    have h1 := hcount r
    have h3 := c'.add_apply rank r
    show _ = c r + UInt32.ofNat (held _ r)
    rw [held_append, remove_of_find_none hf, UInt32.ofNat_add]
    cases reserved <;> simp <;> grind

end Shard

/-! ### The whole table -/

namespace Sessions

def entries (t : Sessions) (r : Nat) : Nat := ∑ k ∈ Finset.range shardCount, (t.shards k).held r

def Ok (t : Sessions) : Prop := ∀ k, (t.shards k).Ok k

variable {t : Sessions} {h : UInt64} {now : UInt32} {rank : Nat} {reserved : Bool}

theorem shardOf_lt (h : UInt64) : shardOf h < shardCount := Nat.mod_lt _ (Nat.zero_lt_succ _)

theorem entries_update (t : Sessions) (h : UInt64) (s : Shard) (c : Counts) (r : Nat) :
    entries ⟨Function.update t.shards (shardOf h) s, c⟩ r + (t.shards (shardOf h)).held r =
      t.entries r + s.held r := by
  have hmem := Finset.mem_range.mpr (shardOf_lt h)
  unfold entries
  rw [← Finset.add_sum_erase _ _ hmem,
    ← Finset.add_sum_erase _ (fun k => (t.shards k).held r) hmem]
  have hrest : ∀ k ∈ (Finset.range shardCount).erase (shardOf h),
      (Function.update t.shards (shardOf h) s k).held r = (t.shards k).held r := fun k hk => by
    rw [Function.update_of_ne (Finset.ne_of_mem_erase hk)]
  rw [Finset.sum_congr rfl hrest]
  simp only [Function.update_self]
  omega

theorem Ok.update (ht : t.Ok) {s : Shard} (hs : s.Ok (shardOf h)) (c : Counts) :
    Ok ⟨Function.update t.shards (shardOf h) s, c⟩ := by
  intro k
  show Shard.Ok k (Function.update t.shards (shardOf h) s k)
  rw [Function.update_apply]
  split
  · next heq =>
    rw [heq]
    exact hs
  · exact ht k

theorem get_spec (ht : t.Ok) (h : UInt64) (now : UInt32) : (t.get h now).1.Ok ∧
    (∀ r, (t.get h now).1.counts r + UInt32.ofNat (t.entries r) =
      t.counts r + UInt32.ofNat ((t.get h now).1.entries r)) ∧
    ∀ r u, (t.get h now).2 = some (r, u) → r < maxDp := by
  obtain ⟨hok, hcount, hrank⟩ := Shard.get_spec (ht (shardOf h)) h now t.counts
  refine ⟨ht.update hok _, fun r => ?_, hrank⟩
  have h1 := congrArg UInt32.ofNat (t.entries_update h ((t.shards (shardOf h)).get t.counts h now).1
    ((t.shards (shardOf h)).get t.counts h now).2.1 r)
  have h2 := hcount r
  rw [UInt32.ofNat_add, UInt32.ofNat_add] at h1
  unfold get
  simp only
  grind

theorem put_spec (ht : t.Ok) (h : UInt64) (hr : rank < maxDp) (now : UInt32)
    (reserved : Bool) :
    (t.put h rank now reserved).Ok ∧
    ∀ r, (t.put h rank now reserved).counts r + UInt32.ofNat (t.entries r) +
        UInt32.ofNat (if reserved ∧ rank = r then 1 else 0) =
      t.counts r + UInt32.ofNat ((t.put h rank now reserved).entries r) := by
  obtain ⟨hok, hcount⟩ := Shard.put_spec (ht (shardOf h)) rfl hr now t.counts reserved
  refine ⟨ht.update hok _, fun r => ?_⟩
  have h1 := congrArg UInt32.ofNat (t.entries_update h
    ((t.shards (shardOf h)).put t.counts h rank now reserved).1
    ((t.shards (shardOf h)).put t.counts h rank now reserved).2 r)
  have h2 := hcount r
  rw [UInt32.ofNat_add, UInt32.ofNat_add] at h1
  unfold put
  simp only
  grind

end Sessions

end Plow.Dp
