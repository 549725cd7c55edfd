import Plow.Lib.BlockCyclic

/-!
# Decode context parallelism: the KV row map

A layout deals the KV rows of a sequence to the `degree` shards of a group, a page of `pageRows` rows
at a time.  The closed forms of the source are the owner, place and count of a block-cyclic partition,
so a shard's rows of a sequence fill the front of its local cache, and the shards' shares differ by at
most a page.

`none` is a failed assertion: a shard or a rank that does not exist, or blocks without rows.
-/

namespace Plow.Packet
open Plow.Lib

def DCP_MIN_PAGE_ROWS : ℕ := 32

structure DcpLayout where
  worldSize : ℕ
  degree : ℕ
  pageRows : ℕ
  deriving DecidableEq

namespace DcpLayout

variable (l : DcpLayout)

def validate (blockRows : Option ℕ) : Except String Unit :=
  if l.worldSize = 0 ∨ l.degree = 0 then .error "world size and DCP degree must be non-zero"
  else if l.worldSize % l.degree ≠ 0 then .error "DCP degree must divide world size"
  else if l.pageRows < DCP_MIN_PAGE_ROWS then .error "DCP page must cover at least one flash KV tile"
  else if ¬ l.pageRows.isPowerOfTwo then .error "DCP page rows must be a power of two"
  else match blockRows with
    | some b =>
      if b = 0 ∨ b % l.pageRows ≠ 0 then .error "DCP page must divide the KV pool block rows" else .ok ()
    | none => .ok ()

def shardOfRow (row : ℕ) : ℕ := row / l.pageRows % l.degree

def localRow (row : ℕ) : ℕ := row / (l.pageRows * l.degree) * l.pageRows + row % l.pageRows

def globalRow (shard loc : ℕ) : Option ℕ :=
  if shard < l.degree then
    some (loc / l.pageRows * (l.pageRows * l.degree) + shard * l.pageRows + loc % l.pageRows)
  else none

def localRows (len shard : ℕ) : Option ℕ :=
  if shard < l.degree then
    if l.degree = 1 then some len
    else
      let full := len / l.pageRows
      let tail := len % l.pageRows
      let q := full / l.degree
      let r := full % l.degree
      some (q * l.pageRows + if shard < r then l.pageRows else if shard = r then tail else 0)
  else none

def maxLocalRows (len : ℕ) : ℕ :=
  if l.degree = 1 then len
  else
    let full := len / l.pageRows
    let tail := len % l.pageRows
    let q := full / l.degree
    let r := full % l.degree
    q * l.pageRows + if r > 0 then l.pageRows else tail

def minLocalRows (len : ℕ) : ℕ :=
  if l.degree = 1 then len
  else
    let full := len / l.pageRows
    let tail := len % l.pageRows
    let q := full / l.degree
    let r := full % l.degree
    q * l.pageRows + if r + 1 < l.degree then 0 else tail

def localCapacity (maxCtx : ℕ) : ℕ :=
  if l.degree = 1 then maxCtx else maxCtx ⌈/⌉ l.pageRows ⌈/⌉ l.degree * l.pageRows

def localBlocks (rows blockRows shard : ℕ) : Option ℕ :=
  if 0 < blockRows then (l.localRows rows shard).map (· ⌈/⌉ blockRows) else none

def validatePool (blockRows maxCtx : ℕ) : Except String Unit := do
  l.validate (some blockRows)
  if l.localCapacity maxCtx % blockRows ≠ 0 then
    .error "DCP local capacity must be a whole number of KV pool blocks"
  else .ok ()

end DcpLayout

variable {l : DcpLayout} {len row shard loc n : ℕ}

/-! ### Block-cyclic ownership -/

/-- what a valid layout is -/
structure DcpLayout.Admissible (l : DcpLayout) : Prop where
  degree_pos : 0 < l.degree
  dvd : l.degree ∣ l.worldSize
  page_min : DCP_MIN_PAGE_ROWS ≤ l.pageRows
  page_pow : l.pageRows.isPowerOfTwo

theorem DcpLayout.Admissible.page_pos (h : l.Admissible) : 0 < l.pageRows :=
  lt_of_lt_of_le (by decide) h.page_min

theorem admissible_of_validate {b : Option ℕ} (h : l.validate b = .ok ()) : l.Admissible := by
  unfold DcpLayout.validate at h
  split at h
  · exact nomatch h
  · split at h
    · exact nomatch h
    · split at h
      · exact nomatch h
      · split at h
        · exact nomatch h
        · exact ⟨by omega, Nat.dvd_of_mod_eq_zero (by omega), by omega, of_not_not ‹_›⟩

theorem shardOfRow_eq (l : DcpLayout) (row : ℕ) :
    l.shardOfRow row = cyclicOwner l.pageRows l.degree row := rfl

theorem localRow_eq (l : DcpLayout) (row : ℕ) :
    l.localRow row = cyclicLocal l.pageRows l.degree row := rfl

theorem globalRow_eq (hs : shard < l.degree) (loc : ℕ) :
    l.globalRow shard loc = some (cyclicGlobal l.pageRows l.degree shard loc) := if_pos hs

theorem cyclicCount_one (p len : ℕ) : cyclicCount p 1 len 0 = len := by
  unfold cyclicCount
  rw [Nat.mod_one, Nat.div_one, if_neg (lt_irrefl 0), if_pos rfl, Nat.div_add_mod']

theorem localRows_eq (hs : shard < l.degree) (len : ℕ) :
    l.localRows len shard = some (cyclicCount l.pageRows l.degree len shard) := by
  unfold DcpLayout.localRows
  rw [if_pos hs]
  split
  · rename_i hd
    obtain rfl : shard = 0 := by omega
    rw [hd, cyclicCount_one]
  · rfl

theorem localRows_some (h : l.localRows len shard = some n) :
    shard < l.degree ∧ cyclicCount l.pageRows l.degree len shard = n := by
  by_cases hs : shard < l.degree
  · rw [localRows_eq hs] at h
    exact ⟨hs, Option.some.inj h⟩
  · unfold DcpLayout.localRows at h
    rw [if_neg hs] at h
    exact nomatch h

/-! ### The shares -/

theorem maxLocalRows_eq (l : DcpLayout) (len : ℕ) :
    l.maxLocalRows len = len / l.pageRows / l.degree * l.pageRows +
      if 0 < len / l.pageRows % l.degree then l.pageRows else len % l.pageRows := by
  unfold DcpLayout.maxLocalRows
  split
  · rename_i hd
    rw [hd, Nat.mod_one, Nat.div_one, if_neg (lt_irrefl 0), Nat.div_add_mod']
  · rfl

theorem minLocalRows_eq (l : DcpLayout) (len : ℕ) :
    l.minLocalRows len = len / l.pageRows / l.degree * l.pageRows +
      if len / l.pageRows % l.degree + 1 < l.degree then 0 else len % l.pageRows := by
  unfold DcpLayout.minLocalRows
  split
  · rename_i hd
    rw [hd, Nat.mod_one, Nat.div_one, if_neg (lt_irrefl 1), Nat.div_add_mod']
  · rfl

theorem maxLocalRows_greatest (h : l.Admissible) (len : ℕ) :
    IsGreatest {n | ∃ shard, l.localRows len shard = some n} (l.maxLocalRows len) := by
  have htail : len % l.pageRows < l.pageRows := Nat.mod_lt len h.page_pos
  rw [maxLocalRows_eq]
  constructor
  · refine ⟨0, ?_⟩
    rw [localRows_eq h.degree_pos, cyclicCount]
    congr 2
    split
    · rfl
    · rw [if_pos (by omega)]
  · rintro n ⟨shard, hn⟩
    obtain ⟨hs, rfl⟩ := localRows_some hn
    apply Nat.add_le_add_left
    split
    · rw [if_pos (by omega)]
    · split
      · split
        · exact htail.le
        · exact le_rfl
      · exact Nat.zero_le _

theorem minLocalRows_least (h : l.Admissible) (len : ℕ) :
    IsLeast {n | ∃ shard, l.localRows len shard = some n} (l.minLocalRows len) := by
  have htail : len % l.pageRows < l.pageRows := Nat.mod_lt len h.page_pos
  have hr : len / l.pageRows % l.degree < l.degree := Nat.mod_lt _ h.degree_pos
  rw [minLocalRows_eq]
  constructor
  · refine ⟨l.degree - 1, ?_⟩
    rw [localRows_eq (Nat.sub_lt h.degree_pos one_pos), cyclicCount]
    congr 2
    rw [if_neg (by omega)]
    split
    · rw [if_neg (by omega)]
    · rw [if_pos (by omega)]
  · rintro n ⟨shard, hn⟩
    obtain ⟨hs, rfl⟩ := localRows_some hn
    apply Nat.add_le_add_left
    split
    · exact Nat.zero_le _
    · split
      · exact htail.le
      · rw [if_pos (by omega)]

/-! ### Capacity -/

theorem lt_ceilDiv {a b i : ℕ} (hb : 0 < b) (hi : i < a) : i / b < a ⌈/⌉ b := by
  rw [Nat.div_lt_iff_lt_mul hb]
  have h := le_smul_ceilDiv (a := b) (b := a) hb
  rw [smul_eq_mul, mul_comm] at h
  exact lt_of_lt_of_le hi h

theorem localRow_lt_localCapacity (h : l.Admissible) {maxCtx : ℕ} (hlen : len ≤ maxCtx) (hr : row < len) :
    l.localRow row < l.localCapacity maxCtx := by
  have hrow : row < maxCtx := lt_of_lt_of_le hr hlen
  unfold DcpLayout.localCapacity
  split
  · rename_i hd
    rw [DcpLayout.localRow, hd, mul_one, Nat.div_add_mod']
    exact hrow
  · have hpages := lt_ceilDiv h.degree_pos (lt_ceilDiv h.page_pos hrow)
    have hlt := Nat.mul_le_mul_right l.pageRows hpages
    rw [Nat.succ_mul] at hlt
    rw [DcpLayout.localRow, ← Nat.div_div_eq_div_mul]
    exact Nat.lt_of_lt_of_le (Nat.add_lt_add_left (Nat.mod_lt row h.page_pos) _) hlt

/-! ### The machine's numbers -/

theorem ceilDiv_le {a b : ℕ} (hb : 0 < b) : a ⌈/⌉ b ≤ a / b + 1 := by
  rw [ceilDiv_le_iff_le_smul hb, smul_eq_mul, Nat.mul_succ]
  have := Nat.div_add_mod a b
  have := Nat.mod_lt a hb
  omega

/-- Every value the functions compute from 64-bit rows and 32-bit layouts fits 64 bits. -/
theorem values_fit (h : l.Admissible) (hp : l.pageRows < 2 ^ 32) (hd : l.degree < 2 ^ 32)
    (hrow : row < 2 ^ 64) (hs : shard < l.degree) :
    l.pageRows * l.degree < 2 ^ 64 ∧ l.localRow row ≤ row ∧ l.maxLocalRows row ≤ row ∧
      l.minLocalRows row ≤ row ∧ l.localCapacity row < 2 ^ 64 ∧
      ∃ n, l.localRows row shard = some n ∧ n ≤ row := by
  have hle : ∀ s, ∀ n, l.localRows row s = some n → n ≤ row := by
    intro s n hn
    obtain ⟨hs, rfl⟩ := localRows_some hn
    rw [← card_cyclicOwner h.page_pos hs]
    exact (Finset.card_filter_le _ _).trans_eq (Finset.card_range row)
  obtain ⟨smax, hmax⟩ := (maxLocalRows_greatest h row).1
  obtain ⟨smin, hmin⟩ := (minLocalRows_least h row).1
  refine ⟨?_, ?_, hle smax _ hmax, hle smin _ hmin, ?_, _, localRows_eq hs row,
    hle shard _ (localRows_eq hs row)⟩
  · calc l.pageRows * l.degree < 2 ^ 32 * 2 ^ 32 := Nat.mul_lt_mul'' hp hd
      _ = 2 ^ 64 := by norm_num
  · have hown := cyclicGlobal_local (d := l.degree) h.page_pos row
    rw [← shardOfRow_eq, ← localRow_eq, cyclicGlobal_eq] at hown
    have hpages : l.localRow row / l.pageRows ≤
        l.localRow row / l.pageRows * l.degree + l.shardOfRow row :=
      (Nat.le_mul_of_pos_right _ h.degree_pos).trans (Nat.le_add_right _ _)
    calc l.localRow row = l.localRow row / l.pageRows * l.pageRows + l.localRow row % l.pageRows :=
          (Nat.div_add_mod' _ _).symm
      _ ≤ (l.localRow row / l.pageRows * l.degree + l.shardOfRow row) * l.pageRows +
            l.localRow row % l.pageRows := Nat.add_le_add_right (Nat.mul_le_mul_right _ hpages) _
      _ = row := hown
  · unfold DcpLayout.localCapacity
    split
    · exact hrow
    · have hdeg : 2 ≤ l.degree := by have := h.degree_pos; omega
      have hpages := ceilDiv_le (a := row) h.page_pos
      have hshare : row ⌈/⌉ l.pageRows ⌈/⌉ l.degree ≤ (row / l.pageRows + 1) / 2 + 1 :=
        (ceilDiv_le h.degree_pos).trans (Nat.succ_le_succ
          ((Nat.div_le_div_left hdeg Nat.two_pos).trans (Nat.div_le_div_right hpages)))
      have hrows := Nat.div_mul_le_self row l.pageRows
      have hmul := Nat.mul_le_mul_right l.pageRows hshare
      have hhalf := Nat.mul_le_mul_right l.pageRows (Nat.div_mul_le_self (row / l.pageRows + 1) 2)
      rw [Nat.mul_right_comm, Nat.succ_mul] at hhalf
      rw [Nat.succ_mul] at hmul
      omega

/-- A layout deals the rows of every sequence to its shards exactly, in balance and in order. -/
theorem rows_partitioned (l : DcpLayout) (h : l.validate none = .ok ()) :
    (∀ row, l.shardOfRow row < l.degree) ∧
    (∀ row, l.globalRow (l.shardOfRow row) (l.localRow row) = some row) ∧
    (∀ shard < l.degree, ∀ loc, ∃ row, l.globalRow shard loc = some row ∧
      l.shardOfRow row = shard ∧ l.localRow row = loc) ∧
    (∀ len, ∀ shard < l.degree, ∃ n, l.localRows len shard = some n ∧
      ((Finset.range len).filter (l.shardOfRow · = shard)).image l.localRow = Finset.range n) ∧
    (∀ len, ∑ shard ∈ Finset.range l.degree, (l.localRows len shard).getD 0 = len) ∧
    (∀ len, IsGreatest {n | ∃ shard, l.localRows len shard = some n} (l.maxLocalRows len) ∧
      IsLeast {n | ∃ shard, l.localRows len shard = some n} (l.minLocalRows len) ∧
      l.maxLocalRows len ≤ l.minLocalRows len + l.pageRows) ∧
    (∀ maxCtx, ∀ len ≤ maxCtx, ∀ row < len, l.localRow row < l.localCapacity maxCtx) ∧
    (∀ rows blockRows, 0 < blockRows → ∀ shard < l.degree,
      ∃ n b, l.localRows rows shard = some n ∧ l.localBlocks rows blockRows shard = some b ∧
        n ≤ b * blockRows) := by
  have h := admissible_of_validate h
  refine ⟨fun row => cyclicOwner_lt h.degree_pos row, fun row => ?_, fun shard hs loc => ?_,
    fun len shard hs => ?_, fun len => ?_, fun len => ?_,
    fun maxCtx len hlen row hr => localRow_lt_localCapacity h hlen hr,
    fun rows blockRows hb shard hs => ?_⟩
  · rw [globalRow_eq (show l.shardOfRow row < _ from cyclicOwner_lt h.degree_pos row)]
    exact congrArg some (cyclicGlobal_local h.page_pos row)
  · exact ⟨_, globalRow_eq hs loc, cyclicOwner_global h.page_pos hs, cyclicLocal_global h.page_pos hs⟩
  · exact ⟨_, localRows_eq hs len, image_cyclicLocal h.page_pos hs len⟩
  · calc ∑ shard ∈ Finset.range l.degree, (l.localRows len shard).getD 0
        = ∑ shard ∈ Finset.range l.degree, cyclicCount l.pageRows l.degree len shard := by
          refine Finset.sum_congr rfl fun shard hs => ?_
          rw [localRows_eq (Finset.mem_range.mp hs), Option.getD_some]
      _ = len := sum_cyclicCount h.page_pos h.degree_pos len
  · refine ⟨maxLocalRows_greatest h len, minLocalRows_least h len, ?_⟩
    rw [maxLocalRows_eq, minLocalRows_eq, add_assoc]
    apply Nat.add_le_add_left
    have htail := (Nat.mod_lt len h.page_pos).le
    split
    · exact Nat.le_add_left _ _
    · exact htail.trans (Nat.le_add_left _ _)
  · refine ⟨_, cyclicCount l.pageRows l.degree rows shard ⌈/⌉ blockRows, localRows_eq hs rows, ?_, ?_⟩
    · unfold DcpLayout.localBlocks
      rw [if_pos hb, localRows_eq hs, Option.map_some]
    · have hceil := le_smul_ceilDiv (a := blockRows)
        (b := cyclicCount l.pageRows l.degree rows shard) hb
      rwa [smul_eq_mul, mul_comm] at hceil

theorem rows_partitioned_eight : let l : DcpLayout := ⟨8, 8, 64⟩
    l.validate none = .ok () ∧ ∀ row, l.globalRow (l.shardOfRow row) (l.localRow row) = some row :=
  ⟨rfl, (rows_partitioned ⟨8, 8, 64⟩ rfl).2.1⟩

end Plow.Packet
