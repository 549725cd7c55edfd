import Plow.Lib.Copies

/-!
# The reference tiler

A row-major matrix of `n` rows and `k` columns is laid out in blocks of `bn` rows and `bk` columns, the
blocks row by row and the elements of a block row by row. Blocks at the far edges are padded with zeros.

Each element has its own place in either layout (`dstOff_inj`, `srcOff_inj`), and the copies of one
block row are runs of elements in both; so an element's bytes are what is copied there
(`moves_get`), and all other bytes of the tiled form are zero.
-/

namespace Plow.TileRef
open Lib List

inductive TileError
  | badParam (name : String)
  | shortSource (tensor : String) (expected got : ℕ)
  | shortDest (tensor : String) (expected got : ℕ)
  deriving DecidableEq

structure Tiling where
  bn : ℕ
  bk : ℕ
  elemBytes : ℕ
  bn_pos : 0 < bn
  bk_pos : 0 < bk
  elem_pos : 0 < elemBytes

namespace Tiling

def new (bn bk : ℤ) (elemBytes : ℕ) : Except TileError Tiling :=
  if hn : bn ≤ 0 then .error (.badParam "bn")
  else if hk : bk ≤ 0 then .error (.badParam "bk")
  else if he : elemBytes = 0 then .error (.badParam "elem_bytes")
  else .ok ⟨bn.toNat, bk.toNat, elemBytes, by omega, by omega, by omega⟩

variable (t : Tiling)

def gridCols (k : ℕ) : ℕ := k ⌈/⌉ t.bk

def gridRows (n : ℕ) : ℕ := n ⌈/⌉ t.bn

def tiledBytes (n k : ℕ) : ℕ := t.gridRows n * t.gridCols k * t.bn * t.bk * t.elemBytes

def logicalBytes (n k : ℕ) : ℕ := n * k * t.elemBytes

def dstOff (i j k : ℕ) : ℕ :=
  let ordinal := i / t.bn * t.gridCols k + j / t.bk
  (ordinal * t.bn * t.bk + i % t.bn * t.bk + j % t.bk) * t.elemBytes

def srcOff (i j k : ℕ) : ℕ := (i * k + j) * t.elemBytes

end Tiling

variable (t : Tiling)

/-- the copies of both loops: within a block, a row is a run of elements in either layout -/
def moves (src dst : ℕ → ℕ → ℕ → ℕ) (n k : ℕ) : List (Copy Side) :=
  (List.range n).flatMap fun i =>
    (List.range (t.gridCols k)).map fun tc =>
      let k0 := tc * t.bk
      let run := min t.bk (k - k0)
      ⟨.dst, dst i k0 k, .src, src i k0 k, run * t.elemBytes⟩

/-- `dst` is zeroed as far as the tiled form goes -/
def tileRowmajor (tensor : String) (src : List UInt8) (n k : ℕ) (dst : List UInt8) :
    Except TileError (List UInt8) :=
  let needSrc := t.logicalBytes n k
  let needDst := t.tiledBytes n k
  if src.length ≠ needSrc then .error (.shortSource tensor needSrc src.length)
  else if dst.length < needDst then .error (.shortDest tensor needDst dst.length)
  else .ok (Copy.copyAll src (moves t t.srcOff t.dstOff n k)
    (List.replicate needDst 0 ++ dst.drop needDst))

def untileToRowmajor (tensor : String) (src : List UInt8) (n k : ℕ) (dst : List UInt8) :
    Except TileError (List UInt8) :=
  let needSrc := t.tiledBytes n k
  let needDst := t.logicalBytes n k
  if src.length < needSrc then .error (.shortSource tensor needSrc src.length)
  else if dst.length < needDst then .error (.shortDest tensor needDst dst.length)
  else .ok (Copy.copyAll src (moves t t.dstOff t.srcOff n k) dst)

def tileRowmajorNshard (tensor : String) (srcRows : List UInt8) (nLo nHi k : ℕ)
    (dst : List UInt8) : Except TileError (List UInt8) :=
  if nLo % t.bn ≠ 0 then .error (.badParam "n_lo must be a multiple of bn")
  else tileRowmajor t tensor srcRows (nHi - nLo) k dst

variable {t} {i i' j j' k n b b' m : ℕ}

/-! ### Places -/

theorem digits_inj {a a' r r' : ℕ} (hr : r < m) (hr' : r' < m) (h : a * m + r = a' * m + r') :
    a = a' ∧ r = r' := by
  have hd := congrArg (· / m) h
  have hm := congrArg (· % m) h
  simp only [Nat.mul_comm _ m, Nat.mul_add_div (Nat.zero_lt_of_lt hr), Nat.div_eq_of_lt hr,
    Nat.div_eq_of_lt hr', Nat.add_zero] at hd
  simp only [Nat.mul_comm _ m, Nat.mul_add_mod, Nat.mod_eq_of_lt hr, Nat.mod_eq_of_lt hr'] at hm
  exact ⟨hd, hm⟩

theorem digits_lt {a r c : ℕ} (ha : a < c) (hr : r < m) : a * m + r < c * m := by
  have := Nat.mul_le_mul_right m (Nat.succ_le_of_lt ha)
  rw [Nat.succ_mul] at this
  omega

theorem col_lt (t : Tiling) (hj : j < k) : j / t.bk < t.gridCols k := by
  have := (ceilDiv_le_iff_le_mul t.bk_pos).mp (le_refl (k ⌈/⌉ t.bk))
  rw [Nat.div_lt_iff_lt_mul t.bk_pos]
  calc j < k := hj
    _ ≤ t.bk * (k ⌈/⌉ t.bk) := this
    _ = t.gridCols k * t.bk := Nat.mul_comm _ _

theorem row_lt (t : Tiling) (hi : i < n) : i / t.bn < t.gridRows n := by
  have := (ceilDiv_le_iff_le_mul t.bn_pos).mp (le_refl (n ⌈/⌉ t.bn))
  rw [Nat.div_lt_iff_lt_mul t.bn_pos]
  calc i < n := hi
    _ ≤ t.bn * (n ⌈/⌉ t.bn) := this
    _ = t.gridRows n * t.bn := Nat.mul_comm _ _

theorem dstOff_eq (t : Tiling) (i j k : ℕ) : t.dstOff i j k =
    (((i / t.bn * t.gridCols k + j / t.bk) * t.bn + i % t.bn) * t.bk + j % t.bk) * t.elemBytes := by
  rw [Tiling.dstOff]
  ring

theorem dstOff_inj (hj : j < k) (hj' : j' < k) (hb : b < t.elemBytes) (hb' : b' < t.elemBytes)
    (h : t.dstOff i j k + b = t.dstOff i' j' k + b') : i = i' ∧ j = j' ∧ b = b' := by
  rw [dstOff_eq, dstOff_eq] at h
  obtain ⟨h1, h2⟩ := digits_inj hb hb' h
  obtain ⟨h3, h4⟩ := digits_inj (Nat.mod_lt _ t.bk_pos) (Nat.mod_lt _ t.bk_pos) h1
  obtain ⟨h5, h6⟩ := digits_inj (Nat.mod_lt _ t.bn_pos) (Nat.mod_lt _ t.bn_pos) h3
  obtain ⟨h7, h8⟩ := digits_inj (col_lt t hj) (col_lt t hj') h5
  refine ⟨?_, ?_, h2⟩
  · rw [← Nat.div_add_mod i t.bn, h7, h6, Nat.div_add_mod]
  · rw [← Nat.div_add_mod j t.bk, h8, h4, Nat.div_add_mod]

theorem srcOff_inj (hj : j < k) (hj' : j' < k) (hb : b < t.elemBytes) (hb' : b' < t.elemBytes)
    (h : t.srcOff i j k + b = t.srcOff i' j' k + b') : i = i' ∧ j = j' ∧ b = b' := by
  obtain ⟨h1, h2⟩ := digits_inj hb hb' h
  obtain ⟨h3, h4⟩ := digits_inj hj hj' h1
  exact ⟨h3, h4, h2⟩

theorem dstOff_lt (hi : i < n) (hj : j < k) (hb : b < t.elemBytes) :
    t.dstOff i j k + b < t.tiledBytes n k := by
  rw [dstOff_eq]
  exact digits_lt (digits_lt (digits_lt (digits_lt (row_lt t hi) (col_lt t hj))
    (Nat.mod_lt _ t.bn_pos)) (Nat.mod_lt _ t.bk_pos)) hb

theorem srcOff_lt (hi : i < n) (hj : j < k) (hb : b < t.elemBytes) :
    t.srcOff i j k + b < t.logicalBytes n k := digits_lt (digits_lt hi hj) hb

theorem exists_srcOff {o : ℕ} (h : o < t.logicalBytes n k) :
    ∃ i < n, ∃ j < k, ∃ b < t.elemBytes, o = t.srcOff i j k + b := by
  have hq : o / t.elemBytes < n * k := (Nat.div_lt_iff_lt_mul t.elem_pos).mpr h
  have hk : 0 < k := Nat.pos_of_mul_pos_left (Nat.zero_lt_of_lt hq)
  refine ⟨o / t.elemBytes / k, (Nat.div_lt_iff_lt_mul hk).mpr hq, o / t.elemBytes % k,
    Nat.mod_lt _ hk, o % t.elemBytes, Nat.mod_lt _ t.elem_pos, ?_⟩
  rw [Tiling.srcOff, Nat.div_add_mod', Nat.div_add_mod']

theorem dstOff_add (hn : n % t.bn = 0) : t.dstOff (n + i) j k = t.tiledBytes n k + t.dstOff i j k := by
  obtain ⟨q, rfl⟩ := Nat.dvd_of_mod_eq_zero hn
  have hg : t.gridRows (t.bn * q) = q := by
    rw [Tiling.gridRows, Nat.ceilDiv_eq_add_pred_div, Nat.add_sub_assoc t.bn_pos,
      Nat.mul_add_div t.bn_pos, Nat.div_eq_of_lt (Nat.sub_lt t.bn_pos Nat.zero_lt_one), Nat.add_zero]
  rw [dstOff_eq, dstOff_eq, Tiling.tiledBytes, hg, Nat.mul_add_div t.bn_pos, Nat.mul_add_mod]
  ring

theorem tiledBytes_add (hn : n % t.bn = 0) (m : ℕ) :
    t.tiledBytes (n + m) k = t.tiledBytes n k + t.tiledBytes m k := by
  obtain ⟨q, rfl⟩ := Nat.dvd_of_mod_eq_zero hn
  have hg : ∀ m, t.gridRows (t.bn * q + m) = q + t.gridRows m := fun m => by
    rw [Tiling.gridRows, Tiling.gridRows, Nat.ceilDiv_eq_add_pred_div, Nat.ceilDiv_eq_add_pred_div,
      Nat.add_sub_assoc t.bn_pos, Nat.add_sub_assoc t.bn_pos, Nat.add_assoc, Nat.mul_add_div t.bn_pos]
  have h0 : t.gridRows 0 = 0 := zero_ceilDiv t.bn
  rw [Tiling.tiledBytes, Tiling.tiledBytes, Tiling.tiledBytes, hg, ← Nat.add_zero (t.bn * q), hg, h0]
  ring

/-! ### Runs -/

def Runs (t : Tiling) (off : ℕ → ℕ → ℕ → ℕ) : Prop :=
  ∀ i tc x k, x < t.bk → off i (tc * t.bk + x) k = off i (tc * t.bk) k + x * t.elemBytes

theorem runs_srcOff (t : Tiling) : Runs t t.srcOff := by
  intro i tc x k _
  simp only [Tiling.srcOff]
  ring

theorem runs_dstOff (t : Tiling) : Runs t t.dstOff := by
  intro i tc x k hx
  have hd : (tc * t.bk + x) / t.bk = tc := by
    rw [Nat.mul_comm, Nat.mul_add_div t.bk_pos, Nat.div_eq_of_lt hx, Nat.add_zero]
  have hm : (tc * t.bk + x) % t.bk = x := by
    rw [Nat.mul_comm, Nat.mul_add_mod, Nat.mod_eq_of_lt hx]
  simp only [Tiling.dstOff, hd, hm, Nat.mul_div_cancel _ t.bk_pos, Nat.mul_mod_left]
  ring

/-- a layout of `size n k` bytes in which each element has its own place -/
structure Places (t : Tiling) (off : ℕ → ℕ → ℕ → ℕ) (size : ℕ → ℕ → ℕ) : Prop where
  runs : Runs t off
  inj : ∀ {i i' j j' k b b'}, j < k → j' < k → b < t.elemBytes → b' < t.elemBytes →
    off i j k + b = off i' j' k + b' → i = i' ∧ j = j' ∧ b = b'
  lt : ∀ {i n j k b}, i < n → j < k → b < t.elemBytes → off i j k + b < size n k

theorem places_srcOff (t : Tiling) : Places t t.srcOff t.logicalBytes :=
  ⟨runs_srcOff t, srcOff_inj, srcOff_lt⟩

theorem places_dstOff (t : Tiling) : Places t t.dstOff t.tiledBytes :=
  ⟨runs_dstOff t, dstOff_inj, dstOff_lt⟩

variable {S D : ℕ → ℕ → ℕ → ℕ} {sz dz : ℕ → ℕ → ℕ} {src dst out whole : List UInt8} {c : Copy Side} {o tc : ℕ}

theorem block_lt (h : tc < t.gridCols k) : tc * t.bk < k := by
  by_contra hk
  have := (ceilDiv_le_iff_le_mul (c := tc) t.bk_pos).mpr (Nat.mul_comm tc _ ▸ Nat.le_of_not_lt hk)
  exact absurd h (Nat.not_lt.mpr this)

theorem mem_moves (h : c ∈ moves t S D n k) : ∃ i < n, ∃ tc < t.gridCols k,
    c = ⟨.dst, D i (tc * t.bk) k, .src, S i (tc * t.bk) k,
      min t.bk (k - tc * t.bk) * t.elemBytes⟩ := by
  simp only [moves, mem_flatMap, mem_range, mem_map] at h
  obtain ⟨i, hi, tc, htc, rfl⟩ := h
  exact ⟨i, hi, tc, htc, rfl⟩

theorem Places.run_le (hS : Places t S sz) (hi : i < n) (htc : tc < t.gridCols k) :
    S i (tc * t.bk) k + min t.bk (k - tc * t.bk) * t.elemBytes ≤ sz n k := by
  have hk := block_lt htc
  have hbk := t.bk_pos
  have he := t.elem_pos
  obtain ⟨x, hx⟩ : ∃ x, min t.bk (k - tc * t.bk) = x + 1 := ⟨min t.bk (k - tc * t.bk) - 1, by omega⟩
  have hlt := hS.lt hi (show tc * t.bk + x < k by omega) (Nat.sub_lt he Nat.zero_lt_one)
  rw [hS.runs i tc x k (by omega)] at hlt
  rw [hx, Nat.succ_mul]
  omega

theorem moves_inside (hS : Places t S sz) (hD : Places t D dz) (hs : sz n k ≤ src.length)
    (hd : dz n k ≤ dst.length) : ∀ c ∈ moves t S D n k, c.Inside src.length dst.length := by
  intro c hc
  obtain ⟨i, hi, tc, htc, rfl⟩ := mem_moves hc
  exact ⟨rfl, rfl, (hS.run_le hi htc).trans hs, (hD.run_le hi htc).trans hd⟩

theorem moves_writes (hS : Runs t S) (hD : Runs t D) (hc : c ∈ moves t S D n k) (hw : c.Writes .dst o) :
    ∃ i < n, ∃ j < k, ∃ b < t.elemBytes,
      o = D i j k + b ∧ c.srcOff + (o - c.dstOff) = S i j k + b := by
  obtain ⟨i, hi, tc, htc, rfl⟩ := mem_moves hc
  obtain ⟨-, h1, h2⟩ := hw
  dsimp only at h1 h2 ⊢
  obtain ⟨d, rfl⟩ := Nat.exists_eq_add_of_le h1
  obtain ⟨x, b, hb, rfl⟩ : ∃ x b, b < t.elemBytes ∧ d = x * t.elemBytes + b :=
    ⟨d / t.elemBytes, d % t.elemBytes, Nat.mod_lt _ t.elem_pos, (Nat.div_add_mod' _ _).symm⟩
  have hx : x < min t.bk (k - tc * t.bk) :=
    Nat.lt_of_mul_lt_mul_right (show x * t.elemBytes < _ * t.elemBytes by omega)
  refine ⟨i, hi, tc * t.bk + x, by omega, b, hb, ?_, ?_⟩
  · rw [hD i tc x k (by omega), Nat.add_assoc]
  · rw [hS i tc x k (by omega), Nat.add_assoc, Nat.add_sub_cancel_left]

theorem exists_writes (S) (hD : Runs t D) (hi : i < n) (hj : j < k) (hb : b < t.elemBytes) :
    ∃ c ∈ moves t S D n k, c.Writes .dst (D i j k + b) := by
  have hm := Nat.mod_lt j t.bk_pos
  have hdm := Nat.div_add_mod' j t.bk
  have hoff := hD i (j / t.bk) _ k hm
  rw [hdm] at hoff
  refine ⟨_, mem_flatMap.mpr ⟨i, mem_range.mpr hi,
    mem_map.mpr ⟨j / t.bk, mem_range.mpr (col_lt t hj), rfl⟩⟩, rfl, ?_, ?_⟩
  · dsimp only
    omega
  · have hlt := digits_lt (show j % t.bk < min t.bk (k - j / t.bk * t.bk) by omega) hb
    dsimp only
    omega

theorem moves_get (hS : Places t S sz) (hD : Places t D dz) (hs : sz n k ≤ src.length)
    (hd : dz n k ≤ dst.length) (hi : i < n) (hj : j < k) (hb : b < t.elemBytes) :
    (Copy.copyAll src (moves t S D n k) dst).getD (D i j k + b) 0 = src.getD (S i j k + b) 0 := by
  refine Copy.copyAll_get (moves_inside hS hD hs hd) (fun c hc hw => ?_)
    (exists_writes S hD.runs hi hj hb)
  obtain ⟨i', -, j', hj', b', hb', ho, he⟩ := moves_writes hS.runs hD.runs hc hw
  obtain ⟨rfl, rfl, rfl⟩ := hD.inj hj hj' hb hb' ho
  rw [he]
  rfl

/-- no element has a byte at `o` -/
def Unassigned (t : Tiling) (off : ℕ → ℕ → ℕ → ℕ) (n k o : ℕ) : Prop :=
  ∀ i < n, ∀ j < k, ∀ b < t.elemBytes, o ≠ off i j k + b

theorem moves_frame (hS : Places t S sz) (hD : Places t D dz) (hs : sz n k ≤ src.length)
    (hd : dz n k ≤ dst.length) (ho : Unassigned t D n k o) :
    (Copy.copyAll src (moves t S D n k) dst).getD o 0 = dst.getD o 0 := by
  refine Copy.copyAll_frame (moves_inside hS hD hs hd) fun c hc hw => ?_
  obtain ⟨i, hi, j, hj, b, hb, he, -⟩ := moves_writes hS.runs hD.runs hc hw
  exact ho i hi j hj b hb he

/-! ### The tiled form -/

/-- the tiled form of `src`: each element at its place, and zeros elsewhere -/
structure Tiled (t : Tiling) (src : List UInt8) (n k : ℕ) (out : List UInt8) : Prop where
  len : t.tiledBytes n k ≤ out.length
  element : ∀ i < n, ∀ j < k, ∀ b < t.elemBytes,
    out.getD (t.dstOff i j k + b) 0 = src.getD (t.srcOff i j k + b) 0
  padding : ∀ o < t.tiledBytes n k, Unassigned t t.dstOff n k o → out.getD o 0 = 0

theorem tileRowmajor_tiled (tensor : String) (hs : src.length = t.logicalBytes n k)
    (hd : t.tiledBytes n k ≤ dst.length) :
    ∃ out, tileRowmajor t tensor src n k dst = .ok out ∧ out.length = dst.length ∧ Tiled t src n k out := by
  have hS := places_srcOff t
  have hD := places_dstOff t
  have hz : (List.replicate (t.tiledBytes n k) (0 : UInt8) ++ dst.drop (t.tiledBytes n k)).length
      = dst.length := by
    rw [length_append, length_replicate, length_drop]
    omega
  have hd' := hd.trans_eq hz.symm
  have hlen := Copy.length_copyAll (moves_inside hS hD hs.ge hd')
  refine ⟨_, by rw [tileRowmajor, if_neg (not_not.mpr hs), if_neg (Nat.not_lt.mpr hd)], hlen.trans hz,
    ⟨hlen.trans hz ▸ hd, fun i hi j hj b hb => moves_get hS hD hs.ge hd' hi hj hb, fun o ho hno => ?_⟩⟩
  rw [moves_frame hS hD hs.ge hd' hno, getD_append _ _ _ _ (by rw [length_replicate]; exact ho),
    getD_replicate _ ho]

theorem ext_take {x y : List UInt8} (hx : m ≤ x.length) (hy : m ≤ y.length)
    (h : ∀ o < m, x.getD o 0 = y.getD o 0) : x.take m = y.take m := by
  apply ext_getElem
  · rw [length_take, length_take]
    omega
  · intro o h1 h2
    have ho : o < m := (length_take_le _ _).trans_lt' h1
    have := h o ho
    rw [getD_eq_getElem _ _ (by omega), getD_eq_getElem _ _ (by omega)] at this
    rw [getElem_take, getElem_take, this]

theorem untileToRowmajor_tiled (tensor : String) (h : Tiled t src n k out)
    (hs : src.length = t.logicalBytes n k) (hd : t.logicalBytes n k ≤ dst.length) :
    ∃ back, untileToRowmajor t tensor out n k dst = .ok back ∧ back.length = dst.length ∧
      back.take (t.logicalBytes n k) = src := by
  have hS := places_srcOff t
  have hD := places_dstOff t
  have hlen := Copy.length_copyAll (moves_inside hD hS h.len hd)
  refine ⟨_, by rw [untileToRowmajor, if_neg (Nat.not_lt.mpr h.len), if_neg (Nat.not_lt.mpr hd)], hlen, ?_⟩
  rw [ext_take (hd.trans_eq hlen.symm) hs.ge, ← hs, take_length]
  intro o ho
  obtain ⟨i, hi, j, hj, b, hb, rfl⟩ := exists_srcOff ho
  rw [moves_get hD hS h.len hd hi hj hb, h.element i hi j hj b hb]

/-- the rows `[nLo, nHi)` of a row-major matrix -/
def rowsOf (t : Tiling) (src : List UInt8) (nLo nHi k : ℕ) : List UInt8 :=
  (src.drop (t.logicalBytes nLo k)).take (t.logicalBytes (nHi - nLo) k)

theorem Tiled.shard {nLo nHi : ℕ} (hw : Tiled t src n k whole)
    (ho : Tiled t (rowsOf t src nLo nHi k) (nHi - nLo) k out) (hlo : nLo % t.bn = 0) (hle : nLo ≤ nHi)
    (hhi : nHi ≤ n) (hend : nHi % t.bn = 0 ∨ nHi = n) : out.take (t.tiledBytes (nHi - nLo) k) =
      (whole.drop (t.tiledBytes nLo k)).take (t.tiledBytes (nHi - nLo) k) := by
  obtain ⟨m, rfl⟩ := Nat.exists_eq_add_of_le hle
  rw [Nat.add_sub_cancel_left] at *
  have hbytes : t.tiledBytes nLo k + t.tiledBytes m k ≤ t.tiledBytes n k := by
    rcases hend with he | rfl
    · obtain ⟨r, rfl⟩ := Nat.exists_eq_add_of_le hhi
      rw [tiledBytes_add he, tiledBytes_add hlo]
      omega
    · exact (tiledBytes_add hlo m).ge
  have hlen := hw.len
  refine ext_take ho.len (by rw [length_drop]; omega) fun o hom => ?_
  have hdrop : (whole.drop (t.tiledBytes nLo k)).getD o 0 = whole.getD (t.tiledBytes nLo k + o) 0 := by
    simp only [getD_eq_getElem?_getD, getElem?_drop]
  rw [hdrop]
  by_cases hun : Unassigned t t.dstOff m k o
  · rw [ho.padding o hom hun, hw.padding _ (by omega)]
    intro i hi j hj b hb he
    by_cases hin : i < nLo
    · have := dstOff_lt hin hj hb
      omega
    · obtain ⟨i, rfl⟩ := Nat.exists_eq_add_of_le (Nat.le_of_not_lt hin)
      rw [dstOff_add hlo, Nat.add_assoc] at he
      have he := Nat.add_left_cancel he
      by_cases him : i < m
      · exact hun i him j hj b hb he
      · -- behind the shard's last row, which then ends a block
        obtain ⟨i, rfl⟩ := Nat.exists_eq_add_of_le (Nat.le_of_not_lt him)
        have hm : m % t.bn = 0 := by
          rcases hend with he | rfl
          · rwa [Nat.add_mod, hlo, Nat.zero_add, Nat.mod_mod] at he
          · omega
        rw [dstOff_add hm] at he
        omega
  · simp only [Unassigned, not_forall, not_not] at hun
    obtain ⟨i, hi, j, hj, b, hb, rfl⟩ := hun
    have hrow : t.srcOff (nLo + i) j k = t.logicalBytes nLo k + t.srcOff i j k := by
      simp only [Tiling.srcOff, Tiling.logicalBytes]
      ring
    rw [ho.element i hi j hj b hb, ← Nat.add_assoc, ← dstOff_add hlo,
      hw.element _ (by omega) j hj b hb, hrow, rowsOf]
    simp only [getD_eq_getElem?_getD, getElem?_take, getElem?_drop,
      Nat.add_sub_cancel_left, if_pos (srcOff_lt hi hj hb), Nat.add_assoc]

/-- A matrix is tiled to distinct places with zeros between them, comes back from its tiled form, and
the tiled form of a shard that starts at a block and ends at a block or at the last row is the slice
of the whole form. -/
theorem tile_untile_shard (tensor : String) (hs : src.length = t.logicalBytes n k)
    (hd : t.tiledBytes n k ≤ dst.length) :
    ∃ out, tileRowmajor t tensor src n k dst = .ok out ∧ Tiled t src n k out ∧
      (∀ i < n, ∀ j < k, ∀ b < t.elemBytes, t.dstOff i j k + b < t.tiledBytes n k ∧
        ∀ i' < n, ∀ j' < k, ∀ b' < t.elemBytes,
          t.dstOff i j k + b = t.dstOff i' j' k + b' → i = i' ∧ j = j' ∧ b = b') ∧
      (∀ back : List UInt8, t.logicalBytes n k ≤ back.length →
        ∃ m, untileToRowmajor t tensor out n k back = .ok m ∧ m.take (t.logicalBytes n k) = src) ∧
      ∀ nLo nHi, nLo % t.bn = 0 → nLo ≤ nHi → nHi ≤ n → (nHi % t.bn = 0 ∨ nHi = n) →
        ∀ part : List UInt8, t.tiledBytes (nHi - nLo) k ≤ part.length →
          ∃ shard, tileRowmajorNshard t tensor (rowsOf t src nLo nHi k) nLo nHi k part = .ok shard ∧
            shard.take (t.tiledBytes (nHi - nLo) k) =
              (out.drop (t.tiledBytes nLo k)).take (t.tiledBytes (nHi - nLo) k) := by
  obtain ⟨out, hout, -, htiled⟩ := tileRowmajor_tiled tensor hs hd
  refine ⟨out, hout, htiled, fun i hi j hj b hb => ⟨dstOff_lt hi hj hb, fun i' _ j' hj' b' hb' =>
    dstOff_inj hj hj' hb hb'⟩, fun back hback => ?_, fun nLo nHi hlo hle hhi hend part hpart => ?_⟩
  · obtain ⟨m, hm, -, hsrc⟩ := untileToRowmajor_tiled tensor htiled hs hback
    exact ⟨m, hm, hsrc⟩
  · have hrows : (rowsOf t src nLo nHi k).length = t.logicalBytes (nHi - nLo) k := by
      have : t.logicalBytes nLo k + t.logicalBytes (nHi - nLo) k ≤ t.logicalBytes n k := by
        simp only [Tiling.logicalBytes, ← Nat.add_mul, Nat.add_sub_cancel' hle]
        gcongr
      rw [rowsOf, length_take, length_drop, hs]
      omega
    obtain ⟨shard, hok, -, hsh⟩ := tileRowmajor_tiled tensor hrows hpart
    refine ⟨shard, ?_, htiled.shard hsh hlo hle hhi hend⟩
    rw [tileRowmajorNshard, if_neg (not_not.mpr hlo), hok]

theorem tile_untile_shard_ragged : ∃ out,
    tileRowmajor ⟨1, 2, 1, by decide, by decide, by decide⟩ "w" [1, 2, 3] 1 3 [9, 9, 9, 9] = .ok out ∧
      Tiled ⟨1, 2, 1, by decide, by decide, by decide⟩ [1, 2, 3] 1 3 out := by
  obtain ⟨out, h, ht, -⟩ := @tile_untile_shard ⟨1, 2, 1, by decide, by decide, by decide⟩
    3 1 [1, 2, 3] [9, 9, 9, 9] "w" (by decide) (by decide)
  exact ⟨out, h, ht⟩

end Plow.TileRef
