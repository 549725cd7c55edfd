import Plow.KvBlocks.Model
import Plow.Lib.BlockCyclic

/-!
# The runs of a block and the rows of a slot

The runs of a class lie one after the other in its blocks (`blockLayouts_apart`), and the cells of a
run in a slot are the rows from the descriptor's row on (`run_cell_iff`).  `Serve.pos` is the place of
a row in a tensor's head window, a ring for the sliding layers; a block of 32 rows never wraps around
a ring (`pos_add`).
-/

namespace Plow.KvBlocks
open Plow.Lib List

def Layout.run (l : Layout) : Run := ⟨l.tensor, l.off, l.slotStride, l.rowBytes, l.bytes⟩

def endOf (list : List Layout) : ℕ := (list.getLast?.map fun l => l.blockOff + l.bytes).getD 0

/-- the layouts lie one after the other -/
structure Packed (list : List Layout) : Prop where
  apart : list.Pairwise fun l l' => l.blockOff + l.bytes ≤ l'.blockOff
  below : ∀ l ∈ list, l.blockOff + l.bytes ≤ endOf list

theorem packed_push {list : List Layout} (h : Packed list) (r : Run) : Packed (push list r) := by
  have hend : endOf (push list r) = endOf list + r.bytes := by
    unfold push endOf
    rw [getLast?_concat]
    rfl
  constructor
  · unfold push
    refine pairwise_append.mpr ⟨h.apart, pairwise_singleton _ _, fun l hl l' hl' => ?_⟩
    rw [mem_singleton.mp hl']
    exact h.below l hl
  · intro l hl
    rw [hend]
    rcases mem_append.mp hl with hl | hl
    · exact (h.below l hl).trans (Nat.le_add_right _ _)
    · rw [mem_singleton.mp hl]
      exact le_rfl

theorem foldl_push (runs : List Run) {list : List Layout} (h : Packed list) :
    Packed (runs.foldl push list) ∧ (runs.foldl push list).map Layout.run = list.map Layout.run ++ runs := by
  induction runs generalizing list with
  | nil => exact ⟨h, (append_nil _).symm⟩
  | cons r runs ih =>
    obtain ⟨hp, hm⟩ := ih (packed_push h r)
    refine ⟨hp, hm.trans ?_⟩
    unfold push
    rw [map_append, append_assoc]
    rfl

variable {v : Serve} {c c' : Class} {t t' : Track} {l l' : Layout} {b h h' i q q' r x x' o p : ℕ}

theorem packed_blockLayouts (v : Serve) (c : Class) : Packed (v.blockLayouts c) :=
  (@foldl_push (v.runs c) [] ⟨.nil, fun _ => nofun⟩).1

theorem run_mem_runs (hl : l ∈ v.blockLayouts c) : l.run ∈ v.runs c := by
  have hmap := (@foldl_push (v.runs c) [] ⟨.nil, fun _ => nofun⟩).2
  rw [map_nil, nil_append] at hmap
  rw [← hmap]
  exact mem_map_of_mem hl

theorem exists_layout {run : Run} (hr : run ∈ v.runs c) : ∃ l ∈ v.blockLayouts c, l.run = run := by
  have hmap := (@foldl_push (v.runs c) [] ⟨.nil, fun _ => nofun⟩).2
  rw [map_nil, nil_append] at hmap
  rw [← hmap] at hr
  exact mem_map.mp hr

theorem layout_unique (hl : l ∈ v.blockLayouts c) (hl' : l' ∈ v.blockLayouts c)
    (h₁ : l.blockOff ≤ o) (h₂ : o < l.blockOff + l.bytes) (h₁' : l'.blockOff ≤ o)
    (h₂' : o < l'.blockOff + l'.bytes) : l = l' := by
  have hap := (packed_blockLayouts v c).apart
  obtain ⟨j, hj, rfl⟩ := getElem_of_mem hl
  obtain ⟨j', hj', rfl⟩ := getElem_of_mem hl'
  rw [pairwise_iff_getElem] at hap
  rcases lt_trichotomy j j' with hlt | rfl | hgt
  · have := hap j j' hj hj' hlt
    omega
  · rfl
  · have := hap j' j hj' hj hgt
    omega

/-! ### The cells of a track -/

/-- the byte `x` of the row at `q` in the head window `h` of slot `b` -/
def Track.cell (t : Track) (b h q x : ℕ) : ℕ := b * t.slotStride + (h * t.rows + q) * t.elem + x

def Class.hasRows : Class → Bool
  | .window | .tail => true
  | _ => false

theorem mem_runs_iff (hc : c.hasRows = true) {run : Run} :
    run ∈ v.runs c ↔ ∃ t ∈ v.tracks c, ∃ h < t.heads, run = t.run ROWS_PER_BLOCK h := by
  have hruns : v.runs c = (v.tracks c).flatMap (·.runs ROWS_PER_BLOCK) := by
    cases c with
    | window => rfl
    | tail => rfl
    | scale => exact nomatch hc
    | state => exact nomatch hc
  rw [hruns, mem_flatMap]
  refine exists_congr fun t => and_congr_right fun _ => ?_
  unfold Track.runs
  rw [mem_map]
  constructor
  · rintro ⟨h, hh, rfl⟩
    exact ⟨h, mem_range.mp hh, rfl⟩
  · rintro ⟨h, hh, rfl⟩
    exact ⟨h, mem_range.mpr hh, rfl⟩

theorem run_cell_iff (t : Track) (b h q o : ℕ) :
    (h * t.rows * t.elem + b * t.slotStride + q * t.elem ≤ o ∧
        o < h * t.rows * t.elem + b * t.slotStride + q * t.elem + ROWS_PER_BLOCK * t.elem) ↔
      ∃ i < ROWS_PER_BLOCK, ∃ x < t.elem, o = t.cell b h (q + i) x := by
  have hbase : ∀ i x, t.cell b h (q + i) x =
      h * t.rows * t.elem + b * t.slotStride + q * t.elem + (i * t.elem + x) := by
    intro i x
    unfold Track.cell
    ring
  constructor
  · rintro ⟨hlo, hhi⟩
    obtain ⟨δ, rfl⟩ := Nat.exists_eq_add_of_le hlo
    have hδ : δ < ROWS_PER_BLOCK * t.elem := by omega
    have helem : 0 < t.elem := Nat.pos_of_mul_pos_left (Nat.zero_lt_of_lt hδ)
    refine ⟨δ / t.elem, Nat.div_lt_of_lt_mul (by rwa [mul_comm]), δ % t.elem, Nat.mod_lt _ helem, ?_⟩
    rw [hbase, Nat.div_add_mod']
  · rintro ⟨i, hi, x, hx, rfl⟩
    rw [hbase]
    have hle : (i + 1) * t.elem ≤ ROWS_PER_BLOCK * t.elem := Nat.mul_le_mul_right _ hi
    rw [add_mul, one_mul] at hle
    omega

theorem cell_inj (hq : q < t.rows) (hq' : q' < t.rows) (hx : x < t.elem) (hx' : x' < t.elem)
    (hcell : t.cell b h q x = t.cell b h' q' x') : h = h' ∧ q = q' ∧ x = x' := by
  unfold Track.cell at hcell
  have hpos : 0 < t.elem := Nat.zero_lt_of_lt hx
  have hrow : (h * t.rows + q) * t.elem + x = (h' * t.rows + q') * t.elem + x' := by omega
  obtain ⟨hrow, hxx⟩ := (block_eq_iff hpos hx hx').mp hrow
  obtain ⟨hhead, hqq⟩ := (block_eq_iff (Nat.zero_lt_of_lt hq) hq hq').mp hrow
  exact ⟨hhead, hqq, hxx⟩

/-! ### What the loader admits -/

/-- What the loader checks and how it finds the tensors: a ring is a power of two and not shorter than
the window, a slot's bytes of a sliding tensor are its heads' rings, and a tensor has one use. -/
structure Serve.Admitted (v : Serve) : Prop where
  ring_pow : v.slide ≠ [] → v.ring.isPowerOfTwo
  window_le : v.slide ≠ [] → v.geo.window ≤ v.ring
  stride : ∀ s ∈ v.slide, s.2.2 = v.geo.kvhSlide * v.ring * (v.geo.hdSlide * v.geo.elemSlide)
  scale : v.slide = [] → v.slideScale = []
  one_use : ∀ c c', c.hasRows = true → c'.hasRows = true → ∀ t ∈ v.tracks c, ∀ t' ∈ v.tracks c',
    t.tensor = t'.tensor → c = c' ∧ t = t'
  state : ∀ s ∈ v.stateTensors, ∀ c, ∀ t ∈ v.tracks c, t.tensor ≠ s.1

def Serve.pos (v : Serve) : Class → ℕ → ℕ
  | .window, r => r % v.ring
  | _, r => r

def Serve.depth (v : Serve) : Class → ℕ
  | .window => v.ring
  | _ => v.geo.maxCtx

theorem rows_of_track (hc : c.hasRows = true) (ht : t ∈ v.tracks c) : t.rows = v.depth c := by
  cases c with
  | window =>
    rcases mem_append.mp ht with ht | ht
    · obtain ⟨s, -, ht⟩ := mem_flatMap.mp ht
      obtain ⟨i, -, rfl⟩ := mem_map.mp ht
      rfl
    · obtain ⟨s, -, ht⟩ := mem_flatMap.mp ht
      obtain ⟨i, -, rfl⟩ := mem_map.mp ht
      rfl
  | tail =>
    rcases mem_append.mp ht with ht | ht
    · obtain ⟨i, -, rfl⟩ := mem_map.mp ht
      rfl
    · obtain ⟨s, -, ht⟩ := mem_flatMap.mp ht
      obtain ⟨i, -, rfl⟩ := mem_map.mp ht
      rfl
  | scale => exact nomatch hc
  | state => exact nomatch hc

theorem slide_of_track (hv : v.Admitted) (ht : t ∈ v.tracks .window) : v.slide ≠ [] := by
  intro hs
  have hscale := hv.scale hs
  change t ∈ v.slideTracks ++ v.slideScaleTracks at ht
  unfold Serve.slideTracks Serve.slideScaleTracks at ht
  rw [hs, hscale] at ht
  cases ht

/-- a class with cells is one of the store's -/
theorem present_of_track (hc : c.hasRows = true) (ht : t ∈ v.tracks c) (hh : h < t.heads)
    (hx : x < t.elem) : v.present c = true := by
  have hheads : 0 < t.heads := Nat.zero_lt_of_lt hh
  have helem : 0 < t.elem := Nat.zero_lt_of_lt hx
  cases c with
  | window =>
    apply decide_eq_true
    rcases mem_append.mp ht with ht | ht
    · obtain ⟨s, hs, ht⟩ := mem_flatMap.mp ht
      obtain ⟨i, -, rfl⟩ := mem_map.mp ht
      have hlen := length_pos_of_mem hs
      exact Nat.add_pos_left (mul_pos (mul_pos (mul_pos hlen Nat.two_pos) hheads) helem) _
    · obtain ⟨s, hs, ht⟩ := mem_flatMap.mp ht
      obtain ⟨i, -, rfl⟩ := mem_map.mp ht
      have hlen := length_pos_of_mem hs
      exact Nat.add_pos_right _ (mul_pos (mul_pos (mul_pos hlen Nat.two_pos) hheads) helem)
  | tail =>
    apply decide_eq_true
    rcases mem_append.mp ht with ht | ht
    · obtain ⟨i, hi, rfl⟩ := mem_map.mp ht
      have hlen := length_pos_of_mem hi
      exact Nat.add_pos_left (mul_pos (mul_pos hlen hheads) helem) _
    · obtain ⟨s, hs, ht⟩ := mem_flatMap.mp ht
      obtain ⟨i, -, rfl⟩ := mem_map.mp ht
      have hlen := length_pos_of_mem hs
      exact Nat.add_pos_right _ (mul_pos (mul_pos (mul_pos hlen Nat.two_pos) hheads) helem)
  | scale => exact nomatch hc
  | state => exact nomatch hc

end Plow.KvBlocks

/-!
# The plan of a boundary and the keys of its blocks

`Planned` says which blocks `planBlocks` gives a boundary.  A block's key is a function of the tokens
up to its last row (`key_take`), and of nothing less (`Hashing.Injective`).
-/

namespace Plow.KvBlocks
open Plow.Lib

variable {v : Serve} {c : Class} {row0 i j p r : ℕ} {toks toks' : List Token}

/-! ### Keys -/

variable {K : Type} {hash : K → List Token → K} {seed : K} {hs : Hashing K} {k : BlockKey K}

def chainAt (hash : K → List Token → K) (seed : K) (toks : List Token) : ℕ → K
  | 0 => hash seed (toks.take ROWS_PER_BLOCK)
  | i + 1 => chainAt hash (hash seed (toks.take ROWS_PER_BLOCK)) (toks.drop ROWS_PER_BLOCK) i

theorem chainFrom_get (n : ℕ) (seed : K) (toks : List Token) (hi : i < n) :
    (chainFrom hash seed n toks)[i]? = some (chainAt hash seed toks i) := by
  induction n generalizing seed toks i with
  | zero => exact absurd hi (Nat.not_lt_zero i)
  | succ n ih =>
    cases i with
    | zero => rfl
    | succ i =>
      rw [chainFrom, List.getElem?_cons_succ]
      exact ih _ _ (Nat.lt_of_succ_lt_succ hi)

theorem length_chainFrom (n : ℕ) (seed : K) (toks : List Token) :
    (chainFrom hash seed n toks).length = n := by
  induction n generalizing seed toks with
  | zero => rfl
  | succ n ih => rw [chainFrom, List.length_cons, ih]

theorem chainAt_take (seed : K) (toks : List Token) (n : ℕ) (hn : (i + 1) * ROWS_PER_BLOCK ≤ n) :
    chainAt hash seed (toks.take n) i = chainAt hash seed toks i := by
  induction i generalizing seed toks n with
  | zero =>
    rw [chainAt, chainAt, List.take_take, min_eq_left (by omega)]
  | succ i ih =>
    have hle : ROWS_PER_BLOCK ≤ n := by
      rw [Nat.succ_mul] at hn
      omega
    have hn' : (i + 1) * ROWS_PER_BLOCK ≤ n - ROWS_PER_BLOCK := by
      rw [Nat.succ_mul] at hn
      omega
    rw [chainAt, chainAt, List.take_take, min_eq_left hle, List.drop_take]
    exact ih _ _ _ hn'

theorem key_eq (hi : (i + 1) * ROWS_PER_BLOCK ≤ toks.length) :
    hs.key toks i = some ⟨chainAt hs.fx hs.seedChain toks i, chainAt hs.sip hs.seedCheck toks i⟩ := by
  have hlt : i < toks.length / ROWS_PER_BLOCK := (Nat.le_div_iff_mul_le (by decide)).mpr hi
  unfold Hashing.key chainHashes
  rw [chainFrom_get _ _ _ hlt, chainFrom_get _ _ _ hlt]
  rfl

theorem key_some (h : hs.key toks i = some k) : (i + 1) * ROWS_PER_BLOCK ≤ toks.length := by
  unfold Hashing.key at h
  cases hc : (chainHashes hs.fx hs.seedChain toks)[i]? with
  | none =>
    rw [hc] at h
    exact nomatch h
  | some x =>
    have hlt := (List.getElem?_eq_some_iff.mp hc).1
    unfold chainHashes at hlt
    rw [length_chainFrom] at hlt
    exact (Nat.le_div_iff_mul_le (by decide)).mp hlt

theorem key_take (hi : (i + 1) * ROWS_PER_BLOCK ≤ toks.length)
    (h : toks.take ((i + 1) * ROWS_PER_BLOCK) = toks'.take ((i + 1) * ROWS_PER_BLOCK)) :
    hs.key toks i = hs.key toks' i := by
  have hi' : (i + 1) * ROWS_PER_BLOCK ≤ toks'.length := by
    have hlen := congrArg List.length h
    rw [List.length_take, List.length_take, min_eq_left hi] at hlen
    omega
  have hchain : ∀ (hash : K → List Token → K) (seed : K),
      chainAt hash seed toks i = chainAt hash seed toks' i := by
    intro hash seed
    rw [← chainAt_take seed toks _ le_rfl, h, chainAt_take seed toks' _ le_rfl]
  rw [key_eq hi, key_eq hi', hchain, hchain]

def Hashing.Injective (hs : Hashing K) : Prop :=
  ∀ toks toks' i j k, hs.key toks i = some k → hs.key toks' j = some k →
    toks.take ((i + 1) * ROWS_PER_BLOCK) = toks'.take ((j + 1) * ROWS_PER_BLOCK)

/-! ### Plans -/

def Serve.windowFrom (v : Serve) (p : ℕ) : ℕ :=
  p - min v.geo.window p / ROWS_PER_BLOCK * ROWS_PER_BLOCK

def Serve.from_ (v : Serve) (p : ℕ) : Class → ℕ
  | .window => v.windowFrom p
  | _ => 0

theorem windowFrom_dvd (hp : ROWS_PER_BLOCK ∣ p) : ROWS_PER_BLOCK ∣ v.windowFrom p :=
  Nat.dvd_sub hp (dvd_mul_left _ _)

theorem le_windowFrom_add (v : Serve) (p : ℕ) : p ≤ v.windowFrom p + v.geo.window := by
  have := Nat.div_mul_le_self (min v.geo.window p) ROWS_PER_BLOCK
  unfold Serve.windowFrom
  omega

theorem mem_steps {c c' : Class} {a m : ℕ} (ha : ROWS_PER_BLOCK ∣ a) :
    (c', row0, i) ∈ (List.range m).map (fun k =>
        (c, a + k * ROWS_PER_BLOCK, (a + k * ROWS_PER_BLOCK + ROWS_PER_BLOCK) / ROWS_PER_BLOCK - 1)) ↔
      c' = c ∧ a ≤ row0 ∧ row0 + ROWS_PER_BLOCK ≤ a + m * ROWS_PER_BLOCK ∧
        row0 = i * ROWS_PER_BLOCK := by
  obtain ⟨a, rfl⟩ := ha
  have hkey : ∀ k, (ROWS_PER_BLOCK * a + k * ROWS_PER_BLOCK + ROWS_PER_BLOCK) / ROWS_PER_BLOCK - 1 =
      a + k := by
    intro k
    unfold ROWS_PER_BLOCK
    omega
  rw [List.mem_map]
  constructor
  · rintro ⟨k, hk, heq⟩
    have hk := List.mem_range.mp hk
    rw [hkey] at heq
    obtain ⟨hcc, hrow, hi⟩ : c = c' ∧ ROWS_PER_BLOCK * a + k * ROWS_PER_BLOCK = row0 ∧ a + k = i :=
      ⟨congrArg (·.1) heq, congrArg (·.2.1) heq, congrArg (·.2.2) heq⟩
    unfold ROWS_PER_BLOCK at hrow ⊢
    refine ⟨hcc.symm, ?_, ?_, ?_⟩ <;> omega
  · rintro ⟨rfl, hlo, hhi, rfl⟩
    unfold ROWS_PER_BLOCK at hlo hhi
    refine ⟨i - a, List.mem_range.mpr (by omega), ?_⟩
    rw [hkey]
    unfold ROWS_PER_BLOCK
    refine Prod.ext rfl (Prod.ext ?_ ?_)
    · show 32 * a + (i - a) * 32 = i * 32
      omega
    · show a + (i - a) = i
      omega

theorem mem_ite_nil {α : Type} {b : Bool} {x : α} {l : List α} :
    x ∈ (if b = true then l else []) ↔ b = true ∧ x ∈ l := by
  cases b <;> simp

/-- A block of rows in the plan of a boundary: whole groups from the first row of the class on. -/
theorem planned_rows (hc : c.hasRows = true) (hp : ROWS_PER_BLOCK ∣ p) : (c, row0, i) ∈ v.plan p ↔
      v.present c = true ∧ v.from_ p c ≤ row0 ∧ row0 + ROWS_PER_BLOCK ≤ p ∧
        row0 = i * ROWS_PER_BLOCK := by
  have hwin : v.windowFrom p + min v.geo.window p / ROWS_PER_BLOCK * ROWS_PER_BLOCK = p := by
    have hle : min v.geo.window p / ROWS_PER_BLOCK * ROWS_PER_BLOCK ≤ p :=
      (Nat.div_mul_le_self _ _).trans (min_le_right _ _)
    unfold Serve.windowFrom
    omega
  have htail : (p + ROWS_PER_BLOCK - 1) / ROWS_PER_BLOCK * ROWS_PER_BLOCK = p := by
    obtain ⟨n, rfl⟩ := hp
    unfold ROWS_PER_BLOCK
    omega
  have hw := @mem_steps row0 i .window c _ (min v.geo.window p / ROWS_PER_BLOCK) (windowFrom_dvd (v := v) hp)
  have ht := @mem_steps row0 i .tail c 0 ((p + ROWS_PER_BLOCK - 1) / ROWS_PER_BLOCK) (Nat.dvd_zero _)
  rw [hwin] at hw
  simp only [zero_add] at ht
  rw [htail] at ht
  unfold Serve.plan planBlocks
  rw [List.mem_append, List.mem_append, List.mem_append, mem_ite_nil, mem_ite_nil, mem_ite_nil,
    mem_ite_nil]
  rw [Nat.mul_div_cancel _ (by decide : 0 < ROWS_PER_BLOCK)]
  change (((_ ∧ (c, row0, i) ∈ List.map (fun k => (Class.window, v.windowFrom p + k * ROWS_PER_BLOCK,
    (v.windowFrom p + k * ROWS_PER_BLOCK + ROWS_PER_BLOCK) / ROWS_PER_BLOCK - 1)) _) ∨ _) ∨ _) ∨ _ ↔ _
  rw [hw, ht]
  have hscale : (c, row0, i) ∉ (List.range (p / v.blockRows)).map fun k =>
      (Class.scale, k * v.blockRows, (k * v.blockRows + v.blockRows) / ROWS_PER_BLOCK - 1) := by
    intro h
    obtain ⟨k, -, heq⟩ := List.mem_map.mp h
    rw [← (Prod.mk.inj heq).1] at hc
    exact nomatch hc
  have hstate : (c, row0, i) ∉ [(Class.state, p, p / ROWS_PER_BLOCK - 1)] := by
    intro h
    rw [(Prod.mk.inj (List.mem_singleton.mp h)).1] at hc
    exact nomatch hc
  cases c with
  | window => simp [hscale, hstate, Serve.from_]
  | tail => simp [hscale, hstate, Serve.from_]
  | scale => exact nomatch hc
  | state => exact nomatch hc

theorem planned_of_row (hc : c.hasRows = true) (hp : ROWS_PER_BLOCK ∣ p) (hpres : v.present c = true)
    (hlo : v.from_ p c ≤ r) (hhi : r < p) :
    (c, r / ROWS_PER_BLOCK * ROWS_PER_BLOCK, r / ROWS_PER_BLOCK) ∈ v.plan p := by
  rw [planned_rows hc hp]
  have hdvd : ROWS_PER_BLOCK ∣ v.from_ p c := by
    cases c with
    | window => exact windowFrom_dvd hp
    | _ => exact Nat.dvd_zero _
  obtain ⟨n, hn⟩ := hp
  obtain ⟨m, hm⟩ := hdvd
  rw [hm] at hlo ⊢
  subst hn
  unfold ROWS_PER_BLOCK at hlo hhi ⊢
  exact ⟨hpres, by omega, by omega, rfl⟩

end Plow.KvBlocks
