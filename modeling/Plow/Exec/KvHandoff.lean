import Mathlib

/-!
# Copying a head's rows between engines

The rows of a prompt's head are copied from a slot of one engine to a slot of another, tensor by tensor.
Where a position's bytes lie in the slot depends on the layout (`Needed`); a plan is exact if it copies
them all within the slots' blocks to the places they have (`Exact`).

The offsets are products of a slot and its bytes in 64 bits, unchecked but for the packed indexer's:
plans are exact when these fit, and only then (`plan_exact_iff`).
-/

namespace Plow.KvHandoff

open List

abbrev Name := List Char

structure KvSlotTensor where
  name : Name
  handle : ℕ
  perSlotBytes : ℕ
  bytes_lt : perSlotBytes < 2 ^ 64

structure HeadMajorLayout where
  heads : ℕ
  stride : ℕ

structure CopySpan where
  handle : ℕ
  srcOff : ℕ
  dstOff : ℕ
  bytes : ℕ

inductive PlanError
  | pastContext (rows rowsPerSlot : ℕ)
  | indexerGeometry (name : Name)
  | indexerSource
  | indexerDestination
  | headMajor (name : Name) (heads stride : ℕ)
  | perHead (name : Name) (bytes heads : ℕ)
  | perStride (name : Name) (headBytes stride : ℕ)
  | poolBoundary (rows : ℕ) (name : Name) (pool : ℕ)
  | poolContext (name : Name) (pool rowsPerSlot : ℕ)
  | entries (name : Name) (bytes rowsPerSlot pool : ℕ)

/-- `tensor_scaling` is that of the packed indexer -/
def isIndexerBlock16 (n : Name) : Bool :=
  "kv.".toList.isPrefixOf n &&
    match (n.drop 3).dropWhile (· ≠ '.') with
    | [] => false
    | _ :: suffix =>
      let layer := (n.drop 3).takeWhile (· ≠ '.')
      layer.all Char.isDigit && !layer.isEmpty && suffix = "kidx_fp8".toList

def indexerPrefixBytes (rows : ℕ) : ℕ := rows ⌈/⌉ 16 * 2112

/-- what a request is planned with -/
structure Request where
  rowsPerSlot : ℕ
  pools : List (Name × ℕ)
  headMajors : List (Name × HeadMajorLayout)
  srcSlot : ℕ
  dstSlot : ℕ
  rows : ℕ

namespace Request

variable (q : Request) (t : KvSlotTensor)

def poolOf : ℕ := ((q.pools.find? (·.1 = t.name)).map (·.2)).getD 1

def headMajorOf : Option HeadMajorLayout := (q.headMajors.find? (·.1 = t.name)).map (·.2)

def indexerSpans : Except PlanError (List CopySpan) :=
  if ¬ 16 ∣ q.rowsPerSlot ∨ t.perSlotBytes ≠ indexerPrefixBytes q.rowsPerSlot ∨
      q.pools.any (·.1 = t.name) ∨ q.headMajors.any (·.1 = t.name) then
    .error (.indexerGeometry t.name)
  else if 2 ^ 64 ≤ q.srcSlot * t.perSlotBytes then .error .indexerSource
  else if 2 ^ 64 ≤ q.dstSlot * t.perSlotBytes then .error .indexerDestination
  else .ok [⟨t.handle, q.srcSlot * t.perSlotBytes, q.dstSlot * t.perSlotBytes, indexerPrefixBytes q.rows⟩]

def offset (slot off : ℕ) : ℕ := (slot * t.perSlotBytes + off) % 2 ^ 64

def headBytes (hm : HeadMajorLayout) : ℕ := t.perSlotBytes / hm.heads

def rowBytes (hm : HeadMajorLayout) : ℕ := headBytes t hm / hm.stride

def headSpans (hm : HeadMajorLayout) : Except PlanError (List CopySpan) :=
  if hm.heads = 0 ∨ hm.stride = 0 then .error (.headMajor t.name hm.heads hm.stride)
  else if ¬ hm.heads ∣ t.perSlotBytes then .error (.perHead t.name t.perSlotBytes hm.heads)
  else if ¬ hm.stride ∣ headBytes t hm then .error (.perStride t.name (headBytes t hm) hm.stride)
  else if rowBytes t hm = 0 then .ok []
  else .ok ((List.range hm.heads).map fun h =>
    ⟨t.handle, offset t q.srcSlot (h * headBytes t hm), offset t q.dstSlot (h * headBytes t hm),
      min q.rows hm.stride * rowBytes t hm⟩)

def entryBytes : ℕ := t.perSlotBytes / (q.rowsPerSlot / q.poolOf t)

def pooledSpans : Except PlanError (List CopySpan) :=
  let pool := q.poolOf t
  if ¬ pool ∣ q.rows then .error (.poolBoundary q.rows t.name pool)
  else if ¬ pool ∣ q.rowsPerSlot then .error (.poolContext t.name pool q.rowsPerSlot)
  else if ¬ q.rowsPerSlot / pool ∣ t.perSlotBytes then
    .error (.entries t.name t.perSlotBytes q.rowsPerSlot pool)
  else if q.entryBytes t = 0 then .ok []
  else .ok [⟨t.handle, offset t q.srcSlot 0, offset t q.dstSlot 0, q.rows / pool * q.entryBytes t⟩]

def tensorSpans : Except PlanError (List CopySpan) :=
  if isIndexerBlock16 t.name then q.indexerSpans t
  else match q.headMajorOf t with
    | some hm => q.headSpans t hm
    | none => q.pooledSpans t

def allSpans : List KvSlotTensor → Except PlanError (List CopySpan)
  | [] => .ok []
  | t :: ts => do
    let spans ← q.tensorSpans t
    let rest ← allSpans ts
    .ok (spans ++ rest)

def plan (tensors : List KvSlotTensor) : Except PlanError (List CopySpan) :=
  if q.rows = 0 then .ok []
  else if q.rowsPerSlot = 0 ∨ q.rowsPerSlot < q.rows then .error (.pastContext q.rows q.rowsPerSlot)
  else q.allSpans tensors

/-! ### What a plan is for -/

/-- decode reads the byte at `o` of a slot of `t` for a position of the head -/
def Needed (o : ℕ) : Prop :=
  if isIndexerBlock16 t.name then ∃ pos < q.rows, o / 2112 = pos / 16
  else match q.headMajorOf t with
    | some hm => ∃ h < hm.heads, ∃ pos < q.rows, ∃ x < rowBytes t hm,
      o = h * headBytes t hm + (pos % hm.stride * rowBytes t hm + x)
    | none => ∃ pos < q.rows, ∃ x < q.entryBytes t, o = pos / q.poolOf t * q.entryBytes t + x

/-- a span of `t` goes from its place in the one slot's block to that in the other's -/
def Placed (s : CopySpan) : Prop :=
  s.handle = t.handle ∧ ∃ off, s.srcOff = q.srcSlot * t.perSlotBytes + off ∧
    s.dstOff = q.dstSlot * t.perSlotBytes + off ∧ off + s.bytes ≤ t.perSlotBytes

def Apart (s s' : CopySpan) : Prop :=
  s.handle = s'.handle → s.dstOff + s.bytes ≤ s'.dstOff ∨ s'.dstOff + s'.bytes ≤ s.dstOff

def Covers (spans : List CopySpan) : Prop :=
  ∀ o, q.Needed t o → ∃ s ∈ spans, s.handle = t.handle ∧ s.dstOff ≤ q.dstSlot * t.perSlotBytes + o ∧
    q.dstSlot * t.perSlotBytes + o < s.dstOff + s.bytes

structure Exact (tensors : List KvSlotTensor) (spans : List CopySpan) : Prop where
  apart : spans.Pairwise Apart
  placed : ∀ s ∈ spans, ∃ t ∈ tensors, q.Placed t s
  covers : ∀ t ∈ tensors, q.Covers t spans
  fits : ∀ s ∈ spans, s.srcOff < 2 ^ 64 ∧ s.dstOff < 2 ^ 64

/-- the last offset of a tensor whose products are not checked fits 64 bits in either slot -/
def Fits : Prop :=
  isIndexerBlock16 t.name = false → ∀ slot, slot = q.srcSlot ∨ slot = q.dstSlot →
    match q.headMajorOf t with
    | some hm => 0 < rowBytes t hm → slot * t.perSlotBytes + (hm.heads - 1) * headBytes t hm < 2 ^ 64
    | none => 0 < q.entryBytes t → slot * t.perSlotBytes < 2 ^ 64

variable {q t} {spans rest : List CopySpan} {hm : HeadMajorLayout} {ts : List KvSlotTensor}

theorem offset_eq {slot off : ℕ} (h : slot * t.perSlotBytes + off < 2 ^ 64) :
    offset t slot off = slot * t.perSlotBytes + off := Nat.mod_eq_of_lt h

theorem lt_of_offset {slot off x : ℕ} (hoff : off < t.perSlotBytes)
    (h : offset t slot off = slot * t.perSlotBytes + x) : slot * t.perSlotBytes + off < 2 ^ 64 := by
  by_contra hge
  have hlt := t.bytes_lt
  have hle : offset t slot off ≤ slot * t.perSlotBytes + off - 2 ^ 64 := by
    rw [offset, Nat.mod_eq_sub_mod (Nat.le_of_not_lt hge)]
    exact Nat.mod_le _ _
  omega

/-! ### Blocks of a slot -/

/-- the first `bytes` bytes of each of the `n` blocks of `size` bytes of a slot -/
def blocks (q : Request) (t : KvSlotTensor) (n size bytes : ℕ) : List CopySpan :=
  (List.range n).map fun h => ⟨t.handle, offset t q.srcSlot (h * size), offset t q.dstSlot (h * size), bytes⟩

theorem block_le {n size bytes h : ℕ} (hh : h < n) (hle : bytes ≤ size) (hall : n * size = t.perSlotBytes) :
    h * size + bytes ≤ t.perSlotBytes := by
  calc h * size + bytes ≤ (h + 1) * size := by
        rw [Nat.succ_mul]
        omega
    _ ≤ n * size := Nat.mul_le_mul_right _ hh
    _ = t.perSlotBytes := hall

theorem exact_blocks {n size bytes : ℕ} (hn : 0 < n) (hpos : 0 < bytes) (hle : bytes ≤ size)
    (hall : n * size = t.perSlotBytes)
    (hneed : ∀ o, q.Needed t o → ∃ h < n, ∃ y < bytes, o = h * size + y) :
    q.Exact [t] (blocks q t n size bytes) ↔
      ∀ slot, slot = q.srcSlot ∨ slot = q.dstSlot → slot * t.perSlotBytes + (n - 1) * size < 2 ^ 64 := by
  constructor
  · intro hex slot hslot
    have hlast : (⟨t.handle, offset t q.srcSlot ((n - 1) * size), offset t q.dstSlot ((n - 1) * size),
        bytes⟩ : CopySpan) ∈ blocks q t n size bytes :=
      mem_map.mpr ⟨n - 1, mem_range.mpr (by omega), rfl⟩
    obtain ⟨t', ht', -, off, hs, hd, -⟩ := hex.placed _ hlast
    obtain rfl := mem_singleton.mp ht'
    have hoff : (n - 1) * size < t'.perSlotBytes := by
      have := block_le (show n - 1 < n by omega) hle hall
      omega
    rcases hslot with rfl | rfl
    · exact lt_of_offset hoff hs
    · exact lt_of_offset hoff hd
  · intro hfit
    have heq (h : ℕ) (hh : h < n) (slot : ℕ) (hslot : slot = q.srcSlot ∨ slot = q.dstSlot) :
        offset t slot (h * size) = slot * t.perSlotBytes + h * size := by
      refine offset_eq (lt_of_le_of_lt ?_ (hfit slot hslot))
      exact Nat.add_le_add_left (Nat.mul_le_mul_right _ (by omega)) _
    refine ⟨?_, fun s hs => ?_, fun _ ht' o ho => ?_, fun s hs => ?_⟩
    · refine pairwise_map.mpr (pairwise_lt_range.imp_of_mem fun {h h'} hh hh' hlt _ => .inl ?_)
      dsimp only
      rw [heq h (mem_range.mp hh) _ (.inr rfl), heq h' (mem_range.mp hh') _ (.inr rfl)]
      have := Nat.mul_le_mul_right size (Nat.succ_le_of_lt hlt)
      rw [Nat.succ_mul] at this
      omega
    · obtain ⟨h, hh, rfl⟩ := mem_map.mp hs
      have hh := mem_range.mp hh
      exact ⟨t, mem_singleton_self t, rfl, h * size, heq h hh _ (.inl rfl), heq h hh _ (.inr rfl),
        block_le hh hle hall⟩
    · obtain rfl := mem_singleton.mp ht'
      obtain ⟨h, hh, y, hy, rfl⟩ := hneed o ho
      refine ⟨_, mem_map.mpr ⟨h, mem_range.mpr hh, rfl⟩, rfl, ?_, ?_⟩
      · dsimp only
        rw [heq h hh _ (.inr rfl)]
        omega
      · dsimp only
        rw [heq h hh _ (.inr rfl)]
        omega
    · obtain ⟨h, -, rfl⟩ := mem_map.mp hs
      exact ⟨Nat.mod_lt _ (by decide), Nat.mod_lt _ (by decide)⟩

theorem exact_nil (h : ∀ o, ¬ q.Needed t o) : q.Exact [t] [] :=
  ⟨.nil, nofun, fun _ ht o ho => absurd (mem_singleton.mp ht ▸ ho) (h o), nofun⟩

/-! ### Layouts -/

theorem indexerSpans_exact (hi : isIndexerBlock16 t.name = true) (hle : q.rows ≤ q.rowsPerSlot)
    (h : q.indexerSpans t = .ok spans) : q.Exact [t] spans := by
  unfold indexerSpans at h
  split_ifs at h with h1 h2 h3
  cases h
  have hbytes : t.perSlotBytes = indexerPrefixBytes q.rowsPerSlot := by
    by_contra hne
    exact h1 (.inr (.inl hne))
  refine ⟨pairwise_singleton _ _, fun s hs => ?_, fun t' ht' o ho => ?_, fun s hs => ?_⟩
  · obtain rfl := mem_singleton.mp hs
    refine ⟨t, mem_singleton_self t, rfl, 0, rfl, rfl, ?_⟩
    rw [zero_add, hbytes]
    refine Nat.mul_le_mul_right _ ((ceilDiv_le_iff_le_mul (by decide)).mpr (hle.trans ?_))
    exact (ceilDiv_le_iff_le_mul (by decide)).mp le_rfl
  · obtain rfl := mem_singleton.mp ht'
    rw [Needed, if_pos hi] at ho
    obtain ⟨pos, hpos, ho⟩ := ho
    refine ⟨_, mem_singleton_self _, rfl, Nat.le_add_right _ _, Nat.add_lt_add_left ?_ _⟩
    have hblock : pos / 16 < q.rows ⌈/⌉ 16 := by
      rw [Nat.div_lt_iff_lt_mul (by decide), mul_comm]
      exact hpos.trans_le ((ceilDiv_le_iff_le_mul (by decide)).mp le_rfl)
    exact (Nat.div_lt_iff_lt_mul (by decide)).mp (ho ▸ hblock)
  · obtain rfl := mem_singleton.mp hs
    exact ⟨Nat.lt_of_not_le h2, Nat.lt_of_not_le h3⟩

theorem headSpans_exact (hi : isIndexerBlock16 t.name = false) (hm' : q.headMajorOf t = some hm)
    (hpos : 0 < q.rows) (h : q.headSpans t hm = .ok spans) : q.Exact [t] spans ↔ q.Fits t := by
  unfold headSpans at h
  split_ifs at h with h1 h2 h3 h4
  · cases h
    refine iff_of_true (exact_nil fun o ho => ?_) fun _ slot _ => ?_
    · rw [Needed, hi, if_neg Bool.false_ne_true, hm'] at ho
      obtain ⟨_, _, _, _, x, hx, _⟩ := ho
      omega
    · rw [hm']
      intro hrow
      omega
  · cases h
    have hheads : 0 < hm.heads := pos_of_ne_zero fun he => h1 (.inl he)
    have hstride : 0 < hm.stride := pos_of_ne_zero fun he => h1 (.inr he)
    have hhead : hm.heads * headBytes t hm = t.perSlotBytes := Nat.mul_div_cancel' h2
    have hrow : hm.stride * rowBytes t hm = headBytes t hm := Nat.mul_div_cancel' h3
    have hrow0 : 0 < rowBytes t hm := pos_of_ne_zero h4
    refine (exact_blocks hheads (mul_pos (lt_min hpos hstride) hrow0) ?_ hhead fun o ho => ?_).trans ?_
    · calc min q.rows hm.stride * rowBytes t hm ≤ hm.stride * rowBytes t hm :=
            Nat.mul_le_mul_right _ (min_le_right _ _)
        _ = headBytes t hm := hrow
    · rw [Needed, hi, if_neg Bool.false_ne_true, hm'] at ho
      obtain ⟨h, hh, pos, hp, x, hx, rfl⟩ := ho
      refine ⟨h, hh, _, ?_, rfl⟩
      have hring : pos % hm.stride < min q.rows hm.stride :=
        lt_min ((Nat.mod_le _ _).trans_lt hp) (Nat.mod_lt _ hstride)
      have := Nat.mul_le_mul_right (rowBytes t hm) (Nat.succ_le_of_lt hring)
      rw [Nat.succ_mul] at this
      omega
    · simp only [Fits, hi, hm', hrow0, forall_const]

theorem pooledSpans_exact (hi : isIndexerBlock16 t.name = false) (hm' : q.headMajorOf t = none)
    (hpos : 0 < q.rows) (hle : q.rows ≤ q.rowsPerSlot) (h : q.pooledSpans t = .ok spans) :
    q.Exact [t] spans ↔ q.Fits t := by
  unfold pooledSpans at h
  dsimp only at h
  split_ifs at h with h1 h2 h3 h4
  · cases h
    refine iff_of_true (exact_nil fun o ho => ?_) fun _ slot _ => ?_
    · rw [Needed, hi, if_neg Bool.false_ne_true, hm'] at ho
      obtain ⟨_, _, x, hx, _⟩ := ho
      omega
    · rw [hm']
      intro hentry
      omega
  · cases h
    have hp0 : 0 < q.poolOf t := Nat.pos_of_dvd_of_pos h1 hpos
    have hentry : q.rowsPerSlot / q.poolOf t * q.entryBytes t = t.perSlotBytes :=
      Nat.mul_div_cancel' h3
    have hentry0 : 0 < q.entryBytes t := pos_of_ne_zero h4
    have hspans : [(⟨t.handle, offset t q.srcSlot 0, offset t q.dstSlot 0,
        q.rows / q.poolOf t * q.entryBytes t⟩ : CopySpan)] =
          blocks q t 1 t.perSlotBytes (q.rows / q.poolOf t * q.entryBytes t) := by
      simp [blocks]
    rw [hspans]
    refine (exact_blocks one_pos (mul_pos (Nat.div_pos (Nat.le_of_dvd hpos h1) hp0) hentry0) ?_
      (one_mul _) fun o ho => ?_).trans ?_
    · calc q.rows / q.poolOf t * q.entryBytes t ≤ q.rowsPerSlot / q.poolOf t * q.entryBytes t :=
            Nat.mul_le_mul_right _ (Nat.div_le_div_right hle)
        _ = t.perSlotBytes := hentry
    · rw [Needed, hi, if_neg Bool.false_ne_true, hm'] at ho
      obtain ⟨pos, hp, x, hx, rfl⟩ := ho
      refine ⟨0, one_pos, _, ?_, (by rw [zero_mul, zero_add])⟩
      have hlt : pos / q.poolOf t < q.rows / q.poolOf t := Nat.div_lt_div_of_lt_of_dvd h1 hp
      have := Nat.mul_le_mul_right (q.entryBytes t) (Nat.succ_le_of_lt hlt)
      rw [Nat.succ_mul] at this
      omega
    · simp only [Fits, hi, hm', hentry0, forall_const, Nat.sub_self, Nat.zero_mul, Nat.add_zero]

theorem tensorSpans_exact (hpos : 0 < q.rows) (hle : q.rows ≤ q.rowsPerSlot)
    (h : q.tensorSpans t = .ok spans) : q.Exact [t] spans ↔ q.Fits t := by
  unfold tensorSpans at h
  split_ifs at h with hi
  · exact iff_of_true (indexerSpans_exact hi hle h) fun hi' => by rw [hi] at hi'; cases hi'
  · rw [Bool.not_eq_true] at hi
    cases hm' : q.headMajorOf t with
    | some hm =>
      rw [hm'] at h
      exact headSpans_exact hi hm' hpos h
    | none =>
      rw [hm'] at h
      exact pooledSpans_exact hi hm' hpos hle h

/-! ### The whole plan -/

theorem tensorSpans_handle (h : q.tensorSpans t = .ok spans) : ∀ s ∈ spans, s.handle = t.handle := by
  have hone (s : CopySpan) (hs : s.handle = t.handle) : ∀ s' ∈ [s], s'.handle = t.handle :=
    forall_mem_singleton.mpr hs
  unfold tensorSpans at h
  split_ifs at h
  · unfold indexerSpans at h
    split_ifs at h
    cases h
    exact hone _ rfl
  · split at h
    · unfold headSpans at h
      split_ifs at h
      · cases h
        exact nofun
      · cases h
        exact forall_mem_map.mpr fun _ _ => rfl
    · unfold pooledSpans at h
      dsimp only at h
      split_ifs at h
      · cases h
        exact nofun
      · cases h
        exact hone _ rfl

theorem exact_cons
    (hnew : t.handle ∉ ts.map KvSlotTensor.handle) (hs : ∀ s ∈ spans, s.handle = t.handle)
    (hrest : ∀ s ∈ rest, s.handle ∈ ts.map KvSlotTensor.handle) :
    q.Exact (t :: ts) (spans ++ rest) ↔ q.Exact [t] spans ∧ q.Exact ts rest := by
  have hne (t') (ht' : t' ∈ ts) : t'.handle ≠ t.handle := fun he =>
    hnew (he ▸ mem_map_of_mem ht')
  have hrest' (s) (hs : s ∈ rest) : s.handle ≠ t.handle := fun he => hnew (he ▸ hrest s hs)
  constructor
  · intro h
    obtain ⟨ha, hb, -⟩ := pairwise_append.mp h.apart
    refine ⟨⟨ha, fun s hm => ?_, fun t' ht' o ho => ?_, fun s hm => h.fits s (mem_append_left _ hm)⟩,
      ⟨hb, fun s hm => ?_, fun t' ht' o ho => ?_, fun s hm => h.fits s (mem_append_right _ hm)⟩⟩
    · obtain ⟨t', ht', hp⟩ := h.placed s (mem_append_left _ hm)
      rcases mem_cons.mp ht' with rfl | ht'
      · exact ⟨t', mem_singleton_self t', hp⟩
      · exact absurd (hp.1.symm.trans (hs s hm)) (hne t' ht')
    · obtain rfl := mem_singleton.mp ht'
      obtain ⟨s, hm, hh, hin⟩ := h.covers t' mem_cons_self o ho
      rcases mem_append.mp hm with hm | hm
      · exact ⟨s, hm, hh, hin⟩
      · exact absurd hh (hrest' s hm)
    · obtain ⟨t', ht', hp⟩ := h.placed s (mem_append_right _ hm)
      rcases mem_cons.mp ht' with rfl | ht'
      · exact absurd hp.1 (hrest' s hm)
      · exact ⟨t', ht', hp⟩
    · obtain ⟨s, hm, hh, hin⟩ := h.covers t' (mem_cons_of_mem _ ht') o ho
      rcases mem_append.mp hm with hm | hm
      · exact absurd (hh.symm.trans (hs s hm)) (hne t' ht')
      · exact ⟨s, hm, hh, hin⟩
  · rintro ⟨ha, hb⟩
    refine ⟨pairwise_append.mpr ⟨ha.apart, hb.apart, fun s hm s' hm' he => ?_⟩, fun s hm => ?_,
      fun t' ht' o ho => ?_, fun s hm => (mem_append.mp hm).elim (ha.fits s) (hb.fits s)⟩
    · exact absurd (he.symm.trans (hs s hm)) (hrest' s' hm')
    · rcases mem_append.mp hm with hm | hm
      · obtain ⟨t', ht', hp⟩ := ha.placed s hm
        exact ⟨t', mem_cons.mpr (.inl (mem_singleton.mp ht')), hp⟩
      · obtain ⟨t', ht', hp⟩ := hb.placed s hm
        exact ⟨t', mem_cons_of_mem _ ht', hp⟩
    · rcases mem_cons.mp ht' with rfl | ht'
      · obtain ⟨s, hm, hin⟩ := ha.covers t' (mem_singleton_self t') o ho
        exact ⟨s, mem_append_left _ hm, hin⟩
      · obtain ⟨s, hm, hin⟩ := hb.covers t' ht' o ho
        exact ⟨s, mem_append_right _ hm, hin⟩

theorem allSpans_exact (hpos : 0 < q.rows) (hle : q.rows ≤ q.rowsPerSlot)
    (hnodup : (ts.map KvSlotTensor.handle).Nodup) (h : q.allSpans ts = .ok spans) :
    (∀ s ∈ spans, s.handle ∈ ts.map KvSlotTensor.handle) ∧ (q.Exact ts spans ↔ ∀ t ∈ ts, q.Fits t) := by
  induction ts generalizing spans with
  | nil =>
    cases h
    exact ⟨nofun, iff_of_true ⟨.nil, nofun, nofun, nofun⟩ nofun⟩
  | cons t ts ih =>
    rw [allSpans] at h
    cases hspans : q.tensorSpans t with
    | error e =>
      rw [hspans] at h
      cases h
    | ok own =>
      cases hrest : q.allSpans ts with
      | error e =>
        rw [hspans, hrest] at h
        cases h
      | ok rest =>
        rw [hspans, hrest] at h
        cases h
        obtain ⟨hnew, hts⟩ := nodup_cons.mp hnodup
        obtain ⟨hin, hiff⟩ := ih hts hrest
        have hown := tensorSpans_handle hspans
        refine ⟨fun s hs => ?_, ?_⟩
        · rcases mem_append.mp hs with hs | hs
          · exact hown s hs ▸ mem_cons_self
          · exact mem_cons_of_mem _ (hin s hs)
        · rw [exact_cons hnew hown hin, tensorSpans_exact hpos hle hspans, hiff, forall_mem_cons]

theorem plan_exact_iff (q : Request) {tensors : List KvSlotTensor}
    (hnodup : (tensors.map KvSlotTensor.handle).Nodup) (h : q.plan tensors = .ok spans) :
    q.Exact tensors spans ↔ q.rows = 0 ∨ ∀ t ∈ tensors, q.Fits t := by
  unfold plan at h
  split_ifs at h with h0 h1
  · cases h
    refine iff_of_true ⟨.nil, nofun, fun t _ o ho => ?_, nofun⟩ (.inl h0)
    rw [Needed, h0] at ho
    split at ho
    · obtain ⟨pos, hpos, -⟩ := ho
      cases hpos
    · split at ho
      · obtain ⟨_, _, pos, hpos, -⟩ := ho
        cases hpos
      · obtain ⟨pos, hpos, -⟩ := ho
        cases hpos
  · rw [(allSpans_exact (Nat.pos_of_ne_zero h0) (Nat.le_of_not_lt fun hlt => h1 (.inr hlt)) hnodup h).2,
      or_iff_right h0]

/-- one tensor of `bytes` bytes a slot, of which two rows of four go from slot 0 to `slot` -/
def twoRows (slot : ℕ) : Request := ⟨4, [], [], 0, slot, 2⟩

def cache (bytes : ℕ) (h : bytes < 2 ^ 64) : KvSlotTensor := ⟨"kv.0.ckv".toList, 0, bytes, h⟩

theorem plan_exact_small : (twoRows 1).Exact [cache 64 (by decide)] [⟨0, 0, 64, 32⟩] := by
  refine ((twoRows 1).plan_exact_iff (by decide) rfl).mpr (.inr fun t ht hi slot hslot => ?_)
  obtain rfl := mem_singleton.mp ht
  intro _
  rcases hslot with rfl | rfl
  · decide
  · decide

theorem plan_wraps : (twoRows 2).plan [cache (2 ^ 63) (by decide)] = .ok [⟨0, 0, 0, 2 ^ 62⟩] ∧
    ¬ (twoRows 2).Exact [cache (2 ^ 63) (by decide)] [⟨0, 0, 0, 2 ^ 62⟩] := by
  refine ⟨rfl, fun h => ?_⟩
  obtain ⟨t, ht, -, off, -, hd, -⟩ := h.placed _ (mem_singleton_self _)
  obtain rfl := mem_singleton.mp ht
  exact absurd hd (by
    show 0 ≠ 2 * 2 ^ 63 + off
    omega)

end Request

end Plow.KvHandoff
