import Plow.Packet.Model

/-!
# What the decoder reads, byte for byte

A `RawInst` is a record of the current version as it lies in the stream: the header and the body
struct with every bit, the pads and the codes that the decoder drops or defaults included.
`RawInst.inst` is what the decoder makes of it.  Every reader of the current version is described
exactly: it returns a value if and only if the bytes of a record with that meaning stand at its
offset (`readPod_iff`, `tryRead_iff`, `readIds_iff`, `readInst_iff`, `readInsts_iff`,
`readCounters_iff`).
-/

namespace Plow.Packet
open Plow.Lib List

variable {why what : String}

theorem okOr_ok {α : Type} {o : Option α} {a : α} : okOr o why = .ok a ↔ o = some a := by
  cases o with
  | none => exact ⟨(fun h => nomatch h), (fun h => nomatch h)⟩
  | some x => exact ⟨fun h => by cases h; rfl, fun h => by cases h; rfl⟩

theorem refuse_ok {α : Type} {a : α} : ¬ (refuse why : Res α) = .ok a :=
  fun h => nomatch h

section Readers
variable {α : Type} [Pod α] {a : α} {b : List UInt8} {i n : Nat}

theorem readPod_iff : readPod α b i = .ok a ↔ Has b i (Pod.put a) := by
  unfold readPod
  constructor
  · intro h
    split at h
    · next hr =>
      cases h
      exact Has.of_room hr
    · cases h
  · intro h
    rw [if_pos h.room, h.get]

theorem tryPod_iff : tryPod α b i = some a ↔ Has b i (Pod.put a) := by
  unfold tryPod
  constructor
  · intro h
    split at h
    · cases h
    · next hr =>
      cases h
      exact Has.of_room (by omega)
  · intro h
    have := h.room
    rw [if_neg (by omega), h.get]

theorem readPod_room (h : i + Pod.size α ≤ b.length) : readPod α b i = .ok (Pod.get (b.drop i)) :=
  if_pos h

theorem mapM_readPod (h : i + n * Pod.size α ≤ b.length) :
    (range n).mapM (fun j => readPod α b (i + j * Pod.size α)) =
      .ok ((range n).map (Pod.nth α b i)) := by
  apply mapM_ok
  intro j hj
  have h1 : j < n := mem_range.mp hj
  have h2 : (j + 1) * Pod.size α ≤ n * Pod.size α := Nat.mul_le_mul_right _ h1
  rw [Nat.succ_mul] at h2
  exact readPod_room (by omega)

theorem mapM_readPod_iff {as : List α} (h : i + n * Pod.size α ≤ b.length) :
    (range n).mapM (fun j => readPod α b (i + j * Pod.size α)) = .ok as ↔
      as.length = n ∧ Has b i (Pod.puts as) := by
  rw [mapM_readPod h]
  constructor
  · intro e
    have e := Except.ok.inj e
    have hl : as.length = n := by rw [← e]; simp
    subst hl
    exact ⟨rfl, Pod.map_nth_iff.mp ⟨h, e⟩⟩
  · rintro ⟨rfl, h2⟩
    rw [(Pod.map_nth_iff.mpr h2).2]

end Readers

theorem checkedMul_some {n m : Nat} (h : n * m < 2 ^ 64) : checkedMul n m = some (n * m) := if_pos h

theorem readIds_iff {b : List UInt8} {i n j : Nat} {ids : List UInt32}
    (hn : n < 2 ^ 16) : readIds b i n what = .ok (ids, j) ↔
      ids.length = n ∧ j = i + (Pod.puts ids).length ∧ Has b i (Pod.puts ids) := by
  have hm : n * 4 < 2 ^ 64 := by omega
  simp only [readIds, checkedMul_some hm, okOr, bind, Except.bind]
  split
  · next hs =>
    refine ⟨fun h => absurd h refuse_ok, ?_⟩
    rintro ⟨rfl, -, h⟩
    have := h.length_le
    rw [Pod.length_puts] at this
    exact absurd this (by show ¬ i + ids.length * 4 ≤ _; omega)
  · next hs =>
    have hr : i + n * Pod.size UInt32 ≤ b.length := by show i + n * 4 ≤ _; omega
    constructor
    · intro h
      obtain ⟨a, h1, h2⟩ := bind_ok.mp h
      obtain ⟨h3, h4⟩ := (mapM_readPod_iff hr).mp h1
      obtain ⟨rfl, rfl⟩ := Prod.mk.inj (pure_ok.mp h2)
      exact ⟨h3, by rw [Pod.length_puts, h3]; rfl, h4⟩
    · rintro ⟨h1, h2, h3⟩
      refine bind_ok.mpr ⟨ids, (mapM_readPod_iff hr).mpr ⟨h1, h3⟩, ?_⟩
      rw [h2, Pod.length_puts, h1]
      rfl

theorem readCounters_iff {b : List UInt8} {i n : Nat} {cs : List Counter} (hn : n < 2 ^ 32) :
    readCounters b i n = .ok cs ↔ cs.length = n ∧ Has b i (Pod.puts cs) := by
  have hm : n * Pod.size Counter < 2 ^ 64 := by show n * 12 < _; omega
  simp only [readCounters, checkedMul_some hm, okOr, bind, Except.bind]
  split
  · next hs =>
    refine ⟨fun h => absurd h refuse_ok, ?_⟩
    rintro ⟨rfl, h⟩
    have := h.length_le
    rw [Pod.length_puts] at this
    omega
  · next hs => exact mapM_readPod_iff (by omega)

/-! ### Raw records -/

inductive RawBody where
  | dma (r : DmaBody)
  | rdma (r : RdmaBody)
  | gemm (r : GemmBody)
  | flash (r : FlashBody)
  | row (r : RowBody)
  | layout (r : LayoutBody)
  | token (r : TokenBody)
  | host
  deriving DecidableEq

namespace RawBody

def bytes : RawBody → List UInt8
  | dma r => Pod.put r
  | rdma r => Pod.put r
  | gemm r => Pod.put r
  | flash r => Pod.put r
  | row r => Pod.put r
  | layout r => Pod.put r
  | token r => Pod.put r
  | host => []

/-- the family of the header that the body stands under -/
def Fits (family : UInt8) : RawBody → Prop
  | dma _ => family = Opcode.familyDma
  | rdma _ => family = Opcode.familyRdma
  | gemm _ => family = Opcode.familyGemm
  | flash _ => family = Opcode.familyFlash
  | row _ => family = Opcode.familyRow
  | layout _ => family = Opcode.familyLayout
  | token _ => family = Opcode.familyToken
  | host => family = 0 ∨ 7 < family

instance (family : UInt8) : (r : RawBody) → Decidable (r.Fits family)
  | dma _ => inferInstanceAs (Decidable (_ = _))
  | rdma _ => inferInstanceAs (Decidable (_ = _))
  | gemm _ => inferInstanceAs (Decidable (_ = _))
  | flash _ => inferInstanceAs (Decidable (_ = _))
  | row _ => inferInstanceAs (Decidable (_ = _))
  | layout _ => inferInstanceAs (Decidable (_ = _))
  | token _ => inferInstanceAs (Decidable (_ = _))
  | host => inferInstanceAs (Decidable (_ ∨ _))

/-- what the decoder makes of a body under an opcode with this variant -/
def body (variant : UInt8) : RawBody → Body
  | dma r => .dma (variant == 0) r.bytes r.slot r.tensor r.kind r.access
  | rdma r => .rdma r.bytes r.srcUnit r.dstUnit
  | gemm r => .gemm (r.coord0, r.coord1) r.m r.n r.k r.bm r.bn r.bk r.out r.tmem variant
  | flash r => .flash (r.coord0, r.coord1) r.seqQ r.seqKv r.headDim r.bq r.bkv r.heads r.kvHeads
      r.window r.out r.tmem variant
  | row r => .row (Opcode.variantIsReduce variant) r.coord r.rows r.feat r.operands r.br r.out
      variant r.args
  | layout r => .layout r.kind r.rank r.elemSize r.out r.shape r.inStride r.outStride r.inBase
      r.outBase
  | token r => .token r.inSlot r.outSlot r.kind r.vocab r.arg
  | host => .host

end RawBody

structure RawInst where
  header : Header
  body : RawBody
  wait : List UInt32
  succ : List UInt32
  deriving DecidableEq

namespace RawInst

def op (r : RawInst) : Opcode := ⟨r.header.opcode⟩

def bytes (r : RawInst) : List UInt8 :=
  Pod.put r.header ++ (r.body.bytes ++ (Pod.puts r.wait ++ Pod.puts r.succ))

/-- the body is of the header's family and the arrays have the header's lengths -/
structure Wf (r : RawInst) : Prop where
  fits : r.body.Fits r.op.family
  wait : r.wait.length = r.header.waitLen.toNat
  succ : r.succ.length = r.header.succLen.toNat

def inst (r : RawInst) : Inst :=
  ⟨ResourceKind.fromU8 r.header.resource, r.header.unit, r.header.index,
    r.body.body r.op.variant, r.wait, r.succ⟩

end RawInst

theorem family_cases (f : UInt8) :
    f = Opcode.familyDma ∨ f = Opcode.familyRdma ∨ f = Opcode.familyGemm ∨
      f = Opcode.familyFlash ∨ f = Opcode.familyRow ∨ f = Opcode.familyLayout ∨
      f = Opcode.familyToken ∨ (f = 0 ∨ 7 < f) := by
  have h : f.toNat = 1 ∨ f.toNat = 2 ∨ f.toNat = 3 ∨ f.toNat = 4 ∨ f.toNat = 5 ∨
    f.toNat = 6 ∨ f.toNat = 7 ∨ (f.toNat = 0 ∨ 7 < f.toNat) := by omega
  simp only [UInt8.lt_iff_toNat_lt, ← UInt8.toNat_inj]
  exact h

section Body
variable {b : List UInt8} {i n : Nat} {op : Opcode} {body : Body}

theorem fits_cases : (∀ rb : RawBody, rb.Fits Opcode.familyDma → ∃ r, rb = .dma r) ∧
    (∀ rb : RawBody, rb.Fits Opcode.familyRdma → ∃ r, rb = .rdma r) ∧
    (∀ rb : RawBody, rb.Fits Opcode.familyGemm → ∃ r, rb = .gemm r) ∧
    (∀ rb : RawBody, rb.Fits Opcode.familyFlash → ∃ r, rb = .flash r) ∧
    (∀ rb : RawBody, rb.Fits Opcode.familyRow → ∃ r, rb = .row r) ∧
    (∀ rb : RawBody, rb.Fits Opcode.familyLayout → ∃ r, rb = .layout r) ∧
    (∀ rb : RawBody, rb.Fits Opcode.familyToken → ∃ r, rb = .token r) := by
  refine ⟨?_, ?_, ?_, ?_, ?_, ?_, ?_⟩ <;> intro rb h <;> cases rb <;>
    first
    | exact ⟨_, rfl⟩
    | exact absurd (show (_ : UInt8) = _ from h) (by decide)
    | exact absurd (show _ ∨ _ from h) (by decide)

theorem read_struct {α : Type} [Pod α] {family variant : UInt8} (mk : α → RawBody)
    (h1 : ∀ r, (mk r).Fits family) (h2 : ∀ rb : RawBody, rb.Fits family → ∃ r, rb = mk r)
    (h3 : ∀ r, (mk r).bytes = Pod.put r) : (okOr (tryPod α b i) why >>= fun r =>
        (pure ((mk r).body variant, Pod.size α) : Res (Body × Nat))) = .ok (body, n) ↔
      ∃ rb : RawBody, rb.Fits family ∧ body = rb.body variant ∧ n = rb.bytes.length ∧
        Has b i rb.bytes := by
  constructor
  · intro h
    obtain ⟨r, hr, hp⟩ := bind_ok.mp h
    obtain ⟨rfl, rfl⟩ := Prod.mk.inj (pure_ok.mp hp)
    refine ⟨mk r, h1 r, rfl, ?_, ?_⟩
    · rw [h3, Pod.length_put]
    · rw [h3]
      exact tryPod_iff.mp (okOr_ok.mp hr)
  · rintro ⟨rb, hf, rfl, rfl, h⟩
    obtain ⟨r, rfl⟩ := h2 rb hf
    rw [h3] at h
    exact bind_ok.mpr ⟨r, okOr_ok.mpr (tryPod_iff.mpr h), by rw [h3, Pod.length_put]; rfl⟩

theorem tryRead_iff (hi : i ≤ b.length) : Body.tryRead op b i version = .ok (body, n) ↔
      ∃ rb : RawBody, rb.Fits op.family ∧ body = rb.body op.variant ∧ n = rb.bytes.length ∧
        Has b i rb.bytes := by
  have h7 : (version ≥ 7) = True := by decide
  have h6 : (version ≥ 6) = True := by decide
  have h4 : (version ≥ 4) = True := by decide
  obtain ⟨c1, c2, c3, c4, c5, c6, c7⟩ := fits_cases
  unfold Body.tryRead
  simp only [h7, h6, h4, if_true]
  generalize op.family = f
  rcases family_cases f with rfl | rfl | rfl | rfl | rfl | rfl | rfl | hf
  · exact read_struct RawBody.dma (fun _ => rfl) c1 (fun _ => rfl)
  · exact read_struct RawBody.rdma (fun _ => rfl) c2 (fun _ => rfl)
  · exact read_struct RawBody.gemm (fun _ => rfl) c3 (fun _ => rfl)
  · exact read_struct RawBody.flash (fun _ => rfl) c4 (fun _ => rfl)
  · exact read_struct RawBody.row (fun _ => rfl) c5 (fun _ => rfl)
  · exact read_struct RawBody.layout (fun _ => rfl) c6 (fun _ => rfl)
  · exact read_struct RawBody.token (fun _ => rfl) c7 (fun _ => rfl)
  · have hne : ∀ g : UInt8, ¬ (g = 0 ∨ 7 < g) → f ≠ g := by
      rintro g hg rfl
      exact hg hf
    rw [if_neg (hne _ (by decide)), if_neg (hne _ (by decide)), if_neg (hne _ (by decide)),
      if_neg (hne _ (by decide)), if_neg (hne _ (by decide)), if_neg (hne _ (by decide)),
      if_neg (hne _ (by decide)), pure_ok]
    constructor
    · intro h
      cases h
      exact ⟨.host, hf, rfl, rfl, Has.nil_iff.mpr hi⟩
    · rintro ⟨rb, hrb, rfl, rfl, -⟩
      cases rb <;> first | rfl | exact absurd hrb (hne _ (by decide))

end Body

/-! ### Records and tables -/

variable {b : List UInt8}

theorem readHeader_iff {i j : Nat} {h : Header} :
    readHeader b i version = .ok (h, j) ↔ j = i + Pod.size Header ∧ Has b i (Pod.put h) := by
  have h3 : (version ≥ 3) = True := by decide
  simp only [readHeader, h3, if_true]
  constructor
  · intro e
    obtain ⟨r, hr, hp⟩ := bind_ok.mp e
    obtain ⟨rfl, rfl⟩ := Prod.mk.inj (pure_ok.mp hp)
    exact ⟨rfl, tryPod_iff.mp (okOr_ok.mp hr)⟩
  · rintro ⟨rfl, hh⟩
    exact bind_ok.mpr ⟨h, okOr_ok.mpr (tryPod_iff.mpr hh), rfl⟩

theorem readInst_iff {i j : Nat} {ins : Inst} : readInst b i version = .ok (ins, j) ↔
      ∃ r : RawInst, r.Wf ∧ ins = r.inst ∧ j = i + r.bytes.length ∧ Has b i r.bytes := by
  constructor
  · intro e
    obtain ⟨⟨h, i1⟩, e1, e⟩ := bind_ok.mp e
    obtain ⟨rfl, hh⟩ := readHeader_iff.mp e1
    obtain ⟨⟨body, n⟩, e2, e⟩ := bind_ok.mp e
    obtain ⟨rb, hf, rfl, rfl, hb⟩ := (tryRead_iff hh.room).mp e2
    obtain ⟨⟨wait, i2⟩, e3, e⟩ := bind_ok.mp e
    obtain ⟨hw, rfl, hwb⟩ := (readIds_iff (UInt16.toNat_lt _)).mp e3
    obtain ⟨⟨succ, i3⟩, e4, e⟩ := bind_ok.mp e
    obtain ⟨hs, rfl, hsb⟩ := (readIds_iff (UInt16.toNat_lt _)).mp e4
    obtain ⟨rfl, rfl⟩ := Prod.mk.inj (pure_ok.mp e)
    refine ⟨⟨h, rb, wait, succ⟩, ⟨hf, hw, hs⟩, rfl, ?_, ?_⟩
    · simp only [RawInst.bytes, length_append, Pod.length_put]
      omega
    · rw [RawInst.bytes, Has.append_iff, Has.append_iff, Has.append_iff, Pod.length_put]
      exact ⟨hh, hb, hwb, hsb⟩
  · rintro ⟨r, hr, rfl, rfl, hb⟩
    rw [RawInst.bytes, Has.append_iff, Has.append_iff, Has.append_iff, Pod.length_put] at hb
    obtain ⟨h1, h2, h3, h4⟩ := hb
    refine bind_ok.mpr ⟨_, readHeader_iff.mpr ⟨rfl, h1⟩, ?_⟩
    refine bind_ok.mpr ⟨_, (tryRead_iff h1.room).mpr ⟨r.body, hr.fits, rfl, rfl, h2⟩, ?_⟩
    refine bind_ok.mpr ⟨_, (readIds_iff (UInt16.toNat_lt _)).mpr ⟨hr.wait, rfl, h3⟩, ?_⟩
    refine bind_ok.mpr ⟨_, (readIds_iff (UInt16.toNat_lt _)).mpr ⟨hr.succ, rfl, h4⟩, ?_⟩
    refine pure_ok.mpr (Prod.ext rfl ?_)
    simp only [RawInst.bytes, length_append, Pod.length_put]
    omega

def rawBytes (rs : List RawInst) : List UInt8 := rs.flatMap RawInst.bytes

@[simp] theorem rawBytes_nil : rawBytes [] = [] := rfl

@[simp] theorem rawBytes_cons (r : RawInst) (rs : List RawInst) :
    rawBytes (r :: rs) = r.bytes ++ rawBytes rs := rfl

theorem readInsts_iff {n i j : Nat} {insts : List Inst} (hi : i ≤ b.length) :
    readInsts b version n i = .ok (insts, j) ↔
      ∃ rs : List RawInst, rs.length = n ∧ (∀ r ∈ rs, r.Wf) ∧ insts = rs.map RawInst.inst ∧
        j = i + (rawBytes rs).length ∧ Has b i (rawBytes rs) := by
  induction n generalizing i j insts with
  | zero =>
    constructor
    · intro e
      obtain ⟨rfl, rfl⟩ := Prod.mk.inj (pure_ok.mp e)
      exact ⟨[], rfl, by simp, rfl, rfl, Has.nil_iff.mpr hi⟩
    · rintro ⟨rs, hn, -, rfl, rfl, -⟩
      rw [length_eq_zero_iff.mp hn]
      rfl
  | succ n ih =>
    constructor
    · intro e
      obtain ⟨⟨ins, i1⟩, e1, e⟩ := bind_ok.mp e
      obtain ⟨r, hr, rfl, rfl, hb⟩ := readInst_iff.mp e1
      obtain ⟨⟨rest, i2⟩, e2, e⟩ := bind_ok.mp e
      obtain ⟨rs, hn, hrs, rfl, rfl, hbs⟩ := (ih hb.length_le).mp e2
      obtain ⟨rfl, rfl⟩ := Prod.mk.inj (pure_ok.mp e)
      refine ⟨r :: rs, by simp [hn], by simpa using ⟨hr, hrs⟩, rfl, ?_, ?_⟩
      · rw [rawBytes_cons, length_append]
        omega
      · exact Has.append_iff.mpr ⟨hb, hbs⟩
    · rintro ⟨rs, hn, hrs, rfl, rfl, hb⟩
      cases rs with
      | nil => simp at hn
      | cons r rs =>
        obtain ⟨h1, h2⟩ := Has.append_iff.mp (rawBytes_cons r rs ▸ hb)
        have hr : r.Wf := hrs r mem_cons_self
        have hrest : ∀ s ∈ rs, s.Wf := fun s hs => hrs s (mem_cons_of_mem _ hs)
        refine bind_ok.mpr ⟨_, readInst_iff.mpr ⟨r, hr, rfl, rfl, h1⟩, ?_⟩
        refine bind_ok.mpr ⟨_, (ih h1.length_le).mpr
          ⟨rs, by simpa using hn, hrest, rfl, rfl, h2⟩, ?_⟩
        refine pure_ok.mpr (Prod.ext rfl ?_)
        rw [rawBytes_cons, length_append]
        omega

end Plow.Packet
