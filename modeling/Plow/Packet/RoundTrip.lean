import Plow.Packet.Decode

/-!
# Round trip, and what a decoded stream looked like

`decode_toBytes`: a well-formed program is written, is read back as it was, and no strict prefix
of its bytes is accepted.

In the other direction the decoder keeps less than it reads.  `RawInst.canon` is a record with the
dropped and defaulted bits rewritten: the pads, the reserved header word, the backend nibble,
unknown families, resource codes from 4 on, the variant of a DMA above 1, of an RDMA, a layout or
a control record, and the variant of a token record where the body's kind differs.
`decode_canonical` says that these and the bytes behind the counter table are all that is lost.
-/

namespace Plow.Packet
open Plow.Lib List

/-! ### The canonical form of a record -/

theorem byte_forall {P : UInt8 → Prop} (h : ∀ n : Fin 256, P (UInt8.ofNat n)) (v : UInt8) : P v := by
  have e := h ⟨v.toNat, UInt8.toNat_lt v⟩
  rwa [UInt8.ofNat_toNat] at e

theorem family_variant_new : ∀ f ∈ [Opcode.familyGemm, Opcode.familyFlash, Opcode.familyRow,
    Opcode.familyToken], ∀ v : UInt8,
      (Opcode.new 0 f v).family = f ∧ (Opcode.new 0 f v).variant = v := by
  intro f hf
  refine byte_forall ?_
  revert f
  decide +kernel

namespace RawBody

def canon : RawBody → RawBody
  | dma r => dma r
  | rdma r => rdma { r with pad := 0 }
  | gemm r => gemm { r with pad := 0 }
  | flash r => flash { r with pad := 0 }
  | row r => row { r with pad := ⟨[0, 0, 0], pad_length⟩ }
  | layout r => layout { r with pad0 := 0, pad1 := 0 }
  | token r => token { r with pad0 := 0, pad1 := 0 }
  | host => host

@[simp] theorem length_canon (r : RawBody) : r.canon.bytes.length = r.bytes.length := by
  cases r <;> simp only [canon, bytes, Pod.length_put]

theorem canon_of_bytes {r : RawBody} (h : r.canon.bytes = r.bytes) : r.canon = r := by
  cases r with
  | dma r => rfl
  | rdma r => exact congrArg rdma (Pod.put_inj h)
  | gemm r => exact congrArg gemm (Pod.put_inj h)
  | flash r => exact congrArg flash (Pod.put_inj h)
  | row r => exact congrArg row (Pod.put_inj h)
  | layout r => exact congrArg layout (Pod.put_inj h)
  | token r => exact congrArg token (Pod.put_inj h)
  | host => rfl

end RawBody

namespace RawInst

/-- the opcode that the encoder writes for the record -/
def canonOp (r : RawInst) : Opcode :=
  match r.body with
  | .dma _ => if r.op.variant = 0 then Opcode.tmaLoad else Opcode.tmaStore
  | .rdma _ => Opcode.rdma
  | .gemm _ => Opcode.new 0 Opcode.familyGemm r.op.variant
  | .flash _ => Opcode.new 0 Opcode.familyFlash r.op.variant
  | .row _ => Opcode.new 0 Opcode.familyRow r.op.variant
  | .layout _ => Opcode.layout
  | .token t => Opcode.new 0 Opcode.familyToken t.kind
  | .host => Opcode.hostCoord

def canonHeader (r : RawInst) : Header :=
  { r.header with
    opcode := r.canonOp.bits
    resource := if r.header.resource < 4 then r.header.resource else 0
    pad := 0 }

def canon (r : RawInst) : RawInst :=
  { r with header := r.canonHeader, body := r.body.canon }

@[simp] theorem length_canon (r : RawInst) : r.canon.bytes.length = r.bytes.length := by
  simp only [bytes, canon, length_append, Pod.length_put, RawBody.length_canon]

theorem canon_of_bytes {r : RawInst} (h : r.canon.bytes = r.bytes) : r.canon = r := by
  obtain ⟨h1, h2⟩ := Pod.put_append_inj h
  have h3 : r.canon.body = r.body :=
    RawBody.canon_of_bytes (append_inj_left h2 (RawBody.length_canon r.body))
  obtain ⟨header, body, wait, succ⟩ := r
  exact congrArg₂ (fun h b => (⟨h, b, wait, succ⟩ : RawInst)) h1 h3

end RawInst

theorem toU8_fromU8 (v : UInt8) :
    (ResourceKind.fromU8 v).toU8 = if v < 4 then v else 0 := by
  revert v
  refine byte_forall ?_
  decide +kernel

theorem opcode_body (r : RawInst) : (r.body.body r.op.variant).opcode = r.canonOp := by
  obtain ⟨header, body, wait, succ⟩ := r
  cases body with
  | dma d => simp only [RawBody.body, Body.opcode, RawInst.canonOp, beq_iff_eq]
  | _ => rfl

theorem push_body (rb : RawBody) (variant : UInt8) : (rb.body variant).push = rb.canon.bytes := by
  cases rb <;> rfl

theorem header_inst {r : RawInst} (h : r.Wf) : r.inst.header = r.canonHeader := by
  unfold Inst.header RawInst.inst RawInst.canonHeader
  simp only [opcode_body, toU8_fromU8, h.wait, h.succ, UInt16.ofNat_toNat]

theorem record_inst {r : RawInst} (h : r.Wf) : r.inst.record = .ok r.canon.bytes := by
  have hw : ¬ r.inst.wait.length > 65535 := by
    have := UInt16.toNat_lt r.header.waitLen
    show ¬ r.wait.length > 65535
    rw [h.wait]
    omega
  have hs : ¬ r.inst.succ.length > 65535 := by
    have := UInt16.toNat_lt r.header.succLen
    show ¬ r.succ.length > 65535
    rw [h.succ]
    omega
  rw [Inst.record, if_neg hw, if_neg hs, header_inst h, RawInst.bytes]
  simp only [append_assoc, RawInst.inst, RawInst.canon, push_body]

variable {rs : List RawInst} {q p : Program} {f : UInt8}

theorem mapM_record (h : ∀ r ∈ rs, r.Wf) :
    (rs.map RawInst.inst).mapM Inst.record = .ok (rs.map fun r => r.canon.bytes) := by
  induction rs with
  | nil => rfl
  | cons r rs ih =>
    rw [map_cons, mapM_cons, record_inst (h r mem_cons_self),
      ih fun s hs => h s (mem_cons_of_mem _ hs)]
    rfl

theorem toBytes_raw {p : Program} (h : ∀ r ∈ rs, r.Wf) (hp : p.insts = rs.map RawInst.inst) :
    p.toBytes = .ok (p.streamHeader ++ (rawBytes (rs.map RawInst.canon) ++
      Pod.puts p.counters)) := by
  unfold Program.toBytes
  rw [hp, mapM_record h]
  simp only [bind, Except.bind, pure, Except.pure, append_assoc, rawBytes, flatMap_def,
    map_map]
  rfl

theorem length_rawBytes_canon (rs : List RawInst) :
    (rawBytes (rs.map RawInst.canon)).length = (rawBytes rs).length := by
  induction rs with
  | nil => rfl
  | cons r rs ih => simp [ih]

theorem canon_of_rawBytes
    (h : rawBytes (rs.map RawInst.canon) = rawBytes rs) : ∀ r ∈ rs, r.canon = r := by
  induction rs with
  | nil => simp
  | cons r rs ih =>
    obtain ⟨h1, h2⟩ := append_inj h (RawInst.length_canon r)
    intro s hs
    rcases mem_cons.mp hs with rfl | hs
    · exact RawInst.canon_of_bytes h1
    · exact ih h2 s hs

/-- `decode` stays inside the bytes.  A stream of the current version that it accepts is the
header and the table of the program, a record for each instruction, and a tail `t` that is not
read; written back, the program gives the canonical records and no tail.  So it gives the bytes
back if and only if there is no tail and every record is canonical. -/
theorem decode_canonical (b : List UInt8) : Program.decode b ≠ .error .outOfRange ∧
    ∀ p, Current b → Program.decode b = .ok p → p.InTable ∧
      ∃ (rs : List RawInst) (t : List UInt8), (∀ r ∈ rs, r.Wf) ∧ rs.length = p.insts.length ∧
        b = p.streamHeader ++ (rawBytes rs ++ (Pod.puts p.counters ++ t)) ∧
        p.toBytes = .ok (p.streamHeader ++ (rawBytes (rs.map RawInst.canon) ++
          Pod.puts p.counters)) ∧ (p.toBytes = .ok b ↔ t = [] ∧ ∀ r ∈ rs, r.canon = r) := by
  refine ⟨decode_safe b, fun p hv hd => ?_⟩
  obtain ⟨ht, -, -, rs, hrs, hp, t, rfl⟩ := decode_iff.mp ⟨hv, hd⟩
  have e := toBytes_raw hrs hp
  refine ⟨ht, rs, t, hrs, by rw [hp, length_map], by simp only [append_assoc], e, ?_⟩
  rw [e]
  constructor
  · intro h
    have h := Except.ok.inj h
    have hlen := congrArg List.length h
    simp only [length_append, length_rawBytes_canon] at hlen
    have htn : t = [] := length_eq_zero_iff.mp (by omega)
    rw [htn, append_nil] at h
    have h1 := append_cancel_left h
    exact ⟨htn, canon_of_rawBytes (append_cancel_right h1)⟩
  · rintro ⟨rfl, h⟩
    have hm : rs.map RawInst.canon = rs := (map_congr_left h).trans (map_id rs)
    rw [hm, append_nil]

/-- a record of a family without a kernel, on a resource class that does not exist, and a byte
behind the table -/
def strayStream : List UInt8 :=
  Pod.put magic ++ Pod.put version ++ Pod.put (3 : UInt16) ++ Pod.put (1 : UInt32) ++
    Pod.put (0 : UInt32) ++ Pod.put (0 : UInt16) ++ Pod.put (0 : UInt16) ++
    Pod.put (Header.mk 0x2F05 9 0 0 0 0 1) ++ [7]

def strayProgram : Program := ⟨[⟨.sm, 0, 0, .host, [], []⟩], [], 3, 0, 0⟩

/-- The decoder accepts a stream that the encoder does not give back. -/
theorem decode_strayStream : Current strayStream ∧ Program.decode strayStream = .ok strayProgram ∧
      strayProgram.toBytes ≠ .ok strayStream := by
  refine ⟨?_, by decide +kernel, by decide +kernel⟩
  show readPod UInt16 strayStream 4 = .ok version
  decide +kernel

/-! ### Round trip -/

def Body.WellFormed : Body → Prop
  | .row reduce _ _ _ _ _ _ variant _ => reduce = Opcode.variantIsReduce variant
  | _ => True

instance : (body : Body) → Decidable body.WellFormed
  | .row .. => inferInstanceAs (Decidable (_ = _))
  | .dma .. | .rdma .. | .gemm .. | .flash .. | .layout .. | .token .. | .host =>
    inferInstanceAs (Decidable True)

/-- the program has a wire form: derived flags agree, lengths fit, ids are in the table -/
structure Program.WellFormed (p : Program) : Prop where
  body : ∀ ins ∈ p.insts, ins.body.WellFormed
  wait : ∀ ins ∈ p.insts, ins.wait.length < 2 ^ 16
  succ : ∀ ins ∈ p.insts, ins.succ.length < 2 ^ 16
  insts : p.insts.length < 2 ^ 32
  counters : p.counters.length < 2 ^ 32
  inTable : p.InTable

/-- the struct that `Body::push` writes -/
def Body.raw : Body → RawBody
  | .dma _ bytes slot tensor kind access => .dma ⟨bytes, tensor, slot, kind, access⟩
  | .rdma bytes srcUnit dstUnit => .rdma ⟨bytes, srcUnit, dstUnit, 0⟩
  | .gemm coord m n k bm bn bk out tmem _ =>
    .gemm ⟨coord.1, coord.2, m, n, k, bm, bn, bk, out, tmem, 0⟩
  | .flash coord seqQ seqKv headDim bq bkv heads kvHeads window out tmem _ =>
    .flash ⟨⟨coord.1, coord.2, seqQ, seqKv, headDim, bq, bkv, heads, out, tmem⟩, window, kvHeads, 0⟩
  | .row _ coord rows feat operands br out _ args =>
    .row ⟨coord, rows, feat, args, br, out, operands, ⟨[0, 0, 0], pad_length⟩⟩
  | .layout kind rank elemSize out shape inStride outStride inBase outBase =>
    .layout ⟨kind, rank, elemSize, 0, out, 0, shape, inStride, outStride, inBase, outBase⟩
  | .token inSlot outSlot kind vocab arg => .token ⟨inSlot, outSlot, kind, 0, 0, vocab, arg⟩
  | .host => .host

def Inst.raw (ins : Inst) : RawInst := ⟨ins.header, ins.body.raw, ins.wait, ins.succ⟩

theorem new_family (v : UInt8) (hf : f ∈ [Opcode.familyGemm, Opcode.familyFlash,
    Opcode.familyRow, Opcode.familyToken]) : (Opcode.new 0 f v).family = f :=
  (family_variant_new f hf v).1

theorem new_variant (v : UInt8) (hf : f ∈ [Opcode.familyGemm, Opcode.familyFlash,
    Opcode.familyRow, Opcode.familyToken]) : (Opcode.new 0 f v).variant = v :=
  (family_variant_new f hf v).2

theorem fixed_opcodes :
    Opcode.tmaLoad.family = Opcode.familyDma ∧ Opcode.tmaStore.family = Opcode.familyDma ∧
    (Opcode.tmaLoad.variant == 0) = true ∧ (Opcode.tmaStore.variant == 0) = false ∧
    Opcode.rdma.family = Opcode.familyRdma ∧ Opcode.layout.family = Opcode.familyLayout ∧
    Opcode.hostCoord.family = 0 := by decide

theorem fits_raw (body : Body) : body.raw.Fits body.opcode.family := by
  obtain ⟨h1, h2, -, -, h3, h4, h5⟩ := fixed_opcodes
  cases body with
  | dma load =>
    cases load with
    | true => exact h1
    | false => exact h2
  | rdma => exact h3
  | gemm => exact new_family _ (by decide)
  | flash => exact new_family _ (by decide)
  | row => exact new_family _ (by decide)
  | layout => exact h4
  | token => exact new_family _ (by decide)
  | host => exact Or.inl h5

theorem body_raw {body : Body} (h : body.WellFormed) :
    body.raw.body body.opcode.variant = body := by
  obtain ⟨-, -, h1, h2, -, -, -⟩ := fixed_opcodes
  cases body with
  | dma load =>
    cases load with
    | true => simp only [Body.raw, RawBody.body, Body.opcode, if_true, h1]
    | false => simp only [Body.raw, RawBody.body, Body.opcode, Bool.false_eq_true, if_false, h2]
  | rdma => rfl
  | gemm => simp only [Body.raw, RawBody.body, Body.opcode, new_variant, mem_cons, true_or]
  | flash =>
    simp only [Body.raw, RawBody.body, Body.opcode, new_variant, mem_cons, true_or, or_true]
  | row =>
    simp only [Body.WellFormed] at h
    simp only [Body.raw, RawBody.body, Body.opcode, new_variant, mem_cons, true_or, or_true, h]
  | layout => rfl
  | token => rfl
  | host => rfl

theorem fromU8_toU8 (k : ResourceKind) : ResourceKind.fromU8 k.toU8 = k := by
  cases k <;> rfl

namespace Program.WellFormed
variable {p : Program} {ins : Inst}

theorem wf_raw (h : p.WellFormed) (hm : ins ∈ p.insts) : ins.raw.Wf where
  fits := fits_raw ins.body
  wait := (UInt16.toNat_ofNat_of_lt' (h.wait ins hm)).symm
  succ := (UInt16.toNat_ofNat_of_lt' (h.succ ins hm)).symm

theorem inst_raw (h : p.WellFormed) (hm : ins ∈ p.insts) : ins.raw.inst = ins := by
  obtain ⟨resource, unit, index, body, wait, succ⟩ := ins
  have hb : body.raw.body body.opcode.variant = body := body_raw (h.body _ hm)
  show Inst.mk (ResourceKind.fromU8 resource.toU8) unit index _ wait succ = _
  rw [fromU8_toU8]
  exact congrArg (Inst.mk resource unit index · wait succ) hb

theorem canon_raw (h : p.WellFormed) (hm : ins ∈ p.insts) : ins.raw.canon = ins.raw := by
  have hh : ins.raw.canonHeader = ins.header := by
    rw [← header_inst (h.wf_raw hm), h.inst_raw hm]
  have hb : ins.body.raw.canon = ins.body.raw := by cases ins.body <;> rfl
  exact congrArg₂ (fun x y => (⟨x, y, ins.wait, ins.succ⟩ : RawInst)) hh hb

theorem exists_raw (h : p.WellFormed) :
    ∃ rs : List RawInst, (∀ r ∈ rs, r.Wf) ∧ p.insts = rs.map RawInst.inst ∧
      p.toBytes = .ok (p.streamHeader ++ (rawBytes rs ++ Pod.puts p.counters)) := by
  have hw : ∀ r ∈ p.insts.map Inst.raw, r.Wf := by
    intro r hr
    obtain ⟨ins, hm, rfl⟩ := mem_map.mp hr
    exact h.wf_raw hm
  have hi : p.insts = (p.insts.map Inst.raw).map RawInst.inst := by
    rw [map_map]
    refine (map_id p.insts).symm.trans (map_congr_left fun ins hm => ?_)
    exact (h.inst_raw hm).symm
  have hc : (p.insts.map Inst.raw).map RawInst.canon = p.insts.map Inst.raw := by
    rw [map_map]
    exact map_congr_left fun ins hm => h.canon_raw hm
  have e := toBytes_raw hw hi
  rw [hc] at e
  exact ⟨_, hw, hi, e⟩

theorem decode_ok {b : List UInt8} (h : p.WellFormed) (hb : p.toBytes = .ok b) :
    Current b ∧ Program.decode b = .ok p := by
  obtain ⟨rs, hrs, hrp, e⟩ := h.exists_raw
  cases Except.ok.inj (e.symm.trans hb)
  exact decode_iff.mpr ⟨h.inTable, h.insts, h.counters, rs, hrs, hrp, prefix_refl _⟩

end Program.WellFormed

theorem decode_extend {b t : List UInt8} (hv : Current b)
    (hd : Program.decode b = .ok q) : Program.decode (b ++ t) = .ok q := by
  obtain ⟨h1, h2, h3, rs, hrs, he, hp⟩ := decode_iff.mp ⟨hv, hd⟩
  exact (decode_iff.mpr ⟨h1, h2, h3, rs, hrs, he, hp.trans (prefix_append b t)⟩).2

theorem length_toBytes_le {b b' : List UInt8} (hv : Current b)
    (hd : Program.decode b = .ok q) (hb : q.toBytes = .ok b') : b'.length ≤ b.length := by
  obtain ⟨-, -, -, rs, hrs, he, hp⟩ := decode_iff.mp ⟨hv, hd⟩
  cases Except.ok.inj ((toBytes_raw hrs he).symm.trans hb)
  have := hp.length_le
  simp only [length_append, length_rawBytes_canon] at this ⊢
  omega

theorem current_of_extend {b t : List UInt8} (hd : Program.decode b = .ok q)
    (hv : Current (b ++ t)) : Current b := by
  have hl : 20 ≤ b.length := by
    by_contra hc
    exact refuse_ok ((if_pos (show b.length < 20 by omega)).symm.trans hd)
  have h : Has b 4 (Pod.put (Pod.get (b.drop 4) : UInt16)) := Has.of_room (by show 4 + 2 ≤ _; omega)
  have e := (readPod_iff.mpr (h.extend t)).symm.trans hv
  show readPod UInt16 b 4 = .ok version
  rw [readPod_iff.mpr h]
  exact e

theorem decode_prefix {b b' : List UInt8} (h : p.WellFormed)
    (hb : p.toBytes = .ok b) (hp : b' <+: b) (hne : b' ≠ b) :
    ∃ why, Program.decode b' = .error (.refused why) := by
  cases hd : Program.decode b' with
  | error e =>
    cases e with
    | refused why => exact ⟨why, rfl⟩
    | outOfRange => exact absurd hd (decode_safe b')
  | ok q =>
    -- the whole stream then decodes to `q` too, which is `p` and needs all its bytes
    exfalso
    obtain ⟨t, rfl⟩ := hp
    obtain ⟨hv, hp⟩ := h.decode_ok hb
    have hv' := current_of_extend hd hv
    cases Except.ok.inj ((decode_extend hv' hd).symm.trans hp)
    have hl := length_toBytes_le hv' hd hb
    rw [length_append] at hl
    have ht : t = [] := length_eq_zero_iff.mp (by omega)
    exact hne (by rw [ht, append_nil])

/-- A well-formed program is written, read back as it was, and refused when cut short. -/
theorem decode_toBytes (p : Program) (h : p.WellFormed) :
    ∃ b, p.toBytes = .ok b ∧ Program.decode b = .ok p ∧
      ∀ b', b' <+: b → b' ≠ b → ∃ why, Program.decode b' = .error (.refused why) := by
  obtain ⟨rs, -, -, e⟩ := h.exists_raw
  exact ⟨_, e, (h.decode_ok e).2, fun b' hp hne => decode_prefix h e hp hne⟩

/-- a load, a row kernel with a derived flag, a GQA attention and a host record -/
def sampleProgram : Program where
  insts := [
    ⟨.dma, 1, 2, .dma true 4096 3 9 255 0, [], [0]⟩,
    ⟨.sm, 1, 3, .row true 1 2 3 1 64 5 0x8c ⟨[1, 2, 3, 4], rfl⟩, [0], [1, 0]⟩,
    ⟨.sm, 0, 4, .flash (0, 1) 16 512 128 64 64 24 4 0 7 9 0xc4, [1], []⟩,
    ⟨.host, 0, 0, .host, [], []⟩]
  counters := [⟨0, 1, 0, ⟨[0, 0, 0], pad_length⟩⟩, ⟨1, 1, 2, ⟨[0, 0, 7], rfl⟩⟩]
  bucketId := 77
  planGen := 3
  flags := 1

theorem decode_toBytes_sampleProgram :
    sampleProgram.WellFormed ∧ ∃ b, sampleProgram.toBytes = .ok b ∧
      Program.decode b = .ok sampleProgram ∧
      ∀ b', b' <+: b → b' ≠ b → ∃ why, Program.decode b' = .error (.refused why) := by
  have h : sampleProgram.WellFormed :=
    ⟨by decide, by decide, by decide, by decide, by decide, inTable_iff.mp (by decide)⟩
  exact ⟨h, decode_toBytes sampleProgram h⟩

end Plow.Packet
