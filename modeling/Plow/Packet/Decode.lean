import Plow.Packet.Raw

/-!
# What the decoder accepts

`decode_iff`: on a stream of the current version, `decode` returns `p` if and only if the bytes
are the stream header of `p`, raw records with the meaning of `p.insts`, the counter table of `p`
and anything behind it, and the ids of `p` are in its table.  `decode_safe`: on no bytes, of any
version, does `decode` read outside of them.
-/

namespace Plow.Packet
open Plow.Lib List

/-! ### No read outside the stream -/

def Safe {α : Type} (x : Res α) : Prop := x ≠ .error .outOfRange

namespace Safe
variable {α β : Type} {x : Res α} {f : α → Res β} {why : String}

theorem ok (a : α) : Safe (.ok a : Res α) := fun h => nomatch h

theorem refuse : Safe (refuse why : Res α) := fun h => nomatch h

theorem okOr (o : Option α) : Safe (okOr o why) := by
  cases o with
  | none => exact refuse
  | some a => exact ok a

theorem bind (hx : Safe x) (hf : ∀ a, x = .ok a → Safe (f a)) : Safe (x >>= f) := by
  cases x with
  | error e => exact fun h => hx (by cases h; rfl)
  | ok a => exact hf a rfl

theorem ite {c : Prop} [Decidable c] {x y : Res α} (hx : c → Safe x) (hy : ¬ c → Safe y) :
    Safe (if c then x else y) := by
  split
  · next h => exact hx h
  · next h => exact hy h

theorem struct (o : Option α) (f : α → β) : Safe (Plow.Packet.okOr o why >>= fun r => pure (f r)) :=
  bind (okOr o) fun _ _ => ok _

end Safe

section
variable {b : List UInt8} {i n : Nat} {v : UInt16}

theorem readPod_safe {α : Type} [Pod α] (h : i + Pod.size α ≤ b.length) : Safe (readPod α b i) := by
  rw [readPod_room h]
  exact Safe.ok _

theorem readIds_safe {what : String} : Safe (readIds b i n what) := by
  refine Safe.bind (Safe.okOr _) fun m hm => Safe.ite (fun _ => Safe.refuse) fun h => ?_
  have e : m = n * 4 := by
    have := okOr_ok.mp hm
    unfold checkedMul at this
    split at this <;> simp_all
  have hr : i + n * Pod.size UInt32 ≤ b.length := by show i + n * 4 ≤ _; omega
  refine Safe.bind ?_ fun _ _ => Safe.ok _
  exact (mapM_readPod (α := UInt32) hr) ▸ Safe.ok _

theorem readCounters_safe : Safe (readCounters b i n) := by
  refine Safe.bind (Safe.okOr _) fun m hm => Safe.ite (fun _ => Safe.refuse) fun h => ?_
  have e : m = n * Pod.size Counter := by
    have := okOr_ok.mp hm
    unfold checkedMul at this
    split at this <;> simp_all
  have hr : i + n * Pod.size Counter ≤ b.length := by omega
  exact (mapM_readPod (α := Counter) hr) ▸ Safe.ok _

theorem tryRead_safe {op : Opcode} : Safe (Body.tryRead op b i v) := by
  unfold Body.tryRead
  refine Safe.ite (fun _ => Safe.struct _ _) fun _ => ?_
  refine Safe.ite (fun _ => Safe.struct _ _) fun _ => ?_
  refine Safe.ite (fun _ => Safe.struct _ _) fun _ => ?_
  refine Safe.ite (fun _ => Safe.ite (fun _ => Safe.struct _ _) fun _ => ?_) fun _ => ?_
  · exact Safe.bind (Safe.okOr _) fun _ _ => Safe.ite (fun _ => Safe.refuse) fun _ => Safe.ok _
  refine Safe.ite (fun _ => Safe.ite (fun _ => Safe.struct _ _) fun _ => Safe.struct _ _) fun _ => ?_
  refine Safe.ite (fun _ => Safe.ite (fun _ => Safe.struct _ _) fun _ => Safe.struct _ _) fun _ => ?_
  exact Safe.ite (fun _ => Safe.struct _ _) fun _ => Safe.ok _

theorem readHeader_safe : Safe (readHeader b i v) := by
  refine Safe.ite (fun _ => Safe.struct _ _) fun _ => Safe.ite (fun _ => Safe.refuse) fun h => ?_
  have h8 : i + 8 ≤ b.length := by
    have : ¬ i + 8 > b.length := h
    omega
  -- the reads of the 8-byte header end at the offsets 2, 3, 4, 6, 7 and 8
  refine Safe.bind (readPod_safe (by show i + 2 ≤ _; omega)) fun _ _ => ?_
  refine Safe.bind (readPod_safe (by show i + 2 + 1 ≤ _; omega)) fun _ _ => ?_
  refine Safe.bind (readPod_safe (by show i + 3 + 1 ≤ _; omega)) fun _ _ => ?_
  refine Safe.bind (readPod_safe (by show i + 4 + 2 ≤ _; omega)) fun _ _ => ?_
  refine Safe.bind (readPod_safe (by show i + 6 + 1 ≤ _; omega)) fun _ _ => ?_
  exact Safe.bind (readPod_safe (by show i + 7 + 1 ≤ _; omega)) fun _ _ => Safe.ok _

theorem readInst_safe : Safe (readInst b i v) := by
  refine Safe.bind readHeader_safe fun _ _ => ?_
  refine Safe.bind tryRead_safe fun _ _ => ?_
  refine Safe.bind readIds_safe fun _ _ => ?_
  exact Safe.bind readIds_safe fun _ _ => Safe.ok _

theorem readInsts_safe : Safe (readInsts b v n i) := by
  induction n generalizing i with
  | zero => exact Safe.ok _
  | succ n ih =>
    refine Safe.bind readInst_safe fun _ _ => ?_
    exact Safe.bind ih fun _ _ => Safe.ok _

end

theorem decode_safe (b : List UInt8) : Safe (Program.decode b) := by
  refine Safe.ite (fun _ => Safe.refuse) fun h => ?_
  have h20 : 20 ≤ b.length := by
    have : ¬ b.length < 20 := h
    omega
  refine Safe.bind (readPod_safe (by show 0 + 4 ≤ _; omega)) fun _ _ => ?_
  refine Safe.ite (fun _ => Safe.refuse) fun _ => ?_
  refine Safe.bind (readPod_safe (by show 4 + 2 ≤ _; omega)) fun _ _ => ?_
  refine Safe.ite (fun _ => Safe.refuse) fun _ => ?_
  refine Safe.bind (readPod_safe (by show 6 + 2 ≤ _; omega)) fun _ _ => ?_
  refine Safe.bind (readPod_safe (by show 8 + 4 ≤ _; omega)) fun _ _ => ?_
  refine Safe.bind (readPod_safe (by show 12 + 4 ≤ _; omega)) fun _ _ => ?_
  refine Safe.bind (readPod_safe (by show 16 + 2 ≤ _; omega)) fun _ _ => ?_
  refine Safe.bind (readPod_safe (by show 18 + 2 ≤ _; omega)) fun _ _ => ?_
  refine Safe.bind readInsts_safe fun _ _ => ?_
  refine Safe.bind readCounters_safe fun _ _ => ?_
  exact Safe.ite (fun _ => Safe.refuse) fun _ => Safe.ok _

/-! ### The stream header -/

abbrev StreamHeader := UInt32 × UInt16 × UInt16 × UInt32 × UInt32 × UInt16 × UInt16

def Program.fields (p : Program) : StreamHeader :=
  (magic, version, p.bucketId, UInt32.ofNat p.insts.length, UInt32.ofNat p.counters.length,
    p.planGen, p.flags)

theorem streamHeader_eq (p : Program) : p.streamHeader = Pod.put p.fields := by
  simp only [Program.streamHeader, append_assoc]
  rfl

/-- what `decode` does behind the stream header -/
def decodeBody (b : List UInt8) (v bucketId : UInt16) (nInsts nCounters : UInt32)
    (planGen flags : UInt16) : Res Program := do
  let (insts, i) ← readInsts b v nInsts.toNat streamHeaderSize
  let counters ← readCounters b i nCounters.toNat
  if insts.any (fun ins => (ins.wait ++ ins.succ).any
      (fun id => id.toNat ≥ idBound counters)) then
    refuse "counter id out of range"
  else pure ⟨insts, counters, bucketId, planGen, flags⟩

variable {b : List UInt8} {p : Program}

theorem decode_put {h : StreamHeader} (hb : Has b 0 (Pod.put h)) :
    Program.decode b =
      if h.1 ≠ magic then refuse "bad magic"
      else if ¬ (minVersion ≤ h.2.1 ∧ h.2.1 ≤ version) then refuse "bad version"
      else decodeBody b h.2.1 h.2.2.1 h.2.2.2.1 h.2.2.2.2.1 h.2.2.2.2.2.1 h.2.2.2.2.2.2 := by
  obtain ⟨m, v, bid, ni, nc, pg, fl⟩ := h
  have hl : ¬ b.length < streamHeaderSize := by
    have := hb.room
    show ¬ b.length < 20
    have : 0 + 20 ≤ b.length := this
    omega
  have hp : Has b 0 (Pod.put m ++ (Pod.put v ++ (Pod.put bid ++ (Pod.put ni ++ (Pod.put nc ++
    (Pod.put pg ++ Pod.put fl)))))) := hb
  simp only [Has.append_iff, Pod.length_put] at hp
  obtain ⟨h1, h2, h3, h4, h5, h6, h7⟩ := hp
  have r1 : readPod UInt32 b 0 = .ok m := readPod_iff.mpr h1
  have r2 : readPod UInt16 b 4 = .ok v := readPod_iff.mpr h2
  have r3 : readPod UInt16 b 6 = .ok bid := readPod_iff.mpr h3
  have r4 : readPod UInt32 b 8 = .ok ni := readPod_iff.mpr h4
  have r5 : readPod UInt32 b 12 = .ok nc := readPod_iff.mpr h5
  have r6 : readPod UInt16 b 16 = .ok pg := readPod_iff.mpr h6
  have r7 : readPod UInt16 b 18 = .ok fl := readPod_iff.mpr h7
  unfold Program.decode decodeBody
  rw [if_neg hl, r1, r2, r3, r4, r5, r6, r7]
  rfl

/-! ### The ids are in the table -/

def Program.InTable (p : Program) : Prop :=
  ∀ ins ∈ p.insts, ∀ id ∈ ins.wait ++ ins.succ, ∃ c ∈ p.counters, id ≤ c.id

theorem lt_idBound {cs : List Counter} {id : UInt32} :
    id.toNat < idBound cs ↔ ∃ c ∈ cs, id ≤ c.id := by
  unfold idBound
  cases hm : (cs.map fun c => c.id.toNat + 1).max? with
  | none =>
    rw [max?_eq_none_iff, map_eq_nil_iff] at hm
    simp [hm]
  | some m =>
    obtain ⟨h1, h2⟩ := max?_eq_some_iff.mp hm
    obtain ⟨c, hc, rfl⟩ := mem_map.mp h1
    constructor
    · intro h
      exact ⟨c, hc, UInt32.le_iff_toNat_le.mpr (by simpa [Nat.lt_succ_iff] using h)⟩
    · rintro ⟨d, hd, hle⟩
      have e1 := h2 _ (mem_map.mpr ⟨d, hd, rfl⟩)
      have e2 := UInt32.le_iff_toNat_le.mp hle
      simp only [Option.getD_some]
      omega

theorem inTable_iff : p.insts.any (fun ins => (ins.wait ++ ins.succ).any
      (fun id => id.toNat ≥ idBound p.counters)) = false ↔ p.InTable := by
  simp only [any_eq_false, decide_eq_true_eq, any_eq_true, not_exists, not_and, ge_iff_le,
    Nat.not_le, lt_idBound, Program.InTable]

theorem decodeBody_iff {bid pg fl : UInt16} {ni nc : UInt32}
    (hb : 20 ≤ b.length) : decodeBody b version bid ni nc pg fl = .ok p ↔
      (p.bucketId = bid ∧ p.planGen = pg ∧ p.flags = fl) ∧ p.InTable ∧
        p.insts.length = ni.toNat ∧ p.counters.length = nc.toNat ∧
        ∃ rs : List RawInst, (∀ r ∈ rs, r.Wf) ∧ p.insts = rs.map RawInst.inst ∧
          Has b 20 (rawBytes rs ++ Pod.puts p.counters) := by
  constructor
  · intro e
    obtain ⟨⟨insts, j⟩, e1, e⟩ := bind_ok.mp e
    obtain ⟨rs, hn, hrs, rfl, rfl, h1⟩ := (readInsts_iff hb).mp e1
    obtain ⟨cs, e2, e⟩ := bind_ok.mp e
    obtain ⟨hc, h2⟩ := (readCounters_iff (UInt32.toNat_lt _)).mp e2
    split at e
    · exact absurd e refuse_ok
    · next hid =>
      cases pure_ok.mp e
      refine ⟨⟨rfl, rfl, rfl⟩, ?_, ?_, hc, rs, hrs, rfl, ?_⟩
      · exact inTable_iff.mp (Bool.eq_false_iff.mpr hid)
      · rw [length_map, hn]
      · exact Has.append_iff.mpr ⟨h1, h2⟩
  · rintro ⟨⟨rfl, rfl, rfl⟩, ht, hn, hc, rs, hrs, he, h⟩
    obtain ⟨h1, h2⟩ := Has.append_iff.mp h
    rw [he, length_map] at hn
    refine bind_ok.mpr ⟨_, (readInsts_iff hb).mpr ⟨rs, hn, hrs, rfl, rfl, h1⟩, ?_⟩
    refine bind_ok.mpr ⟨_, (readCounters_iff (UInt32.toNat_lt _)).mpr ⟨hc, h2⟩, ?_⟩
    have hid := inTable_iff.mpr ht
    rw [he] at hid
    rw [if_neg (by rw [hid]; exact Bool.false_ne_true), ← he]
    rfl

theorem current_ok : ¬ ¬ (minVersion ≤ version ∧ version ≤ version) := by decide

def Current (b : List UInt8) : Prop := readPod UInt16 b 4 = .ok version

theorem decode_iff : Current b ∧ Program.decode b = .ok p ↔
      p.InTable ∧ p.insts.length < 2 ^ 32 ∧ p.counters.length < 2 ^ 32 ∧
        ∃ rs : List RawInst, (∀ r ∈ rs, r.Wf) ∧ p.insts = rs.map RawInst.inst ∧
          p.streamHeader ++ (rawBytes rs ++ Pod.puts p.counters) <+: b := by
  constructor
  · rintro ⟨hv, e⟩
    have hl : 20 ≤ b.length := by
      by_contra hc
      exact refuse_ok ((if_pos (show b.length < 20 by omega)).symm.trans e)
    have hh : Has b 0 (Pod.put (Pod.get (b.drop 0) : StreamHeader)) :=
      Has.of_room (by show 0 + 20 ≤ _; omega)
    generalize hf : (Pod.get (b.drop 0) : StreamHeader) = f at hh
    obtain ⟨m, v, bid, ni, nc, pg, fl⟩ := f
    rw [decode_put hh] at e
    have hv' : v = version := by
      have h0 : Has b 0 (Pod.put m ++ (Pod.put v ++ Pod.put (bid, ni, nc, pg, fl))) := hh
      rw [Has.append_iff, Has.append_iff, Pod.length_put] at h0
      exact Except.ok.inj ((readPod_iff.mpr h0.2.1).symm.trans hv)
    subst hv'
    split at e
    · exact absurd e refuse_ok
    · next hm =>
      rw [if_neg current_ok] at e
      have hm : m = magic := not_not.mp hm
      subst hm
      obtain ⟨⟨rfl, rfl, rfl⟩, ht, hn, hc, rs, hrs, he, hb⟩ := (decodeBody_iff hl).mp e
      refine ⟨ht, hn ▸ UInt32.toNat_lt _, hc ▸ UInt32.toNat_lt _, rs, hrs, he, ?_⟩
      have hfields : p.fields = (magic, version, p.bucketId, ni, nc, p.planGen, p.flags) := by
        rw [Program.fields, hn, hc, UInt32.ofNat_toNat, UInt32.ofNat_toNat]
      rw [streamHeader_eq, hfields, ← Has.zero_iff, Has.append_iff, Pod.length_put]
      exact ⟨hh, hb⟩
  · rintro ⟨ht, hn, hc, rs, hrs, he, hp⟩
    rw [streamHeader_eq, ← Has.zero_iff, Has.append_iff, Pod.length_put] at hp
    obtain ⟨hh, hb⟩ := hp
    constructor
    · have h0 : Has b 0 (Pod.put magic ++ (Pod.put version ++ Pod.put p.fields.2.2)) := hh
      rw [Has.append_iff, Has.append_iff, Pod.length_put] at h0
      exact readPod_iff.mpr h0.2.1
    · have hm : ¬ p.fields.1 ≠ magic := not_not.mpr rfl
      rw [decode_put hh, if_neg hm]
      refine (if_neg current_ok).trans ?_
      refine (decodeBody_iff hh.room).mpr ⟨⟨rfl, rfl, rfl⟩, ht, ?_, ?_, rs, hrs, he, hb⟩
      · exact (UInt32.toNat_ofNat_of_lt' hn).symm
      · exact (UInt32.toNat_ofNat_of_lt' hc).symm

end Plow.Packet
