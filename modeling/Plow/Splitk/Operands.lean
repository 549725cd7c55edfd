import Plow.Splitk.Checked

/-!
# The operands of a triple

`OperandsOrdered` asks of the executions of a list of entries that nothing writes a triple's
weight, that what writes its input is done before the compute instruction starts or starts after
it, and that what reads or writes its output is done before the compute instruction or starts after
the cast.  The checks look at the slots of `writeSlots` and at the `t` slots; `Unseen` is what the
rest has to satisfy, and `accepted_operands_ordered` says that nothing else is missing.
-/

namespace Plow.Splitk
open Plow.Lib List Relation

/-- `b` waits on `a`, by the entries of the static stream -/
def EntryWaits (g : Program) (a b : Nat) : Prop :=
  ∃ e ∈ g.stream, e.inst = b ∧ ∃ w ∈ waitsOf g e, w.id = a

/-- `b` transitively waits on `a` -/
def Follows (g : Program) (a b : Nat) : Prop := Relation.TransGen (EntryWaits g) a b

/-- `z`, `c` and `f` stand at `pc` and form a triple -/
def TripleAt (g : Program) (pc : Nat) (z c f : DevInst64) : Prop :=
  (g.insts[pc]? = some z ∧ z.op = opZ) ∧ (g.insts[pc + 1]? = some c ∧ c.op = opG) ∧
    g.insts[pc + 2]? = some f ∧ f.op = opF

/-- the operands that an instruction names in `t` or folded into its immediates -/
def operands (d : DevInst64) : List Nat := (List.finRange 8).map d.t ++ foldHandles d

def auditedStores (d : DevInst64) : List Nat :=
  match writeSlots d.op with
  | .ok slots => slots.map d.t
  | .error _ => []

def unseenStores (d : DevInst64) : List Nat := (stores d).filter (· ∉ auditedStores d)

def OperandsOrdered (g : Program) (es : List StreamEnt) : Prop :=
  ∀ pc z c f, TripleAt g pc z c f → ∀ j d, g.insts[j]? = some d →
    c.t 2 ∉ stores d ∧
    (c.t 1 ∈ stores d → ∀ l, Execution g es l →
      Precedes g es l j (pc + 1) ∨ Precedes g es l (pc + 1) j) ∧
    (f.t 0 ∈ operands d → ¬ (pc ≤ j ∧ j < pc + 3) → ∀ l, Execution g es l →
      Precedes g es l j (pc + 1) ∨ Precedes g es l (pc + 2) j)

/-- the accesses that the checks do not see leave the weight alone and are ordered by the waits -/
def Unseen (g : Program) : Prop :=
  ∀ pc z c f, TripleAt g pc z c f → ∀ j d, g.insts[j]? = some d →
    c.t 2 ∉ unseenStores d ∧
    (c.t 1 ∈ unseenStores d → Follows g j (pc + 1) ∨ Follows g (pc + 1) j) ∧
    (f.t 0 ∈ foldHandles d → ¬ (pc ≤ j ∧ j < pc + 3) → Follows g j (pc + 1) ∨ Follows g (pc + 2) j)

def decodePrograms (blob : Packet) : List Program := blob.programs.drop blob.prefillCount

variable {blob : Packet} {g : Program} {dep : List (List Nat)} {es : List StreamEnt}
  {pc j a b : Nat} {z c f d : DevInst64} {v : Validated}

theorem Accepted.waits_iff (h : Accepted g dep) : Waits dep a b ↔ EntryWaits g a b := by
  have hent : ∀ e ∈ g.stream, Waits dep a e.inst ↔ ∃ w ∈ waitsOf g e, w.id = a := by
    intro e he
    obtain ⟨i, hi⟩ := mem_iff_getElem?.mp he
    have := (coarse h h.stream).wait i (List.getElem?_eq_some_iff.mp hi).1 a
    rw [instOf_eq hi, net_wait hi, mem_map] at this
    exact this.symm
  constructor
  · intro hw
    obtain ⟨i, hi, hinst⟩ := h.inhabited h.stream (h.length ▸ hw.lt_length)
    have hget := getElem?_eq_getElem hi
    rw [instOf_eq hget] at hinst
    have hmem := getElem_mem hi
    exact ⟨_, hmem, hinst, (hent _ hmem).mp (hinst ▸ hw)⟩
  · rintro ⟨e, he, rfl, hw⟩
    exact (hent e he).mpr hw

theorem Accepted.follows_iff (h : Accepted g dep) :
    TransGen (Waits dep) a b ↔ Follows g a b := by
  have heq : Waits dep = EntryWaits g := by
    funext a b
    exact propext h.waits_iff
  rw [heq, Follows]

theorem Triple.of_at (h : Checked g dep) (ht : TripleAt g pc z c f) : Triple g dep pc z c f := by
  obtain ⟨⟨hz, hopz⟩, ⟨hc, -⟩, hf, -⟩ := ht
  obtain ⟨z', c', f', ht⟩ := h.triple pc (by rw [opAt_eq hz, hopz])
  have hz' := ht.getZ
  have hc' := ht.getG
  have hf' := ht.getF
  rw [hz] at hz'
  rw [hc] at hc'
  rw [hf] at hf'
  cases hz'
  cases hc'
  cases hf'
  exact ht

theorem Triple.at (h : Triple g dep pc z c f) : TripleAt g pc z c f :=
  ⟨⟨h.getZ, h.opZ⟩, ⟨h.getG, h.opG⟩, h.getF, h.opF⟩

theorem stores_compute (h : c.op = opG) : stores c = [c.t 0] := by
  unfold stores
  rw [h]
  rfl

theorem Triple.ne_compute (h : Triple g dep pc z c f) (hd : g.insts[j]? = some d)
    (ha : c.t 1 ∈ stores d) : j ≠ pc + 1 := by
  rintro rfl
  rw [h.getG] at hd
  cases hd
  rw [stores_compute h.opG, mem_singleton] at ha
  have hnd := h.distinct
  rw [ha] at hnd
  exact (nodup_cons.mp hnd).1 mem_cons_self

theorem Beside.follows {first last : Nat} (h : Beside dep pc first last j) (hpf : pc ≤ first)
    (hne : j ≠ last) :
    TransGen (Waits dep) j first ∨ TransGen (Waits dep) last j := by
  unfold Beside at h
  split at h
  · next hlt =>
    rcases reflTransGen_iff_eq_or_transGen.mp h with rfl | h
    · exact absurd hpf (Nat.not_le.mpr hlt)
    · exact Or.inl h
  · rcases reflTransGen_iff_eq_or_transGen.mp h with rfl | h
    · exact absurd rfl hne
    · exact Or.inr h

theorem Triple.after_compute (h : Triple g dep pc z c f)
    (hj : TransGen (Waits dep) (pc + 1) j) (hne : j ≠ pc + 2) :
    TransGen (Waits dep) (pc + 2) j := by
  obtain ⟨x, hx, hxj⟩ := TransGen.head'_iff.mp hj
  rw [h.onlyF x hx] at hxj
  rcases reflTransGen_iff_eq_or_transGen.mp hxj with rfl | hxj
  · exact absurd rfl hne
  · exact hxj

theorem audited_of_access {w out : Nat} (h : Access dep pc a w out j d) :
    w ∉ auditedStores d ∧ (a ∈ auditedStores d → Beside dep pc (pc + 1) (pc + 1) j) := by
  obtain ⟨slots, hslots, hw, ha⟩ := h.audited
  unfold auditedStores
  rw [hslots]
  refine ⟨fun hm => ?_, fun hm => ?_⟩
  · obtain ⟨s, hs, he⟩ := mem_map.mp hm
    exact hw s hs he
  · obtain ⟨s, hs, he⟩ := mem_map.mp hm
    exact ha ⟨s, hs, he⟩

/-- The accesses that the checks see, and those they do not see, are ordered. -/
theorem Checked.operandsOrdered (h : Checked g dep) (hes : Gated g (dep.map some) es)
    (hu : Unseen g) : OperandsOrdered g es := by
  intro pc z c f hat j d hd
  have ht := Triple.of_at h hat
  obtain ⟨hw, hin, hout⟩ := hu pc z c f hat j d hd
  obtain ⟨haw, hain⟩ := audited_of_access (ht.access j d hd)
  have hmem : ∀ x ∈ stores d, x ∈ auditedStores d ∨ x ∈ unseenStores d := by
    intro x hx
    by_cases hax : x ∈ auditedStores d
    · exact Or.inl hax
    · exact Or.inr (mem_filter.mpr ⟨hx, decide_eq_true hax⟩)
  have hprec : ∀ {first last : Nat} {l : List ExecState}, Execution g es l →
      TransGen (Waits dep) j first ∨ TransGen (Waits dep) last j →
      Precedes g es l j first ∨ Precedes g es l last j := fun hl =>
    Or.imp (precedes h.accepted hes hl) (precedes h.accepted hes hl)
  refine ⟨fun hm => ?_, fun hm l hl => ?_, fun hm hnot l hl => ?_⟩
  · exact (hmem _ hm).elim haw hw
  · apply hprec hl
    rcases hmem _ hm with hm' | hm'
    · exact (hain hm').follows (Nat.le_succ pc) (ht.ne_compute hd hm)
    · exact (hin hm').imp h.accepted.follows_iff.mpr h.accepted.follows_iff.mpr
  · apply hprec hl
    rcases mem_append.mp hm with hm' | hm'
    · obtain ⟨s, -, hs⟩ := mem_map.mp hm'
      exact ((ht.access j d hd).output ⟨s, hs⟩ hnot).follows (Nat.le_succ pc) (by omega)
    · exact (hout hm' hnot).imp h.accepted.follows_iff.mpr h.accepted.follows_iff.mpr

/-- In an execution of the static stream two accesses are ordered only if the waits order them. -/
theorem Checked.unseen (h : Checked g dep) (ho : OperandsOrdered g g.stream) : Unseen g := by
  intro pc z c f hat j d hd
  have ht := Triple.of_at h hat
  obtain ⟨hw, hin, hout⟩ := ho pc z c f hat j d hd
  have hself : ∀ k, ¬ TransGen (Waits dep) k k := fun k hk =>
    Nat.lt_irrefl k (h.accepted.descends.lt hk)
  have hj := (List.getElem?_eq_some_iff.mp hd).1
  have hc := (List.getElem?_eq_some_iff.mp ht.getG).1
  have hf := (List.getElem?_eq_some_iff.mp ht.getF).1
  refine ⟨fun hm => hw (mem_filter.mp hm).1, fun hm => ?_, fun hm hnot => ?_⟩
  · have hst := (mem_filter.mp hm).1
    by_contra hno
    obtain ⟨h1, h2⟩ := not_or.mp hno
    rw [← h.accepted.follows_iff] at h1 h2
    obtain ⟨l, hl, hover⟩ := overlap h.accepted h.accepted.stream hj hc (ht.ne_compute hd hst) h1 h2
    rcases hin hst l hl with hp | hp
    · exact (hover j hj (hself j) h1).2 hp
    · exact (hover (pc + 1) hc h2 (hself _)).1 hp
  · by_contra hno
    obtain ⟨h1, h2⟩ := not_or.mp hno
    rw [← h.accepted.follows_iff] at h1 h2
    have h3 : ¬ TransGen (Waits dep) (pc + 1) j := fun hcj =>
      h2 (ht.after_compute hcj (by omega))
    obtain ⟨l, hl, hover⟩ := overlap h.accepted h.accepted.stream hj hc (by omega) h1 h3
    rcases hout (mem_append_right _ hm) hnot l hl with hp | hp
    · exact (hover j hj (hself j) h1).2 hp
    · have h4 : ¬ TransGen (Waits dep) (pc + 2) (pc + 1) := fun hfc =>
        absurd (h.accepted.descends.lt hfc) (by omega)
      exact (hover (pc + 2) hf h2 h4).1 hp

/-! ### Packets -/

/-- What is known of an accepted packet. -/
structure AcceptedPacket (blob : Packet) (v : Validated) : Prop where
  program : ∀ g ∈ decodePrograms blob, ∃ dep, dependencies g = .ok dep ∧ Checked g dep
  scratch : ∀ pi p, blob.programs[pi]? = some p → ∀ d ∈ p.insts, ∀ slot,
    (∃ g ∈ decodePrograms blob, ∃ pc, ZeroAt g pc (d.t slot)) → blob.prefillCount ≤ pi ∧
      (((d.op = opZ ∨ d.op = opG) ∧ slot = 0) ∨ (d.op = opF ∧ slot = 1))
  canonical : (decodePrograms blob).mapM canonical = .ok v.canonical

theorem decode_ok {used : List Nat}
    (h : (decodePrograms blob).foldlM (decodeOne blob) [] = .ok used) :
    (∀ g ∈ decodePrograms blob, ∃ dep, dependencies g = .ok dep ∧ Checked g dep) ∧
      ∀ h, h ∈ used ↔ ∃ g ∈ decodePrograms blob, ∃ pc, ZeroAt g pc h := by
  refine exceptFoldlM_ind (P := fun done used =>
    (∀ g ∈ done, ∃ dep, dependencies g = .ok dep ∧ Checked g dep) ∧
      ∀ h, h ∈ used ↔ ∃ g ∈ done, ∃ pc, ZeroAt g pc h) h
    ⟨nofun, fun h => ⟨fun hh => absurd hh not_mem_nil,
      fun ⟨g, hg, _⟩ => absurd hg not_mem_nil⟩⟩ ?_
  intro done g used used' _ ⟨h1, h2⟩ hf
  obtain ⟨_, -, hf⟩ := bind_ok.mp hf
  obtain ⟨_, -, hf⟩ := bind_ok.mp hf
  obtain ⟨dep, hdep, hc, hused⟩ := validateProgram_ok hf
  refine ⟨fun g' hg' => ?_, fun h => ?_⟩
  · rcases mem_append.mp hg' with hg' | hg'
    · exact h1 g' hg'
    · rw [mem_singleton.mp hg']
      exact ⟨dep, hdep, hc⟩
  · rw [hused, h2]
    constructor
    · rintro (⟨g', hg', hz⟩ | hz)
      · exact ⟨g', mem_append_left _ hg', hz⟩
      · exact ⟨g, mem_append_right _ (mem_singleton_self g), hz⟩
    · rintro ⟨g', hg', hz⟩
      rcases mem_append.mp hg' with hg' | hg'
      · exact Or.inl ⟨g', hg', hz⟩
      · exact Or.inr (mem_singleton.mp hg' ▸ hz)

theorem validate_ok (h : validate blob = .ok (some v)) : AcceptedPacket blob v := by
  unfold validate at h
  split at h
  · cases h
  · obtain ⟨_, -, h⟩ := bind_ok.mp h
    obtain ⟨_, -, h⟩ := bind_ok.mp h
    obtain ⟨_, -, h⟩ := bind_ok.mp h
    obtain ⟨used, hused, h⟩ := bind_ok.mp h
    obtain ⟨_, hscratch, h⟩ := bind_ok.mp h
    obtain ⟨_, -, h⟩ := bind_ok.mp h
    obtain ⟨_, -, h⟩ := bind_ok.mp h
    obtain ⟨_, -, h⟩ := bind_ok.mp h
    obtain ⟨_, -, h⟩ := bind_ok.mp h
    obtain ⟨canon, hcanon, h⟩ := bind_ok.mp h
    cases pure_ok.mp h
    obtain ⟨hprog, hmem⟩ := decode_ok hused
    refine ⟨hprog, fun pi p hp d hd slot hz => ?_, hcanon⟩
    have hone := forM_ok.mp hscratch (p, pi) (mem_zipIdx_iff_getElem?.mpr hp)
    have hone := forM_ok.mp (forM_ok.mp hone d hd) slot (mem_finRange slot)
    unfold scratchSlot at hone
    rw [if_pos ((hmem _).mpr hz)] at hone
    exact check_ok.mp hone

/-- The operands of an accepted packet's triples are ordered in every execution exactly when the
accesses that the checks do not see are ordered by the waits. -/
theorem accepted_operands_ordered (h : validate blob = .ok (some v)) :
    (∀ g ∈ decodePrograms blob, ∀ es, es = g.stream ∨ es = g.gqStream → OperandsOrdered g es) ↔
      ∀ g ∈ decodePrograms blob, Unseen g := by
  have hp := validate_ok h
  constructor
  · intro ho g hg
    obtain ⟨dep, -, hc⟩ := hp.program g hg
    exact hc.unseen (ho g hg g.stream (Or.inl rfl))
  · rintro hu g hg es (rfl | rfl)
    · obtain ⟨dep, -, hc⟩ := hp.program g hg
      exact hc.operandsOrdered hc.accepted.stream (hu g hg)
    · obtain ⟨dep, -, hc⟩ := hp.program g hg
      exact hc.operandsOrdered hc.accepted.queue (hu g hg)

/-! ### A fold beside a triple -/

/-- one triple and, waiting on nothing, a `gemv` with the tensor `folded` in its immediates -/
def besideProgram (norm folded : Nat) : Program where
  rows := 4
  packedSibling := false
  nCounter := 4
  insts := [⟨opZ, 1, fun _ => 0, ![3, 65535, 65535, 65535, 65535, 65535, 65535, 65535],
      ![4, 1, 0, 0, 0, 0, 0, 0]⟩,
    ⟨opG, 1, fun _ => 0, ![3, 0, 1, 65535, 65535, 65535, 65535, 65535], ![4, 1, 8, 1, 0, 0, 0, 0]⟩,
    ⟨opF, 1, fun _ => 0, ![2, 3, 65535, 65535, 65535, 65535, 65535, 65535],
      ![4, 1, 0, 0, 0, 0, 0, 0]⟩,
    ⟨opGemv, 1, fun _ => 0, ![4, 5, 1, 6, 65535, 65535, 65535, 65535], ![4, 1, 8, norm, 0, folded, 0, 5]⟩]
  stream := [⟨0, 0, 0, 0, 0, 1, 0, 0⟩, ⟨1, 0, 0, 1, 1, 1, 0, 0⟩, ⟨2, 0, 1, 2, 1, 1, 0, 0⟩,
    ⟨3, 0, 2, 3, 0, 1, 0, 0⟩]
  streamOfs := [0]
  streamLen := [4]
  waits := [⟨0, 1⟩, ⟨1, 1⟩]
  succs := [0, 1, 2, 3]
  gqStream := [⟨0, 0, 0, 0, 0, 1, 0, 0⟩, ⟨1, 0, 0, 1, 1, 1, 0, 0⟩, ⟨2, 0, 1, 2, 1, 1, 0, 0⟩,
    ⟨3, 0, 2, 3, 0, 1, 0, 0⟩]
  gqSegOfs := [0, 4]
  l2Domains := 0

def beside (norm folded : Nat) : Packet where
  nCu := 1
  tp := false
  prefillCount := 0
  tensors := [⟨"act.a".toList, 64, false⟩, ⟨"w".toList, 16, false⟩, ⟨"act.c".toList, 8, false⟩,
    ⟨"act.p".toList, 16, false⟩, ⟨"act.x".toList, 64, false⟩, ⟨"act.y".toList, 64, false⟩,
    ⟨"act.z".toList, 64, false⟩]
  programs := [besideProgram norm folded]
  generated := []
  kvRowInsts := []

def accepts (blob : Packet) : Bool :=
  match validate blob with
  | .ok (some _) => true
  | _ => false

theorem accepts_iff : accepts blob = true ↔ ∃ v, validate blob = .ok (some v) := by
  unfold accepts
  split
  · next v hv => exact iff_of_true rfl ⟨v, hv⟩
  · next hno => exact iff_of_false (fun h => nomatch h) fun ⟨v, hv⟩ => hno v hv

theorem accepts_beside : accepts (beside 4 2) = true := by decide

theorem not_unseen_beside : ¬ Unseen (besideProgram 4 2) := by
  intro hu
  obtain ⟨-, -, hout⟩ := hu 0 _ _ _ ⟨⟨rfl, rfl⟩, ⟨rfl, rfl⟩, rfl, rfl⟩ 3 _ rfl
  have hnone : ∀ {a b}, EntryWaits (besideProgram 4 2) a b → (a, b) ∈ [(0, 1), (1, 2)] := by
    rintro a b ⟨e, he, rfl, w, hw, rfl⟩
    have : ∀ e ∈ (besideProgram 4 2).stream, ∀ w ∈ waitsOf (besideProgram 4 2) e,
        (w.id, e.inst) ∈ [(0, 1), (1, 2)] := by decide
    exact this e he w hw
  rcases hout (by decide) (by omega) with h | h
  · obtain ⟨x, hx, -⟩ := TransGen.head'_iff.mp h
    have := hnone hx
    simp at this
  · obtain ⟨x, -, hx⟩ := TransGen.tail'_iff.mp h
    have := hnone hx
    simp at this

/-- An accepted packet in which a fold may read the output while it is being computed. -/
theorem accepted_fold_unordered : ∃ v, validate (beside 4 2) = .ok (some v) ∧
    ∃ g ∈ decodePrograms (beside 4 2), ¬ OperandsOrdered g g.stream := by
  obtain ⟨v, hv⟩ := accepts_iff.mp accepts_beside
  refine ⟨v, hv, besideProgram 4 2, mem_singleton_self _, fun ho => ?_⟩
  obtain ⟨dep, -, hc⟩ := (validate_ok hv).program _ (mem_singleton_self _)
  exact not_unseen_beside (hc.unseen ho)

theorem accepted_operands_ordered_beside : ∃ v, validate (beside 0 2) = .ok (some v) ∧
    ((∀ g ∈ decodePrograms (beside 0 2), ∀ es, es = g.stream ∨ es = g.gqStream →
      OperandsOrdered g es) ↔ ∀ g ∈ decodePrograms (beside 0 2), Unseen g) := by
  obtain ⟨v, hv⟩ := accepts_iff.mp (show accepts (beside 0 2) = true by decide)
  exact ⟨v, hv, accepted_operands_ordered hv⟩

end Plow.Splitk
