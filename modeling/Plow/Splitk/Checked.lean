import Plow.Splitk.Execution

/-!
# What an accepted packet has

`Triple` is what the checks of one triple establish, `Checked` what the loop over a program does:
every zero instruction opens a triple, every compute and every cast instruction belongs to one, and
of two triples with one partial tensor the later waits on the earlier one's cast.  `validate_ok`
has this for every decode program of an accepted packet, with the operands that may name a partial
tensor.
-/

namespace Plow.Splitk
open Plow.Lib List

/-- By the wait sets, `other` comes before `first` or after `last`: before if it stands before
`pc`. -/
def Beside (dep : List (List Nat)) (pc first last other : Nat) : Prop :=
  if other < pc then Relation.ReflTransGen (Waits dep) other first
  else Relation.ReflTransGen (Waits dep) last other

/-- What is known of the accesses of instruction `other` beside the triple at `pc`. -/
structure Access (dep : List (List Nat)) (pc a w out other : Nat) (d : DevInst64) : Prop where
  audited : ∃ slots, writeSlots d.op = .ok slots ∧ (∀ s ∈ slots, d.t s ≠ w) ∧
    ((∃ s ∈ slots, d.t s = a) → Beside dep pc (pc + 1) (pc + 1) other)
  output : (∃ s, d.t s = out) → ¬ (pc ≤ other ∧ other < pc + 3) →
    Beside dep pc (pc + 1) (pc + 2) other

/-- The triple `z`, `c`, `f` at `pc`. -/
structure Triple (g : Program) (dep : List (List Nat)) (pc : Nat) (z c f : DevInst64) : Prop where
  getZ : g.insts[pc]? = some z
  getG : g.insts[pc + 1]? = some c
  getF : g.insts[pc + 2]? = some f
  opZ : z.op = opZ
  opG : c.op = opG
  opF : f.op = opF
  zero : ∀ w, c.fj w = 0
  partZ : z.t 0 = c.t 0
  partF : f.t 1 = c.t 0
  absentZ : absentFrom z 1
  absentG : absentFrom c 3
  absentF : absentFrom f 2
  distinct : [c.t 0, c.t 1, c.t 2, f.t 0].Nodup
  given : tensorNone16 ∉ [c.t 0, c.t 1, c.t 2, f.t 0]
  waitsZ : Waits dep pc (pc + 1)
  waitsF : dep[pc + 2]? = some [pc + 1]
  access : ∀ other d, g.insts[other]? = some d → Access dep pc (c.t 1) (c.t 2) (f.t 0) other d
  onlyG : ∀ consumer, Waits dep pc consumer → consumer = pc + 1
  onlyF : ∀ consumer, Waits dep (pc + 1) consumer → consumer = pc + 2

variable {blob : Packet} {g : Program} {dep : List (List Nat)} {scan scan' : Scan}
  {pc other a w out fuel part op : Nat} {z c f d : DevInst64} {used used' : List Nat}

theorem tripleShape_ok (h : tripleShape blob g z c f = .ok ()) :
    (z.op = opZ ∧ c.op = opG ∧ f.op = opF) ∧ (∀ w, c.fj w = 0) ∧
      (absentFrom z 1 ∧ absentFrom c 3 ∧ absentFrom f 2) ∧
      ([c.t 0, c.t 1, c.t 2, f.t 0].Nodup ∧ tensorNone16 ∉ [c.t 0, c.t 1, c.t 2, f.t 0]) ∧
      z.t 0 = c.t 0 ∧ f.t 1 = c.t 0 := by
  obtain ⟨_, hops, h⟩ := bind_ok.mp h
  obtain ⟨_, -, h⟩ := bind_ok.mp h
  obtain ⟨_, -, h⟩ := bind_ok.mp h
  obtain ⟨_, -, h⟩ := bind_ok.mp h
  obtain ⟨_, hwords, h⟩ := bind_ok.mp h
  obtain ⟨_, habsent, h⟩ := bind_ok.mp h
  obtain ⟨_, hhandles, h⟩ := bind_ok.mp h
  obtain ⟨_, hpart, -⟩ := bind_ok.mp h
  have hc : c ∈ [z, c, f] := mem_cons_of_mem _ mem_cons_self
  exact ⟨check_ok.mp hops, (check_ok.mp hwords c hc).2, check_ok.mp habsent, check_ok.mp hhandles,
    check_ok.mp hpart⟩

theorem orderedBeside_ok {last : Nat} {why : String} (hd : Descends dep) (hpc : pc + 1 < dep.length)
    (hlt : other < dep.length) (h : orderedBeside dep pc last other why = .ok ()) :
    Beside dep pc (pc + 1) last other := by
  obtain ⟨o, ho, h⟩ := bind_ok.mp h
  rw [check_ok.mp h] at ho
  unfold Beside
  split at ho
  · next hlo =>
    rw [if_pos hlo]
    exact (ordered_iff hd hpc).mp ho
  · next hhi =>
    rw [if_neg hhi]
    exact (ordered_iff hd hlt).mp ho

theorem tripleAccess_ok (hd : Descends dep) (hpc : pc + 1 < dep.length) (hlt : other < dep.length)
    (h : tripleAccess dep pc a w out (d, other) = .ok ()) : Access dep pc a w out other d := by
  obtain ⟨slots, hslots, h⟩ := bind_ok.mp h
  obtain ⟨_, hw, h⟩ := bind_ok.mp h
  obtain ⟨_, hin, hout⟩ := bind_ok.mp h
  unfold unless' at hin hout
  refine ⟨⟨slots, hslots, check_ok.mp hw, fun ha => ?_⟩, fun ho hnot => ?_⟩
  · rw [if_neg (not_not.mpr ha)] at hin
    exact orderedBeside_ok hd hpc hlt hin
  · rw [if_neg (not_or.mpr ⟨fun hall => ho.elim hall, hnot⟩)] at hout
    exact orderedBeside_ok hd hpc hlt hout

/-- a triple that the checks accept, and what it leaves for the next ones -/
theorem validateTriple_ok (ha : Accepted g dep)
    (h : validateTriple blob g dep scan pc = .ok scan') :
    ∃ z c f, Triple g dep pc z c f ∧ dep[pc]? = some (scan.previous.lookup (c.t 0)).toList ∧
      scan' = ⟨(c.t 0, pc + 2) :: scan.previous, c.t 0 :: scan.used⟩ := by
  obtain ⟨_, hlt, h⟩ := bind_ok.mp h
  obtain ⟨z, hz, h⟩ := bind_ok.mp h
  obtain ⟨c, hc, h⟩ := bind_ok.mp h
  obtain ⟨f, hf, h⟩ := bind_ok.mp h
  obtain ⟨_, hshape, h⟩ := bind_ok.mp h
  obtain ⟨_, hedges, h⟩ := bind_ok.mp h
  obtain ⟨_, haccess, h⟩ := bind_ok.mp h
  obtain ⟨_, hescapes, h⟩ := bind_ok.mp h
  obtain ⟨depZ, hdz, hedges⟩ := bind_ok.mp hedges
  obtain ⟨depG, hdg, hedges⟩ := bind_ok.mp hedges
  obtain ⟨depF, hdf, hedges⟩ := bind_ok.mp hedges
  obtain ⟨_, hedge, hprior⟩ := bind_ok.mp hedges
  obtain ⟨hwz, hwf⟩ := check_ok.mp hedge
  obtain ⟨⟨hopz, hopg, hopf⟩, hzero, ⟨habz, habg, habf⟩, ⟨hnd, hnone⟩, hpz, hpf⟩ :=
    tripleShape_ok hshape
  have hlen : pc + 2 < dep.length := ha.length ▸ check_ok.mp hlt
  have hesc : ∀ consumer ids, dep[consumer]? = some ids →
      (pc ∉ ids ∨ consumer = pc + 1) ∧ (pc + 1 ∉ ids ∨ consumer = pc + 2) := by
    intro consumer ids hids
    obtain ⟨_, h1, h2⟩ := bind_ok.mp
      (forM_ok.mp hescapes (ids, consumer) (mem_zipIdx_iff_getElem?.mpr hids))
    exact ⟨check_ok.mp h1, check_ok.mp h2⟩
  refine ⟨z, c, f, ⟨must_ok.mp hz, must_ok.mp hc, must_ok.mp hf, hopz, hopg, hopf, hzero, hpz, hpf,
    habz, habg, habf, hnd, hnone, ⟨depG, must_ok.mp hdg, hwz⟩, hwf ▸ must_ok.mp hdf,
    fun other d hd => ?_, fun consumer hw => ?_, fun consumer hw => ?_⟩, ?_, (pure_ok.mp h).symm⟩
  · have hlt' : other < dep.length := ha.length ▸ (List.getElem?_eq_some_iff.mp hd).1
    exact tripleAccess_ok ha.descends (Nat.lt_of_succ_lt hlen) hlt'
      (forM_ok.mp haccess (d, other) (mem_zipIdx_iff_getElem?.mpr hd))
  · obtain ⟨ids, hids, hmem⟩ := hw
    exact (hesc consumer ids hids).1.resolve_left fun hn => hn hmem
  · obtain ⟨ids, hids, hmem⟩ := hw
    exact (hesc consumer ids hids).2.resolve_left fun hn => hn hmem
  · rw [← check_ok.mp hprior]
    exact must_ok.mp hdz

/-! ### The loop -/

def opAt (g : Program) (pc : Nat) : Option Nat := g.insts[pc]?.map (·.op)

/-- the partial tensor of the zero instruction at `pc` -/
def ZeroAt (g : Program) (pc part : Nat) : Prop :=
  ∃ z, g.insts[pc]? = some z ∧ z.op = opZ ∧ z.t 0 = part

/-- What the loop knows of the instructions before `pc`. -/
structure Scanned (g : Program) (dep : List (List Nat)) (pc : Nat) (scan : Scan)
    (used : List Nat) : Prop where
  triple : ∀ p < pc, opAt g p = some opZ → ∃ z c f, Triple g dep p z c f
  compute : ∀ p < pc, opAt g p = some opG → ∃ q, p = q + 1 ∧ opAt g q = some opZ
  cast : ∀ p < pc, opAt g p = some opF → ∃ q, p = q + 2 ∧ opAt g q = some opZ
  previous : ∀ p < pc, ∀ part, ZeroAt g p part → ∃ r, scan.previous.lookup part = some r ∧
    Relation.ReflTransGen (Waits dep) (p + 2) r
  reuse : ∀ p q part, p < q → q < pc → ZeroAt g p part → ZeroAt g q part →
    Relation.TransGen (Waits dep) (p + 2) q
  used : ∀ h, h ∈ scan.used ↔ h ∈ used ∨ ∃ p < pc, ZeroAt g p h

theorem opAt_eq (h : g.insts[pc]? = some d) : opAt g pc = some d.op := by
  unfold opAt
  rw [h]
  rfl

theorem isSplit_iff : isSplit op = true ↔ op = opZ ∨ op = opG ∨ op = opF := by
  simp [isSplit, or_assoc]

theorem opZ_ne_opG : opZ ≠ opG := by decide
theorem opZ_ne_opF : opZ ≠ opF := by decide
theorem opG_ne_opF : opG ≠ opF := by decide

theorem ZeroAt.opAt (h : ZeroAt g pc part) : opAt g pc = some opZ := by
  obtain ⟨z, hz, hop, -⟩ := h
  rw [opAt_eq hz, hop]

theorem Scanned.skip (h : Scanned g dep pc scan used)
    (hd : g.insts[pc]? = some d) (hop : ¬ isSplit d.op = true) :
    Scanned g dep (pc + 1) scan used := by
  have hno : ∀ op, isSplit op = true → opAt g pc ≠ some op := by
    intro op hs heq
    rw [opAt_eq hd] at heq
    exact hop (Option.some.inj heq ▸ hs)
  have hz := hno opZ (isSplit_iff.mpr (.inl rfl))
  have hlt : ∀ p < pc + 1, p ≠ pc → p < pc := fun p h1 h2 => by omega
  refine ⟨fun p hp ho => ?_, fun p hp ho => ?_, fun p hp ho => ?_, fun p hp part hz' => ?_,
    fun p q part hpq hq h1 h2 => ?_, fun h' => ?_⟩
  · exact h.triple p (hlt p hp fun e => hz (e ▸ ho)) ho
  · exact h.compute p (hlt p hp fun e => hno opG (isSplit_iff.mpr (.inr (.inl rfl))) (e ▸ ho)) ho
  · exact h.cast p (hlt p hp fun e => hno opF (isSplit_iff.mpr (.inr (.inr rfl))) (e ▸ ho)) ho
  · exact h.previous p (hlt p hp fun e => hz (e ▸ hz'.opAt)) part hz'
  · exact h.reuse p q part hpq (hlt q hq fun e => hz (e ▸ h2.opAt)) h1 h2
  · rw [h.used]
    refine or_congr Iff.rfl ⟨fun ⟨p, hp, hz'⟩ => ⟨p, by omega, hz'⟩, fun ⟨p, hp, hz'⟩ =>
      ⟨p, hlt p hp fun e => hz (e ▸ hz'.opAt), hz'⟩⟩

theorem Triple.zeroAt (h : Triple g dep pc z c f) : ZeroAt g pc part ↔ part = c.t 0 := by
  constructor
  · rintro ⟨z', hz, -, rfl⟩
    rw [h.getZ] at hz
    cases hz
    exact h.partZ
  · rintro rfl
    exact ⟨z, h.getZ, h.opZ, h.partZ⟩

/-- a triple -/
theorem Scanned.push (h : Scanned g dep pc scan used)
    (ht : Triple g dep pc z c f) (hp : dep[pc]? = some (scan.previous.lookup (c.t 0)).toList) :
    Scanned g dep (pc + 3) ⟨(c.t 0, pc + 2) :: scan.previous, c.t 0 :: scan.used⟩ used := by
  have hcases : ∀ p < pc + 3, p < pc ∨ p = pc ∨ p = pc + 1 ∨ p = pc + 2 := fun p hp => by omega
  have hz : opAt g pc = some opZ := by rw [opAt_eq ht.getZ, ht.opZ]
  have hg : opAt g (pc + 1) = some opG := by rw [opAt_eq ht.getG, ht.opG]
  have hf : opAt g (pc + 2) = some opF := by rw [opAt_eq ht.getF, ht.opF]
  have hzero : ∀ p < pc + 3, opAt g p = some opZ → p < pc ∨ p = pc := by
    intro p hp ho
    rcases hcases p hp with hp | rfl | rfl | rfl
    · exact .inl hp
    · exact .inr rfl
    · rw [hg] at ho
      exact absurd (Option.some.inj ho).symm opZ_ne_opG
    · rw [hf] at ho
      exact absurd (Option.some.inj ho).symm opZ_ne_opF
  -- an earlier triple with the same partial tensor
  have hprior : ∀ p < pc, ZeroAt g p (c.t 0) → Relation.TransGen (Waits dep) (p + 2) pc := by
    intro p hlt hz'
    obtain ⟨r, hr, hreach⟩ := h.previous p hlt _ hz'
    rw [hr] at hp
    exact .tail' hreach ⟨[r], hp, mem_singleton_self r⟩
  have hfin : Relation.TransGen (Waits dep) pc (pc + 2) :=
    .tail (.single ht.waitsZ) ⟨[pc + 1], ht.waitsF, mem_singleton_self _⟩
  refine ⟨fun p hp ho => ?_, fun p hp ho => ?_, fun p hp ho => ?_, fun p hp part hz' => ?_,
    fun p q part hpq hq h1 h2 => ?_, fun h' => ?_⟩
  · rcases hzero p hp ho with hp | rfl
    · exact h.triple p hp ho
    · exact ⟨z, c, f, ht⟩
  · rcases hcases p hp with hp | rfl | rfl | rfl
    · exact h.compute p hp ho
    · rw [hz] at ho
      exact absurd (Option.some.inj ho) opZ_ne_opG
    · exact ⟨pc, rfl, hz⟩
    · rw [hf] at ho
      exact absurd (Option.some.inj ho).symm opG_ne_opF
  · rcases hcases p hp with hp | rfl | rfl | rfl
    · exact h.cast p hp ho
    · rw [hz] at ho
      exact absurd (Option.some.inj ho) opZ_ne_opF
    · rw [hg] at ho
      exact absurd (Option.some.inj ho) opG_ne_opF
    · exact ⟨pc, rfl, hz⟩
  · show ∃ r, ((c.t 0, pc + 2) :: scan.previous).lookup part = some r ∧ _
    by_cases hpart : part = c.t 0
    · refine ⟨pc + 2, ?_, ?_⟩
      · rw [hpart, lookup_cons_self]
      · rcases hzero p hp hz'.opAt with hp | rfl
        · exact ((hprior p hp (hpart ▸ hz')).trans hfin).to_reflTransGen
        · exact .refl
    · rcases hzero p hp hz'.opAt with hp | rfl
      · obtain ⟨r, hr, hreach⟩ := h.previous p hp part hz'
        refine ⟨r, ?_, hreach⟩
        rw [lookup_cons]
        have : (part == c.t 0) = false := beq_false_of_ne hpart
        rw [this]
        exact hr
      · exact absurd (ht.zeroAt.mp hz') hpart
  · rcases hzero q hq h2.opAt with hq | rfl
    · exact h.reuse p q part hpq hq h1 h2
    · rw [ht.zeroAt.mp h2] at h1
      exact hprior p hpq h1
  · show h' ∈ c.t 0 :: scan.used ↔ _
    rw [mem_cons, h.used]
    constructor
    · rintro (rfl | hu | ⟨p, hp, hz'⟩)
      · exact .inr ⟨pc, by omega, ht.zeroAt.mpr rfl⟩
      · exact .inl hu
      · exact .inr ⟨p, by omega, hz'⟩
    · rintro (hu | ⟨p, hp, hz'⟩)
      · exact .inr (.inl hu)
      · rcases hzero p hp hz'.opAt with hp | rfl
        · exact .inr (.inr ⟨p, hp, hz'⟩)
        · exact .inl (ht.zeroAt.mp hz')

theorem validateLoop_ok (ha : Accepted g dep) (h : Scanned g dep pc scan used)
    (hfuel : g.insts.length ≤ pc + fuel) (hloop : validateLoop blob g dep fuel scan pc = .ok scan') :
    ∃ stop, g.insts.length ≤ stop ∧ Scanned g dep stop scan' used := by
  induction fuel generalizing pc scan with
  | zero =>
    cases hloop
    exact ⟨pc, hfuel, h⟩
  | succ fuel ih =>
    unfold validateLoop at hloop
    cases hd : g.insts[pc]? with
    | none =>
      rw [hd] at hloop
      cases hloop
      exact ⟨pc, getElem?_eq_none_iff.mp hd, h⟩
    | some d =>
      rw [hd] at hloop
      simp only at hloop
      split at hloop
      · next hs =>
        obtain ⟨next, hnext, hloop⟩ := bind_ok.mp hloop
        obtain ⟨z, c, f, ht, hp, rfl⟩ := validateTriple_ok ha hnext
        exact ih (h.push ht hp) (by omega) hloop
      · next hs => exact ih (h.skip hd hs) (by omega) hloop

/-- What is known of an accepted decode program. -/
structure Checked (g : Program) (dep : List (List Nat)) : Prop where
  accepted : Accepted g dep
  triple : ∀ p, opAt g p = some opZ → ∃ z c f, Triple g dep p z c f
  compute : ∀ p, opAt g p = some opG → ∃ q, p = q + 1 ∧ opAt g q = some opZ
  cast : ∀ p, opAt g p = some opF → ∃ q, p = q + 2 ∧ opAt g q = some opZ
  reuse : ∀ p q part, p < q → ZeroAt g p part → ZeroAt g q part →
    Relation.TransGen (Waits dep) (p + 2) q

theorem lt_of_opAt (h : opAt g pc = some op) : pc < g.insts.length := by
  obtain ⟨d, hd, -⟩ := Option.map_eq_some_iff.mp h
  exact (List.getElem?_eq_some_iff.mp hd).1

theorem validateProgram_ok (h : validateProgram blob g used = .ok used') :
    ∃ dep, dependencies g = .ok dep ∧ Checked g dep ∧
      ∀ h, h ∈ used' ↔ h ∈ used ∨ ∃ p, ZeroAt g p h := by
  obtain ⟨dep, hdep, h⟩ := bind_ok.mp h
  obtain ⟨scan, hscan, h⟩ := bind_ok.mp h
  cases pure_ok.mp h
  have ha := dependencies_ok hdep
  have h0 : Scanned g dep 0 ⟨[], used⟩ used :=
    ⟨fun p hp => absurd hp (Nat.not_lt_zero p), fun p hp => absurd hp (Nat.not_lt_zero p),
      fun p hp => absurd hp (Nat.not_lt_zero p), fun p hp => absurd hp (Nat.not_lt_zero p),
      fun p q part _ hq => absurd hq (Nat.not_lt_zero q),
      fun h => ⟨.inl, fun h' => h'.elim id fun ⟨p, hp, _⟩ => absurd hp (Nat.not_lt_zero p)⟩⟩
  obtain ⟨stop, hstop, hs⟩ := validateLoop_ok ha h0 (by omega) hscan
  have hin : ∀ {p op : Nat}, opAt g p = some op → p < stop := fun ho =>
    Nat.lt_of_lt_of_le (lt_of_opAt ho) hstop
  refine ⟨dep, hdep, ⟨ha, fun p ho => hs.triple p (hin ho) ho, fun p ho => hs.compute p (hin ho) ho,
    fun p ho => hs.cast p (hin ho) ho,
    fun p q part hpq h1 h2 => hs.reuse p q part hpq (hin h2.opAt) h1 h2⟩, fun h => ?_⟩
  rw [hs.used]
  exact or_congr Iff.rfl ⟨fun ⟨p, _, hz⟩ => ⟨p, hz⟩, fun ⟨p, hz⟩ => ⟨p, hin hz.opAt, hz⟩⟩

end Plow.Splitk
