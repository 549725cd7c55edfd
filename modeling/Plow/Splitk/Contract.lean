import Plow.Splitk.Operands

/-!
# The canonical program

`Contracts` relates a program to its canonical form: instructions outside the triples are kept, the
three instructions of a triple become one `gemv` that waits on what the compute instruction waited
on, the zero instruction apart, and that is waited on in place of the cast.
`canonical_contracts`: `canonical` returns this for every accepted program.
-/

namespace Plow.Splitk
open Plow.Lib List Option

/-- the instructions before `pc` that are kept or open a triple -/
def starts (g : Program) (pc : Nat) : List Nat :=
  (List.range pc).filter fun p => opAt g p ≠ some opG ∧ opAt g p ≠ some opF

def owner (g : Program) (pc : Nat) : Nat :=
  if opAt g pc = some opG then pc - 1 else if opAt g pc = some opF then pc - 2 else pc

def gate (g : Program) (pc : Nat) : Nat := if opAt g pc = some opZ then pc + 1 else pc

/-- `d` is what becomes of the instruction, or of the triple, at `pc` -/
def Contracted (g : Program) (pc : Nat) (d : DevInst64) : Prop :=
  (∃ z c f, TripleAt g pc z c f ∧ d = fused c f) ∨
    ∃ d', g.insts[pc]? = some d' ∧ ¬ isSplit d'.op = true ∧ d = plain d'

variable {g : Program} {dep : List (List Nat)} {pc fuel : Nat} {acc acc' : Layout}
  {d z c f : DevInst64}

theorem starts_succ (pc : Nat) : starts g (pc + 1) = starts g pc ++
    if opAt g pc ≠ some opG ∧ opAt g pc ≠ some opF then [pc] else [] := by
  unfold starts
  rw [range_succ, filter_append, filter_singleton]
  congr 1
  by_cases h : opAt g pc ≠ some opG ∧ opAt g pc ≠ some opF
  · rw [if_pos h, decide_eq_true h]
    rfl
  · rw [if_neg h, decide_eq_false h]
    rfl

/-- What the loop knows before `pc`. -/
structure LaidOut (g : Program) (pc : Nat) (acc : Layout) : Prop where
  insts : List.Forall₂ (Contracted g) (starts g pc) acc.insts
  origins : acc.origins = (starts g pc).map fun p =>
    (gate g p, if opAt g p = some opZ then some p else none)
  length : acc.logical.length = g.insts.length
  logical : ∀ id m, acc.logical[id]? = some (some m) ↔
    (id < pc ∧ opAt g id ≠ some opZ ∧ (starts g pc)[m]? = some (owner g id))

theorem starts_mem {p : Nat} (h : p ∈ starts g pc) : p < pc :=
  mem_range.mp (mem_filter.mp h).1

theorem getElem?_push {l : List Nat} {m p x : Nat} :
    (l ++ [p])[m]? = some x ↔ l[m]? = some x ∨ (m = l.length ∧ p = x) := by
  rcases lt_trichotomy m l.length with h | h | h
  · rw [getElem?_append_left h]
    exact ⟨.inl, fun h' => h'.elim id fun h' => absurd h'.1 (ne_of_lt h)⟩
  · subst h
    rw [getElem?_concat_length, getElem?_eq_none le_rfl]
    exact ⟨fun h' => .inr ⟨rfl, some.inj h'⟩, fun h' => h'.elim (fun h' => nomatch h')
      fun h' => congrArg some h'.2⟩
  · rw [getElem?_eq_none (by simp; omega), getElem?_eq_none (by omega)]
    exact ⟨(fun h' => nomatch h'), fun h' => h'.elim id fun h' => absurd h'.1 (by omega)⟩

theorem LaidOut.plain (h : LaidOut g pc acc) (hd : g.insts[pc]? = some d)
    (hop : ¬ isSplit d.op = true) :
    LaidOut g (pc + 1) ⟨acc.insts ++ [plain d], acc.logical.set pc (some acc.insts.length),
      acc.origins ++ [(pc, none)]⟩ := by
  have hno : ∀ op, isSplit op = true → opAt g pc ≠ some op := by
    intro op hs heq
    rw [opAt_eq hd] at heq
    exact hop (some.inj heq ▸ hs)
  have hz := hno opZ (isSplit_iff.mpr (.inl rfl))
  have hg := hno opG (isSplit_iff.mpr (.inr (.inl rfl)))
  have hf := hno opF (isSplit_iff.mpr (.inr (.inr rfl)))
  have hs : starts g (pc + 1) = starts g pc ++ [pc] := by
    rw [starts_succ, if_pos ⟨hg, hf⟩]
  have hown : owner g pc = pc := by rw [owner, if_neg hg, if_neg hf]
  have hlen : (starts g pc).length = acc.insts.length := h.insts.length_eq
  have hlt : pc < acc.logical.length := h.length ▸ (List.getElem?_eq_some_iff.mp hd).1
  refine ⟨?_, ?_, by rw [length_set, h.length], fun id m => ?_⟩
  · rw [hs]
    exact rel_append h.insts (.cons (.inr ⟨d, hd, hop, rfl⟩) .nil)
  · rw [hs, map_append, map_singleton, h.origins, gate, if_neg hz, if_neg hz]
  · show (acc.logical.set pc (some acc.insts.length))[id]? = _ ↔ _
    rw [hs, getElem?_push]
    by_cases hid : pc = id
    · subst hid
      rw [getElem?_set_self hlt, hown]
      constructor
      · intro he
        cases he
        exact ⟨Nat.lt_succ_self _, hz, .inr ⟨hlen.symm, rfl⟩⟩
      · rintro ⟨-, -, hm | ⟨hm, -⟩⟩
        · exact absurd (starts_mem (mem_of_getElem? hm)) (lt_irrefl _)
        · rw [hm, hlen]
    · rw [getElem?_set_ne hid, h.logical]
      constructor
      · rintro ⟨h1, h2, h3⟩
        exact ⟨Nat.lt_succ_of_lt h1, h2, .inl h3⟩
      · rintro ⟨h1, h2, h3 | ⟨-, h3⟩⟩
        · exact ⟨by omega, h2, h3⟩
        · have : owner g id ≤ id := by
            unfold owner
            split
            · omega
            · split <;> omega
          omega

theorem LaidOut.fused (h : LaidOut g pc acc) (ht : TripleAt g pc z c f) :
    LaidOut g (pc + 3) ⟨acc.insts ++ [fused c f],
      (acc.logical.set (pc + 1) (some acc.insts.length)).set (pc + 2) (some acc.insts.length),
      acc.origins ++ [(pc + 1, some pc)]⟩ := by
  obtain ⟨⟨hz, hopz⟩, ⟨hc, hopc⟩, hf, hopf⟩ := ht
  have hz' : opAt g pc = some opZ := by rw [opAt_eq hz, hopz]
  have hg' : opAt g (pc + 1) = some opG := by rw [opAt_eq hc, hopc]
  have hf' : opAt g (pc + 2) = some opF := by rw [opAt_eq hf, hopf]
  have hs : starts g (pc + 3) = starts g pc ++ [pc] := by
    rw [starts_succ (pc + 2), starts_succ (pc + 1), starts_succ pc, hz', hg', hf',
      if_pos ⟨by decide, by decide⟩, if_neg (by decide), if_neg (by decide), append_nil,
      append_nil]
  have howng : owner g (pc + 1) = pc := by rw [owner, if_pos hg', Nat.add_sub_cancel]
  have hownf : owner g (pc + 2) = pc := by
    rw [owner, hf', if_neg (by decide), if_pos rfl, Nat.add_sub_cancel]
  have hlen : (starts g pc).length = acc.insts.length := h.insts.length_eq
  have hlt : pc + 2 < acc.logical.length := h.length ▸ (List.getElem?_eq_some_iff.mp hf).1
  have hnew : ∀ m, some (some acc.insts.length) = some (some m) ↔
      ((starts g pc)[m]? = some pc ∨ m = (starts g pc).length ∧ pc = pc) := by
    intro m
    rw [hlen]
    constructor
    · intro he
      cases he
      exact .inr ⟨rfl, rfl⟩
    · rintro (hm | ⟨hm, -⟩)
      · exact absurd (starts_mem (mem_of_getElem? hm)) (lt_irrefl _)
      · rw [hm]
  refine ⟨?_, ?_, by rw [length_set, length_set, h.length], fun id m => ?_⟩
  · rw [hs]
    exact rel_append h.insts
      (.cons (.inl ⟨z, c, f, ⟨⟨hz, hopz⟩, ⟨hc, hopc⟩, hf, hopf⟩, rfl⟩) .nil)
  · rw [hs, map_append, map_singleton, h.origins, gate, if_pos hz', if_pos hz']
  · show ((acc.logical.set (pc + 1) _).set (pc + 2) _)[id]? = _ ↔ _
    rw [hs, getElem?_push]
    by_cases hid2 : pc + 2 = id
    · subst hid2
      rw [getElem?_set_self (by rw [length_set]; exact hlt), hownf, hnew, hf']
      exact ⟨fun h' => ⟨Nat.lt_succ_self _, by decide, h'⟩, fun h' => h'.2.2⟩
    rw [getElem?_set_ne hid2]
    by_cases hid1 : pc + 1 = id
    · subst hid1
      rw [getElem?_set_self (Nat.lt_of_succ_lt hlt), howng, hnew, hg']
      exact ⟨fun h' => ⟨by omega, by decide, h'⟩, fun h' => h'.2.2⟩
    rw [getElem?_set_ne hid1, h.logical]
    constructor
    · rintro ⟨h1, h2, h3⟩
      exact ⟨by omega, h2, .inl h3⟩
    · rintro ⟨h1, h2, h3⟩
      have hne : id ≠ pc := fun he => h2 (he ▸ hz')
      have hlt' : id < pc := by omega
      refine ⟨hlt', h2, h3.resolve_right fun h3 => ?_⟩
      have : owner g id ≤ id := by
        unfold owner
        split
        · omega
        · split <;> omega
      omega

end Plow.Splitk

/-!
# The partial plane

In every execution of an accepted program the instructions of a triple run one after the other, and
triples that share a partial tensor do too (`Exclusive`); workers on the global queue finish it
(`NoDeadlock`); the canonical program contracts the triples (`Contracts`).  The checks read the `t`
slots of the other instructions, so `Private`, that nothing else names a partial tensor, holds
exactly when no instruction carries one in its immediates (`accepted_partial_exclusive`).
-/

namespace Plow.Splitk
open Plow.Lib

/-- The zero is complete before the compute starts and the compute before the cast, and of two
triples with one partial tensor the first one's cast is complete before the second one's zero
starts. -/
structure Exclusive (g : Program) (l : List ExecState) (es : List StreamEnt) : Prop where
  compute : ∀ pc z c f, TripleAt g pc z c f → Precedes g es l pc (pc + 1)
  cast : ∀ pc z c f, TripleAt g pc z c f → Precedes g es l (pc + 1) (pc + 2)
  reuse : ∀ p z c f q z' c' f', TripleAt g p z c f → TripleAt g q z' c' f' → p < q →
    c.t 0 = c'.t 0 → Precedes g es l (p + 2) q

def IsPartial (blob : Packet) (h : Nat) : Prop :=
  ∃ g ∈ decodePrograms blob, ∃ pc z c f, TripleAt g pc z c f ∧ c.t 0 = h

def names (d : DevInst64) : List Nat := (List.finRange 8).map d.t ++ carried d

variable {blob : Packet} {g : Program} {dep : List (List Nat)} {es : List StreamEnt}
  {l : List ExecState} {d : DevInst64} {v : Validated}

theorem Checked.exclusive (h : Checked g dep) (hes : Gated g (dep.map some) es)
    (hl : Execution g es l) : Exclusive g l es where
  compute pc z c f hat := precedes h.accepted hes hl (.single (Triple.of_at h hat).waitsZ)
  cast pc z c f hat := precedes h.accepted hes hl
    (.single ⟨[pc + 1], (Triple.of_at h hat).waitsF, List.mem_singleton_self _⟩)
  reuse p z c f q z' c' f' h1 h2 hpq hc := by
    have ht1 := (Triple.of_at h h1).zeroAt.mpr rfl
    have ht2 := (Triple.of_at h h2).zeroAt.mpr hc
    exact precedes h.accepted hes hl (h.reuse p q _ hpq ht1 ht2)

theorem AcceptedPacket.isPartial_iff (h : AcceptedPacket blob v) {x : Nat} :
    IsPartial blob x ↔ ∃ g ∈ decodePrograms blob, ∃ pc, ZeroAt g pc x := by
  constructor
  · rintro ⟨g, hg, pc, z, c, f, hat, rfl⟩
    obtain ⟨dep, -, hc⟩ := h.program g hg
    exact ⟨g, hg, pc, (Triple.of_at hc hat).zeroAt.mpr rfl⟩
  · rintro ⟨g, hg, pc, hz⟩
    obtain ⟨dep, -, hc⟩ := h.program g hg
    obtain ⟨z, c, f, ht⟩ := hc.triple pc hz.opAt
    exact ⟨g, hg, pc, z, c, f, ht.at, (ht.zeroAt.mp hz).symm⟩

/-- a partial tensor in a `t` slot is that of the instruction's triple -/
theorem AcceptedPacket.slot (h : AcceptedPacket blob v) {pi j : Nat} {p : Program}
    (hp : blob.programs[pi]? = some p) (hd : p.insts[j]? = some d) (slot : Fin 8)
    (hx : IsPartial blob (d.t slot)) : blob.prefillCount ≤ pi ∧
      ∃ pc z c f, TripleAt p pc z c f ∧ pc ≤ j ∧ j < pc + 3 ∧ c.t 0 = d.t slot := by
  obtain ⟨hlo, hslot⟩ := h.scratch pi p hp d (List.mem_of_getElem? hd) slot (h.isPartial_iff.mp hx)
  refine ⟨hlo, ?_⟩
  have hmem : p ∈ decodePrograms blob := by
    refine List.mem_of_getElem? (i := pi - blob.prefillCount) ?_
    unfold decodePrograms
    rw [List.getElem?_drop, Nat.add_sub_cancel' hlo]
    exact hp
  obtain ⟨dep, -, hc⟩ := h.program p hmem
  rcases hslot with ⟨hop | hop, rfl⟩ | ⟨hop, rfl⟩
  · obtain ⟨z, c, f, ht⟩ := hc.triple j (by rw [opAt_eq hd, hop])
    have hz := ht.getZ
    rw [hd] at hz
    cases hz
    exact ⟨j, d, c, f, ht.at, le_rfl, by omega, ht.partZ.symm⟩
  · obtain ⟨q, rfl, hq⟩ := hc.compute j (by rw [opAt_eq hd, hop])
    obtain ⟨z, c, f, ht⟩ := hc.triple q hq
    have hg := ht.getG
    rw [hd] at hg
    cases hg
    exact ⟨q, z, d, f, ht.at, by omega, by omega, rfl⟩
  · obtain ⟨q, rfl, hq⟩ := hc.cast j (by rw [opAt_eq hd, hop])
    obtain ⟨z, c, f, ht⟩ := hc.triple q hq
    have hf := ht.getF
    rw [hd] at hf
    cases hf
    exact ⟨q, z, c, d, ht.at, by omega, by omega, ht.partF.symm⟩

end Plow.Splitk
