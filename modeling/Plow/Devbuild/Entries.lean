import Plow.Devbuild.Passes

/-!
# The entries

The flattened operations: the global queue has one entry for each slice, in the order of the
operations (`emitted_places`), a stream holds the entries of its compute unit in that order, and an
entry's lists, segment and domain are those of its slice (`Entry`).
-/

namespace Plow.Devbuild

open List

/-- the list stands in the table from `ofs` on -/
def Reads {α : Type} (l : List α) (ofs len : ℕ) (xs : List α) : Prop :=
  ofs + len ≤ l.length ∧ (l.drop ofs).take len = xs

namespace Reads
variable {α : Type} {l xs ws : List α} {ofs len : ℕ}

theorem append (h : Reads l ofs len xs) (l' : List α) : Reads (l ++ l') ofs len xs := by
  obtain ⟨h1, h2⟩ := h
  refine ⟨by rw [length_append]; omega, ?_⟩
  rw [drop_append_of_le_length (by omega), take_append_of_le_length, h2]
  rw [length_drop]
  omega

theorem last (l ws : List α) (h : len ≤ ws.length) :
    Reads (l ++ ws) l.length len (ws.take len) := by
  refine ⟨by rw [length_append]; omega, ?_⟩
  rw [drop_left]

end Reads

/-! ### Marks -/

theorem domain_or {a b : ℕ} (hb : b < 8192) :
    ((a ||| b) &&& seDomainMask) >>> seDomainShift = (a &&& seDomainMask) >>> seDomainShift := by
  unfold seDomainMask seDomainShift
  rw [Nat.shiftRight_and_distrib, Nat.shiftRight_and_distrib, Nat.shiftRight_or_distrib,
    Nat.shiftRight_eq_div_pow b, Nat.div_eq_of_lt hb, Nat.or_zero]

theorem domain_shift {d : ℕ} (h : d < 8) :
    ((d <<< seDomainShift) &&& seDomainMask) >>> seDomainShift = d := by
  unfold seDomainMask seDomainShift
  rw [Nat.shiftRight_and_distrib, Nat.shiftLeft_shiftRight]
  have h7 : 0xe000 >>> 13 = 2 ^ 3 - 1 := rfl
  rw [h7, Nat.and_two_pow_sub_one_eq_mod]
  exact Nat.mod_eq_of_lt h

namespace Ctx
variable (cx : Ctx) {idx slice cu : ℕ} {op : Op} {inst : DevInst} {out out' : Emitted}

theorem domain_marks (h : cx.domainOf cu < 8) {fine : ℕ} (hf : fine < 8192) :
    (cx.marks idx cu fine &&& seDomainMask) >>> seDomainShift = cx.domainOf cu := by
  unfold marks
  rw [domain_or (by split <;> decide), domain_or (by split <;> decide), Nat.or_comm,
    domain_or hf, domain_shift h]

/-- the successor list of a slice -/
def entrySuccs (idx : ℕ) (op : Op) (slice : ℕ) : List ℕ :=
  if cx.hasFineDep idx op || cx.isFineProducer idx then
    op.counter :: if cx.isFineProducer idx then [(cx.fineBase idx).getD 0 + slice] else []
  else if !cx.rawSegmented || cx.sameSegmentConsumer idx then [op.counter] else []

def entryWaits (idx : ℕ) (op : Op) (slice : ℕ) : List Wait :=
  (cx.fineWaits idx op slice).take ((cx.fineWaits idx op slice).length % 65536)

theorem fineWaits_coarse (h : cx.hasFineDep idx op = false) :
    cx.fineWaits idx op slice = cx.coarseWaits idx op := by
  unfold fineWaits coarseWaits
  rw [flatMap_def, flatMap_def]
  congr 1
  apply map_congr_left
  intro d hd
  obtain ⟨hd, hs⟩ := mem_filter.mp hd
  cases d with
  | coarse c => rfl
  | fine p map =>
    exfalso
    have := any_eq_false.mp h _ hd
    rw [hs] at this
    exact this rfl

/-- The lists of an instruction stand in the tables. -/
structure InstOk (out : Emitted) (idx : ℕ) (op : Op) (inst : DevInst) : Prop where
  waits : Reads out.waits inst.waitOfs inst.waitLen
    ((cx.coarseWaits idx op).take ((cx.coarseWaits idx op).length % 65536))
  succs : Reads out.succs inst.succOfs inst.succLen
    (if !cx.rawSegmented || cx.sameSegmentConsumer idx then [op.counter] else [])

/-- The entry is that of its slice. -/
structure Entry (out : Emitted) (op : Op) (cu : ℕ) (e : StreamEnt) : Prop where
  seg : e.seg = cx.entSeg e.inst
  domain : cx.domainOf cu < 8 → e.domain = cx.domainOf cu
  waits : Reads out.waits e.waitOfs e.waitLen (cx.entryWaits e.inst op e.slice)
  succs : Reads out.succs e.succOfs e.succLen (cx.entrySuccs e.inst op e.slice)

/-- the tables only grow -/
structure Extends (out out' : Emitted) : Prop where
  waits : ∃ l, out'.waits = out.waits ++ l
  succs : ∃ l, out'.succs = out.succs ++ l

variable {cx}

theorem Entry.mono {e : StreamEnt} (h : cx.Entry out op cu e)
    (hx : Extends out out') : cx.Entry out' op cu e := by
  obtain ⟨⟨l, hl⟩, ⟨m, hm⟩⟩ := hx
  refine ⟨h.seg, h.domain, ?_, ?_⟩
  · rw [hl]
    exact h.waits.append l
  · rw [hm]
    exact h.succs.append m

theorem InstOk.mono (h : cx.InstOk out idx op inst) (hx : Extends out out') :
    cx.InstOk out' idx op inst := by
  obtain ⟨⟨l, hl⟩, ⟨m, hm⟩⟩ := hx
  refine ⟨?_, ?_⟩
  · rw [hl]
    exact h.waits.append l
  · rw [hm]
    exact h.succs.append m

/-- What a slice adds: its entry, to the queue and to the stream of its compute unit. -/
theorem sliceStep_spec (slice cu : ℕ) (h : cx.InstOk out idx op inst) :
    ∃ e, (cx.sliceStep idx op inst out slice cu).gqStream = out.gqStream ++ [e] ∧
      (cx.sliceStep idx op inst out slice cu).streams = out.streams.modify cu (· ++ [e]) ∧
      e.inst = idx ∧ e.slice = slice ∧ Extends out (cx.sliceStep idx op inst out slice cu) ∧
      cx.Entry (cx.sliceStep idx op inst out slice cu) op cu e := by
  unfold sliceStep
  refine ⟨_, rfl, rfl, ?_, ?_, ⟨⟨_, rfl⟩, ⟨_, rfl⟩⟩, ?_⟩
  · simp only
    split <;> rfl
  · simp only
    split <;> rfl
  · by_cases hfine : (cx.hasFineDep idx op || cx.isFineProducer idx) = true
    · simp only [hfine, if_true]
      refine ⟨rfl, fun hd => cx.domain_marks hd (by decide), ?_, ?_⟩
      · by_cases hdep : cx.hasFineDep idx op = true
        · simp only [hdep, if_true]
          exact Reads.last _ _ (Nat.mod_le _ _)
        · rw [Bool.not_eq_true] at hdep
          unfold entryWaits
          simp only [hdep, Bool.false_eq_true, if_false, cx.fineWaits_coarse hdep]
          rw [append_nil]
          exact h.waits
      · unfold entrySuccs
        simp only [hfine, if_true]
        have := Reads.last out.succs (op.counter ::
          if cx.isFineProducer idx then [(cx.fineBase idx).getD 0 + slice] else []) le_rfl
        rw [take_length] at this
        exact this
    · rw [Bool.not_eq_true] at hfine
      have hdep : cx.hasFineDep idx op = false := (Bool.or_eq_false_iff.mp hfine).1
      simp only [hfine, Bool.false_eq_true, if_false]
      refine ⟨rfl, fun hd => cx.domain_marks hd (by decide), ?_, ?_⟩
      · unfold entryWaits
        rw [cx.fineWaits_coarse hdep, append_nil]
        exact h.waits
      · unfold entrySuccs
        simp only [hfine, Bool.false_eq_true, if_false, append_nil]
        exact h.succs

/-! ### The loops -/

variable (cx)

/-- the slices of an operation from the `k`-th on -/
def slicesFrom (idx k : ℕ) (cus : List ℕ) : List (ℕ × ℕ) := (cus.zipIdx k).map fun s => (idx, s.2)

def places : List (ℕ × ℕ) := cx.ops.zipIdx.flatMap fun p => slicesFrom p.2 0 p.1.cus

def cuOf (e : StreamEnt) : Option ℕ := cx.ops[e.inst]?.bind fun op => op.cus[e.slice]?

/-- The entries of the slices `done` have been laid out. -/
structure Laid (nCu : ℕ) (out : Emitted) (done : List (ℕ × ℕ)) : Prop where
  places : out.gqStream.map (fun e => (e.inst, e.slice)) = done
  entry : ∀ e ∈ out.gqStream, ∃ op cu, cx.ops[e.inst]? = some op ∧ op.cus[e.slice]? = some cu ∧
    cx.Entry out op cu e
  length : out.streams.length = nCu
  streams : ∀ cu < nCu, out.streams[cu]? = some (out.gqStream.filter fun e => cx.cuOf e = some cu)

variable {cx} {nCu : ℕ} {done : List (ℕ × ℕ)}

theorem Laid.one (h : cx.Laid nCu out done) (hi : cx.InstOk out idx op inst)
    (hop : cx.ops[idx]? = some op) (hcu : op.cus[slice]? = some cu) :
    cx.Laid nCu (cx.sliceStep idx op inst out slice cu) (done ++ [(idx, slice)]) ∧
      cx.InstOk (cx.sliceStep idx op inst out slice cu) idx op inst := by
  obtain ⟨e, hgq, hst, rfl, rfl, hext, hent⟩ := sliceStep_spec slice cu hi
  refine ⟨⟨?_, ?_, ?_, ?_⟩, hi.mono hext⟩
  · rw [hgq, map_append, h.places]
    rfl
  · intro x hx
    rw [hgq] at hx
    rcases mem_append.mp hx with hx | hx
    · obtain ⟨op', cu', h1, h2, h3⟩ := h.entry x hx
      exact ⟨op', cu', h1, h2, h3.mono hext⟩
    · rw [mem_singleton.mp hx]
      exact ⟨op, cu, hop, hcu, hent⟩
  · rw [hst, length_modify]
    exact h.length
  · have hcuOf : cx.cuOf e = some cu := by
      unfold cuOf
      rw [hop]
      exact hcu
    intro c hc
    rw [hst, hgq, getElem?_modify, h.streams c hc, filter_append]
    by_cases hcc : cu = c
    · subst hcc
      simp [hcuOf]
    · simp [hcuOf, hcc]

theorem Laid.list (hop : cx.ops[idx]? = some op) (l : List ℕ) (k : ℕ)
    (hl : ∀ s cu, l[s]? = some cu → op.cus[k + s]? = some cu) (h : cx.Laid nCu out done)
    (hi : cx.InstOk out idx op inst) :
    cx.Laid nCu ((l.zipIdx k).foldl (fun out s => cx.sliceStep idx op inst out s.2 s.1) out)
      (done ++ slicesFrom idx k l) := by
  induction l generalizing k out done with
  | nil =>
    have : done ++ slicesFrom idx k [] = done := append_nil _
    rw [this]
    exact h
  | cons cu l ih =>
    obtain ⟨h1, h2⟩ := h.one hi hop (hl 0 cu rfl)
    have := ih (k + 1) (fun s c hs => by
      have := hl (s + 1) c hs
      rwa [add_assoc, add_comm 1 s]) h1 h2
    rw [append_assoc] at this
    exact this

theorem Laid.all (h : cx.Laid nCu out done) (hop : cx.ops[idx]? = some op) :
    cx.Laid nCu (cx.opStep out idx op) (done ++ slicesFrom idx 0 op.cus) := by
  unfold opStep
  have hext : Extends out { out with
      waits := out.waits ++ (cx.instLists idx op out).2.1
      succs := out.succs ++ (cx.instLists idx op out).2.2 } := ⟨⟨_, rfl⟩, ⟨_, rfl⟩⟩
  have h1 : cx.Laid nCu { out with
      waits := out.waits ++ (cx.instLists idx op out).2.1
      succs := out.succs ++ (cx.instLists idx op out).2.2 } done :=
    ⟨h.places, fun e he => by
      obtain ⟨op', cu', h1, h2, h3⟩ := h.entry e he
      exact ⟨op', cu', h1, h2, h3.mono hext⟩, h.length, h.streams⟩
  have h2 : cx.InstOk { out with
      waits := out.waits ++ (cx.instLists idx op out).2.1
      succs := out.succs ++ (cx.instLists idx op out).2.2 } idx op
      (cx.instLists idx op out).1 := by
    refine ⟨Reads.last _ _ (Nat.mod_le _ _), ?_⟩
    have := Reads.last out.succs
      (if !cx.rawSegmented || cx.sameSegmentConsumer idx then [op.counter] else []) le_rfl
    rw [take_length] at this
    exact this
  have h3 := Laid.list hop op.cus 0 (fun s cu hs => by rwa [zero_add]) h1 h2
  exact ⟨h3.places, fun e he => by
    obtain ⟨op', cu', g1, g2, g3⟩ := h3.entry e he
    exact ⟨op', cu', g1, g2, g3.mono ⟨⟨[], (append_nil _).symm⟩, ⟨[], (append_nil _).symm⟩⟩⟩,
    h3.length, h3.streams⟩

theorem emitted_laid (cx : Ctx) (nCu : ℕ) : cx.Laid nCu (cx.emitted nCu) cx.places := by
  suffices hall : ∀ (l : List Op) (k : ℕ) (out : Emitted) (done : List (ℕ × ℕ)),
      (∀ j op, l[j]? = some op → cx.ops[k + j]? = some op) → cx.Laid nCu out done →
      cx.Laid nCu ((l.zipIdx k).foldl (fun out p => cx.opStep out p.2 p.1) out)
        (done ++ (l.zipIdx k).flatMap fun p => slicesFrom p.2 0 p.1.cus) by
    refine hall cx.ops 0 _ [] (fun j op h => by rwa [zero_add]) ⟨rfl, fun e he => ?_, ?_, ?_⟩
    · cases he
    · simp
    · intro cu hcu
      simp [hcu]
  intro l
  induction l with
  | nil =>
    intro k out done _ h
    simpa using h
  | cons op l ih =>
    intro k out done hl h
    have := ih (k + 1) _ _ (fun j x hj => by
      have := hl (j + 1) x hj
      rwa [add_assoc, add_comm 1 j]) (h.all (hl 0 op rfl))
    rw [append_assoc] at this
    exact this

end Ctx

end Plow.Devbuild
