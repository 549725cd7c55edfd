import Plow.Extension.Ladder

/-!
# Merging does not depend on the order

`mergeOne_ok`, `loop_ok` and `checkBudget_ok` say what each part of `merge` accepts; together they
give `merge_ok`.  What is accepted is sound (`Merged.Sound`), and two orders of the same extensions
that are both accepted give the same programs, ladders and arenas (`merge_sound`).
-/

namespace Plow.Extension
open Lib List

variable {parent : ParentFacts} {exts exts' : List ExtensionFacts} {e : ExtensionFacts}
  {arenas : Arenas} {row : String × (Budget → ℕ)}

theorem mapError_ok {ε ε' α : Type} {x : Except ε α} {f : ε → ε'} {a : α} :
    x.mapError f = .ok a ↔ x = .ok a := by
  cases x with
  | error e => exact ⟨(fun h => nomatch h), (fun h => nomatch h)⟩
  | ok b => exact ⟨fun h => by cases h; rfl, fun h => by cases h; rfl⟩

/-! ### One extension -/

theorem checkRing_ok : checkRing parent e = .ok () ↔ RingFits parent e := by
  unfold checkRing RingFits
  simp only
  by_cases hw : widest parent.programs < widest e.programs
  · rw [if_pos hw]
    have hnot : ¬ widest e.programs ≤ widest parent.programs := UInt32.not_le.mpr hw
    rw [or_iff_right hnot]
    match parent.kv with
    | .fullCausal => exact iff_of_true rfl trivial
    | .windowed window ringRows => exact ensure_ok
    | .unstated => exact ⟨(fun h => nomatch h), False.elim⟩
  · rw [if_neg hw]
    exact iff_of_true rfl (Or.inl (UInt32.not_lt.mp hw))

theorem checkConfig_ok : checkConfig parent e = .ok () ↔ disagreement parent.config e.config = none := by
  unfold checkConfig
  match disagreement parent.config e.config with
  | none => exact iff_of_true rfl rfl
  | some (axis, want, got) => exact ⟨(fun h => nomatch h), (fun h => nomatch h)⟩

theorem mergeOne_ok {acc r : List Program × Budget} : mergeOne parent acc e = .ok r ↔
    Admissible parent e ∧ Ladders (acc.1 ++ e.table) parent.decodeBatch ∧
      Housed (acc.1 ++ e.table) (acc.1 ++ e.table) ∧
        r = (acc.1 ++ e.table, acc.2.max e.budget) := by
  unfold mergeOne
  constructor
  · intro h
    obtain ⟨⟨⟩, hid, h⟩ := bind_ok.mp h
    obtain ⟨⟨⟩, ht, h⟩ := bind_ok.mp h
    obtain ⟨⟨⟩, hc, h⟩ := bind_ok.mp h
    obtain ⟨⟨⟩, hr, h⟩ := bind_ok.mp h
    obtain ⟨⟨⟩, hl, h⟩ := bind_ok.mp h
    obtain ⟨⟨⟩, hcount, hdigest⟩ := bind_ok.mp ht
    obtain ⟨hlad, hh⟩ := (checkLadder_ok _ _).mp (mapError_ok.mp hl)
    exact ⟨⟨ensure_ok.mp hid, ensure_ok.mp hcount, ensure_ok.mp hdigest, checkConfig_ok.mp hc,
      checkRing_ok.mp hr⟩, hlad, hh, (Except.ok.inj h).symm⟩
  · rintro ⟨ha, hlad, hh, rfl⟩
    refine bind_ok.mpr ⟨(), ensure_ok.mpr ha.identity, ?_⟩
    refine bind_ok.mpr ⟨(), bind_ok.mpr ⟨(), ensure_ok.mpr ha.count, ensure_ok.mpr ha.digest⟩, ?_⟩
    refine bind_ok.mpr ⟨(), checkConfig_ok.mpr ha.config, ?_⟩
    refine bind_ok.mpr ⟨(), checkRing_ok.mpr ha.ring, ?_⟩
    exact bind_ok.mpr ⟨(), mapError_ok.mpr ((checkLadder_ok _ _).mpr ⟨hlad, hh⟩), rfl⟩

/-! ### All extensions -/

theorem union_append (done : List ExtensionFacts) (e : ExtensionFacts) :
    union parent (done ++ [e]) = union parent done ++ e.table := by
  unfold union
  rw [flatMap_append, flatMap_singleton, append_assoc]

theorem demand_append (done : List ExtensionFacts) (e : ExtensionFacts) :
    demand (done ++ [e]) = (demand done).max e.budget := by
  unfold demand
  rw [foldl_append]
  rfl

/-- The loop over `exts`, after `done`. -/
theorem loop_ok (done exts : List ExtensionFacts) {r : List Program × Budget} :
    exts.foldlM (mergeOne parent) (union parent done, demand done) = .ok r ↔
      (∀ e ∈ exts, Admissible parent e) ∧ (∀ before e after, exts = before ++ e :: after →
        Ladders (union parent (done ++ before ++ [e])) parent.decodeBatch ∧
          Housed (union parent (done ++ before ++ [e])) (union parent (done ++ before ++ [e]))) ∧
      r = (union parent (done ++ exts), demand (done ++ exts)) := by
  induction exts generalizing done with
  | nil =>
    rw [append_nil]
    refine ⟨fun h => ⟨nofun, fun before e after h' => ?_, (Except.ok.inj h).symm⟩,
      fun h => h.2.2 ▸ rfl⟩
    exact absurd h'.symm (by simp)
  | cons e exts ih =>
    have happ : done ++ e :: exts = done ++ [e] ++ exts := by
      rw [append_assoc, singleton_append]
    rw [foldlM_cons, happ]
    constructor
    · intro h
      obtain ⟨acc, hone, h⟩ := bind_ok.mp h
      obtain ⟨ha, hl, hh, rfl⟩ := mergeOne_ok.mp hone
      simp only at hl hh
      rw [← union_append] at hl hh
      rw [← union_append, ← demand_append] at h
      obtain ⟨hall, hsteps, hr⟩ := (ih (done ++ [e])).mp h
      refine ⟨forall_mem_cons.mpr ⟨ha, hall⟩, fun before f after h' => ?_, hr⟩
      cases before with
      | nil =>
        obtain ⟨rfl, -⟩ := cons.inj h'
        rw [append_nil]
        exact ⟨hl, hh⟩
      | cons b before =>
        obtain ⟨rfl, hrest⟩ := cons.inj h'
        have := hsteps before f after hrest
        rwa [append_assoc done, singleton_append] at this
    · rintro ⟨hall, hsteps, rfl⟩
      obtain ⟨ha, hall⟩ := forall_mem_cons.mp hall
      have hfirst := hsteps [] e exts rfl
      rw [append_nil, union_append] at hfirst
      refine bind_ok.mpr ⟨_, mergeOne_ok.mpr ⟨ha, hfirst.1, hfirst.2, rfl⟩, ?_⟩
      simp only
      rw [← union_append, ← demand_append]
      refine (ih (done ++ [e])).mpr ⟨hall, fun before f after h' => ?_, rfl⟩
      have := hsteps (e :: before) f after (by rw [h', cons_append])
      rwa [append_assoc done, singleton_append]

theorem checkArena_ok {demand : Budget} {grew grew' : List String}
    : checkArena exts demand arenas grew row = .ok grew' ↔
      (row.2 demand ≤ row.2 arenas.reserved ∨ arenas.growable = true) ∧
        grew' = grew ++ (if row.2 arenas.reserved < row.2 demand then
          [grewLine row.1 (row.2 arenas.reserved) (row.2 demand)] else []) := by
  unfold checkArena
  simp only
  by_cases hle : row.2 demand ≤ row.2 arenas.reserved
  · rw [if_pos hle, if_neg (Nat.not_lt.mpr hle), append_nil]
    exact ⟨fun h => ⟨Or.inl hle, (Except.ok.inj h).symm⟩, fun h => by rw [h.2]⟩
  · rw [if_neg hle, if_pos (Nat.lt_of_not_le hle), or_iff_right hle]
    cases arenas.growable with
    | false => exact ⟨(fun h => nomatch h), (fun h => nomatch h.1)⟩
    | true => exact ⟨fun h => ⟨rfl, (Except.ok.inj h).symm⟩, fun h => by rw [h.2]; rfl⟩

theorem checkArenas_ok {demand : Budget} (rows : List (String × (Budget → ℕ)))
    (grew grew' : List String) : rows.foldlM (checkArena exts demand arenas) grew = .ok grew' ↔
      (∀ row ∈ rows, row.2 demand ≤ row.2 arenas.reserved ∨ arenas.growable = true) ∧
        grew' = grew ++ (rows.filter fun row => row.2 arenas.reserved < row.2 demand).map fun row =>
          grewLine row.1 (row.2 arenas.reserved) (row.2 demand) := by
  induction rows generalizing grew with
  | nil =>
    rw [filter_nil, map_nil, append_nil]
    exact ⟨fun h => ⟨nofun, (Except.ok.inj h).symm⟩, fun h => by rw [h.2]; rfl⟩
  | cons row rows ih =>
    have hsplit : ∀ l : List String, (((row :: rows).filter fun row =>
        row.2 arenas.reserved < row.2 demand).map fun row =>
          grewLine row.1 (row.2 arenas.reserved) (row.2 demand)) =
        (if row.2 arenas.reserved < row.2 demand then
          [grewLine row.1 (row.2 arenas.reserved) (row.2 demand)] else []) ++
          (rows.filter fun row => row.2 arenas.reserved < row.2 demand).map fun row =>
            grewLine row.1 (row.2 arenas.reserved) (row.2 demand) := by
      intro l
      rw [filter_cons]
      by_cases hlt : row.2 arenas.reserved < row.2 demand
      · rw [if_pos (decide_eq_true hlt), if_pos hlt]
        rfl
      · rw [if_neg (by simpa using hlt), if_neg hlt]
        rfl
    rw [foldlM_cons, forall_mem_cons, hsplit grew, ← append_assoc]
    constructor
    · intro h
      obtain ⟨g, hg, h⟩ := bind_ok.mp h
      obtain ⟨hok, rfl⟩ := checkArena_ok.mp hg
      obtain ⟨hall, hr⟩ := (ih _).mp h
      exact ⟨⟨hok, hall⟩, hr⟩
    · rintro ⟨⟨hok, hall⟩, hr⟩
      exact bind_ok.mpr ⟨_, checkArena_ok.mpr ⟨hok, rfl⟩, (ih _).mpr ⟨hall, hr⟩⟩

theorem checkBudget_ok {demand : Budget} {grew : List String} :
    checkBudget exts demand arenas = .ok grew ↔ demand.segments ≤ arenas.segmentCeiling ∧
        (∀ row ∈ arenaRows, row.2 demand ≤ row.2 arenas.reserved ∨ arenas.growable = true) ∧
          grew = grown arenas demand := by
  unfold checkBudget
  constructor
  · intro h
    obtain ⟨⟨⟩, hseg, h⟩ := bind_ok.mp h
    exact ⟨ensure_ok.mp hseg, (checkArenas_ok _ _ _).mp h⟩
  · rintro ⟨hseg, h⟩
    exact bind_ok.mpr ⟨(), ensure_ok.mpr hseg, (checkArenas_ok _ _ _).mpr h⟩

/-! ### The merge -/

theorem union_nil : union parent [] = parent.table := append_nil _

/-- every table on the way is well formed if the last one is -/
theorem steps_iff (hb : Ladders parent.table parent.decodeBatch)
    (hh : Housed parent.table parent.table) : (∀ before e after, exts = before ++ e :: after →
      Ladders (union parent (before ++ [e])) parent.decodeBatch ∧
        Housed (union parent (before ++ [e])) (union parent (before ++ [e]))) ↔
      Ladders (union parent exts) parent.decodeBatch ∧ InOrder parent exts := by
  have hpart : ∀ before after, exts = before ++ after →
      ∃ rest, union parent exts = union parent before ++ rest := by
    rintro before after rfl
    refine ⟨after.flatMap ExtensionFacts.table, ?_⟩
    unfold union
    rw [flatMap_append, append_assoc]
  have hne : ∀ {α : Type} {f : Program → Option α} (l : List ExtensionFacts),
      parent.table.filterMap f ≠ [] → (union parent l).filterMap f ≠ [] := by
    intro α f l hne hnil
    unfold union at hnil
    rw [filterMap_append] at hnil
    exact hne (append_eq_nil_iff.mp hnil).1
  constructor
  · intro h
    constructor
    · rcases eq_nil_or_concat exts with rfl | ⟨before, e, rfl⟩
      · rw [union_nil]
        exact hb
      · rw [concat_eq_append] at h ⊢
        exact (h before e [] rfl).1
    · intro before e after he
      have hall := (h before e after he).2
      rw [union_append] at hall ⊢
      exact (housed_append.mp hall).2
  · rintro ⟨hl, ho⟩ before e after he
    constructor
    · have hsplit : exts = (before ++ [e]) ++ after := by
        rw [he, append_assoc, singleton_append]
      obtain ⟨rest, hrest⟩ := hpart (before ++ [e]) after hsplit
      rw [hrest] at hl
      exact hl.part (hne _ hb.someBucket) (hne _ hb.someRung)
    · -- the parent's siblings and those of each extension have their buckets in what came by then
      have hone : ∀ f ∈ before ++ [e], Housed (union parent (before ++ [e])) f.table := by
        intro f hf
        obtain ⟨l, r, hlr⟩ := append_of_mem hf
        have hsplit : exts = l ++ f :: (r ++ after) := by
          have : exts = (before ++ [e]) ++ after := by
            rw [he, append_assoc, singleton_append]
          rw [this, hlr, append_assoc, cons_append]
        refine (ho l f (r ++ after) hsplit).mono ?_
        rw [hlr]
        unfold union
        refine Sublist.append (.refl _) ?_
        rw [flatMap_append, flatMap_append, flatMap_singleton, flatMap_cons,
          ← append_assoc]
        exact sublist_append_left _ _
      have hbase : Housed (union parent (before ++ [e])) parent.table :=
        hh.mono (sublist_append_left _ _)
      intro q hq kind w hk
      rcases mem_append.mp hq with hq | hq
      · exact hbase q hq kind w hk
      · obtain ⟨f, hf, hq⟩ := mem_flatMap.mp hq
        exact hone f hf q hq kind w hk

theorem merge_ok {m : Merged} : merge parent exts = .ok m ↔
    Acceptable parent exts ∧ InOrder parent exts ∧
      m = ⟨union parent exts, grown parent.arenas (demand exts)⟩ := by
  have hstart : (parent.table, ({} : Budget)) = (union parent [], demand []) := by
    rw [union_nil]
    rfl
  unfold merge
  rw [hstart]
  constructor
  · intro h
    obtain ⟨⟨⟩, hb, h⟩ := bind_ok.mp h
    obtain ⟨acc, hloop, h⟩ := bind_ok.mp h
    obtain ⟨hl, hh⟩ := (checkLadder_ok _ _).mp (mapError_ok.mp hb)
    obtain ⟨hall, hsteps, rfl⟩ := (loop_ok [] exts).mp hloop
    simp only [nil_append] at hsteps h
    obtain ⟨growth, hg, h⟩ := bind_ok.mp h
    obtain ⟨hseg, hroom, rfl⟩ := checkBudget_ok.mp hg
    obtain ⟨hlad, ho⟩ := (steps_iff hl hh).mp hsteps
    exact ⟨⟨hl, hh, hall, hlad, hseg, hroom⟩, ho, (Except.ok.inj h).symm⟩
  · rintro ⟨ha, ho, rfl⟩
    refine bind_ok.mpr ⟨(), mapError_ok.mpr ((checkLadder_ok _ _).mpr ⟨ha.base, ha.baseHoused⟩), ?_⟩
    have hsteps := (steps_iff ha.base ha.baseHoused).mpr ⟨ha.ladders, ho⟩
    refine bind_ok.mpr ⟨_, (loop_ok [] exts).mpr ⟨ha.each, hsteps, rfl⟩, ?_⟩
    exact bind_ok.mpr ⟨_, checkBudget_ok.mpr ⟨ha.segments, ha.room, rfl⟩, rfl⟩

/-! ### Orders -/

theorem union_perm (h : exts.Perm exts') : (union parent exts).Perm (union parent exts') :=
  (h.flatMap_right _).append_left _

theorem demand_perm (h : exts.Perm exts') : demand exts = demand exts' := by
  have hcomm : RightCommutative fun (b : Budget) (e : ExtensionFacts) => b.max e.budget := by
    refine ⟨fun b e f => ?_⟩
    simp only [Budget.max, Budget.mk.injEq]
    exact ⟨Nat.max_right_comm .., Nat.max_right_comm .., Nat.max_right_comm ..,
      Nat.max_right_comm ..⟩
  exact h.foldl_eq (⟨0, 0, 0, 0⟩ : Budget)

theorem Acceptable.perm (h : Acceptable parent exts)
    (hp : exts.Perm exts') : Acceptable parent exts' where
  base := h.base
  baseHoused := h.baseHoused
  each e he := h.each e (hp.symm.subset he)
  ladders := h.ladders.perm (union_perm hp)
  segments := demand_perm hp ▸ h.segments
  room := demand_perm hp ▸ h.room

theorem ascending_perm {ws ws' : List UInt32} (h : ws.Perm ws') : ascending ws = ascending ws' := by
  have hsort : ∀ l : List UInt32, (ascending l).Pairwise (· ≤ ·) := fun l => by
    have hle : (ascending l).Pairwise fun a b => decide (a ≤ b) = true := by
      refine pairwise_mergeSort (fun a b c hab hbc => ?_) (fun a b => ?_) l
      · exact decide_eq_true (UInt32.le_trans (of_decide_eq_true hab) (of_decide_eq_true hbc))
      · rcases UInt32.le_total a b with hab | hab
        · simp [hab]
        · simp [hab]
    exact hle.imp of_decide_eq_true
  have hperm : (ascending ws).Perm (ascending ws') :=
    (mergeSort_perm ws _).trans (h.trans (mergeSort_perm ws' _).symm)
  exact hperm.eq_of_pairwise (fun a b _ _ hab hba => UInt32.le_antisymm hab hba) (hsort ws)
    (hsort ws')

/-! ### What a merge gives -/

theorem le_nextPowerOfTwo {n : UInt32} (h : n.toNat ≤ 2 ^ 31) :
    n.toNat ≤ (nextPowerOfTwo n).toNat := by
  unfold nextPowerOfTwo
  split
  · next hle => exact hle
  · next hgt =>
    have hlt : 1 < n.toNat := UInt32.lt_iff_toNat_lt.mp (UInt32.not_le.mp hgt)
    have hne : n.toNat - 1 ≠ 0 := by omega
    have hlog : (n.toNat - 1).log2 < 31 := (Nat.log2_lt hne).mpr (by omega)
    have hpow : 2 ^ ((n.toNat - 1).log2 + 1) < 2 ^ 32 :=
      Nat.pow_lt_pow_right (by decide) (by omega)
    have hup : n.toNat - 1 < 2 ^ ((n.toNat - 1).log2 + 1) := Nat.lt_log2_self
    show _ ≤ (UInt32.ofNat _).toNat
    rw [UInt32.toNat_ofNat_of_lt' hpow]
    omega

theorem ring_holds {window chunk ringRows : UInt32} (h : kvRingRows window chunk ≤ ringRows)
    (hsum : window.toNat + chunk.toNat - 1 ≤ 2 ^ 31) :
    window.toNat + chunk.toNat - 1 ≤ ringRows.toNat := by
  have hle : (kvRingRows window chunk).toNat ≤ ringRows.toNat := UInt32.le_iff_toNat_le.mp h
  rcases Nat.eq_zero_or_pos (window.toNat + chunk.toNat) with hz | hpos
  · omega
  · have hval : (window + chunk - 1).toNat = window.toNat + chunk.toNat - 1 := by
      have hadd : (window + chunk).toNat = window.toNat + chunk.toNat := by
        rw [UInt32.toNat_add, Nat.mod_eq_of_lt (by omega)]
      have hone : (1 : UInt32) ≤ window + chunk := by
        rw [UInt32.le_iff_toNat_le, hadd]
        exact hpos
      rw [UInt32.toNat_sub_of_le _ _ hone, hadd]
      rfl
    have hnext := le_nextPowerOfTwo (n := window + chunk - 1) (by rw [hval]; exact hsum)
    rw [hval] at hnext
    exact hnext.trans hle

/-- what holds of a merged packet -/
structure Merged.Sound (parent : ParentFacts) (exts : List ExtensionFacts) (m : Merged) : Prop where
  /-- the parent's programs come first, unchanged -/
  programs : m.programs = parent.table ++ exts.flatMap ExtensionFacts.table
  ladders : Ladders m.programs parent.decodeBatch
  housed : Housed m.programs m.programs
  /-- a bucket wider than the parent's widest has a ring for its extension's chunk -/
  ring : ∀ e ∈ exts, widest parent.programs < widest e.programs →
    match parent.kv with
    | .fullCausal => True
    | .windowed window ringRows => window.toNat + e.chunk.toNat - 1 ≤ 2 ^ 31 →
        window.toNat + e.chunk.toNat - 1 ≤ ringRows.toNat
    | .unstated => False
  segments : ∀ e ∈ exts, e.budget.segments ≤ parent.arenas.segmentCeiling
  /-- an arena holds each demand, or has grown to the largest -/
  arenas : ∀ row ∈ arenaRows, (∀ e ∈ exts, row.2 e.budget ≤ row.2 parent.arenas.reserved) ∨
    (parent.arenas.growable = true ∧ (∀ e ∈ exts, row.2 e.budget ≤ row.2 (demand exts)) ∧
      grewLine row.1 (row.2 parent.arenas.reserved) (row.2 (demand exts)) ∈ m.growth)

theorem le_demand (hrow : row ∈ arenaRows) (he : e ∈ exts) :
    row.2 e.budget ≤ row.2 (demand exts) := by
  have hmax : ∀ b o : Budget, row.2 (b.max o) = Nat.max (row.2 b) (row.2 o) := by
    intro b o
    simp only [arenaRows, mem_cons, not_mem_nil, or_false] at hrow
    rcases hrow with rfl | rfl | rfl | rfl
    · rfl
    · rfl
    · rfl
    · rfl
  have hmono : ∀ (l : List ExtensionFacts) (b : Budget),
      row.2 b ≤ row.2 (l.foldl (fun b e => b.max e.budget) b) ∧
        ∀ f ∈ l, row.2 f.budget ≤ row.2 (l.foldl (fun b e => b.max e.budget) b) := by
    intro l
    induction l with
    | nil => exact fun b => ⟨le_rfl, nofun⟩
    | cons f l ih =>
      intro b
      obtain ⟨hb, hl⟩ := ih (b.max f.budget)
      rw [hmax] at hb
      refine ⟨(Nat.le_max_left _ _).trans hb, fun g hg => ?_⟩
      rcases mem_cons.mp hg with rfl | hg
      · exact (Nat.le_max_right _ _).trans hb
      · exact hl g hg
  exact (hmono exts {}).2 e he

theorem merge_isSound {m : Merged} (h : merge parent exts = .ok m) : m.Sound parent exts := by
  obtain ⟨ha, ho, rfl⟩ := merge_ok.mp h
  have hhoused : Housed (union parent exts) (union parent exts) := by
    rcases eq_nil_or_concat exts with rfl | ⟨before, e, rfl⟩
    · rw [union_nil]
      exact ha.baseHoused
    · rw [concat_eq_append] at *
      exact ((steps_iff ha.base ha.baseHoused).mpr ⟨ha.ladders, ho⟩ before e [] rfl).2
  refine ⟨rfl, ha.ladders, hhoused, fun e he hw => ?_, fun e he => ?_, fun row hrow => ?_⟩
  · have hring := (ha.each e he).ring
    unfold RingFits at hring
    rw [or_iff_right (UInt32.not_le.mpr hw)] at hring
    match hk : parent.kv with
    | .fullCausal => exact trivial
    | .windowed window ringRows =>
      rw [hk] at hring
      exact ring_holds hring
    | .unstated =>
      rw [hk] at hring
      exact hring
  · have hrow : ("segments", Budget.segments) ∈ arenaRows := by simp [arenaRows]
    exact (le_demand hrow he).trans ha.segments
  · by_cases hle : row.2 (demand exts) ≤ row.2 parent.arenas.reserved
    · exact Or.inl fun e he => (le_demand hrow he).trans hle
    · refine Or.inr ⟨(ha.room row hrow).resolve_left hle, fun e he => le_demand hrow he, ?_⟩
      refine mem_map.mpr ⟨row, mem_filter.mpr ⟨hrow, ?_⟩, rfl⟩
      exact decide_eq_true (Nat.lt_of_not_le hle)

/-- **Merging is sound**, and but for siblings of another extension's bucket its order does not
count. -/
theorem merge_sound (parent : ParentFacts) (exts : List ExtensionFacts) :
    ((∃ m, merge parent exts = .ok m) ↔ Acceptable parent exts ∧ InOrder parent exts) ∧
    (∀ exts', exts.Perm exts' → (Acceptable parent exts ↔ Acceptable parent exts') ∧
      ∀ m m', merge parent exts = .ok m → merge parent exts' = .ok m' →
        m.programs.Perm m'.programs ∧ m.prefillWidths = m'.prefillWidths ∧
          m.decodeRungs = m'.decodeRungs ∧ m.growth = m'.growth) ∧
    (∀ m, merge parent exts = .ok m → m.Sound parent exts) ∧
    (∀ m, merge parent [] = .ok m → m = ⟨parent.table, []⟩) := by
  refine ⟨⟨fun ⟨m, h⟩ => ?_, fun ⟨ha, ho⟩ => ⟨_, merge_ok.mpr ⟨ha, ho, rfl⟩⟩⟩, fun exts' hp =>
    ⟨⟨fun h => h.perm hp, fun h => h.perm hp.symm⟩, fun m m' h h' => ?_⟩,
    fun m h => merge_isSound h, fun m h => ?_⟩
  · obtain ⟨ha, ho, -⟩ := merge_ok.mp h
    exact ⟨ha, ho⟩
  · obtain ⟨-, -, rfl⟩ := merge_ok.mp h
    obtain ⟨-, -, rfl⟩ := merge_ok.mp h'
    have hu : (union parent exts).Perm (union parent exts') := union_perm hp
    refine ⟨hu, ascending_perm (hu.filterMap _), ascending_perm (hu.filterMap _), ?_⟩
    show grown parent.arenas (demand exts) = grown parent.arenas (demand exts')
    rw [demand_perm hp]
  · obtain ⟨-, -, rfl⟩ := merge_ok.mp h
    rw [union_nil]
    rfl

/-- a packet with one bucket and one rung -/
def smallParent : ParentFacts where
  hash := []
  tensorCount := 0
  tensorDigest := []
  config := []
  kv := .fullCausal
  programs := [.prefillBucket 512, .decodeRung 1]
  decodeBatch := 8
  arenas := ⟨{}, 2048, true⟩

def adding (name : String) (r : ProgramRole) : ExtensionFacts where
  name := name
  parent := ⟨[], 0, []⟩
  config := []
  programs := [r]
  chunk := 512
  budget := {}

/-- A sibling of another extension's bucket is found in one order only. -/
theorem merge_order_counts : ¬ ∀ parent exts exts', List.Perm exts exts' →
    ((∃ m, merge parent exts = .ok m) ↔ ∃ m, merge parent exts' = .ok m) := by
  intro h
  have hiff := h smallParent [adding "bucket" (.prefillBucket 1024),
    adding "sibling" (.packedSibling 1024)] [adding "sibling" (.packedSibling 1024),
      adding "bucket" (.prefillBucket 1024)] (Perm.swap _ _ _)
  obtain ⟨m, hm⟩ := hiff.mp ⟨_, rfl⟩
  have hno : (merge smallParent [adding "sibling" (.packedSibling 1024),
      adding "bucket" (.prefillBucket 1024)]).isOk = false := rfl
  rw [hm] at hno
  cases hno

end Plow.Extension
