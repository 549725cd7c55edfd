import Plow.Lib.Results

/-!
# Rebasing a prefill program onto a chunk

A prefill program is compiled for `t` rows and run on a chunk of `clen` of them from row `c0` on. The
pass goes over the instructions one by one (`rebase`, then `shrink` when the chunk is run at its own
row count), so what it does is said about one instruction.

The indexer's pools of `p` rows: complete ones are compressed, and the rows behind the last of them
are stashed in a ring of `p` slots. Fewer than `p` rows lie there, so no two share a slot
(`seedRows_slots`), and the stashes may run in any order.
-/

namespace Plow.KvRow

open List Function

/-- the opcodes that the pass names; `other` is any other one -/
inductive DevOp
  | nop | flashPrefill | flashPrefillFp8 | dsaPoolCompress | dsaPoolStash
  | kdaConv | kdaConv3 | kdaGate | kdaStateStep | kdaStateStepG | kdaConvStateStepG | kdaGatedNorm
  | kdaChunkPrepare | kdaChunkIntra | kdaChunkWu | kdaChunkCarry
  | embed | mmRowsBf16 | mmSpanExtent | rmsNorm | layerNorm | headNormRope | headNormRopeFp8
  | residual | addNorm | glu | gluPitched | gemm | gemmNorm | gemmSmall | gemmMed | gemmWide | gemmC5
  | gemmGlu | gemmFp8 | gemmMedFp8 | gemmSmallFp8 | gemmWideFp8 | gemmGluFp8 | gemmFp8Blk | gemmFp8Mx
  | gemmFp8Block128 | quantFp8Block128 | mlaBmmFp8 | gemmFp8Block128Split4 | gemmMxfp4 | gemmMedMxfp4
  | gemmSmallMxfp4 | gemmWideMxfp4 | gemmC5Mxfp4 | gemmGluMxfp4 | gemmAffineQ4 | gemvAffineQ4
  | gemmF32 | gemmC5Fp8 | gemmSplitK | perLayerInput | gluStrided | flashMlaPrefill
  | flashMlaPrefillFp8 | indexScorePf | indexSelectPf | indexUnionPf | indexScoreKpool
  | dsaPoolExpand | dsaQQuant | mlaMergeFold | moeRouterTopkPf | moeAlignPf | moeCombinePf
  | moeRouterGemmaPf | moeAlignGemmaPf | moeCombineNormGemmaPf | xReduce | xReduceTwoShot
  | hyperConnPre | hyperConnPost | gemvF32
  | xReduceScatter | xAllGather | xAllToAllHeads | attnRes
  | other (code : ℕ)
  deriving DecidableEq

abbrev Name := List Char

structure DevInst64 where
  op : DevOp
  fj : Fin 3 → ℕ
  t : Fin 8 → ℕ
  i : Fin 8 → ℕ

/-- where an op carries its row count, or a multiple of it -/
inductive RowField
  | rows (f : Fin 8)
  | rowsTimes (f : Fin 8)
  deriving DecidableEq

def kdaRowCountOps : List DevOp :=
  [.kdaConv, .kdaConv3, .kdaGate, .kdaStateStep, .kdaStateStepG, .kdaConvStateStepG, .kdaGatedNorm,
    .kdaChunkPrepare, .kdaChunkIntra, .kdaChunkWu, .kdaChunkCarry]

def prefillRowField : DevOp → Option RowField
  | .embed | .mmRowsBf16 | .mmSpanExtent | .rmsNorm | .layerNorm | .headNormRope | .headNormRopeFp8 =>
    some (.rows 0)
  | .residual => some (.rowsTimes 0)
  | .addNorm => some (.rows 0)
  | .glu | .gluPitched => some (.rowsTimes 0)
  | .gemm | .gemmNorm | .gemmSmall | .gemmMed | .gemmWide | .gemmC5 | .gemmGlu | .gemmFp8
  | .gemmMedFp8 | .gemmSmallFp8 | .gemmWideFp8 | .gemmGluFp8 | .gemmFp8Blk | .gemmFp8Mx
  | .gemmFp8Block128 | .quantFp8Block128 | .mlaBmmFp8 | .gemmFp8Block128Split4 | .gemmMxfp4
  | .gemmMedMxfp4 | .gemmSmallMxfp4 | .gemmWideMxfp4 | .gemmC5Mxfp4 | .gemmGluMxfp4
  | .gemmAffineQ4 | .gemvAffineQ4 | .gemmF32 | .gemmC5Fp8 | .gemmSplitK | .perLayerInput
  | .gluStrided => some (.rows 0)
  | .flashMlaPrefill | .flashMlaPrefillFp8 => some (.rows 4)
  | .indexScorePf | .indexSelectPf | .indexUnionPf | .indexScoreKpool | .dsaPoolExpand =>
    some (.rows 0)
  | .dsaQQuant => some (.rowsTimes 0)
  | .mlaMergeFold => some (.rows 0)
  | .moeRouterTopkPf => some (.rows 4)
  | .moeAlignPf => some (.rows 0)
  | .moeCombinePf => some (.rows 2)
  | .moeRouterGemmaPf => some (.rows 3)
  | .moeAlignGemmaPf => some (.rows 0)
  | .moeCombineNormGemmaPf => some (.rows 2)
  | .xReduce | .xReduceTwoShot => some (.rowsTimes 0)
  | .hyperConnPre | .hyperConnPost | .gemvF32 => some (.rows 0)
  | _ => none

def startsWith (s : String) (n : Name) : Bool := s.toList.isPrefixOf n

def contains (s : String) (n : Name) : Bool := n.tails.any (startsWith s)

namespace DevInst64

def set (d : DevInst64) (f : Fin 8) (v : ℕ) : DevInst64 := { d with i := Function.update d.i f v }

@[simp] theorem set_op (d : DevInst64) (f : Fin 8) (v : ℕ) : (d.set f v).op = d.op := rfl

@[simp] theorem set_self (d : DevInst64) (f : Fin 8) (v : ℕ) : (d.set f v).i f = v :=
  update_self ..

theorem set_of_ne {d : DevInst64} {f g : Fin 8} {v : ℕ} (h : g ≠ f) : (d.set f v).i g = d.i g :=
  update_of_ne h ..

variable (names : List Name) (d : DevInst64)

def dst : Option Name := names[d.t 0]?

def isBand : Bool := (d.dst names).any (contains "@band")

def isA2aFlash : Bool := d.op = .flashMlaPrefill && names[d.t 2]?.any (· = "act.qa_rs".toList)

end DevInst64

def kvWriteRowField (op : DevOp) (dst : Option Name) : Option (Fin 8) :=
  if ¬ dst.any (startsWith "kv.") then none
  else match op with
    | .rmsNorm => some 2
    | .dsaPoolCompress => some 3
    | .headNormRope | .headNormRopeFp8 => some 3
    | _ => none

variable (names : List Name) (c0 clen t : ℕ)

def rebase (d : DevInst64) : DevInst64 :=
  let d' := match kvWriteRowField d.op (d.dst names) with
    | some f => d.set f c0
    | none => d
  if (d.op = .headNormRope ∨ d.op = .headNormRopeFp8) ∧ d.fj 1 ≠ 0 ∧
      ¬ (d.dst names).any (startsWith "act.") then d'.set 3 c0
  else if d.op = .flashPrefill ∨ d.op = .flashPrefillFp8 then (d'.set 4 c0).set 1 (c0 + clen)
  else if d.op ∈ kdaRowCountOps then d'.set 0 clen
  else if d.op = .dsaPoolCompress then d'.set 0 (clen / max (d'.i 1) 1)
  else if d.op = .dsaPoolStash ∧ d'.i 4 ≠ 1 then
    let poolSize := max (d'.i 0) 1
    let pad := t - clen
    let complete := clen / poolSize * poolSize
    -- `checked_sub`: a row before the chunk's first is disabled too
    if pad ≤ d'.i 2 ∧ complete ≤ d'.i 2 - pad ∧ d'.i 2 - pad < clen then d'.set 2 (d'.i 2 - pad)
    else { d' with op := .nop }
  else d'

/-- `op` is the opcode before the pass -/
def shrink (bucket : Option ℕ) (op : DevOp) (d : DevInst64) : DevInst64 :=
  match bucket.filter fun t => 0 < t && clen < t with
  | none => d
  | some t =>
    if d.isBand names then d
    else if d.isA2aFlash names then d
    else match prefillRowField op with
      | some (.rows f) => if d.i f = t then d.set f clen else d
      | some (.rowsTimes f) => if 0 < d.i f ∧ d.i f % t = 0 then d.set f (d.i f / t * clen) else d
      | none => d

def rebaseInst (bucket : Option ℕ) (d : DevInst64) : DevInst64 :=
  shrink names clen bucket d.op (rebase names c0 clen t d)

def rebaseChunkRows (bucket : Option ℕ) (insts : List DevInst64) : List DevInst64 :=
  insts.map (rebaseInst names c0 clen t bucket)

/-- what a stash does to the ring: the row at `pos` goes to its position's slot -/
def stash {V : Type} (pos : ℕ → ℕ) (cur : ℕ → V) (ring : ℕ → V) (d : DevInst64) : ℕ → V :=
  if d.op = .dsaPoolStash then Function.update ring (pos (d.i 2) % d.i 0) (cur (d.i 2)) else ring

def stashRow (d : DevInst64) : Option ℕ := if d.op = .dsaPoolStash then some (d.i 2) else none

/-- the `k`th of the stashes that seed the ring's tail, as compiled for `t` rows -/
structure Seed (p t k : ℕ) (d : DevInst64) : Prop where
  op : d.op = .dsaPoolStash
  pool : d.i 0 = p
  row : d.i 2 + 1 + k = t
  form : d.i 4 ≠ 1

variable {names c0 clen t} {d : DevInst64} {bucket : Option ℕ} {p k : ℕ} {op : DevOp}

theorem shrink_of_none (h : prefillRowField op = none) : shrink names clen bucket op d = d := by
  unfold shrink
  rw [h]
  split
  · rfl
  · split_ifs <;> rfl

/-! ### Pools -/

theorem rebaseInst_compress (h : d.op = .dsaPoolCompress) (hp : 0 < d.i 1) :
    (rebaseInst names c0 clen t bucket d).op = .dsaPoolCompress ∧
      (rebaseInst names c0 clen t bucket d).i 0 = clen / d.i 1 ∧
      (rebaseInst names c0 clen t bucket d).i 1 = d.i 1 := by
  have hk : DevOp.dsaPoolCompress ∉ kdaRowCountOps := by decide
  have hmax : max (d.i 1) 1 = d.i 1 := max_eq_left hp
  rw [rebaseInst, shrink_of_none (by rw [h]; rfl)]
  unfold rebase kvWriteRowField
  simp only [h, reduceCtorEq, false_or, false_and, if_false, if_true, hk]
  split_ifs <;> simp [DevInst64.set, h, hmax]

theorem rebaseInst_seed (hp : 0 < p) (hle : clen ≤ t) (h : Seed p t k d) :
    rebaseInst names c0 clen t bucket d =
      if k < clen % p then d.set 2 (clen - 1 - k) else { d with op := .nop } := by
  have hk : DevOp.dsaPoolStash ∉ kdaRowCountOps := by decide
  have hkv : kvWriteRowField .dsaPoolStash (d.dst names) = none := ite_self _
  have hrow := h.row
  have hmod : clen / p * p + clen % p = clen := Nat.div_add_mod' clen p
  have hcond : (t - clen ≤ d.i 2 ∧ clen / p * p ≤ d.i 2 - (t - clen) ∧ d.i 2 - (t - clen) < clen) ↔
      k < clen % p := by
    omega
  rw [rebaseInst, shrink_of_none (by rw [h.op]; rfl), rebase]
  simp only [hkv, hk, h.op, h.pool, h.form, max_eq_left (Nat.succ_le_of_lt hp), hcond, reduceCtorEq,
    false_or, false_and, if_false, true_and, ne_eq, not_false_iff, if_true]
  split_ifs
  · congr 1
    omega
  · rfl

variable {seed : ℕ → DevInst64} {r : ℕ}

theorem stashRow_seed (hp : 0 < p) (hle : clen ≤ t) (h : Seed p t k d) :
    stashRow (rebaseInst names c0 clen t bucket d) = some r ↔ k < clen % p ∧ r + 1 + k = clen := by
  have hmod : clen / p * p + clen % p = clen := Nat.div_add_mod' clen p
  rw [rebaseInst_seed hp hle h, stashRow]
  split_ifs with h1 h2 h2
  · rw [DevInst64.set_self, Option.some_inj]
    omega
  · exact absurd h.op h2
  · cases h2
  · simp only [h1, false_and]

def seedRows (names : List Name) (c0 clen t : ℕ) (bucket : Option ℕ) (p : ℕ) (seed : ℕ → DevInst64) :
    List ℕ :=
  (rebaseChunkRows names c0 clen t bucket ((List.range (p - 1)).map seed)).filterMap stashRow

theorem mem_seedRows (hp : 0 < p) (hle : clen ≤ t) (h : ∀ k < p - 1, Seed p t k (seed k)) :
    r ∈ seedRows names c0 clen t bucket p seed ↔ clen / p * p ≤ r ∧ r < clen := by
  have hlt := Nat.mod_lt clen hp
  have hmod : clen / p * p + clen % p = clen := Nat.div_add_mod' clen p
  simp only [seedRows, rebaseChunkRows, map_map, filterMap_map, mem_filterMap,
    mem_range, comp_apply]
  constructor
  · rintro ⟨k, hk, he⟩
    obtain ⟨h1, h2⟩ := (stashRow_seed hp hle (h k hk)).mp he
    omega
  · rintro ⟨h1, h2⟩
    have hk : clen - 1 - r < p - 1 := by omega
    exact ⟨clen - 1 - r, hk, (stashRow_seed hp hle (h _ hk)).mpr (by omega)⟩

theorem nodup_seedRows (hp : 0 < p) (hle : clen ≤ t) (h : ∀ k < p - 1, Seed p t k (seed k)) :
    (seedRows names c0 clen t bucket p seed).Nodup := by
  rw [seedRows, rebaseChunkRows, map_map, filterMap_map, List.Nodup, pairwise_filterMap]
  refine nodup_range.imp_of_mem fun {i j} hi hj hne r hr r' hr' he => hne ?_
  have hi := ((stashRow_seed hp hle (h i (mem_range.mp hi))).mp hr).2
  have hj := ((stashRow_seed hp hle (h j (mem_range.mp hj))).mp hr').2
  omega

/-! ### The ring -/

theorem seedRows_slots {r' : ℕ} (hr : clen / p * p ≤ r ∧ r < clen) (hr' : clen / p * p ≤ r' ∧ r' < clen)
    (h : (c0 + r) % p = (c0 + r') % p) : r = r' := by
  have hm : r % p = r' % p := Nat.ModEq.add_left_cancel' c0 h
  have hd (x : ℕ) (hx : clen / p * p ≤ x ∧ x < clen) : x / p = clen / p := by
    refine le_antisymm (Nat.div_le_div_right hx.2.le) ?_
    rcases Nat.eq_zero_or_pos p with rfl | hp
    · simp
    · exact (Nat.le_div_iff_mul_le hp).mpr hx.1
  rw [← Nat.div_add_mod r p, ← Nat.div_add_mod r' p, hm, hd r hr, hd r' hr']

theorem pool_of_row (hc0 : p ∣ c0) (hp : 0 < p) (hr : r < clen) :
    (c0 + r) / p = (c0 + clen) / p ↔ clen / p * p ≤ r := by
  obtain ⟨m, rfl⟩ := hc0
  rw [Nat.mul_add_div hp, Nat.mul_add_div hp, Nat.add_left_cancel_iff]
  constructor
  · intro he
    rw [← he]
    exact Nat.div_mul_le_self r p
  · intro hle
    exact le_antisymm (Nat.div_le_div_right hr.le) ((Nat.le_div_iff_mul_le hp).mpr hle)

variable {V : Type} {pos : ℕ → ℕ} {cur ring : ℕ → V} {rf : RowField}

/-- Stashes whose rows lie in different slots leave each row in its slot and the other slots alone. -/
theorem foldl_stash {ds : List DevInst64} (hp : ∀ d ∈ ds, d.op = .dsaPoolStash → d.i 0 = p)
    (hinj : ∀ r ∈ ds.filterMap stashRow, ∀ r' ∈ ds.filterMap stashRow,
      pos r % p = pos r' % p → r = r') :
    (∀ r ∈ ds.filterMap stashRow, ds.foldl (stash pos cur) ring (pos r % p) = cur r) ∧
      ∀ s, (∀ r ∈ ds.filterMap stashRow, pos r % p ≠ s) → ds.foldl (stash pos cur) ring s = ring s := by
  induction ds generalizing ring with
  | nil => exact ⟨nofun, fun _ _ => rfl⟩
  | cons d ds ih =>
    obtain ⟨hpd, hpds⟩ := forall_mem_cons.mp hp
    by_cases hd : d.op = .dsaPoolStash
    · have hs : stashRow d = some (d.i 2) := if_pos hd
      have hring : stash pos cur ring d = update ring (pos (d.i 2) % p) (cur (d.i 2)) := by
        rw [stash, if_pos hd, hpd hd]
      rw [filterMap_cons_some hs] at hinj ⊢
      obtain ⟨h1, h2⟩ := @ih (stash pos cur ring d) hpds fun r hr r' hr' =>
        hinj r (mem_cons_of_mem _ hr) r' (mem_cons_of_mem _ hr')
      rw [foldl_cons]
      refine ⟨forall_mem_cons.mpr ⟨?_, h1⟩, fun s hs => ?_⟩
      · by_cases hex : ∃ r ∈ ds.filterMap stashRow, pos r % p = pos (d.i 2) % p
        · obtain ⟨r, hr, he⟩ := hex
          have := hinj r (mem_cons_of_mem _ hr) _ mem_cons_self he
          exact this ▸ h1 r hr
        · rw [h2 _ fun r hr he => hex ⟨r, hr, he⟩, hring, update_self]
      · obtain ⟨hd', hs'⟩ := forall_mem_cons.mp hs
        rw [h2 s hs', hring, update_of_ne hd'.symm]
    · have hs : stashRow d = none := if_neg hd
      rw [filterMap_cons_none hs] at hinj ⊢
      rw [foldl_cons, stash, if_neg hd]
      exact ih hpds hinj

/-! ### The bucket -/

def RowField.field : RowField → Fin 8
  | .rows f => f
  | .rowsTimes f => f

theorem kvWriteRowField_ne {dst : Option Name} {f : Fin 8}
    (h : prefillRowField op = some rf) (hf : kvWriteRowField op dst = some f) : rf.field ≠ f := by
  unfold kvWriteRowField at hf
  split_ifs at hf
  split at hf
  all_goals cases hf
  all_goals cases h
  all_goals decide

theorem not_rebased (h : prefillRowField op = some rf) :
    op ≠ .flashPrefill ∧ op ≠ .flashPrefillFp8 ∧ op ∉ kdaRowCountOps ∧ op ≠ .dsaPoolCompress ∧
      op ≠ .dsaPoolStash := by
  have hk : ∀ op ∈ kdaRowCountOps, prefillRowField op = none := by decide
  refine ⟨?_, ?_, fun hm => ?_, ?_, ?_⟩
  · rintro rfl
    cases h
  · rintro rfl
    cases h
  · rw [hk op hm] at h
    cases h
  · rintro rfl
    cases h
  · rintro rfl
    cases h

theorem rebase_row (h : prefillRowField d.op = some rf) :
    (rebase names c0 clen t d).i rf.field = d.i rf.field := by
  obtain ⟨h1, h2, h3, h4, h5⟩ := not_rebased h
  have hhead : d.op = .headNormRope ∨ d.op = .headNormRopeFp8 → rf.field ≠ 3 := by
    rintro (he | he) <;> rw [he] at h <;> cases h <;> decide
  have hkv : (match kvWriteRowField d.op (d.dst names) with
      | some f => d.set f c0
      | none => d).i rf.field = d.i rf.field := by
    cases hf : kvWriteRowField d.op (d.dst names) with
    | none => rfl
    | some f => exact DevInst64.set_of_ne (kvWriteRowField_ne h hf)
  unfold rebase
  dsimp only
  rw [if_neg (show ¬ (d.op = .flashPrefill ∨ _) from fun he => he.elim h1 h2), if_neg h3, if_neg h4,
    if_neg (show ¬ (d.op = .dsaPoolStash ∧ _) from fun he => h5 he.1)]
  split_ifs with hh
  · rw [DevInst64.set_of_ne (hhead hh.1), hkv]
  · exact hkv

/-- `own` is `whole` but for a row count of `d` that was `b`, or a multiple of it -/
def OnlyRows (clen b : ℕ) (d whole own : DevInst64) : Prop :=
  own = whole ∨ clen < b ∧ ∃ f, whole.i f = d.i f ∧
    (prefillRowField d.op = some (.rows f) ∧ d.i f = b ∧ own = whole.set f clen ∨
      prefillRowField d.op = some (.rowsTimes f) ∧ 0 < d.i f ∧ b ∣ d.i f ∧
        own = whole.set f (d.i f / b * clen))

theorem rebaseInst_bucket (names : List Name) (c0 clen t b : ℕ) (d : DevInst64) :
    OnlyRows clen b d (rebaseInst names c0 clen t none d) (rebaseInst names c0 clen t (some b) d) := by
  set whole := rebaseInst names c0 clen t none d
  have hwhole : whole = rebase names c0 clen t d := rfl
  unfold OnlyRows
  rw [rebaseInst, ← hwhole, shrink]
  cases hb : (some b).filter fun t => 0 < t && clen < t with
  | none => exact .inl rfl
  | some b' =>
    obtain ⟨rfl, -, hclen⟩ : b = b' ∧ 0 < b' ∧ clen < b' := by simpa using hb
    dsimp only
    split_ifs with h1 h2
    · exact .inl rfl
    · exact .inl rfl
    · cases hf : prefillRowField d.op with
      | none => exact .inl rfl
      | some rf =>
        have hrow : whole.i rf.field = d.i rf.field := rebase_row hf
        cases rf with
        | rows f =>
          replace hrow : whole.i f = d.i f := hrow
          dsimp only
          split_ifs with he
          · exact .inr ⟨hclen, f, hrow, .inl ⟨rfl, hrow ▸ he, rfl⟩⟩
          · exact .inl rfl
        | rowsTimes f =>
          replace hrow : whole.i f = d.i f := hrow
          dsimp only
          split_ifs with he
          · rw [hrow] at he ⊢
            exact .inr ⟨hclen, f, hrow, .inr ⟨rfl, he.1, Nat.dvd_of_mod_eq_zero he.2, rfl⟩⟩
          · exact .inl rfl

/-- In a program with a compression and the seeds of its ring, the complete pools are compressed, the
seeds stash the real rows behind them and no others, in whichever order each row ends up in its slot,
those are the rows of the pool being filled, and only row counts depend on the bucket. -/
theorem rebaseChunkRows_pools (hp : 0 < p) (hle : clen ≤ t) {comp : DevInst64}
    (hcomp : comp.op = .dsaPoolCompress ∧ comp.i 1 = p) (hseed : ∀ k < p - 1, Seed p t k (seed k))
    (names : List Name) (c0 : ℕ) (bucket : Option ℕ) (pre post : List DevInst64) :
    ∃ comp' seeds', rebaseChunkRows names c0 clen t bucket
        (pre ++ comp :: (List.range (p - 1)).map seed ++ post) =
          rebaseChunkRows names c0 clen t bucket pre ++ comp' :: seeds' ++
            rebaseChunkRows names c0 clen t bucket post ∧
      (comp'.op = .dsaPoolCompress ∧ comp'.i 0 = clen / p ∧ comp'.i 1 = p) ∧
      ((seeds'.filterMap stashRow).Nodup ∧
        ∀ r, r ∈ seeds'.filterMap stashRow ↔ clen / p * p ≤ r ∧ r < clen) ∧
      (∀ {V : Type} (cur ring : ℕ → V) (pos : ℕ → ℕ), (∀ r < clen, pos r = c0 + r) →
        ∀ order : List DevInst64, order.Perm seeds' → (∀ r, clen / p * p ≤ r → r < clen →
            order.foldl (stash pos cur) ring ((c0 + r) % p) = cur r) ∧
          ∀ s, (∀ r, clen / p * p ≤ r → r < clen → (c0 + r) % p ≠ s) →
            order.foldl (stash pos cur) ring s = ring s) ∧
      (p ∣ c0 → ∀ r < clen, (c0 + r) / p = (c0 + clen) / p ↔ clen / p * p ≤ r) ∧
      ∀ (b : ℕ) (d : DevInst64), OnlyRows clen b d (rebaseInst names c0 clen t none d)
        (rebaseInst names c0 clen t (some b) d) := by
  have hmem := fun r => @mem_seedRows names c0 clen t bucket p seed r hp hle hseed
  refine ⟨rebaseInst names c0 clen t bucket comp,
    rebaseChunkRows names c0 clen t bucket ((List.range (p - 1)).map seed), ?_, ?_,
    ⟨nodup_seedRows hp hle hseed, hmem⟩, ?_, fun hc0 r hr => pool_of_row hc0 hp hr,
    fun b d => rebaseInst_bucket names c0 clen t b d⟩
  · simp only [rebaseChunkRows, map_append, map_cons]
  · have := @rebaseInst_compress names c0 clen t comp bucket hcomp.1 (hcomp.2 ▸ hp)
    rwa [hcomp.2] at this
  · intro V cur ring pos hpos order hperm
    have hin (r) : r ∈ order.filterMap stashRow ↔ clen / p * p ≤ r ∧ r < clen :=
      ((hperm.filterMap _).mem_iff).trans (hmem r)
    have hpool : ∀ d ∈ order, d.op = .dsaPoolStash → d.i 0 = p := by
      intro d hd _
      obtain ⟨d', hd', rfl⟩ := mem_map.mp (hperm.mem_iff.mp hd)
      obtain ⟨k, hk, rfl⟩ := mem_map.mp hd'
      have hs := hseed k (mem_range.mp hk)
      rw [rebaseInst_seed hp hle hs]
      split_ifs
      · rw [DevInst64.set_of_ne (by decide), hs.pool]
      · exact hs.pool
    obtain ⟨h1, h2⟩ := @foldl_stash p V pos cur ring order hpool fun r hr r' hr' he => by
      rw [hin] at hr hr'
      rw [hpos r hr.2, hpos r' hr'.2] at he
      exact seedRows_slots hr hr' he
    refine ⟨fun r hr hr' => ?_, fun s hs => h2 s fun r hr => ?_⟩
    · rw [← hpos r hr']
      exact h1 r ((hin r).mpr ⟨hr, hr'⟩)
    · have hr := (hin r).mp hr
      rw [hpos r hr.2]
      exact hs r hr.1 hr.2

theorem rebaseChunkRows_pools_six : ∃ comp' seeds' : List DevInst64,
    comp'.map (·.i 0) = [1] ∧ ∀ r, r ∈ seeds'.filterMap stashRow ↔ 4 ≤ r ∧ r < 6 := by
  obtain ⟨comp', seeds', -, hcomp, hrows, -⟩ := @rebaseChunkRows_pools 6 8 4
    (fun k => ⟨.dsaPoolStash, 0, 0, fun f => if f = 0 then 4 else if f = 2 then 7 - k else 0⟩) (by decide) (by decide)
    ⟨.dsaPoolCompress, 0, 0, fun f => if f = 1 then 4 else 2⟩ ⟨rfl, rfl⟩
    (fun k hk => ⟨rfl, rfl, show 7 - k + 1 + k = 8 by omega, show (0 : ℕ) ≠ 1 by decide⟩)
    [] 0 none [] []
  exact ⟨[comp'], seeds', congrArg (fun n => [n]) hcomp.2.1, hrows.2⟩

end Plow.KvRow
