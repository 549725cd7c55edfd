import Plow.TokenBatch.Admission

/-!
# The plan and its resolver

`Env.filled` is the finished plan of the scheduled requests.  `valid_filled`: the planner's own
check accepts it.  `planInto_correct`: a plan that `planInto` returns puts every token of every
request in one row, which resolves to the request; its samples, owners and commits belong
together; its padding is inert; and a refusal leaves the buffer cleared.
-/

namespace Plow.TokenBatch
open Plow.Lib List

variable {env : Env} {r : Request} {rs requests : List Request} {n k i j row : Nat} {xs : List Nat}

/-! ### Spans -/

@[simp] theorem lens_spansFrom : lens (env.spansFrom n rs) = rowLens rs := by
  induction rs generalizing n with
  | nil => rfl
  | cons r rs ih =>
    rw [Env.spansFrom, lens, map_cons]
    exact congrArg₂ cons rfl ih

theorem spansFrom_get : (env.spansFrom n rs)[k]? =
    rs[k]?.map fun r => env.span r (n + tileStart (rowLens rs) k) := by
  induction rs generalizing n k with
  | nil => simp [Env.spansFrom]
  | cons r rs ih =>
    cases k with
    | zero => simp [Env.spansFrom]
    | succ k =>
      simp only [Env.spansFrom, getElem?_cons_succ, ih, rowLens, map_cons,
        tileStart_cons, add_assoc]

theorem tiles_spansFrom : Tiles (env.spansFrom 0 rs) 0 (rowLens rs).sum where
  row0 k s h := by
    rw [spansFrom_get] at h
    obtain ⟨r, -, rfl⟩ := Option.map_eq_some_iff.mp h
    rw [lens_spansFrom]
    rfl
  total := by rw [lens_spansFrom, zero_add]

theorem mem_spansFrom {s : PrefillSpan} (h : s ∈ env.spansFrom 0 rs) :
    ∃ (k : Nat) (r : Request), rs[k]? = some r ∧ s = env.span r (tileStart (rowLens rs) k) := by
  obtain ⟨k, hk⟩ := mem_iff_getElem?.mp h
  rw [spansFrom_get] at hk
  obtain ⟨r, hr, rfl⟩ := Option.map_eq_some_iff.mp hk
  exact ⟨k, r, hr, by rw [zero_add]⟩

theorem rows_le (h : rs[k]? = some r) :
    tileStart (rowLens rs) k + r.tokens.length ≤ (rowLens rs).sum := by
  obtain ⟨hk, rfl⟩ := List.getElem?_eq_some_iff.mp h
  have hk' : k < (rowLens rs).length := by simpa [rowLens] using hk
  have := tile_le hk'
  simpa [rowLens] using this

/-! ### Row tables -/

section Tables
variable {β : Type} {f : Request → List β}

theorem length_table (hf : ∀ r, (f r).length = r.tokens.length) :
    (rs.flatMap f).length = (rowLens rs).sum := by
  rw [length_flatMap, rowLens]
  exact congrArg sum (map_congr_left fun r _ => hf r)

theorem table_get (hf : ∀ r, (f r).length = r.tokens.length) (h : rs[k]? = some r)
    (hj : j < r.tokens.length) : (rs.flatMap f)[tileStart (rowLens rs) k + j]? = (f r)[j]? := by
  have e : rowLens rs = rs.map fun r => (f r).length := map_congr_left fun r _ => (hf r).symm
  rw [e]
  exact getElem?_flatMap_tile h (by rw [hf]; exact hj)

end Tables

theorem length_resize (h : xs.length ≤ n) : (resize xs n).length = n := by
  rw [resize, length_append, length_take, length_replicate]
  omega

theorem resize_get (hi : i < xs.length) (h : xs.length ≤ n) : (resize xs n)[i]? = xs[i]? := by
  rw [resize, take_of_length_le h, getElem?_append_left hi]

theorem resize_get_pad (hi : xs.length ≤ i) (h : i < n) : (resize xs n)[i]? = some 0 := by
  rw [resize, take_of_length_le (by omega), getElem?_append_right hi,
    getElem?_replicate, if_pos (by omega)]

/-! ### Samples -/

def sampleLens (env : Env) (rs : List Request) : List Nat := rs.map fun r => (env.sampled r).length

theorem samplesFrom_get (h : rs[k]? = some r) (hi : i < (env.sampled r).length) :
    (env.samplesFrom n rs)[tileStart (sampleLens env rs) k + i]? =
      (env.sampled r)[i]?.map (n + tileStart (rowLens rs) k + ·) := by
  induction rs generalizing n k with
  | nil => simp at h
  | cons r' rs ih =>
    cases k with
    | zero =>
      cases h
      rw [tileStart_zero, tileStart_zero, zero_add, add_zero, Env.samplesFrom,
        getElem?_append_left (by simpa using hi), getElem?_map]
    | succ k =>
      have hl : ((env.sampled r').map (n + ·)).length = (env.sampled r').length :=
        length_map _
      rw [sampleLens, map_cons, tileStart_cons, Env.samplesFrom, rowLens, map_cons,
        tileStart_cons, getElem?_append_right (by rw [hl]; omega), hl]
      have e : (env.sampled r').length + tileStart (sampleLens env rs) k + i -
          (env.sampled r').length = tileStart (sampleLens env rs) k + i := by omega
      have e' : n + (r'.tokens.length + tileStart (rowLens rs) k) =
          n + r'.tokens.length + tileStart (rowLens rs) k := by omega
      exact (congrArg _ e).trans ((ih h).trans (by rw [← e']; rfl))

theorem mem_samplesFrom : row ∈ env.samplesFrom n rs ↔
    ∃ (k : Nat) (r : Request) (j : Nat), rs[k]? = some r ∧ j ∈ env.sampled r ∧
      row = n + tileStart (rowLens rs) k + j := by
  induction rs generalizing n with
  | nil => simp [Env.samplesFrom]
  | cons r' rs ih =>
    rw [Env.samplesFrom, mem_append, ih, mem_map]
    constructor
    · rintro (⟨j, hj, rfl⟩ | ⟨k, r, j, hr, hj, rfl⟩)
      · exact ⟨0, r', j, rfl, hj, by rw [tileStart_zero, add_zero]⟩
      · exact ⟨k + 1, r, j, hr, hj, by
          simp only [rowLens, map_cons, tileStart_cons]; omega⟩
    · rintro ⟨k, r, j, hr, hj, rfl⟩
      cases k with
      | zero =>
        cases hr
        exact Or.inl ⟨j, hj, by rw [tileStart_zero, add_zero]⟩
      | succ k =>
        exact Or.inr ⟨k, r, j, hr, hj, by
          simp only [rowLens, map_cons, tileStart_cons]; omega⟩

theorem length_samplesFrom : (env.samplesFrom n rs).length = (sampleLens env rs).sum := by
  induction rs generalizing n with
  | nil => rfl
  | cons r rs ih =>
    rw [Env.samplesFrom, length_append, length_map, ih]
    simp [sampleLens]

theorem length_owners : (rs.flatMap env.owners).length = (sampleLens env rs).sum := by
  rw [length_flatMap, sampleLens]
  exact congrArg sum (map_congr_left fun r _ => by simp [Env.owners])

theorem owners_get (h : rs[k]? = some r) (hi : i < (env.sampled r).length) :
    (rs.flatMap env.owners)[tileStart (sampleLens env rs) k + i]? = some (Env.owner r) := by
  have e : sampleLens env rs = rs.map fun r => (env.owners r).length := by
    exact map_congr_left fun r _ => by simp [Env.owners]
  rw [e, getElem?_flatMap_tile h (by simpa [Env.owners] using hi), Env.owners, getElem?_map,
    getElem?_eq_getElem hi]
  rfl

theorem commitsFrom_get : (env.commitsFrom n rs)[k]? =
    rs[k]?.map fun r => env.commit r (n + tileStart (sampleLens env rs) k) := by
  induction rs generalizing n k with
  | nil => simp [Env.commitsFrom]
  | cons r rs ih =>
    cases k with
    | zero => simp [Env.commitsFrom]
    | succ k =>
      simp only [Env.commitsFrom, getElem?_cons_succ, ih, sampleLens, map_cons,
        tileStart_cons, add_assoc]

theorem length_commitsFrom : (env.commitsFrom n rs).length = rs.length := by
  induction rs generalizing n with
  | nil => rfl
  | cons r rs ih => rw [Env.commitsFrom, length_cons, length_cons, ih]

theorem sampled_lt (h : 0 < r.tokens.length) (hj : j ∈ env.sampled r) : j < r.tokens.length := by
  unfold Env.sampled at hj
  split at hj
  · split at hj
    · exact mem_range.mp hj
    · rw [mem_singleton] at hj
      omega
  · simp at hj

theorem length_sampled_le (h : 0 < r.tokens.length) : (env.sampled r).length ≤ r.tokens.length := by
  unfold Env.sampled
  split
  · split
    · simp
    · rw [length_singleton]
      exact h
  · simp

theorem sum_sampleLens_le (h : ∀ r ∈ rs, 0 < r.tokens.length) :
    (sampleLens env rs).sum ≤ (rowLens rs).sum := by
  induction rs with
  | nil => exact le_rfl
  | cons r rs ih =>
    obtain ⟨h0, h⟩ := forall_mem_cons.mp h
    have h1 := ih h
    have h2 : (env.sampled r).length ≤ r.tokens.length := length_sampled_le h0
    simp only [sampleLens, rowLens, map_cons, sum_cons] at h1 ⊢
    omega

/-! ### The finished plan -/

/-- the plan of the scheduled requests -/
def Env.filled (env : Env) (rs : List Request) : Plan where
  rowCapacity := env.rowCapacity
  realRows := (rowLens rs).sum
  sampleRows := (env.samplesFrom 0 rs).length
  inputIds := resize (rs.flatMap (·.tokens)) env.rowCapacity
  positions := resize (rs.flatMap env.positions) env.rowCapacity
  active := resize (rs.flatMap fun r => List.replicate r.tokens.length 1) env.rowCapacity
  spans := env.spansFrom 0 rs
  phases := rs.map (·.phase)
  sampleInputRows := env.samplesFrom 0 rs
  sampleOwners := rs.flatMap env.owners
  pending := env.commitsFrom 0 rs

/-- the buffer has room for the plan -/
def Caps.Enough (caps : Caps) (env : Env) (requests : List Request) : Prop :=
  caps.inputIds ≥ env.rowCapacity ∧ caps.positions ≥ env.rowCapacity ∧
    caps.active ≥ env.rowCapacity ∧ caps.spans ≥ requests.length ∧
    caps.phases ≥ requests.length ∧ caps.sampleInputRows ≥ requests.length ∧
    caps.sampleOwners ≥ requests.length ∧ caps.pending ≥ requests.length

theorem planFill_iff {caps : Caps} {out : Plan} : planFill env requests caps .empty = .ok out ↔
      (env.rowCapacity > 0 ∧ env.maxCtx > 0) ∧ env.frontiers.length = env.generations.length ∧
        caps.Enough env requests ∧ Admits env [] (order requests) 0 ∧
        (rowLens (order requests)).sum < 2 ^ 32 ∧ out = env.filled (order requests) := by
  have hlen : ((order requests).foldl (Plan.push env) .empty).inputIds.length =
      (rowLens (order requests)).sum := by
    rw [foldl_push]
    exact length_table fun _ => rfl
  unfold planFill
  rw [require_bind, require_bind, require_bind]
  simp only [decide_eq_true_eq]
  refine and_congr_right fun _ => and_congr_right fun _ => and_congr Iff.rfl ?_
  constructor
  · intro h
    obtain ⟨o, h1, h⟩ := bind_ok.mp h
    obtain ⟨ha, rfl⟩ := planLoop_iff.mp h1
    obtain ⟨m, h2, h⟩ := bind_ok.mp h
    obtain ⟨hm, rfl⟩ := tryU32_ok.mp h2
    refine ⟨ha, hlen ▸ hm, ?_⟩
    rw [← pure_ok.mp h, hlen, foldl_push]
    rfl
  · rintro ⟨ha, hm, rfl⟩
    refine bind_ok.mpr ⟨_, planLoop_iff.mpr ⟨ha, rfl⟩, ?_⟩
    refine bind_ok.mpr ⟨_, tryU32_ok.mpr ⟨hlen ▸ hm, rfl⟩, pure_ok.mpr ?_⟩
    rw [hlen, foldl_push]
    rfl

section Filled
variable (hc : (rowLens rs).sum ≤ env.rowCapacity)

include hc

theorem filled_table {f : Request → List Nat} (hf : ∀ r, (f r).length = r.tokens.length)
    (h : rs[k]? = some r) (hj : j < r.tokens.length) :
    (resize (rs.flatMap f) env.rowCapacity)[tileStart (rowLens rs) k + j]? = (f r)[j]? := by
  have hl : (rs.flatMap f).length = (rowLens rs).sum := length_table hf
  have hr := rows_le h
  rw [resize_get (by omega) (by omega), table_get hf h hj]

theorem filled_active (h : rs[k]? = some r) (hj : j < r.tokens.length) :
    (env.filled rs).active[tileStart (rowLens rs) k + j]? = some 1 := by
  refine (filled_table hc (by simp) h hj).trans ?_
  rw [getElem?_replicate, if_pos hj]

theorem filled_position (h : rs[k]? = some r) (hj : j < r.tokens.length) :
    (env.filled rs).positions[tileStart (rowLens rs) k + j]? = some (env.start r + j) := by
  refine (filled_table hc (by simp [Env.positions]) h hj).trans ?_
  rw [Env.positions, getElem?_map, getElem?_range hj]
  rfl

theorem filled_input (h : rs[k]? = some r) (hj : j < r.tokens.length) :
    (env.filled rs).inputIds[tileStart (rowLens rs) k + j]? = r.tokens[j]? :=
  filled_table hc (fun _ => rfl) h hj

end Filled

/-- the planner's own check accepts the plan -/
theorem valid_filled (ha : ∀ r ∈ rs, Admitted env r) (hc : (rowLens rs).sum ≤ env.rowCapacity)
    (h32 : (rowLens rs).sum < 2 ^ 32) (hcap : 0 < env.rowCapacity) :
    Valid (env.filled rs).batch := by
  have hpos : ∀ r ∈ rs, 0 < r.tokens.length := fun r hr => (ha r hr).tokens
  have hactive : (rs.flatMap fun r => replicate r.tokens.length 1).length =
      (rowLens rs).sum := length_table fun r => length_replicate
  have hpositions : (rs.flatMap env.positions).length = (rowLens rs).sum :=
    length_table fun r => by simp [Env.positions]
  refine ⟨hcap, hc, ?_, ?_, le_rfl, ?_, tiles_spansFrom, ?_, ?_, ?_⟩
  · exact (length_resize (hpositions.trans_le hc)).ge
  · exact (length_resize (hactive.trans_le hc)).ge
  · show (env.samplesFrom 0 rs).length ≤ (rowLens rs).sum
    rw [length_samplesFrom]
    exact sum_sampleLens_le hpos
  · intro s hs
    obtain ⟨k, r, hr, rfl⟩ := mem_spansFrom hs
    have hr' := ha r (mem_of_getElem? hr)
    have hle := rows_le hr
    refine ⟨hr'.tokens, hle, ?_, hr'.fits, rfl, fun j hj => ⟨⟨1, ?_, by decide⟩, ?_⟩⟩
    · exact lt_of_le_of_lt hle h32
    · exact filled_active hc hr hj
    · exact filled_position hc hr hj
  · intro row h1 h2
    exact resize_get_pad (by rw [hactive]; exact h1) h2
  · intro row hrow
    obtain ⟨k, r, j, hr, hj, rfl⟩ := mem_samplesFrom.mp (mem_of_mem_take hrow)
    have hlt := sampled_lt (hpos r (mem_of_getElem? hr)) hj
    have hle := rows_le hr
    rw [zero_add]
    refine ⟨?_, 1, filled_active hc hr hlt, by decide⟩
    show tileStart (rowLens rs) k + j < (rowLens rs).sum
    omega

/-- What a returned plan is: `rs` are the requests in scheduled order. -/
structure Planned (env : Env) (rs : List Request) (plan : Plan) : Prop where
  /-- token `j` of the request `k` is in one row, after the rows of the requests before it -/
  row : ∀ k r, rs[k]? = some r → ∀ j < r.tokens.length, ∃ row,
    row = tileStart (rowLens rs) k + j ∧ row < plan.realRows ∧
    plan.inputIds[row]? = r.tokens[j]? ∧
    resolveRow plan.batch row =
      .ok ⟨some k, j, r.slot, r.stateSlot, env.frontiers.getD r.slot 0 + j, true⟩ ∧
    ∀ row' res, resolveRow plan.batch row' = .ok res → res.span = some k → res.localRow = j →
      row' = row
  /-- and the live rows are these rows -/
  live : ∀ row < plan.realRows, ∃ k r j, rs[k]? = some r ∧ j < r.tokens.length ∧
    row = tileStart (rowLens rs) k + j
  /-- the samples and their owners, request after request: sample `i` of the request `k` -/
  samples : plan.sampleRows = (sampleLens env rs).sum ∧
    plan.sampleInputRows.length = plan.sampleRows ∧ plan.sampleOwners.length = plan.sampleRows ∧
    ∀ k r, rs[k]? = some r → ∀ (i j : Nat), (env.sampled r)[i]? = some j →
      plan.sampleInputRows[tileStart (sampleLens env rs) k + i]? =
        some (tileStart (rowLens rs) k + j) ∧
      plan.sampleOwners[tileStart (sampleLens env rs) k + i]? = some (Env.owner r)
  /-- the commit of the request `k` points at its first sample -/
  commits : plan.pending.length = rs.length ∧ ∀ k r, rs[k]? = some r → ∃ c : PendingCommit,
    plan.pending[k]? = some c ∧
    (c.request = r.id ∧ c.slot = r.slot ∧ c.generation = r.generation ∧
      c.expectedFrontier = env.start r ∧ c.newFrontier = env.stop r ∧
      c.completesPrompt = env.done r) ∧
    match c.sampleIndex with
    | none => env.sampled r = []
    | some s => ∃ j, (env.sampled r)[0]? = some j ∧
      plan.sampleInputRows[s]? = some (tileStart (rowLens rs) k + j) ∧
      plan.sampleOwners[s]? = some (Env.owner r)
  /-- padding is inert, and is not sampled -/
  padding : plan.rowCapacity = env.rowCapacity ∧
    (∀ row, plan.realRows ≤ row → row < plan.rowCapacity →
      resolveRow plan.batch row = .ok .padding) ∧
    ∀ row ∈ plan.sampleInputRows, row < plan.realRows

theorem sampled_head (env : Env) (h : 0 < r.tokens.length) :
    (env.done r = false → env.sampled r = []) ∧
      (env.done r = true → ∃ j, (env.sampled r)[0]? = some j) := by
  unfold Env.sampled
  constructor
  · intro hd
    rw [hd, if_neg Bool.false_ne_true]
  · intro hd
    rw [if_pos hd]
    split
    · exact ⟨0, by rw [getElem?_range h]⟩
    · exact ⟨_, rfl⟩

theorem planned_filled (ha : ∀ r ∈ rs, Admitted env r) (hc : (rowLens rs).sum ≤ env.rowCapacity)
    (h32 : (rowLens rs).sum < 2 ^ 32) (hcap : 0 < env.rowCapacity) :
    Planned env rs (env.filled rs) := by
  have v := valid_filled ha hc h32 hcap
  have hspan : ∀ {k r}, rs[k]? = some r → (env.filled rs).batch.spans[k]? =
      some (env.span r (tileStart (rowLens rs) k)) := by
    intro k r hr
    refine spansFrom_get.trans ?_
    rw [hr, zero_add]
    rfl
  have hlive : ∀ row < (env.filled rs).realRows, ∃ (k : Nat) (r : Request) (j : Nat),
      rs[k]? = some r ∧ j < r.tokens.length ∧ row = tileStart (rowLens rs) k + j := by
    intro row hrow
    obtain ⟨k, s, j, hs, hj, rfl⟩ := v.tiles.locate hrow
    have hs' : (env.spansFrom 0 rs)[k]? = some s := hs
    rw [spansFrom_get] at hs'
    obtain ⟨r, hr, rfl⟩ := Option.map_eq_some_iff.mp hs'
    exact ⟨k, r, j, hr, hj, by rw [zero_add]; rfl⟩
  have hres : ∀ {k r}, rs[k]? = some r → ∀ j < r.tokens.length,
      resolveRow (env.filled rs).batch (tileStart (rowLens rs) k + j) =
        .ok ⟨some k, j, r.slot, r.stateSlot, env.start r + j, true⟩ :=
    fun hr j hj => v.resolveRow_live (hspan hr) hj
  have hsample : ∀ {k r}, rs[k]? = some r → ∀ {i j : Nat}, (env.sampled r)[i]? = some j →
      (env.samplesFrom 0 rs)[tileStart (sampleLens env rs) k + i]? =
        some (tileStart (rowLens rs) k + j) ∧
      (rs.flatMap env.owners)[tileStart (sampleLens env rs) k + i]? = some (Env.owner r) := by
    intro k r hr i j hj
    have hi : i < (env.sampled r).length := (List.getElem?_eq_some_iff.mp hj).1
    refine ⟨?_, owners_get hr hi⟩
    rw [samplesFrom_get hr hi, hj, zero_add]
    rfl
  refine ⟨?_, hlive, ⟨length_samplesFrom, rfl, ?_, fun k r hr i j => hsample hr⟩, ⟨?_, ?_⟩, rfl,
    ?_, ?_⟩
  · intro k r hr j hj
    refine ⟨_, rfl, v.row_lt (hspan hr) hj, filled_input hc hr hj, hres hr j hj, ?_⟩
    intro row' res hrow' hk hj'
    by_cases hlt : row' < (env.filled rs).realRows
    · obtain ⟨k', r', j', hr', hj2, rfl⟩ := hlive row' hlt
      rw [hres hr' j' hj2] at hrow'
      cases hrow'
      cases hk
      cases hj'
      rfl
    · -- a row behind the live ones resolves to no span, if at all
      exfalso
      by_cases hcp : row' < env.rowCapacity
      · rw [v.resolveRow_padding (Nat.le_of_not_lt hlt) hcp] at hrow'
        cases hrow'
        cases hk
      · have hge : row' ≥ (env.filled rs).batch.rowCapacity := Nat.le_of_not_lt hcp
        unfold resolveRow at hrow'
        rw [validate_iff.mpr v, ok_bind, if_pos hge] at hrow'
        exact refuse_ok hrow'
  · exact length_owners.trans length_samplesFrom.symm
  · exact length_commitsFrom
  · intro k r hr
    have hpos := (ha r (mem_of_getElem? hr)).tokens
    refine ⟨env.commit r (tileStart (sampleLens env rs) k), ?_, ⟨rfl, rfl, rfl, rfl, rfl, rfl⟩, ?_⟩
    · refine commitsFrom_get.trans ?_
      rw [hr, zero_add]
      rfl
    · obtain ⟨h1, h2⟩ := sampled_head env hpos
      simp only [Env.commit]
      cases hd : env.done r with
      | false => exact h1 hd
      | true =>
        obtain ⟨j, hj⟩ := h2 hd
        exact ⟨j, hj, hsample hr hj⟩
  · exact fun row h1 h2 => v.resolveRow_padding h1 h2
  · intro row hrow
    obtain ⟨k, r, j, hr, hj, rfl⟩ := mem_samplesFrom.mp hrow
    have hlt := sampled_lt (ha r (mem_of_getElem? hr)).tokens hj
    have := v.row_lt (hspan hr) hlt
    rw [zero_add]
    exact this

/-! ### The planner -/

section Planner
variable {requests : List Request} {caps : Caps} {out plan : Plan}

theorem planFill_spec (h : planFill env requests caps .empty = .ok plan) :
    (∀ r ∈ order requests, Admitted env r) ∧ (rowLens (order requests)).sum ≤ env.rowCapacity ∧
      (rowLens (order requests)).sum < 2 ^ 32 ∧ 0 < env.rowCapacity ∧
      plan = env.filled (order requests) := by
  obtain ⟨h1, -, -, ha, h32, rfl⟩ := planFill_iff.mp h
  refine ⟨ha.all, ?_, h32, h1.1, rfl⟩
  by_cases hn : order requests = []
  · rw [hn]
    exact Nat.zero_le _
  · have := ha.fits (fun _ _ h => h.1) hn
    rwa [zero_add] at this

theorem validate_planFill (h : planFill env requests caps .empty = .ok plan) :
    validate plan.batch = .ok () := by
  obtain ⟨ha, hc, h32, hcap, rfl⟩ := planFill_spec h
  exact validate_iff.mpr (valid_filled ha hc h32 hcap)

theorem planInner_eq : planInner env requests caps .empty = planFill env requests caps .empty := by
  unfold planInner
  cases h : planFill env requests caps .empty with
  | error e => rfl
  | ok plan =>
    rw [ok_bind, validate_planFill h]
    rfl

end Planner

/-- A plan that `planInto` returns is `Planned`; the planner's own check never refuses what was
planned; after a refusal the buffer is cleared. -/
theorem planInto_correct (env : Env) (requests : List Request) (caps : Caps) (out : Plan) :
    (∀ plan, planInto env requests caps out = (.ok (), plan) → Planned env (order requests) plan) ∧
    (∀ plan, planFill env requests caps out.clear = .ok plan → validate plan.batch = .ok ()) ∧
    ∀ e plan, planInto env requests caps out = (.error e, plan) → plan = .empty := by
  refine ⟨fun plan h => ?_, fun plan h => validate_planFill h, fun e plan h => ?_⟩
  · unfold planInto Plan.clear at h
    rw [planInner_eq] at h
    cases hf : planFill env requests caps .empty with
    | error e =>
      rw [hf] at h
      cases h
    | ok p =>
      rw [hf] at h
      cases h
      obtain ⟨ha, hc, h32, hcap, rfl⟩ := planFill_spec hf
      exact planned_filled ha hc h32 hcap
  · unfold planInto at h
    split at h
    · cases h
    · cases h
      rfl

def greedySelection : Selection := ⟨true, ⟨0⟩, 0, ⟨0⟩, ⟨0⟩, 0⟩

def threeEnv : Env where
  frontiers := [5, 0, 7]
  generations := [1, 1, 2]
  rowCapacity := 8
  maxCtx := 16
  program := 3

def threeRequests : List Request :=
  [⟨10, 1, 1, 1, .prefill, [21, 22], 2, greedySelection⟩,
    ⟨11, 2, 2, 2, .verify, [31, 32, 33], 4, greedySelection⟩,
    ⟨12, 0, 0, 1, .decode, [41], 5, greedySelection⟩]

theorem planInto_correct_three :
    ∃ plan, planInto threeEnv threeRequests (.withCapacity 8 3) .empty = (.ok (), plan) ∧
      plan.inputIds = [41, 21, 22, 31, 32, 33, 0, 0] ∧ plan.sampleInputRows = [0, 2, 3, 4, 5] ∧
      Planned threeEnv (order threeRequests) plan := by
  have e : planInto threeEnv threeRequests (.withCapacity 8 3) .empty =
      (.ok (), threeEnv.filled (order threeRequests)) := by decide +kernel
  exact ⟨_, e, by decide +kernel, by decide +kernel,
    (planInto_correct threeEnv threeRequests (.withCapacity 8 3) .empty).1 _ e⟩

end Plow.TokenBatch
