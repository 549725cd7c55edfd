import Plow.KvBlocks.Layout

/-!
# Filling a block and gathering a boundary

`R` tells the bytes of a row, from the tokens up to it.  `SlotRows` says that a slot's tensors hold the
rows of its tokens, as far as the rings still have them, and `BlockRows` that a block holds the rows of
a group.  A filled block holds the slot's rows (`fill_rows`), and a boundary gathered from such blocks
is the rows again, at their places in the slot (`gather_rows`); nothing else is written
(`gather_frame`).
-/

namespace Plow.KvBlocks
open Plow.Lib List

variable {V : Type} {v : Serve} {R : ℕ → ℕ → ℕ → List Token → V} {m : Place → ℕ → V} {c c' : Class}
  {t t' : Track} {l : Layout} {b id row0 h i x r p o n : ℕ} {toks : List Token} {blocks : Handle}

/-! ### Copies -/

theorem mem_copies {descs : Class → List Desc} {toBlock : Bool} {k : Copy Place} :
    k ∈ v.copies descs toBlock ↔
      ∃ c, ∃ d ∈ descs c, ∃ l ∈ v.blockLayouts c, copyOf toBlock d l = k := by
  unfold Serve.copies
  rw [mem_flatMap]
  constructor
  · rintro ⟨c, -, hk⟩
    obtain ⟨d, hd, hk⟩ := mem_flatMap.mp hk
    obtain ⟨l, hl, hk⟩ := mem_map.mp hk
    exact ⟨c, d, hd, l, hl, hk⟩
  · rintro ⟨c, d, hd, l, hl, hk⟩
    refine ⟨c, by cases c <;> simp, mem_flatMap.mpr ⟨d, hd, mem_map.mpr ⟨l, hl, hk⟩⟩⟩

theorem mem_descs {d : Desc} :
    d ∈ v.descs b blocks c ↔ ∃ row0 id, (c, row0, id) ∈ blocks ∧ d = v.blockDesc b c row0 id := by
  unfold Serve.descs
  rw [mem_map]
  constructor
  · rintro ⟨⟨c', row0, id⟩, he, rfl⟩
    obtain ⟨hmem, hc⟩ := mem_filter.mp he
    obtain rfl : c' = c := of_decide_eq_true hc
    exact ⟨row0, id, hmem, rfl⟩
  · rintro ⟨row0, id, he, rfl⟩
    exact ⟨(c, row0, id), mem_filter.mpr ⟨he, decide_eq_true rfl⟩, rfl⟩

theorem copies_apart (descs : Class → List Desc) (toBlock : Bool) :
    ∀ k ∈ v.copies descs toBlock, ∀ k' ∈ v.copies descs toBlock, k.src ≠ k'.dst := by
  intro k hk k' hk'
  obtain ⟨c, d, -, l, -, rfl⟩ := mem_copies.mp hk
  obtain ⟨c', d', -, l', -, rfl⟩ := mem_copies.mp hk'
  cases toBlock <;> exact nofun

theorem blockDesc_row (hc : c.hasRows = true) (b row0 id : ℕ) :
    v.blockDesc b c row0 id = ⟨id, v.pos c row0, b⟩ := by
  cases c with
  | window => rfl
  | tail => rfl
  | scale => exact nomatch hc
  | state => exact nomatch hc

/-! ### Rows -/

/-- the tensors of slot `b` hold the rows of the tokens, those that the rings have not lost to a row
below `written` -/
def SlotRows (v : Serve) (R : ℕ → ℕ → ℕ → List Token → V) (m : Place → ℕ → V) (b : ℕ)
    (toks : List Token) (written : ℕ) : Prop :=
  ∀ c : Class, c.hasRows = true → ∀ t ∈ v.tracks c, ∀ h < t.heads, ∀ x < t.elem, ∀ r < toks.length,
    (c = .window → written ≤ r + v.ring) →
    m (.tensor t.tensor) (t.cell b h (v.pos c r) x) = R t.tensor h x (toks.take (r + 1))

/-- a block of a class holds the rows from `row0` on -/
def BlockRows (v : Serve) (R : ℕ → ℕ → ℕ → List Token → V) (m : Place → ℕ → V) (c : Class)
    (id row0 : ℕ) (toks : List Token) : Prop :=
  ∀ l ∈ v.blockLayouts c, ∀ t ∈ v.tracks c, ∀ h < t.heads, l.run = t.run ROWS_PER_BLOCK h →
    ∀ i < ROWS_PER_BLOCK, ∀ x < t.elem,
    m (.block id) (l.blockOff + (i * t.elem + x)) = R t.tensor h x (toks.take (row0 + i + 1))

/-- the rows of a block lie one after the other in a head window -/
structure Straight (v : Serve) (c : Class) (row0 : ℕ) : Prop where
  step : ∀ i < ROWS_PER_BLOCK, v.pos c (row0 + i) = v.pos c row0 + i
  fits : v.pos c row0 + ROWS_PER_BLOCK ≤ v.depth c

theorem ring_dvd (hv : v.Admitted) (hs : v.slide ≠ []) (hw : ROWS_PER_BLOCK ≤ v.geo.window) :
    ROWS_PER_BLOCK ∣ v.ring := by
  obtain ⟨k, hk⟩ := hv.ring_pow hs
  have hle : 2 ^ 5 ≤ 2 ^ k := hk ▸ hw.trans (hv.window_le hs)
  rw [hk]
  exact pow_dvd_pow 2 ((Nat.pow_le_pow_iff_right (by decide)).mp hle)

/-- a planned block of rows does not wrap around its ring, nor leave the context -/
theorem straight_of_planned (hv : v.Admitted) (hc : c.hasRows = true) (ht : t ∈ v.tracks c)
    (hp : ROWS_PER_BLOCK ∣ p) (hctx : p ≤ v.geo.maxCtx) (h : (c, row0, i) ∈ v.plan p) :
    Straight v c row0 := by
  obtain ⟨-, hlo, hhi, rfl⟩ := (planned_rows hc hp).mp h
  cases c with
  | window =>
    have hs := slide_of_track hv ht
    have hwin : ROWS_PER_BLOCK ≤ v.geo.window := by
      -- a window block in the plan needs a window of at least one group
      have hfrom : v.windowFrom p ≤ i * ROWS_PER_BLOCK := hlo
      unfold Serve.windowFrom at hfrom
      by_contra hlt
      rw [Nat.div_eq_of_lt (by omega), zero_mul] at hfrom
      unfold ROWS_PER_BLOCK at hhi hfrom
      omega
    obtain ⟨n, hn⟩ := ring_dvd hv hs hwin
    have hpos : 0 < v.ring := lt_of_lt_of_le (lt_of_lt_of_le (by decide) hwin) (hv.window_le hs)
    have hmod : i * ROWS_PER_BLOCK % v.ring = i % n * ROWS_PER_BLOCK := by
      rw [hn, mul_comm i, Nat.mul_mod_mul_left, mul_comm]
    have hnpos : 0 < n := by
      rcases Nat.eq_zero_or_pos n with rfl | hn0
      · rw [hn, mul_zero] at hpos
        exact absurd hpos (lt_irrefl 0)
      · exact hn0
    have hin : i % n < n := Nat.mod_lt i hnpos
    have hfits : i * ROWS_PER_BLOCK % v.ring + ROWS_PER_BLOCK ≤ v.ring := by
      rw [hmod, hn]
      unfold ROWS_PER_BLOCK
      omega
    refine ⟨fun j hj => ?_, hfits⟩
    show (i * ROWS_PER_BLOCK + j) % v.ring = i * ROWS_PER_BLOCK % v.ring + j
    rw [Nat.add_mod, Nat.mod_eq_of_lt (show j < v.ring by omega), Nat.mod_eq_of_lt (by omega)]
  | tail => exact ⟨fun _ _ => rfl, hhi.trans hctx⟩
  | scale => exact nomatch hc
  | state => exact nomatch hc

/-! ### Filling -/

/-- A filled block holds what the slot holds. -/
theorem fill_rows (hids : (blocks.map (·.2.2)).Nodup) (he : (c, row0, id) ∈ blocks)
    (hc : c.hasRows = true)
    (hrows : ∀ t ∈ v.tracks c, ∀ h < t.heads, ∀ i < ROWS_PER_BLOCK, ∀ x < t.elem,
      m (.tensor t.tensor) (t.cell b h (v.pos c row0 + i) x) = R t.tensor h x (toks.take (row0 + i + 1))) :
    BlockRows v R (v.runBlocks (v.descs b blocks) true m) c id row0 toks := by
  intro l hl t ht h hh hrun i hi x hx
  have hbytes : l.bytes = ROWS_PER_BLOCK * t.elem := congrArg Run.bytes hrun
  have hin : i * t.elem + x < l.bytes := by
    have hle : (i + 1) * t.elem ≤ ROWS_PER_BLOCK * t.elem := Nat.mul_le_mul_right _ hi
    rw [add_mul, one_mul] at hle
    omega
  refine runCopies_get (copies_apart _ true) (fun k hk hw => ?_) ?_
  · obtain ⟨c', d, hd, l', hl', rfl⟩ := mem_copies.mp hk
    obtain ⟨row0', id', he', rfl⟩ := mem_descs.mp hd
    obtain ⟨hplace, hlo, hhi⟩ := hw
    -- one entry fills this block, and one run this cell of it
    obtain rfl : id = id' := Place.block.inj hplace
    have hsame : (c', row0', id) = (c, row0, id) := inj_on_of_nodup_map hids he' he rfl
    obtain ⟨rfl, rfl⟩ : c' = c ∧ row0' = row0 := ⟨congrArg (·.1) hsame, congrArg (·.2.1) hsame⟩
    obtain rfl : l' = l := layout_unique hl' hl hlo hhi (Nat.le_add_right _ _) (by omega)
    rw [← hrows t ht h hh i hi x hx]
    show m (.tensor l'.tensor) (l'.off + (v.blockDesc b c' row0' id).slot * l'.slotStride +
      (v.blockDesc b c' row0' id).row * l'.rowBytes + (l'.blockOff + (i * t.elem + x) - l'.blockOff)) = _
    have htensor : l'.tensor = t.tensor := congrArg Run.tensor hrun
    have hoff : l'.off = h * t.rows * t.elem := congrArg Run.off hrun
    have hstride : l'.slotStride = t.slotStride := congrArg Run.slotStride hrun
    have hrow : l'.rowBytes = t.elem := congrArg Run.rowBytes hrun
    rw [blockDesc_row hc, htensor, hoff, hstride, hrow, Nat.add_sub_cancel_left]
    congr 1
    unfold Track.cell
    ring
  · refine ⟨_, mem_copies.mpr ⟨c, _, mem_descs.mpr ⟨row0, id, he, rfl⟩, l, hl, rfl⟩, ?_⟩
    refine ⟨?_, Nat.le_add_right _ _, Nat.add_lt_add_left hin _⟩
    rw [blockDesc_row hc]
    rfl

theorem fill_frame (o : ℕ) {q : Place} (hq : ∀ e ∈ blocks, q ≠ .block e.2.2) :
    v.runBlocks (v.descs b blocks) true m q o = m q o := by
  refine runCopies_frame fun k hk hw => ?_
  obtain ⟨c, d, hd, l, -, rfl⟩ := mem_copies.mp hk
  obtain ⟨row0, id, he, rfl⟩ := mem_descs.mp hd
  exact hq _ he hw.1

/-! ### Gathering -/

theorem pos_inj (hv : v.Admitted) (ht : t ∈ v.tracks c) {r' : ℕ} (hr : v.from_ p c ≤ r) (hr' : v.from_ p c ≤ r')
    (hp : r < p) (hp' : r' < p) (hpos : v.pos c r = v.pos c r') : r = r' := by
  cases c with
  | window =>
    have hs := slide_of_track hv ht
    have hspan := le_windowFrom_add v p
    have hw := hv.window_le hs
    have hlo : v.windowFrom p ≤ r := hr
    have hlo' : v.windowFrom p ≤ r' := hr'
    have hmod : r % v.ring = r' % v.ring := hpos
    rcases le_total r r' with hle | hle
    · have hdvd := (Nat.modEq_iff_dvd' hle).mp hmod
      have := Nat.eq_zero_of_dvd_of_lt hdvd (by omega)
      omega
    · have hdvd := (Nat.modEq_iff_dvd' hle).mp hmod.symm
      have := Nat.eq_zero_of_dvd_of_lt hdvd (by omega)
      omega
  | tail => exact hpos
  | scale => exact hpos
  | state => exact hpos

/-- what is known of a block of a boundary at `p` rows -/
structure Stored (v : Serve) (R : ℕ → ℕ → ℕ → List Token → V) (m : Place → ℕ → V) (toks : List Token)
    (p : ℕ) (e : Class × ℕ × ℕ) : Prop where
  noScale : e.1 ≠ .scale
  rows : e.1.hasRows = true → BlockRows v R m e.1 e.2.2 e.2.1 toks
  lower : e.1.hasRows = true → v.from_ p e.1 ≤ e.2.1
  upper : e.1.hasRows = true → e.2.1 + ROWS_PER_BLOCK ≤ p
  straight : e.1.hasRows = true → ∀ t ∈ v.tracks e.1, Straight v e.1 e.2.1

theorem state_run (hl : l ∈ v.blockLayouts .state) :
    ∃ s ∈ v.stateTensors, l.tensor = s.1 ∧ l.slotStride = s.2 ∧ l.rowBytes = 0 ∧ l.off + l.bytes ≤ s.2 := by
  obtain ⟨s, hs, hrun⟩ := mem_flatMap.mp (run_mem_runs hl)
  obtain ⟨k, hk, hrun⟩ := mem_map.mp hrun
  have hk := mem_range.mp hk
  have hlt : k * STATE_CHUNK < s.2 := by
    have hle := Nat.div_mul_le_self (s.2 + STATE_CHUNK - 1) STATE_CHUNK
    have hmul : (k + 1) * STATE_CHUNK ≤ (s.2 + STATE_CHUNK - 1) / STATE_CHUNK * STATE_CHUNK :=
      Nat.mul_le_mul_right _ hk
    have hchunk : 0 < STATE_CHUNK := by decide
    rw [add_mul, one_mul] at hmul
    omega
  refine ⟨s, hs, (congrArg Run.tensor hrun).symm, (congrArg Run.slotStride hrun).symm,
    (congrArg Run.rowBytes hrun).symm, ?_⟩
  have hoff : l.off = k * STATE_CHUNK := (congrArg Run.off hrun).symm
  have hbytes : l.bytes = min STATE_CHUNK (s.2 - k * STATE_CHUNK) := (congrArg Run.bytes hrun).symm
  omega

/-- a cell that the gather of a block of rows writes -/
theorem gather_cell (hc : c.hasRows = true) (hl : l ∈ v.blockLayouts c) {q : Place}
    (hw : (copyOf false (v.blockDesc b c row0 id) l).Writes q o) :
    ∃ t ∈ v.tracks c, ∃ h < t.heads, l.run = t.run ROWS_PER_BLOCK h ∧ q = .tensor t.tensor ∧
      ∃ i < ROWS_PER_BLOCK, ∃ x < t.elem, o = t.cell b h (v.pos c row0 + i) x ∧
        o - (copyOf false (v.blockDesc b c row0 id) l).dstOff = i * t.elem + x := by
  obtain ⟨t, ht, h, hh, hrun⟩ := (mem_runs_iff hc).mp (run_mem_runs hl)
  have htensor : l.tensor = t.tensor := congrArg Run.tensor hrun
  have hdst : (copyOf false (v.blockDesc b c row0 id) l).dstOff =
      h * t.rows * t.elem + b * t.slotStride + v.pos c row0 * t.elem := by
    have hoff : l.off = h * t.rows * t.elem := congrArg Run.off hrun
    have hstride : l.slotStride = t.slotStride := congrArg Run.slotStride hrun
    have hrow : l.rowBytes = t.elem := congrArg Run.rowBytes hrun
    rw [blockDesc_row hc, ← hoff, ← hstride, ← hrow]
    rfl
  have hlen : (copyOf false (v.blockDesc b c row0 id) l).len = ROWS_PER_BLOCK * t.elem :=
    congrArg Run.bytes hrun
  obtain ⟨hplace, hlo, hhi⟩ := hw
  rw [hdst] at hlo hhi ⊢
  rw [hlen] at hhi
  obtain ⟨i, hi, x, hx, ho⟩ := (run_cell_iff t b h (v.pos c row0) o).mp ⟨hlo, hhi⟩
  refine ⟨t, ht, h, hh, hrun, hplace.trans (congrArg Place.tensor htensor), i, hi, x, hx, ho, ?_⟩
  rw [ho]
  have hbase : t.cell b h (v.pos c row0 + i) x =
      h * t.rows * t.elem + b * t.slotStride + v.pos c row0 * t.elem + (i * t.elem + x) := by
    unfold Track.cell
    ring
  rw [hbase, Nat.add_sub_cancel_left]

/-- A gathered row is the row, at its place in the slot. -/
theorem gather_rows (hv : v.Admitted) (hblocks : ∀ e ∈ blocks, Stored v R m toks p e)
    (hc : c.hasRows = true) (ht : t ∈ v.tracks c) (hh : h < t.heads) (hx : x < t.elem)
    (hlo : v.from_ p c ≤ r) (hhi : r < p)
    (hcover : ∃ id, (c, r / ROWS_PER_BLOCK * ROWS_PER_BLOCK, id) ∈ blocks) :
    v.gather b blocks m (.tensor t.tensor) (t.cell b h (v.pos c r) x) =
      R t.tensor h x (toks.take (r + 1)) := by
  obtain ⟨id, hid⟩ := hcover
  have h32 : 0 < ROWS_PER_BLOCK := by decide
  have hmod := Nat.mod_lt r h32
  have hdiv := Nat.div_add_mod' r ROWS_PER_BLOCK
  have hst := (hblocks _ hid).straight hc t ht
  have hrows := rows_of_track hc ht
  have hpos : v.pos c r = v.pos c (r / ROWS_PER_BLOCK * ROWS_PER_BLOCK) + r % ROWS_PER_BLOCK := by
    conv_lhs => rw [← hdiv]
    exact hst.step _ hmod
  have hposlt : v.pos c r < t.rows := by
    have := hst.fits
    dsimp only at this
    rw [hrows]
    omega
  refine runCopies_get (copies_apart _ false) (fun k hk hw => ?_) ?_
  · obtain ⟨c', d, hd, l, hl, rfl⟩ := mem_copies.mp hk
    obtain ⟨row0, id', he, rfl⟩ := mem_descs.mp hd
    have hstored := hblocks _ he
    by_cases hc' : c'.hasRows = true
    · obtain ⟨t', ht', h', hh', hrun, hplace, i, hi, x', hx', ho, hoff⟩ := gather_cell hc' hl hw
      -- the tensor tells the track and the cell the head, the row and the byte
      obtain ⟨rfl, rfl⟩ := hv.one_use c c' hc hc' t ht t' ht' (Place.tensor.inj hplace)
      have hst' := hstored.straight hc t ht
      have hlt' : v.pos c row0 + i < t.rows := by
        have := hst'.fits
        dsimp only at this
        rw [hrows]
        omega
      obtain ⟨rfl, hposr, rfl⟩ := cell_inj hposlt hlt' hx hx' ho
      have hupper := hstored.upper hc
      have hlower := hstored.lower hc
      dsimp only at hupper hlower
      obtain rfl : r = row0 + i := by
        refine pos_inj hv ht hlo (by omega) hhi (by omega) ?_
        rw [hst'.step i hi]
        exact hposr
      rw [hoff]
      exact hstored.rows hc l hl t ht h hh hrun i hi x hx
    · cases c' with
      | window => exact absurd rfl hc'
      | tail => exact absurd rfl hc'
      | scale => exact absurd rfl hstored.noScale
      | state =>
        obtain ⟨s, hs, htensor, -⟩ := state_run hl
        refine absurd ?_ (hv.state s hs c t ht)
        exact (Place.tensor.inj hw.1).trans htensor
  · obtain ⟨l, hl, hrun⟩ := exists_layout ((mem_runs_iff hc).mpr ⟨t, ht, h, hh, rfl⟩)
    refine ⟨_, mem_copies.mpr ⟨c, _, mem_descs.mpr ⟨_, id, hid, rfl⟩, l, hl, rfl⟩, ?_⟩
    have htensor : l.tensor = t.tensor := congrArg Run.tensor hrun
    have hoff : l.off = h * t.rows * t.elem := congrArg Run.off hrun
    have hstride : l.slotStride = t.slotStride := congrArg Run.slotStride hrun
    have hrow : l.rowBytes = t.elem := congrArg Run.rowBytes hrun
    have hbytes : l.bytes = ROWS_PER_BLOCK * t.elem := congrArg Run.bytes hrun
    have hcell := (run_cell_iff t b h (v.pos c (r / ROWS_PER_BLOCK * ROWS_PER_BLOCK))
      (t.cell b h (v.pos c r) x)).mpr ⟨r % ROWS_PER_BLOCK, hmod, x, hx, by rw [hpos]⟩
    rw [blockDesc_row hc]
    refine ⟨congrArg Place.tensor htensor.symm, ?_, ?_⟩
    · show l.off + b * l.slotStride + _ * l.rowBytes ≤ _
      rw [hoff, hstride, hrow]
      exact hcell.1
    · show _ < l.off + b * l.slotStride + _ * l.rowBytes + l.bytes
      rw [hoff, hstride, hrow, hbytes]
      exact hcell.2

/-- A gather writes only rows of the boundary and the state, of its slot. -/
theorem gather_frame (hblocks : ∀ e ∈ blocks, Stored v R m toks p e) (b : ℕ) {q : Place}
    (hne : v.gather b blocks m q o ≠ m q o) :
    (∃ c, c.hasRows = true ∧ ∃ t ∈ v.tracks c, ∃ h < t.heads, ∃ x < t.elem, ∃ r, v.from_ p c ≤ r ∧
      r < p ∧ q = .tensor t.tensor ∧ o = t.cell b h (v.pos c r) x) ∨
    ∃ s ∈ v.stateTensors, q = .tensor s.1 ∧ b * s.2 ≤ o ∧ o < b * s.2 + s.2 := by
  by_contra hno
  refine hne (runCopies_frame fun k hk hw => hno ?_)
  obtain ⟨c, d, hd, l, hl, rfl⟩ := mem_copies.mp hk
  obtain ⟨row0, id, he, rfl⟩ := mem_descs.mp hd
  have hstored := hblocks _ he
  by_cases hc : c.hasRows = true
  · obtain ⟨t, ht, h, hh, -, hplace, i, hi, x, hx, ho, -⟩ := gather_cell hc hl hw
    have hupper := hstored.upper hc
    have hlower := hstored.lower hc
    dsimp only at hupper hlower
    refine Or.inl ⟨c, hc, t, ht, h, hh, x, hx, row0 + i, by omega, by omega, hplace, ?_⟩
    rw [(hstored.straight hc t ht).step i hi]
    exact ho
  · cases c with
    | window => exact absurd rfl hc
    | tail => exact absurd rfl hc
    | scale => exact absurd rfl hstored.noScale
    | state =>
      obtain ⟨s, hs, htensor, hstride, hrow, hend⟩ := state_run hl
      obtain ⟨hplace, hlo, hhi⟩ := hw
      have hdst : (copyOf false (v.blockDesc b .state row0 id) l).dstOff = l.off + b * s.2 := by
        show l.off + b * l.slotStride + 0 * l.rowBytes = _
        rw [hstride, zero_mul, add_zero]
      have hlen : (copyOf false (v.blockDesc b .state row0 id) l).len = l.bytes := rfl
      rw [hdst] at hlo hhi
      rw [hlen] at hhi
      refine Or.inr ⟨s, hs, hplace.trans (congrArg Place.tensor htensor), ?_, ?_⟩ <;> omega

end Plow.KvBlocks
