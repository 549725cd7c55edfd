import Plow.Packet.Dcp

/-!
# The degree of a layout from its stride

`recoverDegree` reads the degree of a layout off the compiled context and the stride of the local
cache.  It is the least degree with that stride (`recoverDegree_iff`), which need not be the one that
was compiled: nine pages over eight shards have the stride of nine pages over five.
-/

namespace Plow.Packet

/-- the degree that has the stride, `none` where the sizes are not a clean shard of one another -/
def recoverDegree (globalCtx kvStride pageRows : ℕ) : Option ℕ :=
  if globalCtx = 0 ∨ kvStride = 0 ∨ globalCtx < kvStride then none
  else if kvStride = globalCtx then some 1
  else if pageRows = 0 ∨ kvStride % pageRows ≠ 0 then none
  else
    let pages := globalCtx ⌈/⌉ pageRows
    let localPages := kvStride / pageRows
    let degree := pages ⌈/⌉ localPages
    if 2 ^ 32 ≤ degree then none
    -- the stride must be what this degree would have produced
    else if (DcpLayout.mk (max degree 1) degree pageRows).localCapacity globalCtx = kvStride then some degree
    else none

/-- The layout of degree `d` is the only valid one of the world with the stride. -/
def OnlyDegree (world ctx stride p d : ℕ) : Prop :=
  (DcpLayout.mk world d p).validate none = .ok () ∧ (DcpLayout.mk world d p).localCapacity ctx = stride ∧
    ∀ e, (DcpLayout.mk world e p).validate none = .ok () →
      (DcpLayout.mk world e p).localCapacity ctx = stride → e = d

variable {ctx stride world p n k d : ℕ}

/-! ### Rounding -/

theorem lt_ceilDiv_iff (hd : 0 < d) : k < n ⌈/⌉ d ↔ k * d < n := by
  rw [← not_le, ceilDiv_le_iff_le_smul hd, smul_eq_mul, mul_comm, not_le]

theorem ceilDiv_le_iff (hd : 0 < d) : n ⌈/⌉ d ≤ k ↔ n ≤ k * d := by
  rw [ceilDiv_le_iff_le_smul hd, smul_eq_mul, mul_comm]

theorem ceilDiv_eq_iff (hd : 0 < d) (hk : 0 < k) : n ⌈/⌉ d = k ↔ (k - 1) * d < n ∧ n ≤ k * d := by
  rw [← lt_ceilDiv_iff hd, ← ceilDiv_le_iff hd]
  omega

theorem pages_pos (hp : 0 < p) (hc : 0 < ctx) : 0 < ctx ⌈/⌉ p := by
  rw [lt_ceilDiv_iff hp, zero_mul]
  exact hc

theorem pages_lt_iff (hp : 0 < p) : k * p < ctx ↔ k < ctx ⌈/⌉ p := (lt_ceilDiv_iff hp).symm

/-! ### Strides -/

theorem localCapacity_one (world p ctx : ℕ) : (DcpLayout.mk world 1 p).localCapacity ctx = ctx := if_pos rfl

theorem localCapacity_of_ne (hd : d ≠ 1) :
    (DcpLayout.mk world d p).localCapacity ctx = ctx ⌈/⌉ p ⌈/⌉ d * p := if_neg hd

theorem localCapacity_iff (hp : 0 < p) (hd : 0 < d) (hk : 0 < k) (hlt : k * p < ctx) :
    (DcpLayout.mk world d p).localCapacity ctx = k * p ↔ (k - 1) * d < ctx ⌈/⌉ p ∧ ctx ⌈/⌉ p ≤ k * d := by
  rw [← ceilDiv_eq_iff hd hk]
  by_cases h : d = 1
  · subst h
    rw [localCapacity_one, ceilDiv_one]
    have := (pages_lt_iff hp).mp hlt
    omega
  · rw [localCapacity_of_ne h]
    exact ⟨fun he => Nat.eq_of_mul_eq_mul_right hp he, fun he => by rw [he]⟩

/-- The degree that is recovered: one for the whole context, else the least that has the stride. -/
theorem recoverDegree_iff (hp : 0 < p) : recoverDegree ctx stride p = some d ↔
    0 < stride ∧ ((stride = ctx ∧ d = 1) ∨ (stride < ctx ∧ d < 2 ^ 32 ∧ ∃ k, stride = k * p ∧
      (d - 1) * k < ctx ⌈/⌉ p ∧ ctx ⌈/⌉ p ≤ d * k ∧ (k - 1) * d < ctx ⌈/⌉ p)) := by
  unfold recoverDegree
  by_cases h0 : ctx = 0 ∨ stride = 0 ∨ ctx < stride
  · rw [if_pos h0]
    constructor
    · intro h
      cases h
    · rintro ⟨hpos, ⟨rfl, -⟩ | ⟨hlt, -⟩⟩ <;> omega
  rw [if_neg h0]
  by_cases heq : stride = ctx
  · rw [if_pos heq]
    constructor
    · intro h
      cases h
      exact ⟨by omega, .inl ⟨heq, rfl⟩⟩
    · rintro ⟨-, ⟨-, rfl⟩ | ⟨hlt, -⟩⟩
      · rfl
      · omega
  rw [if_neg heq]
  have hlt : stride < ctx := by omega
  by_cases hmod : p = 0 ∨ stride % p ≠ 0
  · rw [if_pos hmod]
    constructor
    · intro h
      cases h
    · rintro ⟨-, ⟨he, -⟩ | ⟨-, -, k, rfl, -⟩⟩
      · exact absurd he heq
      · rw [Nat.mul_mod_left] at hmod
        omega
  rw [if_neg hmod]
  obtain ⟨k, rfl⟩ : ∃ k, stride = k * p := ⟨stride / p, by
    rw [Nat.div_mul_cancel (Nat.dvd_of_mod_eq_zero (by omega))]⟩
  have hk : 0 < k := pos_of_ne_zero fun hk => h0 (.inr (.inl (by rw [hk, zero_mul])))
  have hn : 0 < ctx ⌈/⌉ p := pages_pos hp (by omega)
  have hdeg : 0 < ctx ⌈/⌉ p ⌈/⌉ k := pages_pos hk hn
  dsimp only
  rw [Nat.mul_div_cancel _ hp]
  constructor
  · intro h
    split at h
    · cases h
    · next h32 =>
      split at h
      · next hcap =>
        have hd := Option.some.inj h
        rw [hd] at hcap h32 hdeg
        obtain ⟨hlow, -⟩ := (localCapacity_iff hp hdeg hk hlt).mp hcap
        obtain ⟨hleast, henough⟩ := (ceilDiv_eq_iff hk hdeg).mp hd
        exact ⟨mul_pos hk hp, .inr ⟨hlt, by omega, k, rfl, hleast, henough, hlow⟩⟩
      · cases h
  · rintro ⟨-, ⟨he, -⟩ | ⟨-, h32, k', hk', hleast, henough, hlow⟩⟩
    · exact absurd he heq
    · obtain rfl := Nat.eq_of_mul_eq_mul_right hp hk'
      have hd : 0 < d := pos_of_ne_zero fun hd => by rw [hd, zero_mul] at henough; omega
      rw [(ceilDiv_eq_iff hk hd).mpr ⟨hleast, henough⟩, if_neg (by omega), if_pos]
      rw [localCapacity_iff hp hd hk hlt]
      exact ⟨hlow, by rw [mul_comm]; exact henough⟩

/-! ### When the degree is recovered -/

theorem validate_iff : (DcpLayout.mk world d p).validate none = .ok () ↔
    world ≠ 0 ∧ d ∣ world ∧ DCP_MIN_PAGE_ROWS ≤ p ∧ p.isPowerOfTwo := by
  unfold DcpLayout.validate
  dsimp only
  constructor
  · intro h
    split at h
    · cases h
    · split at h
      · cases h
      · split at h
        · cases h
        · split at h
          · cases h
          · exact ⟨by omega, Nat.dvd_of_mod_eq_zero (by omega), by omega, of_not_not ‹_›⟩
  · rintro ⟨hw, hd, hmin, hpow⟩
    have hpos : d ≠ 0 := fun h0 => hw (Nat.eq_zero_of_zero_dvd (h0 ▸ hd))
    rw [if_neg (by omega), if_neg (by rw [Nat.mod_eq_zero_of_dvd hd]; omega), if_neg (by omega),
      if_neg (not_not_intro hpow)]

/-- The degree of a layout is recovered when the pages reach its last shard. -/
theorem recover_own (hp : 0 < p) (hd : 0 < d) (h32 : d < 2 ^ 32) (hctx : d * p ≤ ctx) :
    recoverDegree ctx ((DcpLayout.mk world d p).localCapacity ctx) p = some d ↔
      (d - 1) * (ctx ⌈/⌉ p ⌈/⌉ d) < ctx ⌈/⌉ p := by
  have hc : 0 < ctx := (mul_pos hd hp).trans_le hctx
  have hn : 0 < ctx ⌈/⌉ p := pages_pos hp hc
  rw [recoverDegree_iff hp]
  by_cases h1 : d = 1
  · subst h1
    rw [localCapacity_one, Nat.sub_self, Nat.zero_mul]
    exact ⟨fun _ => hn, fun _ => ⟨hc, .inl ⟨rfl, rfl⟩⟩⟩
  · have hk : 0 < ctx ⌈/⌉ p ⌈/⌉ d := pages_pos hd hn
    obtain ⟨hlow, hup⟩ := (ceilDiv_eq_iff hd hk).mp rfl
    -- two shards and more hold less than the context
    have hdn : d ≤ ctx ⌈/⌉ p := by
      rcases lt_or_ge (ctx ⌈/⌉ p) d with hlt | hge
      · have := (ceilDiv_le_iff hp).mp (le_refl (ctx ⌈/⌉ p))
        have hmul := Nat.mul_lt_mul_of_pos_right hlt hp
        omega
      · exact hge
    have hless : ctx ⌈/⌉ p ⌈/⌉ d < ctx ⌈/⌉ p := by
      have hle : ctx ⌈/⌉ p ⌈/⌉ d ≤ ctx ⌈/⌉ p - 1 := by
        rw [ceilDiv_le_iff hd]
        calc ctx ⌈/⌉ p ≤ (ctx ⌈/⌉ p - 1) * 2 := by omega
          _ ≤ (ctx ⌈/⌉ p - 1) * d := Nat.mul_le_mul_left _ (by omega)
      omega
    rw [localCapacity_of_ne h1]
    constructor
    · rintro ⟨-, ⟨-, hd1⟩ | ⟨-, -, k, hk', hleast, -⟩⟩
      · exact absurd hd1 h1
      · obtain rfl := Nat.eq_of_mul_eq_mul_right hp hk'
        exact hleast
    · intro hleast
      refine ⟨mul_pos hk hp, .inr ⟨(pages_lt_iff hp).mpr hless, h32, _, rfl, hleast, ?_, hlow⟩⟩
      rw [mul_comm]
      exact hup

/-- The recovered degree is the world's only one with the stride when it divides the world and each
larger divisor has fewer local pages. -/
theorem recover_only (hw : world ≠ 0) (hmin : DCP_MIN_PAGE_ROWS ≤ p) (hpow : p.isPowerOfTwo)
    (h : recoverDegree ctx stride p = some d) : OnlyDegree world ctx stride p d ↔
      if stride = ctx then ctx ≠ p ∨ world = 1
      else ∃ e, e ∣ world ∧ (e - 1) * (stride / p) < ctx ⌈/⌉ p ∧ ctx ⌈/⌉ p ≤ e * (stride / p) ∧
        ∀ e', e' ∣ world → e < e' → ctx ⌈/⌉ p ≤ (stride / p - 1) * e' := by
  have hp : 0 < p := lt_of_lt_of_le (by decide) hmin
  have hvalid : ∀ e, (DcpLayout.mk world e p).validate none = .ok () ↔ e ∣ world := fun e => by
    rw [validate_iff]
    exact ⟨fun h => h.2.1, fun h => ⟨hw, h, hmin, hpow⟩⟩
  unfold OnlyDegree
  simp only [hvalid]
  obtain ⟨hpos, ⟨rfl, rfl⟩ | ⟨hlt, -, k, rfl, hleast, henough, hlow⟩⟩ := (recoverDegree_iff hp).mp h
  · rw [if_pos rfl]
    constructor
    · rintro ⟨-, -, huniq⟩
      rw [or_iff_not_imp_left, not_ne_iff]
      rintro rfl
      refine huniq world dvd_rfl ?_
      by_cases h1 : world = 1
      · rw [h1]
        exact localCapacity_one _ _ _
      · rw [localCapacity_of_ne h1]
        have hone : stride ⌈/⌉ stride = 1 := (ceilDiv_eq_iff hp one_pos).mpr ⟨by omega, by omega⟩
        have hone' : 1 ⌈/⌉ world = 1 := (ceilDiv_eq_iff (pos_of_ne_zero hw) one_pos).mpr ⟨by omega, by omega⟩
        rw [hone, hone', one_mul]
    · intro hcond
      refine ⟨one_dvd _, localCapacity_one _ _ _, fun e he hcap => ?_⟩
      rcases hcond with hne | rfl
      · by_contra h1
        have hepos : 0 < e := Nat.pos_of_dvd_of_pos he (pos_of_ne_zero hw)
        rw [localCapacity_of_ne h1] at hcap
        -- the pages of a share are as many as those of the context, so there is one
        have hn : 0 < stride ⌈/⌉ p := pages_pos hp hpos
        have hall : stride ⌈/⌉ p ≤ stride ⌈/⌉ p ⌈/⌉ e := by
          rw [ceilDiv_le_iff hp, hcap]
        have hone : stride ⌈/⌉ p ⌈/⌉ e ≤ 1 := by
          by_contra hgt
          have hle : stride ⌈/⌉ p ⌈/⌉ e ≤ stride ⌈/⌉ p - 1 := by
            rw [ceilDiv_le_iff hepos]
            calc stride ⌈/⌉ p ≤ (stride ⌈/⌉ p - 1) * 2 := by
                  have := (ceilDiv_le_iff (n := stride ⌈/⌉ p) (k := stride ⌈/⌉ p) hepos).mpr
                    (Nat.le_mul_of_pos_right _ hepos)
                  omega
              _ ≤ (stride ⌈/⌉ p - 1) * e := Nat.mul_le_mul_left _ (by omega)
          omega
        have hk1 : stride ⌈/⌉ p ⌈/⌉ e = 1 := by omega
        rw [hk1, one_mul] at hcap
        exact hne hcap.symm
      · exact Nat.dvd_one.mp he
  · have hk : 0 < k := pos_of_ne_zero fun hk => by rw [hk, zero_mul] at hpos; omega
    have hd : 0 < d := pos_of_ne_zero fun hd => by
      have := pages_pos hp (lt_trans hpos hlt)
      rw [hd, zero_mul] at henough
      omega
    rw [if_neg (by omega), Nat.mul_div_cancel _ hp]
    constructor
    · rintro ⟨hdvd, -, huniq⟩
      refine ⟨d, hdvd, hleast, henough, fun e' he' hgt => ?_⟩
      by_contra hnot
      have hcap : (DcpLayout.mk world e' p).localCapacity ctx = k * p := (localCapacity_iff hp (hd.trans hgt) hk hlt).mpr
        ⟨by omega, henough.trans (by rw [mul_comm]; exact Nat.mul_le_mul_left _ hgt.le)⟩
      exact absurd (huniq e' he' hcap) hgt.ne'
    · rintro ⟨e, hdvd, heleast, heenough, hlarger⟩
      -- two least degrees are one
      have hed : e = d := by
        have hepos : 0 < e := Nat.pos_of_dvd_of_pos hdvd (pos_of_ne_zero hw)
        exact ((ceilDiv_eq_iff hk hepos).mpr ⟨heleast, heenough⟩).symm.trans
          ((ceilDiv_eq_iff hk hd).mpr ⟨hleast, henough⟩)
      subst hed
      refine ⟨hdvd, (localCapacity_iff hp hd hk hlt).mpr ⟨hlow, by rw [mul_comm]; exact henough⟩, ?_⟩
      intro e' he' hcap
      have hepos : 0 < e' := Nat.pos_of_dvd_of_pos he' (pos_of_ne_zero hw)
      obtain ⟨hlow', hup'⟩ := (localCapacity_iff hp hepos hk hlt).mp hcap
      rcases lt_trichotomy e' e with hlt' | heq | hgt
      · have hmul : k * e' ≤ (e - 1) * k := by
          rw [mul_comm k]
          exact Nat.mul_le_mul_right _ (by omega)
        omega
      · exact heq
      · have := hlarger e' he' hgt
        omega

/-- The degree of a layout comes back from its stride exactly when the pages reach the last shard, and
a recovered degree is the only one of the world exactly when it divides the world and each larger
divisor has fewer local pages. -/
theorem recover_iff (world p ctx : ℕ) (hv : (DcpLayout.mk world 1 p).validate none = .ok ()) :
    (∀ d, d ∣ world → d < 2 ^ 32 → d * p ≤ ctx →
      (recoverDegree ctx ((DcpLayout.mk world d p).localCapacity ctx) p = some d ↔
        (d - 1) * (ctx ⌈/⌉ p ⌈/⌉ d) < ctx ⌈/⌉ p)) ∧
    ∀ stride d, recoverDegree ctx stride p = some d → (OnlyDegree world ctx stride p d ↔
      if stride = ctx then ctx ≠ p ∨ world = 1
      else ∃ e, e ∣ world ∧ (e - 1) * (stride / p) < ctx ⌈/⌉ p ∧ ctx ⌈/⌉ p ≤ e * (stride / p) ∧
        ∀ e', e' ∣ world → e < e' → ctx ⌈/⌉ p ≤ (stride / p - 1) * e') := by
  obtain ⟨hw, -, hmin, hpow⟩ := validate_iff.mp hv
  constructor
  · intro d hd h32 hctx
    have hpos : 0 < d := Nat.pos_of_dvd_of_pos hd (pos_of_ne_zero hw)
    exact recover_own (lt_of_lt_of_le (by decide) hmin) hpos h32 hctx
  · intro stride d h
    exact recover_only hw hmin hpow h

theorem recover_iff_pages : recoverDegree 1024 ((DcpLayout.mk 8 8 64).localCapacity 1024) 64 = some 8 ∧
    OnlyDegree 8 1024 128 64 8 :=
  ⟨((recover_iff 8 64 1024 rfl).1 8 dvd_rfl (by decide) (by decide)).mpr (by decide),
    ((recover_iff 8 64 1024 rfl).2 128 8 (by decide)).mpr ⟨8, dvd_rfl, by decide, by decide, fun e' he' hgt =>
      absurd (Nat.le_of_dvd (by decide) he') (by omega)⟩⟩

/-- Nine pages over eight shards come back as nine over five. -/
theorem recover_wrong : ¬ ((∀ (l : DcpLayout) (ctx : ℕ), l.validate none = .ok () → l.degree < 2 ^ 32 →
      l.degree * l.pageRows ≤ ctx → recoverDegree ctx (l.localCapacity ctx) l.pageRows = some l.degree) ∧
    ∀ world p ctx stride d : ℕ, (DcpLayout.mk world 1 p).validate none = .ok () →
      recoverDegree ctx stride p = some d → OnlyDegree world ctx stride p d) := by
  rintro ⟨hown, -⟩
  have h := hown ⟨8, 8, 64⟩ 576 rfl (by decide) (by decide)
  have h5 : recoverDegree 576 ((DcpLayout.mk 8 8 64).localCapacity 576) 64 = some 5 := by decide
  rw [h5] at h
  exact absurd (Option.some.inj h) (by decide)

end Plow.Packet
