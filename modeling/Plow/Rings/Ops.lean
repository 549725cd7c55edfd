import Plow.Rings.Loops

/-!
# What the operations keep

Every operation returns and keeps the rings sound (`step_ok`); an `ensure_slot` that fails leaves the
mapped slots and the prefix alone.
-/

namespace Plow.Rings

open List Function

namespace VmmRings
variable (ok : ℕ → Bool) {r r' : VmmRings} {held l : List (ℕ × ℕ)} {slot : ℕ}

/-! ### A slot comes to be mapped -/

theorem prefixFrom_spec {batch : ℕ} {mapped : ℕ → Bool} (n p : ℕ) (hn : batch - p ≤ n) (hp : p ≤ batch)
    (hbelow : ∀ s < p, mapped s = true) :
    prefixFrom batch mapped n p ≤ batch ∧ (∀ s < prefixFrom batch mapped n p, mapped s = true) ∧
      (prefixFrom batch mapped n p < batch → mapped (prefixFrom batch mapped n p) = false) := by
  induction n generalizing p with
  | zero => exact ⟨hp, hbelow, fun h => by unfold prefixFrom at h; omega⟩
  | succ n ih =>
    unfold prefixFrom
    split
    · next h =>
      refine ih (p + 1) (by omega) h.1 fun s hs => ?_
      rcases Nat.lt_succ_iff_lt_or_eq.mp hs with hs | rfl
      · exact hbelow s hs
      · exact h.2
    · next h =>
      refine ⟨hp, hbelow, fun hlt => ?_⟩
      by_contra hm
      exact h ⟨hlt, by simpa using hm⟩

theorem slots_markMapped (hr : r.Slots) (hs : slot < r.batch) (hm : r.mapped slot = false)
    (hp : r.parked slot = false) : (r.markMapped slot).Slots := by
  have hbelow : ∀ s < r.mappedPrefix, update r.mapped slot true s = true := by
    intro s hlt
    by_cases he : s = slot
    · rw [he]
      exact update_self _ _ _
    · rw [update_of_ne he]
      exact hr.below s hlt
  obtain ⟨hle, hb, hstop⟩ := prefixFrom_spec (r.batch - r.mappedPrefix) r.mappedPrefix le_rfl
    hr.prefix_le hbelow
  refine ⟨fun s h => ?_, fun s h => ?_, ?_, hle, hb, ?_⟩
  · by_cases he : s = slot
    · rw [he]
      exact hp
    · apply hr.apart s
      have : update r.mapped slot true s = true := h
      rwa [update_of_ne he] at this
  · by_cases he : s = slot
    · rw [he]
      exact hs
    · apply hr.inBatch s
      have : (update r.mapped slot true s || r.parked s) = true := h
      rwa [update_of_ne he] at this
  · show r.mappedSlots + 1 = (range r.batch).countP (update r.mapped slot true)
    rw [countP_range_add r.mapped (update r.mapped slot true) hs hm fun b hb =>
      update_of_ne hb _ _, update_self, if_pos rfl, hr.count]
  · show update r.mapped slot true (prefixFrom r.batch (update r.mapped slot true)
      (r.batch - r.mappedPrefix) r.mappedPrefix) = false
    rcases lt_or_ge (prefixFrom r.batch (update r.mapped slot true)
      (r.batch - r.mappedPrefix) r.mappedPrefix) r.batch with hlt | hge
    · exact hstop hlt
    · rw [le_antisymm hle hge, update_of_ne (by omega)]
      by_contra hb
      have := hr.inBatch r.batch (by rw [(by simpa using hb : r.mapped r.batch = true)]; rfl)
      omega

theorem markMapped_ok (hr : r.UnitsOk (r.slotUnits slot ++ held) []) (hsl : r.Slots) (hs : slot < r.batch)
    (hm : r.mapped slot = false) (hp : r.parked slot = false) : (r.markMapped slot).Sound held := by
  refine ⟨hr.used hs ⟨rfl, rfl, rfl, rfl, rfl, rfl, rfl, rfl⟩ ?_ ?_ fun s he => ?_,
    slots_markMapped hsl hs hm hp⟩
  · rw [hm, hp]
    rfl
  · show (update r.mapped slot true slot || r.parked slot) = true
    rw [update_self]
    rfl
  · show (update r.mapped slot true s || r.parked s) = _
    rw [update_of_ne he]

/-- A parked slot is mapped again. -/
theorem remap_ok (hr : r.Sound held) (hp : r.parked slot = true) :
    (({ r with parked := update r.parked slot false } : VmmRings).markMapped slot).Sound held := by
  have hs : slot < r.batch := hr.slots.inBatch slot (by rw [hp, Bool.or_true])
  have hm : r.mapped slot = false := by
    by_contra h
    have := hr.slots.apart slot (by simpa using h)
    rw [hp] at this
    cases this
  have hkept : Kept r { r with parked := update r.parked slot false } := by
    refine ⟨rfl, rfl, rfl, rfl, rfl, rfl, rfl, rfl, rfl, fun t ht => ?_⟩
    by_cases he : t = slot
    · rw [he]
      exact hp
    · have : update r.parked slot false t = true := ht
      rwa [update_of_ne he] at this
  refine ⟨?_, slots_markMapped (hkept.slots hr.slots) hs hm (update_self _ _ _)⟩
  have hsame : SameUnits r
      (({ r with parked := update r.parked slot false } : VmmRings).markMapped slot) :=
    ⟨rfl, rfl, rfl, rfl, rfl, rfl, rfl, rfl⟩
  refine hsame.unitsOk hr.units (fun x => ?_) hr.units.held
  congr 1
  refine congrFun (uses_congr hsame.windows hsame.batch fun s => ?_) x
  show (update r.mapped slot true s || update r.parked slot false s) = _
  by_cases he : s = slot
  · rw [he, update_self, update_self, hp, Bool.or_true, Bool.or_false]
  · rw [update_of_ne he, update_of_ne he]

/-- the parked slot that `makeRoom` gives up -/
def givenUp (r : VmmRings) : Option ℕ := if r.spare = [] then r.lastParked else none

theorem makeRoom_eq : r.makeRoom ok = match r.givenUp with
    | some p => r.unpark ok p
    | none => some r := by
  unfold makeRoom givenUp
  cases r.spare with
  | nil => cases r.lastParked <;> rfl
  | cons p l => rfl

theorem makeRoom_ok (hr : r.Sound held) :
    ∃ r', r.makeRoom ok = some r' ∧ Kept r r' ∧ r'.Sound held := by
  rw [makeRoom_eq]
  cases hg : r.givenUp with
  | none => exact ⟨r, rfl, Kept.refl r, hr⟩
  | some p =>
    have hp : r.parked p = true := by
      unfold givenUp at hg
      split at hg
      · exact lastParked_some hg
      · cases hg
    obtain ⟨r', h', hun⟩ := unpark_ok ok hr hp
    exact ⟨r', h', hun.kept, hun.sound⟩

/-- what asking for a fresh slot does, once there is room -/
structure Asked (ok : ℕ → Bool) (r : VmmRings) (slot : ℕ) (held : List (ℕ × ℕ)) (p : VmmRings × Bool) :
    Prop where
  sound : p.1.Sound held
  flag : p.2 = (r.ensureUnits ok (r.slotUnits slot) []).2.2
  done : p.2 = true → p.1.windows = r.windows ∧ p.1.batch = r.batch ∧ p.1.spareCap = r.spareCap ∧
    p.1.recycle = r.recycle ∧ p.1.bounded = r.bounded ∧ p.1.parked = r.parked ∧ 0 < p.1.mappedSlots ∧
    (p.1.spare.map Prod.fst).Perm ((r.spare.map Prod.fst).diff (r.missing (r.slotUnits slot)))
  undone : p.2 = false → Kept r p.1 ∧ (r.bounded = true → p.1.spareBytes ≤ p.1.spareCap) ∧
    (r.recycle = true → r.bounded = false → p.1.parkedCount = r.parkedCount ∧
      ∃ l₁ u l₂, r.slotUnits slot = l₁ ++ u :: l₂ ∧ r.refs u = 0 ∧ (p.1.spare.map Prod.fst).Perm
        ((r.spare.map Prod.fst).diff (r.missing (l₁ ++ [u])) ++ r.missing l₁))

theorem ensureFresh_ok (hr : r.Sound held) (hs : slot < r.batch) (hm : r.mapped slot = false)
    (hp : r.parked slot = false) : ∃ r₁ p, r.makeRoom ok = some r₁ ∧ Kept r r₁ ∧
      r.ensureFresh ok slot = some p ∧ Asked ok r₁ slot held p := by
  obtain ⟨r₁, hroom, hk, hr₁⟩ := makeRoom_ok ok hr
  have hs₁ : slot < r₁.batch := by
    rw [hk.batch]
    exact hs
  have hm₁ : r₁.mapped slot = false := by
    rw [hk.mapped]
    exact hm
  have hp₁ : r₁.parked slot = false := by
    by_contra h
    have := hk.parked slot (by simpa using h)
    rw [hp] at this
    cases this
  have hensure := ensureUnits_ok ok (nodup_slotUnits r₁ slot)
    (slotUnits_subset hr₁.units.shaped hs₁) (show r₁.UnitsOk ([] ++ held) [] from hr₁.units)
  refine ⟨r₁, ?_⟩
  unfold ensureFresh
  rw [hroom, Option.bind_some]
  generalize hq : r₁.ensureUnits ok (r₁.slotUnits slot) [] = q at hensure
  obtain ⟨r₂, t, b⟩ := q
  have hf : Frame r₁ r₂ := hensure.frame
  have hsl : r₂.Slots := (Kept.of_frame hf).slots hr₁.slots
  cases b with
  | true =>
    obtain ⟨ht, hspare⟩ := hensure.done rfl
    have ht : t = (r₁.slotUnits slot).reverse := by
      rw [← append_nil (r₁.slotUnits slot).reverse]
      exact ht
    have hunits : r₂.UnitsOk (r₂.slotUnits slot ++ held) [] := by
      have hu := hensure.units
      rw [hf.slotUnits]
      refine ⟨hu.shaped, fun x => ?_, fun x hx => hu.held x ?_, hu.handle, hu.resident, hu.owned⟩
      · rw [hu.refs x]
        show _ + (t ++ held).count x = _
        rw [ht, count_append, count_append, count_reverse]
      · show x ∈ t ++ held
        rw [ht]
        rcases mem_append.mp hx with hx | hx
        · exact mem_append_left _ (mem_reverse.mpr hx)
        · exact mem_append_right _ hx
    refine ⟨_, rfl, hk, rfl, markMapped_ok hunits hsl (by rw [hf.batch]; exact hs₁)
      (by rw [hf.mapped]; exact hm₁) (by rw [hf.parked]; exact hp₁), by rw [hq], fun _ => ?_, fun h => Bool.noConfusion h⟩
    exact ⟨hf.windows, hf.batch, hf.spareCap, hf.recycle, hf.bounded, hf.parked, Nat.succ_pos _, hspare⟩
  | false =>
    obtain ⟨l₁, u, l₂, hl, ht, hu, hrefs, hspare⟩ := hensure.undone rfl
    have ht : t = l₁.reverse := by
      rw [← append_nil l₁.reverse]
      exact ht
    have hnodup : l₁.Nodup := by
      have := nodup_slotUnits r₁ slot
      rw [hl] at this
      exact (nodup_append.mp this).1
    -- the units that were referred to are given up again
    obtain ⟨r₃, h₃, hf₃, hunits, hspare₃⟩ := releaseUnits_ok ok (l := t)
      (by rw [ht]; exact nodup_reverse.mpr hnodup) hensure.units
    have hk₃ := (Kept.of_frame hf).trans (Kept.of_frame hf₃)
    have hsound : r₃.Sound held := ⟨hunits, hk₃.slots hr₁.slots⟩
    show ∃ p, _ ∧ _ ∧ ((r₂.releaseUnits ok t).bind fun r => _) = some p ∧ _
    rw [h₃]
    cases hb : r₃.bounded with
    | true =>
      obtain ⟨r₄, h₄, hk₄, hsound₄, hle⟩ := trimSpare_ok ok hsound
      refine ⟨(r₄, false), rfl, hk, ?_, hsound₄, by rw [hq], fun h => Bool.noConfusion h, fun _ => ⟨hk₃.trans hk₄, fun _ => hle, ?_⟩⟩
      · show (if r₃.bounded = true then r₃.trimSpare ok else some r₃).map (·, false) = _
        rw [if_pos hb, h₄]
        rfl
      · intro _ hno
        rw [hk₃.bounded, hno] at hb
        cases hb
    | false =>
      refine ⟨(r₃, false), rfl, hk, ?_, hsound, by rw [hq], fun h => Bool.noConfusion h, fun _ => ⟨hk₃, ?_, ?_⟩⟩
      · show (if r₃.bounded = true then r₃.trimSpare ok else some r₃).map (·, false) = _
        rw [if_neg (by rw [hb]; exact Bool.false_ne_true)]
        rfl
      · intro hyes
        rw [hk₃.bounded, hyes] at hb
        cases hb
      · intro hrec _
        refine ⟨(hf.trans hf₃).parkedCount, l₁, u, l₂, hl, hu, ?_⟩
        have hback : (r₂.freed t).Perm (r₁.missing l₁) := by
          unfold freed missing
          rw [ht]
          refine Perm.trans (Perm.map _ (Perm.filter _ (reverse_perm l₁))) ?_
          refine Perm.of_eq ?_
          rw [filter_congr fun x hx => ?_]
          · exact map_congr_left fun x _ => by rw [hf.window]
          · show decide (r₂.refs x = 1) = decide (r₁.refs x = 0)
            rw [hrefs x, count_eq_one_of_mem hnodup hx]
            simp
        rw [hspare₃, hf.recycle, hrec, if_pos rfl]
        exact hspare.append hback

/-! ### The other operations -/

theorem ensureSlot_ok (slot : ℕ) (hr : r.Sound held) : ∃ p, r.ensureSlot ok slot = some p ∧ p.1.Sound held ∧
    p.1.windows = r.windows ∧ p.1.batch = r.batch ∧ (p.2 = false → Kept r p.1) := by
  unfold ensureSlot
  split
  · exact ⟨_, rfl, hr, rfl, rfl, fun _ => Kept.refl r⟩
  · next hs =>
    split
    · exact ⟨_, rfl, hr, rfl, rfl, nofun⟩
    · next hm =>
      split
      · next hp => exact ⟨_, rfl, remap_ok hr hp, rfl, rfl, nofun⟩
      · next hp =>
        have hs : slot < r.batch := by omega
        obtain ⟨r₁, p, -, hk, h, hask⟩ := ensureFresh_ok ok hr hs (by simpa using hm) (by simpa using hp)
        refine ⟨p, h, hask.sound, ?_⟩
        cases hb : p.2 with
        | true =>
          obtain ⟨hw, hbatch, -⟩ := hask.done hb
          exact ⟨hw.trans hk.windows, hbatch.trans hk.batch, nofun⟩
        | false =>
          have hk' := hk.trans (hask.undone hb).1
          exact ⟨hk'.windows, hk'.batch, fun _ => hk'⟩

theorem ensureLoop_ok (rows n : ℕ) (hr : r.Sound held) : ∃ p, r.ensureLoop ok rows n = some p ∧
    p.1.Sound held ∧ p.1.windows = r.windows ∧ p.1.batch = r.batch := by
  induction n generalizing r with
  | zero => exact ⟨_, rfl, hr, rfl, rfl⟩
  | succ n ih =>
    unfold ensureLoop
    split
    · obtain ⟨⟨r₁, b⟩, h₁, hs₁, hw₁, hb₁, -⟩ := ensureSlot_ok ok r.mappedPrefix hr
      rw [h₁]
      cases b with
      | true =>
        obtain ⟨p, hp, hs, hw, hb⟩ := ih hs₁
        exact ⟨p, hp, hs, hw.trans hw₁, hb.trans hb₁⟩
      | false => exact ⟨_, rfl, hs₁, hw₁, hb₁⟩
    · exact ⟨_, rfl, hr, rfl, rfl⟩

theorem backIdle_unmapSlot (r : VmmRings) (slot : ℕ) (x : ℕ × ℕ) :
    ((r.unmapSlot slot).backIdle ok x).1 = (r.backIdle ok x).1.unmapSlot slot := by
  unfold backIdle unmapSlot window
  dsimp only
  cases r.idle.find? fun p => decide (p.1 = (r.windows.getD x.1 ⟨0, 0, 0, 0, 0, false⟩).mapBytes) with
  | none => rfl
  | some p =>
    generalize r.driver.map ok = q
    obtain ⟨d, b⟩ := q
    cases b <;> rfl

theorem releaseUnit_unmapSlot (r : VmmRings) (slot : ℕ) (x : ℕ × ℕ) :
    (r.unmapSlot slot).releaseUnit ok x = (r.releaseUnit ok x).map (·.unmapSlot slot) := by
  have hkeep : ∀ (r : VmmRings) h, (r.unmapSlot slot).keepHandle x h = (r.keepHandle x h).unmapSlot slot := by
    intro r h
    unfold keepHandle
    show (if r.recycle then _ else _) = (if r.recycle then _ else _ : VmmRings).unmapSlot slot
    split <;> rfl
  unfold releaseUnit
  dsimp only
  show (if r.refs x = 0 then none else if update r.refs x (r.refs x - 1) x ≠ 0 then _ else
    (r.handles x).map _) = Option.map _ (if r.refs x = 0 then none else
      if update r.refs x (r.refs x - 1) x ≠ 0 then _ else (r.handles x).map _)
  split
  · rfl
  · split
    · rfl
    · cases r.handles x with
      | none => rfl
      | some h =>
        refine congrArg some ?_
        refine Eq.trans ?_ (backIdle_unmapSlot ok _ slot x)
        exact congrArg (fun r => (backIdle ok r x).1)
          (hkeep { r with refs := update r.refs x (r.refs x - 1) } h)

theorem releaseUnits_unmapSlot (r : VmmRings) (slot : ℕ) (l : List (ℕ × ℕ)) :
    (r.unmapSlot slot).releaseUnits ok l = (r.releaseUnits ok l).map (·.unmapSlot slot) := by
  induction l generalizing r with
  | nil => rfl
  | cons x l ih =>
    unfold releaseUnits at ih ⊢
    rw [foldlM_cons, foldlM_cons, releaseUnit_unmapSlot]
    cases r.releaseUnit ok x with
    | none => rfl
    | some r₁ => exact ih r₁

theorem slots_unmapSlot {p : ℕ → Bool} (hr : r.Slots) (hm : r.mapped slot = true)
    (hp : ∀ s, s ≠ slot → p s = r.parked s) : ({ r with parked := p } : VmmRings).unmapSlot slot |>.Slots := by
  have hs : slot < r.batch := hr.inBatch slot (by rw [hm]; rfl)
  refine ⟨fun s h => ?_, fun s h => ?_, ?_, ?_, fun s h => ?_, ?_⟩
  · have h : update r.mapped slot false s = true := h
    show p s = false
    have he : s ≠ slot := by
      rintro rfl
      rw [update_self] at h
      cases h
    rw [update_of_ne he] at h
    rw [hp s he]
    exact hr.apart s h
  · by_cases he : s = slot
    · rw [he]
      exact hs
    · apply hr.inBatch s
      have h : (update r.mapped slot false s || p s) = true := h
      rwa [update_of_ne he, hp s he] at h
  · show r.mappedSlots - 1 = (range r.batch).countP (update r.mapped slot false)
    have := countP_range_add (update r.mapped slot false) r.mapped hs (update_self _ _ _)
      fun b hb => (update_of_ne hb _ _).symm
    rw [hm, if_pos rfl, ← hr.count] at this
    omega
  · exact le_trans (min_le_left _ _) hr.prefix_le
  · have h : s < min r.mappedPrefix slot := h
    show update r.mapped slot false s = true
    rw [update_of_ne (by omega)]
    exact hr.below s (by omega)
  · show update r.mapped slot false (min r.mappedPrefix slot) = false
    by_cases he : min r.mappedPrefix slot = slot
    · rw [he]
      exact update_self _ _ _
    · rw [update_of_ne he, Nat.min_def]
      split
      · exact hr.stop
      · next hlt => exact absurd (min_eq_right (by omega)) he

theorem unparkAll_ok (hr : r.Sound held) : ∃ r', r.unparkAll ok = some r' ∧ Kept r r' ∧ r'.Sound held := by
  unfold unparkAll
  generalize range r.batch = l
  induction l generalizing r with
  | nil => exact ⟨r, rfl, Kept.refl r, hr⟩
  | cons p l ih =>
    rw [foldlM_cons]
    by_cases hp : r.parked p = true
    · obtain ⟨r₁, h₁, hun⟩ := unpark_ok ok hr hp
      obtain ⟨r', h', hk, hs⟩ := ih hun.sound
      rw [if_pos hp, h₁]
      exact ⟨r', h', hun.kept.trans hk, hs⟩
    · rw [if_neg hp]
      exact ih hr

/-- what giving up a mapped slot does -/
structure Dropped (r : VmmRings) (held : List (ℕ × ℕ)) (r' : VmmRings) : Prop where
  sound : r'.Sound held
  windows : r'.windows = r.windows
  batch : r'.batch = r.batch
  bounded : r'.bounded = r.bounded
  /-- nothing to do, or what is kept is trimmed -/
  trimmed : r' = r ∨ (r.bounded = true ∨ r'.mappedSlots = 0 → r'.spareBytes ≤ r'.spareCap)

theorem releaseSlot_ok (slot : ℕ) (hr : r.Sound held) : ∃ r', r.releaseSlot ok slot = some r' ∧ Dropped r held r' := by
  unfold releaseSlot
  split
  · exact ⟨r, rfl, hr, rfl, rfl, rfl, Or.inl rfl⟩
  · next h =>
    have hm : r.mapped slot = true := by
      by_contra hm
      exact h (Or.inr (by simpa using hm))
    have hs : slot < r.batch := by omega
    have hp : r.parked slot = false := hr.slots.apart slot hm
    -- the slot is parked, or its units are given up
    have hgone : ∃ r₁ : VmmRings, (if r.recycle then
          some { r with parked := update r.parked slot true }
        else r.releaseUnits ok (r.slotUnits slot)) = some r₁ ∧ (r₁.unmapSlot slot).Sound held ∧
          r₁.windows = r.windows ∧ r₁.batch = r.batch ∧ r₁.bounded = r.bounded := by
      split
      · refine ⟨_, rfl, ⟨?_, slots_unmapSlot hr.slots hm fun s he => update_of_ne he _ _⟩,
          rfl, rfl, rfl⟩
        have hsame : SameUnits r
            (({ r with parked := update r.parked slot true } : VmmRings).unmapSlot slot) :=
          ⟨rfl, rfl, rfl, rfl, rfl, rfl, rfl, rfl⟩
        refine hsame.unitsOk hr.units (fun x => ?_) hr.units.held
        congr 1
        refine congrFun (uses_congr hsame.windows hsame.batch fun s => ?_) x
        show (update r.mapped slot false s || update r.parked slot true s) = _
        by_cases he : s = slot
        · rw [he, update_self, update_self, hm]
          rfl
        · rw [update_of_ne he, update_of_ne he]
      · have hun : (r.unmapSlot slot).UnitsOk (r.slotUnits slot ++ held) [] := by
          refine hr.units.unused hs ⟨rfl, rfl, rfl, rfl, rfl, rfl, rfl, rfl⟩ ?_ ?_ fun s he => ?_
          · rw [hm]
            rfl
          · show (update r.mapped slot false slot || r.parked slot) = false
            rw [update_self, hp]
            rfl
          · show _ = (update r.mapped slot false s || r.parked s)
            rw [update_of_ne he]
        obtain ⟨r₂, h₂, hf, hunits, -⟩ := releaseUnits_ok ok (nodup_slotUnits r slot) hun
        rw [releaseUnits_unmapSlot] at h₂
        obtain ⟨r₁, h₁, rfl⟩ := Option.map_eq_some_iff.mp h₂
        have hslots : (r.unmapSlot slot).Slots := slots_unmapSlot hr.slots hm fun _ _ => rfl
        exact ⟨r₁, h₁, ⟨hunits, (Kept.of_frame hf).slots hslots⟩, hf.windows, hf.batch, hf.bounded⟩
    obtain ⟨r₁, h₁, hs₁, hw, hbatch, hbound⟩ := hgone
    rw [h₁]
    show ∃ r', (if (r₁.unmapSlot slot).bounded = true then (r₁.unmapSlot slot).trimSpare ok
      else if (r₁.unmapSlot slot).mappedSlots = 0 then
        ((r₁.unmapSlot slot).unparkAll ok).bind fun r => r.trimSpare ok
      else some (r₁.unmapSlot slot)) = some r' ∧ _
    split
    · obtain ⟨r', h', hk, hs', hle⟩ := trimSpare_ok ok hs₁
      exact ⟨r', h', hs', hk.windows.trans hw, hk.batch.trans hbatch, hk.bounded.trans hbound,
        Or.inr fun _ => hle⟩
    · next hnb =>
      split
      · obtain ⟨r₂, h₂, hk₂, hs₂⟩ := unparkAll_ok ok hs₁
        obtain ⟨r', h', hk', hs', hle⟩ := trimSpare_ok ok hs₂
        have hk := hk₂.trans hk'
        rw [h₂]
        exact ⟨r', h', hs', hk.windows.trans hw, hk.batch.trans hbatch, hk.bounded.trans hbound,
          Or.inr fun _ => hle⟩
      · next hn0 =>
        refine ⟨_, rfl, hs₁, hw, hbatch, hbound, Or.inr fun hor => ?_⟩
        rcases hor with hb | h0
        · exact absurd (hbound.trans hb) hnb
        · exact absurd h0 hn0

theorem Sound.congr (hr : r.Sound held) (h : SameUnits r r') (hm : r'.mapped = r.mapped)
    (hp : r'.parked = r.parked) (hpre : r'.mappedPrefix = r.mappedPrefix)
    (hn : r'.mappedSlots = r.mappedSlots) : r'.Sound held := by
  refine ⟨h.unitsOk hr.units (fun x => ?_) hr.units.held, ?_, ?_, ?_, ?_, ?_, ?_⟩
  · rw [uses_congr h.windows h.batch fun s => by rw [hm, hp]]
  · rw [hm, hp]
    exact hr.slots.apart
  · rw [hm, hp, h.batch]
    exact hr.slots.inBatch
  · rw [hm, hn, h.batch]
    exact hr.slots.count
  · rw [hpre, h.batch]
    exact hr.slots.prefix_le
  · rw [hm, hpre]
    exact hr.slots.below
  · rw [hm, hpre]
    exact hr.slots.stop

theorem sound_setRetention (hr : r.Sound held) (recycle bounded : Bool) (cap : ℕ) :
    ({ r with recycle, bounded, spareCap := cap } : VmmRings).Sound held :=
  hr.congr ⟨rfl, rfl, rfl, rfl, rfl, rfl, rfl, rfl⟩ rfl rfl rfl rfl

theorem trimTo_ok (cap : ℕ) (hr : r.Sound held) : ∃ p, r.trimTo ok cap = some p ∧ p.1.Sound held ∧
    p.1.windows = r.windows ∧ p.1.batch = r.batch ∧ p.1.bounded = r.bounded ∧ p.1.spareCap = r.spareCap ∧
    p.1.spareBytes ≤ cap := by
  obtain ⟨r', h', hk, hs, hle⟩ := trimSpare_ok ok (sound_setRetention hr r.recycle r.bounded cap)
  unfold trimTo
  rw [h']
  refine ⟨_, rfl, sound_setRetention hs r'.recycle r'.bounded r.spareCap, hk.windows, hk.batch, hk.bounded,
    rfl, ?_⟩
  rw [hk.spareCap] at hle
  exact hle

/-- Every operation returns, and keeps the rings sound. -/
theorem step_ok (o : Op) (hr : r.Sound held) : ∃ p, r.step ok o = some p ∧ p.1.Sound held ∧
    p.1.windows = r.windows ∧ p.1.batch = r.batch := by
  cases o with
  | enableHandleRecycling cap => exact ⟨_, rfl, sound_setRetention hr true r.bounded cap, rfl, rfl⟩
  | enableBoundedPark cap => exact ⟨_, rfl, sound_setRetention hr true true cap, rfl, rfl⟩
  | setRetention recycle bounded cap =>
    obtain ⟨r', h', hk, hs, -⟩ := trimSpare_ok ok (sound_setRetention hr recycle bounded cap)
    show ∃ p, (({ r with recycle, bounded, spareCap := cap } : VmmRings).trimSpare ok).map (·, true) = some p ∧ _
    rw [h']
    exact ⟨_, rfl, hs, hk.windows, hk.batch⟩
  | setParkCap cap =>
    show ∃ p, (r.setParkCap ok cap).map (·, true) = some p ∧ _
    unfold setParkCap
    split
    · obtain ⟨r', h', hk, hs, -⟩ := trimSpare_ok ok (sound_setRetention hr r.recycle r.bounded cap)
      rw [h']
      exact ⟨_, rfl, hs, hk.windows, hk.batch⟩
    · exact ⟨_, rfl, hr, rfl, rfl⟩
  | ensureSlot slot =>
    obtain ⟨p, hp, hs, hw, hb, -⟩ := ensureSlot_ok ok slot hr
    exact ⟨p, hp, hs, hw, hb⟩
  | ensurePrefix rows =>
    show ∃ p, r.ensurePrefix ok rows = some p ∧ _
    unfold ensurePrefix
    split
    · exact ⟨_, rfl, hr, rfl, rfl⟩
    · split
      · exact ⟨_, rfl, hr, rfl, rfl⟩
      · have hs : ({ r with launchRows := rows } : VmmRings).Sound held :=
          hr.congr ⟨rfl, rfl, rfl, rfl, rfl, rfl, rfl, rfl⟩ rfl rfl rfl rfl
        exact ensureLoop_ok ok rows _ hs
  | releaseSlot slot =>
    obtain ⟨r', h', hd⟩ := releaseSlot_ok ok slot hr
    show ∃ p, (r.releaseSlot ok slot).map (·, true) = some p ∧ _
    rw [h']
    exact ⟨_, rfl, hd.sound, hd.windows, hd.batch⟩
  | releaseIdle slot =>
    show ∃ p, (r.releaseIdle ok slot).map (·, true) = some p ∧ _
    unfold releaseIdle
    split
    · obtain ⟨r', h', hd⟩ := releaseSlot_ok ok slot hr
      rw [h']
      exact ⟨_, rfl, hd.sound, hd.windows, hd.batch⟩
    · exact ⟨_, rfl, hr, rfl, rfl⟩
  | releaseParked =>
    show ∃ p, r.releaseParked ok = some p ∧ _
    unfold releaseParked
    split
    · obtain ⟨p, hp, hs, hw, hb, -⟩ := trimTo_ok ok 0 hr
      exact ⟨p, hp, hs, hw, hb⟩
    · exact ⟨_, rfl, hr, rfl, rfl⟩
  | releaseParkedUpto maxSlots =>
    show ∃ p, r.releaseParkedUpto ok maxSlots = some p ∧ _
    unfold releaseParkedUpto
    split
    · obtain ⟨p, hp, hs, hw, hb, -⟩ := trimTo_ok ok _ hr
      exact ⟨p, hp, hs, hw, hb⟩
    · exact ⟨_, rfl, hr, rfl, rfl⟩

end VmmRings

end Plow.Rings
