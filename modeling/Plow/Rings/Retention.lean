import Plow.Rings.Live

/-!
# What the rings keep of released slots

With bounded parking what is kept stays within the cap, and without it once no slot is mapped
(`Retained`): every release trims.  Three things do not.  A fresh slot takes the units of a parked one,
and where slots share units, more may be left over than it needs; a slot that is refused leaves the
units that were made for it behind; and enabling recycling sets a cap without a trim.  Where a step does
none of this (`StepFits`), it keeps the bound (`retained_of_fits`).
-/

namespace Plow.Rings

open List Function Option

namespace VmmRings
variable (ok : ℕ → Bool) (r : VmmRings)

def Retained : Prop := r.recycle = true → (r.bounded = true → r.spareBytes ≤ r.spareCap) ∧
  (r.bounded = false → (∀ s, r.mapped s = false) → r.spareBytes ≤ r.spareCap)

def givenRefs (x : ℕ × ℕ) : ℕ :=
  match r.givenUp with
  | some p => (r.slotUnits p).count x
  | none => 0

def offered : List ℕ :=
  match r.givenUp with
  | some p => r.freed (r.slotUnits p)
  | none => r.spare.map Prod.fst

def wanted (slot : ℕ) : List ℕ :=
  ((r.slotUnits slot).filter fun x => decide (r.refs x = r.givenRefs x)).map fun x => (r.window x.1).mapBytes

def stillParked : ℕ :=
  match r.givenUp with
  | some _ => r.parkedCount - 1
  | none => r.parkedCount

def slotCalls (slot : ℕ) : ℕ :=
  (match r.givenUp with
    | some p => 2 * (r.slotUnits p).length
    | none => 0) + 3 * (r.slotUnits slot).length

/-- a fresh slot leaves no more behind than may be kept -/
structure SlotFits (slot : ℕ) : Prop where
  /-- bounded rings: what the slot does not need of the units of the parked one -/
  bounded : r.bounded = true →
    ((r.offered).diff (r.wanted slot)).sum + r.stillParked * r.slotCharge ≤ r.spareCap
  /-- other rings without a mapped slot: the driver refuses nothing, or what is there when it refuses -/
  refused : r.bounded = false → (∀ s, r.mapped s = false) →
    (∀ n, r.driver.calls ≤ n → n < r.driver.calls + r.slotCalls slot → ok n = true) ∨
    ∀ l₁ u l₂, r.wanted slot = l₁ ++ u :: l₂ →
      ((r.offered).diff (l₁ ++ [u]) ++ l₁).sum + r.stillParked * r.slotCharge ≤ r.spareCap

/-- the slots that `ensure_prefix` asks for fit, each in its turn -/
def LoopFits (rows : ℕ) : ℕ → VmmRings → Prop
  | 0, _ => True
  | n + 1, r => r.mappedPrefix < rows →
    (r.recycle = true → r.parked r.mappedPrefix = false → SlotFits ok r r.mappedPrefix) ∧
      ∀ r', r.ensureSlot ok r.mappedPrefix = some (r', true) → LoopFits rows n r'

def StepFits : Op → Prop
  | .enableHandleRecycling cap => (r.bounded = true ∨ ∀ s, r.mapped s = false) → r.spareBytes ≤ cap
  | .enableBoundedPark cap => r.spareBytes ≤ cap
  | .ensureSlot slot => r.recycle = true → slot < r.batch → r.mapped slot = false →
    r.parked slot = false → SlotFits ok r slot
  | .ensurePrefix rows => rows ≤ r.batch → r.idle = [] →
    LoopFits ok rows (rows - r.mappedPrefix) { r with launchRows := rows }
  | _ => True

end VmmRings

/-- the rings of the runs whose steps fit -/
inductive Fitting (ok : ℕ → Bool) : VmmRings → Prop where
  | new {granularity : Option ℕ} {reserve : ℕ → Option ℕ} {tensors : List LiveRingTensor}
      {batch : ℕ} {r : VmmRings} (h : VmmRings.new granularity reserve tensors batch = some r) :
      Fitting ok r
  | idleBacked {granularity : Option ℕ} {reserve : ℕ → Option ℕ} {tensors : List LiveRingTensor}
      {batch : ℕ} {r r' : VmmRings}
      (h : VmmRings.new granularity reserve tensors batch = some r)
      (hb : r.idleBacked ok = (r', true)) : Fitting ok r'
  | step {r r' : VmmRings} {o : Op} {res : Bool} (h : Fitting ok r) (hf : r.StepFits ok o)
      (hs : r.step ok o = some (r', res)) : Fitting ok r'

theorem Fitting.reach {ok : ℕ → Bool} {r : VmmRings} (h : Fitting ok r) : Reach ok r := by
  induction h with
  | new h => exact .new h
  | idleBacked h hb => exact .idleBacked h hb
  | step _ _ hs ih => exact .step ih hs

namespace VmmRings
variable (ok : ℕ → Bool) {r r' : VmmRings} {held l touched : List (ℕ × ℕ)} {x : ℕ × ℕ} {slot : ℕ}
  {p : VmmRings × Bool}

/-! ### The driver calls -/

theorem map_calls (d : Driver) : d.calls ≤ (d.map ok).1.calls ∧ (d.map ok).1.calls ≤ d.calls + 2 := by
  unfold Driver.map
  split
  · exact ⟨Nat.le_add_right _ _, le_rfl⟩
  · exact ⟨Nat.le_add_right _ _, Nat.le_succ _⟩

theorem backIdle_calls (r : VmmRings) (x : ℕ × ℕ) : r.driver.calls ≤ (r.backIdle ok x).1.driver.calls ∧
    (r.backIdle ok x).1.driver.calls ≤ r.driver.calls + 2 := by
  have hd := map_calls ok r.driver
  unfold backIdle
  split
  · exact ⟨le_rfl, Nat.le_add_right _ _⟩
  · split
    · next d he =>
      rw [he] at hd
      exact hd
    · next d he =>
      rw [he] at hd
      exact hd

theorem releaseUnit_calls (h : r.releaseUnit ok x = some r') :
    r.driver.calls ≤ r'.driver.calls ∧ r'.driver.calls ≤ r.driver.calls + 2 := by
  unfold releaseUnit at h
  split at h
  · cases h
  · dsimp only at h
    split at h
    · cases h
      exact ⟨le_rfl, Nat.le_add_right _ _⟩
    · obtain ⟨g, -, rfl⟩ := map_eq_some_iff.mp h
      have hkeep : ∀ r : VmmRings, (r.keepHandle x g).driver.calls = r.driver.calls := by
        intro r
        unfold keepHandle
        dsimp only
        split <;> rfl
      have := backIdle_calls ok
        (({ r with refs := update r.refs x (r.refs x - 1) } : VmmRings).keepHandle x g) x
      rw [hkeep] at this
      exact this

theorem releaseUnits_calls (h : r.releaseUnits ok l = some r') :
    r.driver.calls ≤ r'.driver.calls ∧ r'.driver.calls ≤ r.driver.calls + 2 * l.length := by
  induction l generalizing r with
  | nil =>
    cases h
    exact ⟨le_rfl, le_rfl⟩
  | cons x l ih =>
    unfold releaseUnits at h ih
    rw [foldlM_cons] at h
    obtain ⟨r₁, h₁, h⟩ := bind_eq_some_iff.mp h
    have hone := releaseUnit_calls ok h₁
    have hrest := ih h
    rw [length_cons]
    omega

theorem takeHandle_answered (mb : ℕ) (h : ok r.driver.calls = true) :
    (r.takeHandle ok mb).2.isSome = true ∧ r.driver.calls ≤ (r.takeHandle ok mb).1.driver.calls ∧
      (r.takeHandle ok mb).1.driver.calls ≤ r.driver.calls + 1 := by
  unfold takeHandle
  cases hi : r.spare.findIdx? fun p => decide (p.1 = mb) with
  | some i =>
    obtain ⟨hlt, -, -⟩ := findIdx?_eq_some_iff_getElem.mp hi
    refine ⟨?_, le_rfl, Nat.le_succ _⟩
    show (r.spare[i]?.map Prod.snd).isSome = true
    rw [getElem?_eq_getElem hlt]
    rfl
  | none =>
    unfold Driver.create
    rw [h]
    exact ⟨rfl, Nat.le_succ _, le_rfl⟩

theorem commitUnit_answered (h : ∀ n, r.driver.calls ≤ n → n < r.driver.calls + 3 → ok n = true) :
    (r.commitUnit ok x).2 = true ∧ r.driver.calls ≤ (r.commitUnit ok x).1.driver.calls ∧
      (r.commitUnit ok x).1.driver.calls ≤ r.driver.calls + 3 := by
  obtain ⟨r₀, hr₀⟩ : ∃ r₀, r₀ = if r.idleUnits x then r.unmapIdle x else r := ⟨_, rfl⟩
  have hd : r₀.driver = r.driver := by
    rw [hr₀]
    split <;> rfl
  obtain ⟨hsome, hlo, hhi⟩ := takeHandle_answered ok (r := r₀) (r₀.window x.1).mapBytes (by
    rw [hd]
    exact h _ le_rfl (by omega))
  rw [hd] at hlo hhi
  unfold commitUnit
  dsimp only
  rw [← hr₀]
  generalize r₀.takeHandle ok (r₀.window x.1).mapBytes = q at hsome hlo hhi
  obtain ⟨r₁, g⟩ := q
  obtain ⟨g, rfl⟩ := isSome_iff_exists.mp hsome
  dsimp only at hlo hhi
  have hmap : r₁.driver.map ok = ({ r₁.driver with calls := r₁.driver.calls + 2 }, true) := by
    unfold Driver.map
    rw [h r₁.driver.calls hlo (by omega), h (r₁.driver.calls + 1) (by omega) (by omega)]
    rfl
  unfold mapUnit
  dsimp only
  rw [hmap]
  refine ⟨rfl, ?_, ?_⟩
  · show r.driver.calls ≤ r₁.driver.calls + 2
    omega
  · show r₁.driver.calls + 2 ≤ r.driver.calls + 3
    omega

theorem ensureUnits_answered
    (h : ∀ n, r.driver.calls ≤ n → n < r.driver.calls + 3 * l.length → ok n = true) :
    (r.ensureUnits ok l touched).2.2 = true := by
  induction l generalizing r touched with
  | nil => rfl
  | cons x l ih =>
    rw [length_cons] at h
    unfold ensureUnits
    split
    · have hone := commitUnit_answered ok (r := r) (x := x) fun n hlo hhi => h n hlo (by omega)
      split
      · next r₁ he =>
        rw [he] at hone
        dsimp only at hone
        exact ih fun n (hlo : r₁.driver.calls ≤ n) (hhi : n < r₁.driver.calls + _) => h n (by omega) (by omega)
      · next r₁ he =>
        rw [he] at hone
        exact absurd hone.1 Bool.false_ne_true
    · exact ih fun n (hlo : r.driver.calls ≤ n) (hhi : n < r.driver.calls + _) => h n (by omega) (by omega)

/-! ### One step -/

/-- what a fresh slot finds once there is room -/
structure Roomy (r r₁ : VmmRings) : Prop where
  kept : Kept r r₁
  spare : r₁.spare.map Prod.fst = r.offered
  parked : r₁.parkedCount = r.stillParked
  missing : ∀ slot, r₁.missing (r₁.slotUnits slot) = r.wanted slot
  calls : ∀ slot, r.driver.calls ≤ r₁.driver.calls ∧
    r₁.driver.calls + 3 * (r₁.slotUnits slot).length ≤ r.driver.calls + r.slotCalls slot

theorem makeRoom_roomy (hr : r.Sound held) (hrec : r.recycle = true) (h : r.makeRoom ok = some r') :
    Roomy r r' := by
  rw [makeRoom_eq] at h
  unfold givenUp at h
  cases hg : r.givenUp with
  | none =>
    have hg' := hg
    unfold givenUp at hg'
    rw [hg'] at h
    cases h
    refine ⟨Kept.refl r, ?_, ?_, fun slot => ?_, fun slot => ⟨le_rfl, ?_⟩⟩
    · unfold offered
      rw [hg]
    · unfold stillParked
      rw [hg]
    · unfold missing wanted givenRefs
      rw [hg]
    · unfold slotCalls
      rw [hg]
      omega
  | some p =>
    have hg' := hg
    unfold givenUp at hg'
    rw [hg'] at h
    have hnil : r.spare = [] := by
      by_contra hne
      rw [if_neg hne] at hg'
      cases hg'
    have hp : r.parked p = true := by
      rw [if_pos hnil] at hg'
      exact lastParked_some hg'
    obtain ⟨r₁, h₁, hun⟩ := unpark_ok ok hr hp
    change r.unpark ok p = some r' at h
    rw [h₁] at h
    cases h
    have hs : p < r.batch := hr.slots.inBatch p (by rw [hp, Bool.or_true])
    refine ⟨hun.kept, ?_, ?_, fun slot => ?_, fun slot => ?_⟩
    · rw [hun.spare, hnil, hrec, if_pos rfl]
      unfold offered
      rw [hg]
      rfl
    · have := hun.count
      unfold stillParked
      rw [hg]
      dsimp only
      omega
    · -- the references that are left
      have hrefs : ∀ x, r.refs x = r'.refs x + (r.slotUnits p).count x := by
        intro x
        have hm : r.mapped p = false := by
          by_contra hm
          have := hr.slots.apart p (by simpa using hm)
          rw [hp] at this
          cases this
        have huse := @uses_add { r with parked := update r.parked p false } p r hs rfl rfl
          (by show (r.mapped p || update r.parked p false p) = false
              rw [hm, update_self]
              rfl)
          (by rw [hp, Bool.or_true])
          (fun s hne => by
            show _ = (r.mapped s || update r.parked p false s)
            rw [update_of_ne hne]) x
        rw [hr.units.refs x, hun.sound.units.refs x, hun.frame.uses, huse]
        show _ + (r.slotUnits p).count x + _ = _
        omega
      unfold missing wanted givenRefs
      rw [hg, hun.kept.slotUnits]
      rw [filter_congr fun x _ => by
        show decide (r'.refs x = 0) = decide (r.refs x = (r.slotUnits p).count x)
        rw [hrefs x]
        exact decide_eq_decide.mpr (by omega)]
      exact map_congr_left fun x _ => by rw [hun.frame.window]; rfl
    · have := releaseUnits_calls ok h₁
      unfold slotCalls
      rw [hg, hun.kept.slotUnits]
      show r.driver.calls ≤ _ ∧ _ ≤ r.driver.calls + (2 * (r.slotUnits p).length + _)
      have : r.driver.calls ≤ r'.driver.calls ∧
        r'.driver.calls ≤ r.driver.calls + 2 * (r.slotUnits p).length := this
      omega

theorem Retained.congr (hr : r.Retained) (hrec : r'.recycle = r.recycle) (hb : r'.bounded = r.bounded)
    (hcap : r'.spareCap = r.spareCap) (hm : r'.mapped = r.mapped) (hs : r'.spareBytes = r.spareBytes) :
    r'.Retained := by
  intro h
  rw [hrec] at h
  obtain ⟨h1, h2⟩ := hr h
  rw [hb, hcap, hm, hs]
  exact ⟨h1, h2⟩

theorem Retained.of_le (h : r.spareBytes ≤ r.spareCap) : r.Retained := fun _ => ⟨fun _ => h, fun _ _ => h⟩

theorem Slots.idle_iff (hr : r.Slots) : (∀ s, r.mapped s = false) ↔ r.mappedSlots = 0 := by
  rw [hr.count, countP_eq_zero]
  constructor
  · intro h s _
    rw [h s]
    exact Bool.false_ne_true
  · intro h s
    by_contra hm
    have hm : r.mapped s = true := by simpa using hm
    exact h s (mem_range.mpr (hr.inBatch s (by rw [hm]; rfl))) hm

theorem ensureSlot_retained (hr : r.Sound held) (hret : r.Retained)
    (hfit : r.recycle = true → slot < r.batch → r.mapped slot = false → r.parked slot = false →
      SlotFits ok r slot) (h : r.ensureSlot ok slot = some p) : p.1.Retained := by
  unfold ensureSlot at h
  split at h
  · cases h
    exact hret
  · next hs =>
    have hs : slot < r.batch := by omega
    split at h
    · cases h
      exact hret
    · next hm =>
      have hm : r.mapped slot = false := by simpa using hm
      split at h
      · next hp =>
        -- a parked slot less is kept
        cases h
        intro hrec
        have hcount : ({ r with parked := update r.parked slot false } : VmmRings).parkedCount + 1 =
          r.parkedCount := parkedCount_unpark hs hp
        refine ⟨fun hb => le_trans ?_ ((hret hrec).1 hb), fun _ hno => ?_⟩
        · show (r.spare.map Prod.fst).sum + _ * r.slotCharge ≤ (r.spare.map Prod.fst).sum + _
          exact Nat.add_le_add_left (Nat.mul_le_mul_right _ (by rw [← hcount]; exact Nat.le_succ _)) _
        · have := hno slot
          change update r.mapped slot true slot = false at this
          rw [update_self] at this
          cases this
      · next hp =>
        have hp : r.parked slot = false := by simpa using hp
        obtain ⟨r₁, q, hroom, hk, hq, hask⟩ := ensureFresh_ok ok hr hs hm hp
        rw [h] at hq
        cases hq
        intro hrec
        cases hb : p.2 with
        | true =>
          obtain ⟨hw, -, hcap, hrec', hbound, hpark, hpos, hspare⟩ := hask.done hb
          rw [hrec', hk.recycle] at hrec
          have hroomy := makeRoom_roomy ok hr hrec hroom
          refine ⟨fun hbd => ?_, fun _ hno => ?_⟩
          · rw [hbound, hk.bounded] at hbd
            have hcharge : p.1.slotCharge = r.slotCharge := by
              unfold slotCharge
              rw [hw, hk.windows]
            have hcount : p.1.parkedCount = r.stillParked := by
              rw [← hroomy.parked]
              unfold parkedCount
              rw [hpark, (hask.done hb).2.1]
            unfold spareBytes
            rw [hcharge, hcount, hspare.sum_eq, hroomy.spare, hroomy.missing, hcap, hk.spareCap]
            exact (hfit hrec hs hm hp).bounded hbd
          · have := hask.sound.slots.idle_iff.mp hno
            omega
        | false =>
          obtain ⟨hk', hle, hrest⟩ := hask.undone hb
          rw [hk'.recycle] at hrec
          refine ⟨fun hbd => hle (by rw [← hk'.bounded]; exact hbd), fun hbd hno => ?_⟩
          rw [hk'.bounded] at hbd
          obtain ⟨hcount, l₁, u, l₂, hl, hu, hspare⟩ := hrest hrec hbd
          rw [hk.recycle] at hrec
          have hroomy := makeRoom_roomy ok hr hrec hroom
          have hmap : ∀ s, r.mapped s = false := by
            intro s
            rw [← hk.mapped, ← hk'.mapped]
            exact hno s
          rw [hk.bounded] at hbd
          rcases (hfit hrec hs hm hp).refused hbd hmap with hall | hsplit
          · -- the driver takes every call
            have hcalls := hroomy.calls slot
            have := @ensureUnits_answered ok r₁ (r₁.slotUnits slot) []
              fun n hlo hhi => hall n (by omega) (by omega)
            rw [← hask.flag, hb] at this
            cases this
          · have hmiss : r.wanted slot = r₁.missing l₁ ++ (r₁.window u.1).mapBytes :: r₁.missing l₂ := by
              rw [← hroomy.missing, hl]
              unfold missing
              rw [filter_append, map_append, filter_cons_of_pos (by simpa using hu)]
              rfl
            have hone : r₁.missing (l₁ ++ [u]) = r₁.missing l₁ ++ [(r₁.window u.1).mapBytes] := by
              unfold missing
              rw [filter_append, map_append, filter_cons_of_pos (by simpa using hu)]
              rfl
            have hcharge : p.1.slotCharge = r.slotCharge := by
              rw [hk'.slotCharge, hk.slotCharge]
            unfold spareBytes
            rw [hcharge, hcount, hroomy.parked, hspare.sum_eq, hone, hroomy.spare, hk'.spareCap, hk.spareCap]
            exact hsplit _ _ _ hmiss

theorem ensureLoop_retained (rows n : ℕ) (hr : r.Sound held) (hret : r.Retained)
    (hfit : LoopFits ok rows n r) (h : r.ensureLoop ok rows n = some p) : p.1.Retained := by
  induction n generalizing r with
  | zero =>
    cases h
    exact hret
  | succ n ih =>
    unfold ensureLoop at h
    split at h
    · next hlt =>
      obtain ⟨hone, hrest⟩ := hfit hlt
      obtain ⟨⟨r₁, b⟩, h₁, hs₁, -⟩ := ensureSlot_ok ok r.mappedPrefix hr
      have hret₁ : r₁.Retained :=
        ensureSlot_retained ok hr hret (fun hrec _ _ hp => hone hrec hp) h₁
      rw [h₁] at h
      cases b with
      | true => exact ih hs₁ hret₁ (hrest r₁ h₁) h
      | false =>
        cases h
        exact hret₁
    · cases h
      exact hret

theorem releaseSlot_retained (hr : r.Sound held) (hret : r.Retained) (h : r.releaseSlot ok slot = some r') :
    r'.Retained := by
  obtain ⟨r₁, h₁, hd⟩ := releaseSlot_ok ok slot hr
  rw [h] at h₁
  cases h₁
  rcases hd.trimmed with rfl | htrim
  · exact hret
  · refine fun _ => ⟨fun hb => htrim (Or.inl (by rw [← hd.bounded]; exact hb)), fun _ hno => htrim (Or.inr ?_)⟩
    exact hd.sound.slots.idle_iff.mp hno

theorem trimTo_retained {cap : ℕ} (hr : r.Sound held) (hcap : cap ≤ r.spareCap)
    (h : r.trimTo ok cap = some p) : p.1.Retained := by
  obtain ⟨q, hq, -, -, -, -, hsame, hle⟩ := trimTo_ok ok cap hr
  rw [h] at hq
  cases hq
  refine Retained.of_le ?_
  rw [hsame]
  exact le_trans hle hcap

/-- A step that fits keeps the bound. -/
theorem step_retained {o : Op} (hr : r.Sound held) (hret : r.Retained)
    (hfit : r.StepFits ok o) (h : r.step ok o = some p) : p.1.Retained := by
  cases o with
  | enableHandleRecycling cap =>
    cases h
    refine fun _ => ⟨fun hb => ?_, fun _ hno => ?_⟩
    · exact hfit (Or.inl hb)
    · exact hfit (Or.inr hno)
  | enableBoundedPark cap =>
    cases h
    exact Retained.of_le hfit
  | setRetention recycle bounded cap =>
    obtain ⟨r', h', -, -, hle⟩ := trimSpare_ok ok (sound_setRetention hr recycle bounded cap)
    change (({ r with recycle, bounded, spareCap := cap } : VmmRings).trimSpare ok).map (·, true) = some p at h
    rw [h'] at h
    cases h
    exact Retained.of_le hle
  | setParkCap cap =>
    change (r.setParkCap ok cap).map (·, true) = some p at h
    unfold setParkCap at h
    split at h
    · obtain ⟨r', h', -, -, hle⟩ := trimSpare_ok ok (sound_setRetention hr r.recycle r.bounded cap)
      rw [h'] at h
      cases h
      exact Retained.of_le hle
    · cases h
      exact hret
  | ensureSlot slot => exact ensureSlot_retained ok hr hret hfit h
  | ensurePrefix rows =>
    change r.ensurePrefix ok rows = some p at h
    unfold ensurePrefix at h
    split at h
    · cases h
      exact hret
    · next hrows =>
      split at h
      · cases h
        exact hret
      · next hidle =>
        have hs : ({ r with launchRows := rows } : VmmRings).Sound held :=
          hr.congr ⟨rfl, rfl, rfl, rfl, rfl, rfl, rfl, rfl⟩ rfl rfl rfl rfl
        exact ensureLoop_retained ok rows _ hs (hret.congr rfl rfl rfl rfl rfl)
          (hfit (by omega) (by simpa using hidle)) h
  | releaseSlot slot =>
    obtain ⟨r', h', rfl⟩ := map_eq_some_iff.mp h
    exact releaseSlot_retained ok hr hret h'
  | releaseIdle slot =>
    obtain ⟨r', h', rfl⟩ := map_eq_some_iff.mp h
    unfold releaseIdle at h'
    split at h'
    · exact releaseSlot_retained ok hr hret h'
    · cases h'
      exact hret
  | releaseParked =>
    change r.releaseParked ok = some p at h
    unfold releaseParked at h
    split at h
    · exact trimTo_retained ok hr (Nat.zero_le _) h
    · cases h
      exact hret
  | releaseParkedUpto maxSlots =>
    change r.releaseParkedUpto ok maxSlots = some p at h
    unfold releaseParkedUpto at h
    split at h
    · exact trimTo_retained ok hr (min_le_right _ _) h
    · cases h
      exact hret

end VmmRings

/-! ### Runs -/

/-- In every run whose steps fit, what is kept of released slots stays within its bound. -/
theorem retained_of_fits {ok : ℕ → Bool} {r : VmmRings} (h : Fitting ok r) : r.Retained := by
  induction h with
  | new h => exact fun hrec => absurd hrec (by rw [(VmmRings.new_fresh h).recycle]; exact Bool.false_ne_true)
  | idleBacked h hb =>
    obtain ⟨held, -, hbuild⟩ := VmmRings.idleBacked_ok ok (VmmRings.new_fresh h)
    rw [hb] at hbuild
    exact fun hrec => absurd hrec (by rw [(hbuild rfl).recycle]; exact Bool.false_ne_true)
  | step h hf hs ih =>
    obtain ⟨held, hr, -⟩ := h.reach.sound
    exact VmmRings.step_retained ok hr ih hf hs

/-- Bounded rings park a slot and map it again. -/
theorem retained_of_fits_parked : ∃ r, Fitting (fun _ => true) r ∧ r.parked 1 = true ∧ r.Retained := by
  have h₀ : Fitting (fun _ => true) _ := @Fitting.new _ (some 16) (fun _ => some 64) [⟨0, 10⟩] 3 _ rfl
  have h₁ : Fitting (fun _ => true) _ := @Fitting.step _ _ _ (.enableBoundedPark 10) _ h₀
    (show VmmRings.spareBytes _ ≤ 10 by decide) rfl
  have h₂ : Fitting (fun _ => true) _ := @Fitting.step _ _ _ (.ensureSlot 1) _ h₁
    (fun _ _ _ _ => ⟨fun _ => by decide, nofun⟩) rfl
  have h₃ : Fitting (fun _ => true) _ := @Fitting.step _ _ _ (.releaseSlot 1) _ h₂ trivial rfl
  exact ⟨_, h₃, rfl, retained_of_fits h₃⟩

/-- The first slot needs one of the two units of the parked one, and both stay: sixteen bytes spare where
ten may be kept. -/
theorem retained_exceeded : ¬ ∀ r, Reach (fun _ => true) r → r.Retained := by
  intro hall
  have h₀ : Reach (fun _ => true) _ := @Reach.new _ (some 16) (fun _ => some 64) [⟨0, 10⟩] 3 _ rfl
  have h₁ : Reach (fun _ => true) _ := @Reach.step _ _ _ (.enableBoundedPark 10) _ h₀ rfl
  have h₂ : Reach (fun _ => true) _ := @Reach.step _ _ _ (.ensureSlot 1) _ h₁ rfl
  have h₃ : Reach (fun _ => true) _ := @Reach.step _ _ _ (.releaseSlot 1) _ h₂ rfl
  have h₄ : Reach (fun _ => true) _ := @Reach.step _ _ _ (.ensureSlot 0) _ h₃ rfl
  exact absurd ((hall _ h₄ rfl).1 rfl) (by decide)

end Plow.Rings
