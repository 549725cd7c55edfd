import Plow.Sched.Slo

/-!
# The target is kept

A tick whose chunks fit is at the target (`Filled`), and a tick of decodes alone costs what they cost.
Skipped ticks are counted, so the progress rule waits for at most `maxSkipTicks` ticks, and the ticks that
it has waited pay for its chunk as long as the smallest chunk is paid by so many and the decodes do not get
cheaper meanwhile (`window_mean`).
-/

namespace Plow.Sched

open List

open Plow.TokenBatch (PrefillSpan)

namespace TickClass

variable {a b c d : TickClass}

theorem rank_max (a b : TickClass) : (a.max b).rank = Max.max a.rank b.rank := by
  unfold max
  split <;> omega

theorem max_mono (h : a.rank ≤ c.rank) (h' : b.rank ≤ d.rank) : (a.max b).rank ≤ (c.max d).rank := by
  rw [rank_max, rank_max]
  omega

end TickClass

theorem SloCandidate.tickClass_mono (c : SloCandidate) {r m : ℕ} (h : r ≤ m) :
    (c.tickClass r).rank ≤ (c.tickClass m).rank := by
  unfold SloCandidate.tickClass
  split
  · exact le_rfl
  · split
    · next hr => rw [if_pos (hr.trans h)]
    · exact Nat.zero_le _

theorem Ladder.granule_pos (l : Ladder) : 0 < l.granule := by
  unfold Ladder.granule
  cases l.rungs.head? with
  | none => exact one_pos
  | some r => exact lt_of_lt_of_le one_pos (le_max_right _ _)

theorem rows_sloLaunch (c : SloCandidate) (rows : ℕ) : (sloLaunch c rows).rows = rows := rfl

namespace SloTick

variable {i : SloTick} {c : SloCandidate} {cs : List SloCandidate} {d : Draft} {b target : ℚ} {m n r skipped : ℕ}

/-! ### The chunk that fits -/

theorem withinLoop_spec (h : i.withinLoop c b n = some r) :
    0 < r ∧ r ≤ n * i.ladder.granule ∧ i.launchCost c r ≤ b := by
  induction n with
  | zero => cases h
  | succ n ih =>
    unfold withinLoop at h
    split at h
    · next hfit =>
      cases h
      exact ⟨mul_pos (Nat.succ_pos n) i.ladder.granule_pos, le_rfl, hfit⟩
    · obtain ⟨h1, h2, h3⟩ := ih h
      exact ⟨h1, h2.trans (Nat.mul_le_mul_right _ (Nat.le_succ n)), h3⟩

theorem rowsWithin_spec (h : i.rowsWithin c m b = some r) : 0 < r ∧ r ≤ m ∧ i.launchCost c r ≤ b := by
  unfold rowsWithin at h
  split at h
  · cases h
  · next hm =>
    split at h
    · next hfit =>
      cases h
      exact ⟨pos_of_ne_zero hm, le_rfl, hfit⟩
    · obtain ⟨h1, h2, h3⟩ := withinLoop_spec h
      have hle := Nat.div_mul_le_self (m - 1) i.ladder.granule
      exact ⟨h1, by omega, h3⟩

theorem rowsFor_spec (h : i.rowsFor d c = some r) : 0 < r ∧ r ≤ d.leftRows ∧
    ∀ target, i.bound = some target → ∃ cls, (d.tickClass.max (c.tickClass r)).rank ≤ cls.rank ∧
      i.launchCost c r ≤ i.room target cls d.spentMs := by
  unfold rowsFor at h
  dsimp only at h
  split at h
  · next t ht =>
    obtain ⟨h1, h2, h3⟩ := rowsWithin_spec h
    refine ⟨h1, h2.trans (min_le_right _ _), fun t' ht' => ?_⟩
    cases ht.symm.trans ht'
    exact ⟨_, TickClass.max_mono le_rfl (c.tickClass_mono h2), h3⟩
  · next hnone =>
    split at h
    · next hrows =>
      cases h
      refine ⟨hrows.2, hrows.1, fun t' ht' => ?_⟩
      rw [hnone] at ht'
      cases ht'
    · cases h

/-! ### The launches of a tick -/

/-- The rows add up to the budget, and what is launched fits the target. -/
structure Filled (i : SloTick) (d : Draft) : Prop where
  budget : (d.launches.map Launch.rows).sum + d.leftRows = i.fullBudget
  idle : d.launches = [] → d.spentMs = 0
  cost : d.launches ≠ [] → ∀ target, i.bound = some target → ∃ cls, d.tickClass.rank ≤ cls.rank ∧
    d.spentMs + i.fixedMs true ≤ target / i.cost.margin cls

theorem Filled.addLaunch (h : Filled i d) (hr : i.rowsFor d c = some r) : Filled i (i.addLaunch d c r) := by
  obtain ⟨-, hle, hcost⟩ := rowsFor_spec hr
  refine ⟨?_, fun hnil => ?_, fun _ target ht => ?_⟩
  · have hb := h.budget
    unfold SloTick.addLaunch
    rw [map_append, sum_append, map_singleton, sum_singleton, rows_sloLaunch]
    dsimp only
    omega
  · exact absurd (append_eq_nil_iff.mp hnil).2 (cons_ne_nil _ _)
  · obtain ⟨cls, hcls, hroom⟩ := hcost target ht
    refine ⟨cls, hcls, ?_⟩
    unfold room at hroom
    unfold SloTick.addLaunch
    dsimp only
    linarith

theorem fillLoop_filled (h : Filled i d) (cs : List SloCandidate) : Filled i (i.fillLoop cs d) := by
  induction cs generalizing d with
  | nil => exact h
  | cons c cs ih =>
    unfold fillLoop
    split
    · exact h
    · split
      · exact ih h
      · next r hr => exact ih (h.addLaunch hr)

theorem fill_filled (i : SloTick) : Filled i i.fill :=
  fillLoop_filled ⟨zero_add _, fun _ => rfl, fun h => absurd rfl h⟩ i.order

theorem fillLoop_slots (cs : List SloCandidate) (d : Draft) : ∃ cs' : List SloCandidate, cs'.Sublist cs ∧
    slotsOf (i.fillLoop cs d).launches = slotsOf d.launches ++ cs'.map (·.base.span.slot) := by
  induction cs generalizing d with
  | nil => exact ⟨[], .refl _, (append_nil _).symm⟩
  | cons c cs ih =>
    unfold fillLoop
    split
    · exact ⟨[], nil_sublist _, (append_nil _).symm⟩
    · split
      · obtain ⟨cs', hsub, hslots⟩ := ih d
        exact ⟨cs', hsub.cons c, hslots⟩
      · next r hr =>
        obtain ⟨cs', hsub, hslots⟩ := ih (i.addLaunch d c r)
        refine ⟨c :: cs', hsub.cons_cons c, ?_⟩
        rw [hslots]
        unfold SloTick.addLaunch slotsOf
        rw [flatMap_append, append_assoc]
        rfl

theorem fillLoop_more (cs : List SloCandidate) (d : Draft) (h : d.launches ≠ []) : (i.fillLoop cs d).launches ≠ [] := by
  induction cs generalizing d with
  | nil => exact h
  | cons c cs ih =>
    unfold fillLoop
    split
    · exact h
    · split
      · exact ih d h
      · refine ih _ fun hnil => ?_
        exact absurd (append_eq_nil_iff.mp hnil).2 (cons_ne_nil _ _)

/-- The progress rule runs a chunk of the first candidate. -/
structure Progressed (i : SloTick) (skipped : ℕ) (target : ℚ) (c : SloCandidate) : Prop where
  bound : i.bound = some target
  first : i.order.head? = some c
  due : i.progressOf target c ≤ skipped + 1
  drafted : i.drafted skipped = (⟨[sloLaunch c (i.progressRows target c)], c.tickClass (i.progressRows target c),
    i.fill.leftRows, i.launchCost c (i.progressRows target c)⟩, true, i.progressOf target c)

theorem drafted_cases (i : SloTick) (skipped : ℕ) : (∃ target c, Progressed i skipped target c) ∨
      (i.drafted skipped).1 = i.fill ∧ (i.drafted skipped).2.1 = false ∧
        ∀ target c, i.bound = some target → i.fill.launches = [] → i.order.head? = some c →
          skipped + 1 < i.progressOf target c := by
  unfold drafted
  split
  · next target c cs hb hl ho =>
    dsimp only
    split
    · next hdue =>
      refine .inl ⟨target, c, hb, by rw [ho]; rfl, hdue, ?_⟩
      unfold drafted
      rw [hb, hl, ho]
      exact if_pos hdue
    · next hnot =>
      refine .inr ⟨rfl, rfl, fun t c' hb' _ ho' => ?_⟩
      cases hb.symm.trans hb'
      rw [ho] at ho'
      cases ho'
      exact Nat.lt_of_not_le hnot
  · next hno =>
    refine .inr ⟨rfl, rfl, fun t c hb hl ho => ?_⟩
    obtain ⟨cs, hcs⟩ := head?_eq_some_iff.mp ho
    exact absurd hcs (hno t c cs hb hl)

theorem progressRows_spec (i : SloTick) (target : ℚ) (c : SloCandidate) :
    i.progressRows target c ≤ max (c.maxRows i.fullBudget) 1 ∧ i.launchCost c (i.progressRows target c) ≤
      max (i.progressOf target c * i.slack target c) (i.launchCost c (i.minRows c)) := by
  unfold progressRows
  cases hr : i.rowsWithin c (c.maxRows i.fullBudget)
      (max (i.progressOf target c * i.slack target c) (i.launchCost c (i.minRows c))) with
  | none =>
    refine ⟨?_, le_max_right _ _⟩
    show max (min i.ladder.granule (c.maxRows i.fullBudget)) 1 ≤ _
    exact max_le_max (min_le_right _ _) le_rfl
  | some r =>
    obtain ⟨-, hle, hcost⟩ := rowsWithin_spec hr
    exact ⟨hle.trans (le_max_left _ _), hcost⟩

/-! ### One tick -/

def Schedulable (i : SloTick) : Prop :=
  ∃ c ∈ i.candidates, 0 < c.base.span.nRows ∧ c.base.span.slot < i.tick.slots ∧ 0 < c.maxRows i.fullBudget

/-- The plan of a tick: a slot runs once, the rows fit the budget, and without the progress rule the
prediction is at the target, or the tick decodes alone. -/
structure TickSound (i : SloTick) (r : Plan × SloOutcome × ℕ) : Prop where
  decodes : r.1.decodes = i.decodes
  slots : (i.candidates.map (·.base.span.slot)).Nodup → (∀ c ∈ i.candidates, Waiting c.base) →
    r.1.slotsAdvanced.Nodup
  rows : (∀ c ∈ i.candidates, Waiting c.base) → 0 < i.fullBudget → r.1.prefillRows ≤ i.fullBudget
  target : r.2.1.progress = false → ∀ target, i.bound = some target →
    if r.1.launches = [] then r.2.1.predictedMs = i.fixedMs false
    else ∃ cls, r.2.1.tickClass.rank ≤ cls.rank ∧ r.2.1.predictedMs ≤ target / i.cost.margin cls

theorem bound_active (h : i.bound = some target) : i.targets.active = true := by
  unfold bound at h
  split at h
  · cases h
  · unfold Targets.active
    rw [h]
    rfl

theorem mem_order : c ∈ i.order ↔ c ∈ i.candidates ∧ 0 < c.base.span.nRows ∧ c.base.span.slot < i.tick.slots := by
  unfold order
  rw [mem_insertionSort, mem_filter, Bool.and_eq_true, decide_eq_true_iff, decide_eq_true_iff]

theorem order_slots (h : (i.candidates.map (·.base.span.slot)).Nodup) : (i.order.map (·.base.span.slot)).Nodup := by
  unfold order
  exact (((perm_insertionSort _ _).map _).nodup_iff).mpr (h.sublist (filter_sublist.map _))

theorem plan_inactive (hw : ∀ c ∈ i.candidates, Waiting c.base) :
    (i.env.plan i.decodes).slotsAdvanced.Nodup ∧ (i.env.plan i.decodes).prefillRows ≤ i.fullBudget := by
  have hw' : ∀ c ∈ i.env.candidates, Waiting c := fun c hc => by
    obtain ⟨c', hc', rfl⟩ := mem_map.mp hc
    exact hw c' hc'
  obtain ⟨hi, -⟩ := planLoop_inv hw' (budget_le i.env i.decodes) (i.env.budget i.decodes)
    (inv_init i.env (i.env.budget i.decodes)) (Nat.zero_le _)
  refine ⟨hi.slots, ?_⟩
  have hb := hi.budget
  have hle : i.env.budget i.decodes ≤ i.fullBudget := by
    unfold Env.budget
    cases i.env.backend.decodeRowsJoinPrefill with
    | true => exact Nat.sub_le _ _
    | false => exact le_rfl
  show ((i.env.planLoop _ _ _).launches.map Launch.rows).sum ≤ _
  omega

theorem planTick_active (h : i.targets.active = true) (skipped : ℕ) :
    (i.planTick skipped).1.launches = (i.drafted skipped).1.launches ∧
      (i.planTick skipped).2.1.progress = (i.drafted skipped).2.1 ∧
      (i.planTick skipped).2.1.tickClass = (i.drafted skipped).1.tickClass ∧
      (i.planTick skipped).2.1.predictedMs =
        (i.drafted skipped).1.spentMs + i.fixedMs ((i.drafted skipped).1.launches ≠ []) ∧
      (i.planTick skipped).2.2 = if (i.drafted skipped).1.launches = [] ∧ i.bound.isSome ∧ i.candidates ≠ [] then
        skipped + 1 else 0 := by
  unfold planTick
  rw [if_pos h]
  exact ⟨rfl, rfl, rfl, rfl, rfl⟩

theorem tick_sound (i : SloTick) (skipped : ℕ) : TickSound i (i.planTick skipped) := by
  by_cases ha : i.targets.active = true
  swap
  · unfold planTick
    rw [if_neg ha]
    refine ⟨rfl, fun _ hw => (plan_inactive hw).1, fun hw _ => (plan_inactive hw).2, fun _ target hb => ?_⟩
    exact absurd (bound_active hb) ha
  obtain ⟨hl, hp, hc, hm, -⟩ := planTick_active ha skipped
  have hslots : (i.planTick skipped).1.slotsAdvanced = slotsOf (i.drafted skipped).1.launches := by
    unfold Plan.slotsAdvanced
    rw [hl]
  have hrows : (i.planTick skipped).1.prefillRows = ((i.drafted skipped).1.launches.map Launch.rows).sum := by
    unfold Plan.prefillRows
    rw [hl]
  refine ⟨by unfold planTick; rw [if_pos ha], fun hnd _ => ?_, fun _ hpos => ?_, fun hno target hb => ?_⟩
  · rw [hslots]
    rcases drafted_cases i skipped with ⟨target, c, h⟩ | ⟨hfill, -, -⟩
    · rw [h.drafted]
      exact nodup_singleton _
    · rw [hfill]
      obtain ⟨cs', hsub, heq⟩ := fillLoop_slots (i := i) i.order ⟨[], .plain, i.fullBudget, 0⟩
      unfold fill
      rw [heq]
      exact (order_slots hnd).sublist (hsub.map _)
  · rw [hrows]
    rcases drafted_cases i skipped with ⟨target, c, h⟩ | ⟨hfill, -, -⟩
    · rw [h.drafted]
      have hle := (progressRows_spec i target c).1
      have hmax : c.maxRows i.fullBudget ≤ i.fullBudget := min_le_right _ _
      show i.progressRows target c + 0 ≤ i.fullBudget
      omega
    · rw [hfill]
      have := (fill_filled i).budget
      omega
  · rw [hp] at hno
    rcases drafted_cases i skipped with ⟨t, c, h⟩ | ⟨hfill, -, -⟩
    · rw [h.drafted] at hno
      cases hno
    · rw [hl, hm, hc, hfill]
      split
      · next hnil => simp [hnil, (fill_filled i).idle hnil]
      · next hne =>
        rw [decide_eq_true hne]
        exact (fill_filled i).cost hne target hb

/-! ### Skipped ticks -/

/-- a tick of decodes alone, while a request could run, adds to the count, and it comes before the limit -/
theorem skip_step (ha : i.targets.active = true) (hs : Schedulable i)
    (hl : (i.planTick skipped).1.launches = []) :
    (i.planTick skipped).2.2 = skipped + 1 ∧ skipped + 1 < maxSkipTicks := by
  obtain ⟨c, hc, hn, hslot, hmax⟩ := hs
  have hmem : c ∈ i.order := mem_order.mpr ⟨hc, hn, hslot⟩
  rw [(planTick_active ha skipped).1] at hl
  rcases drafted_cases i skipped with ⟨t, c', h⟩ | ⟨hfill, -, hlate⟩
  · rw [h.drafted] at hl
    cases hl
  rw [hfill] at hl
  -- without a target the first candidate with rows would run
  have hbound : i.bound.isSome = true := by
    by_contra hnone
    have hnone : i.bound = none := by simpa using hnone
    have hrun : ∀ (cs : List SloCandidate) (d : Draft), d.leftRows = i.fullBudget → c ∈ cs →
        (i.fillLoop cs d).launches ≠ [] := by
      intro cs d hd hmem
      induction cs with
      | nil => cases hmem
      | cons x cs ih =>
        have hleft : d.leftRows ≠ 0 := by
          have : c.maxRows i.fullBudget ≤ i.fullBudget := min_le_right _ _
          omega
        unfold fillLoop
        rw [if_neg hleft]
        split
        · next hx =>
          rcases mem_cons.mp hmem with rfl | hmem
          · unfold rowsFor at hx
            rw [hnone] at hx
            dsimp only at hx
            rw [if_pos ⟨hd ▸ min_le_right _ _, hmax⟩] at hx
            cases hx
          · exact ih hmem
        · refine fillLoop_more _ _ fun hnil => ?_
          exact absurd (append_eq_nil_iff.mp hnil).2 (cons_ne_nil _ _)
    exact hrun i.order _ rfl hmem hl
  obtain ⟨target, hb⟩ := Option.isSome_iff_exists.mp hbound
  constructor
  · rw [(planTick_active ha skipped).2.2.2.2, hfill]
    refine if_pos ⟨hl, hbound, fun hnil => ?_⟩
    rw [hnil] at hc
    cases hc
  · cases ho : i.order with
    | nil =>
      rw [ho] at hmem
      cases hmem
    | cons x xs =>
      have hlt := hlate target x hb hl (by rw [ho]; rfl)
      have hk : i.progressOf target x ≤ maxSkipTicks := by
        unfold progressOf progressK
        split
        · exact le_rfl
        · exact min_le_right _ _
      omega

end SloTick

/-! ### Runs -/

/-- the ticks of a run with their plans and outcomes, and the count behind them -/
def runTicks : ℕ → List SloTick → List (SloTick × Plan × SloOutcome) × ℕ
  | skipped, [] => ([], skipped)
  | skipped, i :: is =>
    ((i, (i.planTick skipped).1, (i.planTick skipped).2.1) :: (runTicks (i.planTick skipped).2.2 is).1,
      (runTicks (i.planTick skipped).2.2 is).2)

theorem run_skips (s : ℕ) (is : List SloTick) (ha : ∀ i ∈ is, i.targets.active = true)
    (h : ∀ e ∈ (runTicks s is).1, e.2.1.launches = [] ∧ SloTick.Schedulable e.1) :
    is = [] ∨ s + is.length < maxSkipTicks := by
  induction is generalizing s with
  | nil => exact .inl rfl
  | cons i is ih =>
    refine .inr ?_
    obtain ⟨hl, hs⟩ := h _ mem_cons_self
    obtain ⟨hnext, hlt⟩ := SloTick.skip_step (ha i mem_cons_self) hs hl
    have hrest := ih (i.planTick s).2.2 (fun j hj => ha j (mem_cons_of_mem _ hj)) fun e he =>
      h e (mem_cons_of_mem _ he)
    rw [hnext] at hrest
    rw [length_cons]
    rcases hrest with rfl | hrest
    · exact hlt
    · omega

theorem runTicks_append (s : ℕ) (a b : List SloTick) :
    (runTicks s (a ++ b)).1 = (runTicks s a).1 ++ (runTicks (runTicks s a).2 b).1 := by
  induction a generalizing s with
  | nil => rfl
  | cons i a ih =>
    show (i, _, _) :: (runTicks (i.planTick s).2.2 (a ++ b)).1 = _
    rw [ih]
    rfl

/-! ### Between two chunks of the progress rule -/

namespace SloTick

variable {i : SloTick} {target U : ℚ} {skipped : ℕ}

/-- decodes are bound by a target, and `U` is at least what the margins leave of it -/
def Bounded (U : ℚ) (i : SloTick) : Prop := ∃ target, i.bound = some target ∧ ∀ cls, target / i.cost.margin cls ≤ U

def Pays (i : SloTick) : Prop :=
  ∀ target c, i.bound = some target → i.order.head? = some c →
    0 < i.slack target c ∧ i.launchCost c (i.minRows c) ≤ maxSkipTicks * i.slack target c

theorem progressK_pays {pMin slack : ℚ} (hs : 0 < slack) (h : pMin ≤ maxSkipTicks * slack) :
    pMin ≤ progressK pMin slack * slack := by
  unfold progressK
  rw [if_neg (not_le.mpr hs)]
  rcases le_total (max ⌈pMin / slack⌉ 1).toNat maxSkipTicks with hle | hle
  · rw [min_eq_left hle]
    have hceil : pMin / slack ≤ ⌈pMin / slack⌉ := Int.le_ceil _
    have hnat : (⌈pMin / slack⌉ : ℚ) ≤ ((max ⌈pMin / slack⌉ 1).toNat : ℚ) := by
      have hint : ⌈pMin / slack⌉ ≤ ((max ⌈pMin / slack⌉ 1).toNat : ℤ) := by omega
      exact_mod_cast hint
    exact (div_le_iff₀ hs).mp (hceil.trans hnat)
  · rw [min_eq_right hle]
    exact h

/-- the rule's tick costs its decodes and the slack of `K` ticks -/
theorem progress_cost (hp : (i.planTick skipped).2.1.progress = true) (hb : i.Bounded U) (hpay : i.Pays) :
    (i.planTick skipped).2.2 = 0 ∧ i.fixedMs true ≤ U ∧
      (i.planTick skipped).2.1.predictedMs ≤ (skipped + 1) * (U - i.fixedMs true) + i.fixedMs true := by
  obtain ⟨t, hbt, hU⟩ := hb
  have ha := bound_active hbt
  obtain ⟨-, hprog, -, hcost, hskip⟩ := planTick_active ha skipped
  rcases drafted_cases i skipped with ⟨target, c, h⟩ | ⟨-, hno, -⟩
  swap
  · rw [hprog, hno] at hp
    cases hp
  obtain ⟨hpos, hmin⟩ := hpay target c h.bound h.first
  cases hbt.symm.trans h.bound
  have hslack : i.slack t c ≤ U - i.fixedMs true := by
    have := hU (c.tickClass (i.minRows c))
    unfold slack room
    linarith
  have hk : (i.progressOf t c : ℚ) * i.slack t c ≤ (skipped + 1) * (U - i.fixedMs true) := by
    have hdue : (i.progressOf t c : ℚ) ≤ skipped + 1 := by exact_mod_cast h.due
    exact mul_le_mul hdue hslack hpos.le (by positivity)
  have hpaid : i.launchCost c (i.minRows c) ≤ i.progressOf t c * i.slack t c := progressK_pays hpos hmin
  have hchunk := (progressRows_spec i t c).2
  rw [max_eq_left hpaid] at hchunk
  rw [hcost, hskip, h.drafted]
  have hnot : ¬ ([sloLaunch c (i.progressRows t c)] = [] ∧ i.bound.isSome = true ∧ i.candidates ≠ []) := fun hnil =>
    absurd hnil.1 (cons_ne_nil _ _)
  refine ⟨if_neg hnot, by linarith, ?_⟩
  rw [decide_eq_true (cons_ne_nil _ _)]
  show i.launchCost c (i.progressRows t c) + i.fixedMs true ≤ _
  linarith

theorem quiet_cost {F U : ℚ} (hno : (i.planTick skipped).2.1.progress = false) (hb : i.Bounded U)
    (hcheap : (i.planTick skipped).1.launches = [] → i.fixedMs false ≤ F) :
    (i.planTick skipped).2.2 ≤ skipped + 1 ∧ (i.planTick skipped).2.1.predictedMs ≤ F ∨
      (i.planTick skipped).2.2 ≤ skipped ∧ (i.planTick skipped).2.1.predictedMs ≤ U := by
  obtain ⟨t, hbt, hU⟩ := hb
  have ha := bound_active hbt
  have htarget := (tick_sound i skipped).target hno t hbt
  obtain ⟨hl, -, -, -, hskip⟩ := planTick_active ha skipped
  split at htarget
  · next hnil =>
    refine .inl ⟨?_, htarget.le.trans (hcheap hnil)⟩
    rw [hskip]
    split <;> omega
  · next hne =>
    obtain ⟨cls, -, hle⟩ := htarget
    refine .inr ⟨?_, hle.trans (hU cls)⟩
    rw [hskip, ← hl, if_neg fun h => hne h.1]
    exact Nat.zero_le _

end SloTick

theorem run_cost {F U : ℚ} (s : ℕ) (w : List SloTick) (hb : ∀ i ∈ w, i.Bounded U)
    (hno : ∀ e ∈ (runTicks s w).1, e.2.2.progress = false)
    (hcheap : ∀ e ∈ (runTicks s w).1, e.2.1.launches = [] → e.1.fixedMs false ≤ F) :
    ∃ d ≤ w.length, (runTicks s w).2 ≤ s + d ∧
      ((runTicks s w).1.map (·.2.2.predictedMs)).sum ≤ d * F + (w.length - d) * U := by
  induction w generalizing s with
  | nil => exact ⟨0, le_rfl, le_rfl, by simp [runTicks]⟩
  | cons i w ih =>
    obtain ⟨d, hd, hskip, hsum⟩ := ih (i.planTick s).2.2 (fun j hj => hb j (mem_cons_of_mem _ hj))
      (fun e he => hno e (mem_cons_of_mem _ he)) fun e he => hcheap e (mem_cons_of_mem _ he)
    unfold runTicks
    dsimp only
    rw [map_cons, sum_cons, length_cons, Nat.cast_succ]
    rcases SloTick.quiet_cost (hno _ mem_cons_self) (hb i mem_cons_self)
        (hcheap _ mem_cons_self) with ⟨hs, hcost⟩ | ⟨hs, hcost⟩
    · refine ⟨d + 1, by omega, by omega, ?_⟩
      rw [Nat.cast_succ]
      dsimp only
      linarith
    · refine ⟨d, by omega, by omega, ?_⟩
      dsimp only
      linarith

/-- Two chunks of the progress rule, and the ticks between them: all bound by the target, the decodes of
the skipped ones no dearer than the last tick's, and the last chunk paid for. -/
structure Window (U : ℚ) (s : ℕ) (q : SloTick) (w : List SloTick) (p : SloTick) : Prop where
  first : (q.planTick s).2.1.progress = true
  last : (p.planTick (runTicks (q.planTick s).2.2 w).2).2.1.progress = true
  between : ∀ e ∈ (runTicks (q.planTick s).2.2 w).1, e.2.2.progress = false
  target : ∀ i ∈ w ++ [p], i.Bounded U
  cheap : ∀ e ∈ (runTicks (q.planTick s).2.2 w).1, e.2.1.launches = [] → e.1.fixedMs false ≤ p.fixedMs true
  pays : p.Pays

theorem progress_resets {q : SloTick} {s : ℕ} (h : (q.planTick s).2.1.progress = true) : (q.planTick s).2.2 = 0 := by
  by_cases ha : q.targets.active = true
  · obtain ⟨-, hprog, -, -, hskip⟩ := SloTick.planTick_active ha s
    rcases SloTick.drafted_cases q s with ⟨target, c, hd⟩ | ⟨-, hno, -⟩
    · rw [hskip, hd.drafted]
      exact if_neg fun hnil => by cases hnil.1
    · rw [hprog, hno] at h
      cases h
  · unfold SloTick.planTick at h
    rw [if_neg ha] at h
    cases h

theorem window_mean {U : ℚ} {s : ℕ} {q p : SloTick} {w : List SloTick} (h : Window U s q w p) :
    ((runTicks (q.planTick s).2.2 (w ++ [p])).1.map (·.2.2.predictedMs)).sum / (w.length + 1) ≤ U := by
  obtain ⟨-, hF, hlast⟩ := SloTick.progress_cost h.last
    (h.target p (mem_append_right _ mem_cons_self)) h.pays
  obtain ⟨d, hd, hskip, hsum⟩ := run_cost (q.planTick s).2.2 w
    (fun i hi => h.target i (mem_append_left _ hi)) h.between h.cheap
  rw [progress_resets h.first, zero_add] at hskip
  have hlen : (0 : ℚ) < w.length + 1 := by positivity
  have hcount : ((runTicks (q.planTick s).2.2 w).2 : ℚ) + 1 ≤ d + 1 := by
    have : ((runTicks (q.planTick s).2.2 w).2 : ℚ) ≤ d := by
      rw [progress_resets h.first]
      exact_mod_cast hskip
    linarith
  have hslack := mul_le_mul_of_nonneg_right hcount (sub_nonneg.mpr hF)
  rw [runTicks_append, map_append, sum_append, div_le_iff₀ hlen]
  show _ + ((p.planTick (runTicks (q.planTick s).2.2 w).2).2.1.predictedMs + 0) ≤ _
  linarith

/-- The planner under latency targets: every tick is sound; requests that could run wait for less than
`maxSkipTicks` ticks of decodes alone; and between two chunks of the progress rule the mean prediction is
at the target. -/
theorem slo_planner (U : ℚ) (s : ℕ) (q p : SloTick) (w : List SloTick) :
    (∀ i : SloTick, SloTick.TickSound i (i.planTick s)) ∧ ((∀ i ∈ w, i.targets.active = true) →
      (∀ e ∈ (runTicks s w).1, e.2.1.launches = [] ∧ SloTick.Schedulable e.1) → w.length ≤ maxSkipTicks - 1) ∧
    (Window U s q w p →
      ((runTicks (q.planTick s).2.2 (w ++ [p])).1.map (·.2.2.predictedMs)).sum / (w.length + 1) ≤ U) := by
  refine ⟨fun i => SloTick.tick_sound i s, fun ha h => ?_, window_mean⟩
  rcases run_skips s w ha h with rfl | hlt
  · exact Nat.zero_le _
  · omega

/-- one decode and a prompt of 60 rows in chunks of 4, rungs of 3 rows; a row costs 10 ms and the
decode pass what is given for its rows -/
def deepTick (decodes : List ℕ) (decodeMs : ℕ → ℚ) : SloTick where
  targets := ⟨some 100, none⟩
  backend := ⟨8, true, false, false, none, eight_le_u32Max⟩
  tick := ⟨u32Max, true, false, 0, 4⟩
  decodes := decodes
  candidates := [⟨⟨⟨0, 4, 0, 0, 0, 4, 0, 0⟩, 1, false, true⟩, 0, 60, 0⟩]
  ladder := ⟨[(3, false), (8, true)], none, none⟩
  cost := ⟨fun _ rows _ _ => 10 * rows, fun rows _ => decodeMs rows, 0, fun _ => 1⟩
  programRows := fun _ => none
  programSpanLimit := fun _ => u32Max

def steadyTick : SloTick := deepTick [2] fun _ => 80

theorem slo_planner_sample : ((runTicks (steadyTick.planTick 1).2.2 [steadyTick, steadyTick]).1.map
    (·.2.2.predictedMs)).sum / ((1 : ℕ) + 1) ≤ 100 := by
  refine (slo_planner 100 1 steadyTick steadyTick [steadyTick]).2.2 ?_
  have hbounded : steadyTick.Bounded 100 := ⟨100, rfl, fun _ => by
    show (100 : ℚ) / 1 ≤ 100
    norm_num⟩
  refine ⟨by decide +kernel, by decide +kernel, fun e he => ?_, fun i hi => ?_, fun e he _ => ?_, fun t c hb hc => ?_⟩
  · obtain rfl := mem_singleton.mp he
    decide +kernel
  · obtain rfl | hi := mem_cons.mp hi
    · exact hbounded
    · obtain rfl := mem_singleton.mp hi
      exact hbounded
  · obtain rfl := mem_singleton.mp he
    exact le_rfl
  · cases hb
    cases hc
    decide +kernel

/-- The chunks and the decode passes cost no less for more rows, or behind a launch. -/
structure CostModel.Rising (c : CostModel) : Prop where
  launch : ∀ bucket prior fresh, Monotone fun rows => c.launchMs bucket rows prior fresh
  decode : ∀ after, Monotone fun rows => c.decodeMs rows after
  after : ∀ rows, c.decodeMs rows false ≤ c.decodeMs rows true

/-- A decode pass that is over the target by itself is over it in every tick; and a tick behind one with a
dearer decode pass is given the slack of both. -/
theorem slo_target_missed :
    (¬ ∀ (i : SloTick) (s : ℕ) (target : ℚ), i.cost.Rising → (∀ cls, i.cost.margin cls = 1) →
      i.targets.tbtMs = some target → (i.planTick s).2.1.progress = false →
        (i.planTick s).2.1.predictedMs ≤ target) ∧
    ¬ ∀ (s : ℕ) (q p : SloTick) (w : List SloTick) (target : ℚ),
      (∀ i ∈ q :: w ++ [p], i.cost.Rising ∧ (∀ cls, i.cost.margin cls = 1) ∧ i.bound = some target) → p.Pays →
      (q.planTick s).2.1.progress = true → (∀ e ∈ (runTicks (q.planTick s).2.2 w).1, e.2.2.progress = false) →
      (p.planTick (runTicks (q.planTick s).2.2 w).2).2.1.progress = true →
        ((runTicks (q.planTick s).2.2 (w ++ [p])).1.map (·.2.2.predictedMs)).sum / (w.length + 1) ≤ target := by
  have hmono : ∀ decodes {decodeMs : ℕ → ℚ}, Monotone decodeMs → (deepTick decodes decodeMs).cost.Rising := by
    intro decodes decodeMs hd
    refine ⟨fun _ _ _ a b hab => ?_, fun _ => hd, fun _ => le_rfl⟩
    have : (a : ℚ) ≤ b := by exact_mod_cast hab
    show (10 : ℚ) * a ≤ 10 * b
    linarith
  constructor
  · intro h
    have hle := h (deepTick [2] fun _ => 110) 0 100 (hmono [2] monotone_const) (fun _ => rfl) rfl (by decide +kernel)
    exact absurd hle (by decide +kernel)
  · intro h
    have hstep : Monotone fun rows : ℕ => if rows ≤ 1 then (80 : ℚ) else 99 := by
      intro a b hab
      dsimp only
      split
      · split <;> norm_num
      · rw [if_neg (by omega)]
    have hle := h 1 (deepTick [2] fun rows => if rows ≤ 1 then 80 else 99)
      (deepTick [2] fun rows => if rows ≤ 1 then 80 else 99) [deepTick [2, 3] fun rows => if rows ≤ 1 then 80 else 99] 100
      (fun i hi => ?_) (fun t c hb hc => ?_) (by decide +kernel) (fun e he => ?_) (by decide +kernel)
    · exact absurd hle (by decide +kernel)
    · simp only [cons_append, nil_append, mem_cons, not_mem_nil, or_false] at hi
      rcases hi with rfl | rfl | rfl <;> exact ⟨hmono _ hstep, fun _ => rfl, rfl⟩
    · cases hb
      cases hc
      decide +kernel
    · obtain rfl := mem_singleton.mp he
      decide +kernel

end Plow.Sched
