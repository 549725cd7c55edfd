import Plow.Rings.Ops

/-!
# Construction, runs and the end

New rings account for everything (`new_sound`), and so do idle-backed ones, with the units of the
windows whose slots share them committed whole (`idleBacked_ok`).  Every state that the operations
lead to is sound (`Reach.sound`).
-/

namespace Plow.Rings

open Lib List Option

namespace VmmRings
variable (ok : ℕ → Bool) {r r' : VmmRings} {held l : List (ℕ × ℕ)} {x : ℕ × ℕ}
  {tensors : List LiveRingTensor} {reserve : ℕ → Option ℕ} {granularity : Option ℕ} {batch : ℕ}

/-! ### New rings -/

theorem checkTensors_pos {g : ℕ} {seen : List ℕ} {reserved n : ℕ}
    (h : checkTensors g batch seen reserved tensors = some n) : ∀ t ∈ tensors, 0 < t.slotBytes := by
  induction tensors generalizing seen reserved with
  | nil => exact nofun
  | cons t l ih =>
    unfold checkTensors at h
    split at h
    · cases h
    · next hno =>
      split at h
      · cases h
      · split at h
        · cases h
        · dsimp only at h
          split at h
          · cases h
          · intro t' ht'
            rcases mem_cons.mp ht' with rfl | ht'
            · exact Nat.pos_of_ne_zero fun h0 => hno (Or.inl h0)
            · exact ih h t' ht'

theorem ringWindow_shaped {g : ℕ} {va : Option ℕ} {t : LiveRingTensor} {w : RingWindow} (hg : 0 < g)
    (ht : 0 < t.slotBytes) (h : ringWindow g batch va t = some w) : w.Shaped batch ∧ w.pinned = false := by
  unfold ringWindow at h
  cases va with
  | none => cases h
  | some va =>
    change (if _ then none else some _) = some w at h
    split at h
    · cases h
    · cases h
      refine ⟨⟨ht, ?_, ?_⟩, rfl⟩
      · show 0 < if t.slotBytes % g = 0 then t.slotBytes else g
        split
        · exact ht
        · exact hg
      · show t.slotBytes * batch ≤ (t.slotBytes * batch + g - 1) / g * g /
          (if t.slotBytes % g = 0 then t.slotBytes else g) * (if t.slotBytes % g = 0 then t.slotBytes else g)
        split
        · next hm =>
          -- the bytes of the slots are a multiple of the granularity
          obtain ⟨m, hm⟩ := dvd_trans (Nat.dvd_of_mod_eq_zero hm) (dvd_mul_right t.slotBytes batch)
          have hround : (t.slotBytes * batch + g - 1) / g * g = t.slotBytes * batch := by
            rw [hm, Nat.add_sub_assoc hg, Nat.mul_add_div hg, Nat.div_eq_of_lt (by omega), add_zero,
              mul_comm]
          rw [hround, Nat.mul_div_cancel_left _ ht, mul_comm]
        · rw [Nat.mul_div_cancel _ hg]
          have hlt := Nat.lt_mul_div_succ (t.slotBytes * batch + g - 1) hg
          rw [Nat.mul_succ, mul_comm g] at hlt
          omega

/-- what new rings are -/
structure Fresh (r : VmmRings) : Prop where
  sound : r.Sound []
  unused : ∀ s, (r.mapped s || r.parked s) = false
  recycle : r.recycle = false

theorem new_eq (h : VmmRings.new granularity reserve tensors batch = some r) :
    ∃ windows n, r = empty windows batch n ∧ ∀ w ∈ windows, w.Shaped batch ∧ w.pinned = false := by
  unfold VmmRings.new at h
  split at h
  · cases h
  · obtain ⟨g, -, h⟩ := bind_eq_some_iff.mp h
    split at h
    · cases h
    · next hg =>
      obtain ⟨n, hn, h⟩ := bind_eq_some_iff.mp h
      obtain ⟨ws, hws, rfl⟩ := map_eq_some_iff.mp h
      refine ⟨ws, n, rfl, fun w hw => ?_⟩
      obtain ⟨⟨t, i⟩, ht, hw⟩ := mem_of_optionMapM hws hw
      refine ringWindow_shaped (Nat.pos_of_ne_zero hg) (checkTensors_pos hn t ?_) hw
      exact mem_of_getElem? (mem_zipIdx_iff_getElem?.mp ht)

theorem own_eq_nil (h : ∀ x, r.handles x = none) : r.own = [] := by
  unfold own
  rw [filterMap_eq_nil_iff]
  intro x _
  rw [h x]
  rfl

theorem new_fresh (h : VmmRings.new granularity reserve tensors batch = some r) : r.Fresh := by
  obtain ⟨ws, n, rfl, hws⟩ := new_eq h
  have hown : (empty ws batch n).own = [] := own_eq_nil fun x => rfl
  refine ⟨⟨⟨fun w hw => (hws w hw).1, fun x => ?_, nofun,
    fun x => ⟨nofun, fun h => absurd h (lt_irrefl 0)⟩, ?_, ?_⟩,
    nofun, nofun, ?_, Nat.zero_le _, fun s hs => absurd hs (Nat.not_lt_zero s), rfl⟩, fun s => rfl, rfl⟩
  · rw [uses_eq_zero fun s => rfl]
    rfl
  · rw [hown]
    rfl
  · show ([] ++ ((empty ws batch n).own ++ [] ++ []).map Prod.snd ++ []).Perm (range 0)
    rw [hown]
    exact .refl _
  · exact (countP_eq_zero.mpr fun s _ => Bool.false_ne_true).symm

/-! ### Idle-backed rings -/

theorem Touched.trans {a b c : VmmRings} (h : Touched a b) (h' : Touched b c) : Touched a c := by
  unfold Touched at *
  rw [h] at h'
  exact h'

theorem tryEach_backIdle (l : List (ℕ × ℕ)) : Touched r (tryEach (backIdle ok) r l).1 := by
  induction l generalizing r with
  | nil => rfl
  | cons x l ih =>
    have hone := backIdle_touched ok x (r := r)
    unfold tryEach
    split
    · next r₁ he =>
      rw [he] at hone
      exact hone.trans ih
    · next r₁ he =>
      rw [he] at hone
      exact hone

/-- Units committed one after the other stay so. -/
theorem tryEach_pinUnit (hl : l.Nodup) (hsub : ∀ x ∈ l, x ∈ r.units) (hno : ∀ x ∈ l, x ∉ held)
    (h0 : ∀ x, r.uses x = 0) (hr : r.UnitsOk held []) :
    ∃ t, Frame r (tryEach (pinUnit ok) r l).1 ∧ (tryEach (pinUnit ok) r l).1.UnitsOk (t ++ held) [] ∧
      ∀ x ∈ t, x ∈ l := by
  induction l generalizing r held with
  | nil => exact ⟨[], Frame.refl r, hr, fun x hx => hx⟩
  | cons x l ih =>
    obtain ⟨hx, hl⟩ := nodup_cons.mp hl
    have hxr : r.refs x = 0 := by
      rw [hr.refs x, h0, count_eq_zero_of_not_mem (hno x mem_cons_self)]
    have hcommit := commitUnit_ok ok hr (hsub x mem_cons_self) hxr
    unfold tryEach pinUnit
    generalize r.commitUnit ok x = q at hcommit
    obtain ⟨r₁, b⟩ := q
    cases b with
    | true =>
      have hf : Frame r (r₁.addRef x) := hcommit.frame.trans (frame_addRef r₁ x)
      have hpin : ({ r₁ with refs := Function.update r₁.refs x 1 } : VmmRings) = r₁.addRef x := by
        unfold addRef
        have : r₁.refs x = 0 := by
          have := hcommit.refs
          rw [this]
          exact hxr
        rw [this]
      obtain ⟨t, hft, ht, hin⟩ := @ih (r₁.addRef x) (x :: held) hl
        (fun y hy => by rw [hf.units]; exact hsub y (mem_cons_of_mem _ hy))
        (fun y hy hmem => by
          rcases mem_cons.mp hmem with rfl | hmem
          · exact hx hy
          · exact hno y (mem_cons_of_mem _ hy) hmem)
        (fun y => by rw [hf.uses, h0]) (hcommit.done rfl)
      dsimp only
      rw [hpin]
      refine ⟨t ++ [x], hf.trans hft, ?_, fun y hy => ?_⟩
      · rw [append_assoc]
        exact ht
      · rcases mem_append.mp hy with hy | hy
        · exact mem_cons_of_mem _ (hin y hy)
        · rw [mem_singleton.mp hy]
          exact mem_cons_self
    | false => exact ⟨[], hcommit.frame, hcommit.undone rfl, nofun⟩

theorem idleHandle_ok (mb : ℕ) (hr : r.UnitsOk held []) : (r.idleHandle ok mb).1.UnitsOk held [] ∧
    (r.idleHandle ok mb).1.windows = r.windows ∧ (r.idleHandle ok mb).1.batch = r.batch ∧
    (r.idleHandle ok mb).1.mapped = r.mapped ∧ (r.idleHandle ok mb).1.parked = r.parked ∧
    (r.idleHandle ok mb).1.mappedPrefix = r.mappedPrefix ∧
    (r.idleHandle ok mb).1.mappedSlots = r.mappedSlots ∧ (r.idleHandle ok mb).1.recycle = r.recycle := by
  unfold idleHandle Driver.create
  split
  · exact ⟨hr, rfl, rfl, rfl, rfl, rfl, rfl, rfl⟩
  · split
    · next d h he =>
      split at he
      · cases he
        refine ⟨⟨hr.shaped, hr.refs, hr.held, hr.handle, hr.resident, ?_⟩, rfl, rfl, rfl, rfl, rfl, rfl, rfl⟩
        show ([] ++ ((r.own ++ (r.idle ++ [(mb, r.driver.made)]) ++ r.spare).map Prod.snd ++
          r.driver.released)).Perm (range (r.driver.made + 1))
        rw [range_succ]
        refine Perm.trans ?_ (hr.owned.append_right _)
        unfold handlesOf
        rw [perm_iff_count]
        intro a
        simp only [map_append, map_cons, map_nil, count_append, count_cons,
          count_nil]
        omega
      · cases he
    · next d he =>
      split at he
      · cases he
      · cases he
        exact ⟨⟨hr.shaped, hr.refs, hr.held, hr.handle, hr.resident, hr.owned⟩, rfl, rfl, rfl, rfl, rfl, rfl, rfl⟩

theorem pin_getElem? (r : VmmRings) (i j : ℕ) : (r.pin i).windows[j]? =
    (r.windows[j]?).map fun w => if i = j then { w with pinned := true } else w := by
  unfold pin
  dsimp only
  rw [getElem?_modify]
  rfl

theorem pin_window (r : VmmRings) (i j : ℕ) : ((r.pin i).window j).mapBytes = (r.window j).mapBytes ∧
    ((r.window j).pinned = true → ((r.pin i).window j).pinned = true) := by
  unfold window
  rw [getD_eq_getElem?_getD, getD_eq_getElem?_getD, pin_getElem?]
  cases r.windows[j]? with
  | none => exact ⟨rfl, fun h => h⟩
  | some w =>
    show (if i = j then { w with pinned := true } else w).mapBytes = w.mapBytes ∧
      (w.pinned = true → (if i = j then { w with pinned := true } else w).pinned = true)
    split
    · exact ⟨rfl, fun _ => rfl⟩
    · exact ⟨rfl, fun h => h⟩

theorem pin_units (r : VmmRings) (i : ℕ) : (r.pin i).units = r.units := by
  have hmap : ∀ r : VmmRings, r.units = (r.windows.map RingWindow.units).zipIdx.flatMap fun p =>
      (range p.1).map fun u => (p.2, u) := by
    intro r
    unfold units
    rw [zipIdx_map, flatMap_map]
    rfl
  rw [hmap, hmap]
  congr 2
  apply ext_getElem?
  intro j
  rw [getElem?_map, getElem?_map, pin_getElem?]
  cases r.windows[j]? with
  | none => rfl
  | some w =>
    show some (if i = j then { w with pinned := true } else w).units = some w.units
    split <;> rfl

/-- rings whose windows before `k` are backed, of which `held` are the committed units -/
structure Building (ws : List RingWindow) (k : ℕ) (held : List (ℕ × ℕ)) (r : VmmRings) : Prop where
  sound : r.Sound held
  unused : ∀ s, (r.mapped s || r.parked s) = false
  recycle : r.recycle = false
  ahead : ∀ j, k ≤ j → r.windows[j]? = ws[j]?
  pinned : ∀ x ∈ held, x.1 < k ∧ (r.window x.1).pinned = true

theorem pin_ok (i : ℕ) (hr : r.UnitsOk held []) (hno : ∀ s, (r.mapped s || r.parked s) = false) :
    (r.pin i).UnitsOk held [] := by
  have hown : (r.pin i).own = r.own := by
    unfold own
    rw [pin_units]
    apply filterMap_congr
    intro x _
    rw [(pin_window r i x.1).1]
    rfl
  refine ⟨fun w hw => ?_, fun x => ?_, fun x hx => ?_, hr.handle, ?_, ?_⟩
  · obtain ⟨j, hj⟩ := mem_iff_getElem?.mp hw
    rw [pin_getElem?] at hj
    obtain ⟨w', hw', rfl⟩ := map_eq_some_iff.mp hj
    have h := hr.shaped w' (mem_of_getElem? hw')
    split
    · exact ⟨h.slot_pos, h.map_pos, h.room⟩
    · exact h
  · show r.refs x = _
    rw [hr.refs x, uses_eq_zero hno, uses_eq_zero (r := r.pin i) hno]
  · rw [pin_units]
    exact hr.held x hx
  · rw [hown]
    exact hr.resident
  · unfold handlesOf
    rw [hown]
    exact hr.owned

theorem backWindow_ok {ws : List RingWindow} {k : ℕ} {w : RingWindow} (hr : Building ws k held r)
    (hw : ws[k]? = some w) : ∃ held', (r.backWindow ok (w, k)).1.UnitsOk held' [] ∧
      ((r.backWindow ok (w, k)).2 = true → Building ws (k + 1) held' (r.backWindow ok (w, k)).1) := by
  have hwk : r.windows[k]? = some w := (hr.ahead k (le_refl k)).trans hw
  unfold backWindow
  dsimp only
  split
  · -- committed whole
    have hpin := pin_ok k hr.sound.units hr.unused
    obtain ⟨t, hf, hunits, hin⟩ := tryEach_pinUnit ok (r := r.pin k) (l := unitsOf (w, k))
      (Nodup.map (fun a b h => (Prod.mk.inj h).2) nodup_range)
      (fun x hx => by
        obtain ⟨u, hu, rfl⟩ := mem_map.mp hx
        rw [pin_units]
        exact mem_units.mpr ⟨w, hwk, mem_range.mp hu⟩)
      (fun x hx (hmem : x ∈ held) => by
        obtain ⟨u, hu, rfl⟩ := mem_map.mp hx
        exact absurd (hr.pinned _ hmem).1 (lt_irrefl k))
      (uses_eq_zero (r := r.pin k) hr.unused) hpin
    refine ⟨t ++ held, hunits, fun _ => ⟨⟨hunits, ?_⟩, ?_, ?_, fun j hj => ?_, fun x hx => ?_⟩⟩
    · have hslots : (r.pin k).Slots := ⟨hr.sound.slots.apart, hr.sound.slots.inBatch, hr.sound.slots.count,
        hr.sound.slots.prefix_le, hr.sound.slots.below, hr.sound.slots.stop⟩
      exact (Kept.of_frame hf).slots hslots
    · rw [hf.mapped, hf.parked]
      exact hr.unused
    · rw [hf.recycle]
      exact hr.recycle
    · rw [hf.windows, pin_getElem?, hr.ahead j (by omega)]
      cases ws[j]? with
      | none => rfl
      | some w' =>
        show some (if k = j then _ else w') = some w'
        rw [if_neg (by omega)]
    · rw [hf.window]
      rcases mem_append.mp hx with hx | hx
      · obtain ⟨u, hu, rfl⟩ := mem_map.mp (hin x hx)
        refine ⟨Nat.lt_succ_self k, ?_⟩
        rw [window_eq (r := r.pin k) (w := { w with pinned := true }) ?_]
        rw [pin_getElem?, hwk]
        show some (if k = k then _ else w) = _
        rw [if_pos rfl]
      · obtain ⟨hlt, hp⟩ := hr.pinned x hx
        exact ⟨by omega, (pin_window r k x.1).2 hp⟩
  · obtain ⟨hunits, hws, hbatch, hm, hp, hpre, hn, hrec⟩ := idleHandle_ok ok w.mapBytes hr.sound.units
    generalize r.idleHandle ok w.mapBytes = q at hunits hws hbatch hm hp hpre hn hrec
    obtain ⟨r₁, b⟩ := q
    cases b with
    | false => exact ⟨held, hunits, nofun⟩
    | true =>
      have ht := tryEach_backIdle ok (r := r₁) (unitsOf (w, k))
      have hu := ht.unitsOk hunits
      refine ⟨held, hu, fun _ => ⟨⟨hu, (Kept.of_frame ht.frame).slots ?_⟩, ?_, ?_, fun j hj => ?_,
        fun x hx => ?_⟩⟩
      · have hs := hr.sound.slots
        refine ⟨?_, ?_, ?_, ?_, ?_, ?_⟩
        · rw [hm, hp]
          exact hs.apart
        · rw [hm, hp, hbatch]
          exact hs.inBatch
        · rw [hm, hn, hbatch]
          exact hs.count
        · rw [hpre, hbatch]
          exact hs.prefix_le
        · rw [hm, hpre]
          exact hs.below
        · rw [hm, hpre]
          exact hs.stop
      · rw [ht.frame.mapped, ht.frame.parked, hm, hp]
        exact hr.unused
      · rw [ht.frame.recycle, hrec]
        exact hr.recycle
      · rw [ht.frame.windows, hws]
        exact hr.ahead j (by omega)
      · obtain ⟨hlt, hpin⟩ := hr.pinned x hx
        rw [ht.frame.window]
        unfold window at hpin ⊢
        rw [hws]
        exact ⟨by omega, hpin⟩

theorem backWindows_ok {ws l : List RingWindow} {k : ℕ} (hl : ∀ j, ws[k + j]? = l[j]?)
    (hr : Building ws k held r) : ∃ held', (tryEach (backWindow ok) r (l.zipIdx k)).1.UnitsOk held' [] ∧
      ((tryEach (backWindow ok) r (l.zipIdx k)).2 = true →
        Building ws (k + l.length) held' (tryEach (backWindow ok) r (l.zipIdx k)).1) := by
  induction l generalizing r held k with
  | nil => exact ⟨held, hr.sound.units, fun _ => hr⟩
  | cons w l ih =>
    obtain ⟨held₁, hu, hb⟩ := backWindow_ok ok hr (hl 0)
    rw [zipIdx_cons]
    unfold tryEach
    generalize r.backWindow ok (w, k) = q at hu hb
    obtain ⟨r₁, b⟩ := q
    cases b with
    | false => exact ⟨held₁, hu, nofun⟩
    | true =>
      obtain ⟨held', hu', hb'⟩ := ih (k := k + 1) (fun j => by
        rw [add_assoc, add_comm 1]
        exact hl (j + 1)) (hb rfl)
      refine ⟨held', hu', fun h => ?_⟩
      have := hb' h
      rw [add_assoc, add_comm 1] at this
      exact this

theorem idleBacked_ok (hr : r.Fresh) : ∃ held, (r.idleBacked ok).1.UnitsOk held [] ∧
    ((r.idleBacked ok).2 = true → Building r.windows r.windows.length held (r.idleBacked ok).1) := by
  have := @backWindows_ok ok r [] r.windows r.windows 0
    (fun j => by rw [zero_add]) ⟨hr.sound, hr.unused, hr.recycle, fun j _ => rfl, nofun⟩
  rw [zero_add] at this
  exact this

/-! ### The end -/

theorem release_foldl {A : Type} (f : A → Option ℕ) (l : List A) (d : Driver) :
    l.foldl (fun d x => d.releaseTaken (f x)) d = { d with released := (l.filterMap f).reverse ++ d.released } := by
  induction l generalizing d with
  | nil => rfl
  | cons x l ih =>
    rw [foldl_cons, ih]
    cases hx : f x with
    | none =>
      rw [filterMap_cons_none hx]
      rfl
    | some h =>
      rw [filterMap_cons_some hx, reverse_cons, append_assoc]
      rfl

theorem own_snd (r : VmmRings) : r.own.map Prod.snd = r.units.filterMap r.handles := by
  unfold own
  rw [map_filterMap]
  apply filterMap_congr
  intro x _
  cases r.handles x <;> rfl

theorem drop_perm (hr : r.UnitsOk held []) : r.drop.released.Perm (range r.drop.made) := by
  have hall : ∀ (l : List (ℕ × ℕ)) (d : Driver), l.foldl (fun d p => d.release p.2) d =
      { d with released := (l.map Prod.snd).reverse ++ d.released } := by
    intro l d
    have := release_foldl (fun p : ℕ × ℕ => some p.2) l d
    rw [filterMap_eq_map'] at this
    exact this
  unfold drop
  dsimp only
  rw [release_foldl, hall]
  refine Perm.trans ?_ hr.owned
  unfold handlesOf
  rw [← own_snd, perm_iff_count]
  intro a
  simp only [count_append, count_reverse, map_append, nil_append]
  omega

end VmmRings

/-! ### Runs -/

variable {r : VmmRings} {ok : ℕ → Bool}

theorem Reach.sound (h : Reach ok r) :
    ∃ held, r.Sound held ∧ ∀ x ∈ held, (r.window x.1).pinned = true := by
  induction h with
  | new h => exact ⟨[], (VmmRings.new_fresh h).sound, nofun⟩
  | idleBacked h hb =>
    obtain ⟨held, -, hbuild⟩ := VmmRings.idleBacked_ok ok (VmmRings.new_fresh h)
    rw [hb] at hbuild
    have hbuild := hbuild rfl
    exact ⟨held, hbuild.sound, fun x hx => (hbuild.pinned x hx).2⟩
  | step h hs ih =>
    obtain ⟨held, hr, hpin⟩ := ih
    obtain ⟨p, hp, hsound, hw, -⟩ := VmmRings.step_ok ok _ hr
    rw [hs] at hp
    cases hp
    refine ⟨held, hsound, fun x hx => ?_⟩
    have := hpin x hx
    unfold VmmRings.window at this ⊢
    rw [hw]
    exact this

/-- what the state says of the slots and of the handles -/
structure VmmRings.Accounted (r : VmmRings) : Prop where
  /-- the slots that are mapped or parked and whose bytes meet the unit -/
  refs : ∀ i w u, r.windows[i]? = some w → u < w.units → w.pinned = false → r.refs (i, u) =
    (List.range r.batch).countP fun s => (r.mapped s || r.parked s) && decide (VmmRings.Meets w s u)
  handle : ∀ x ∈ r.units, (r.handles x).isSome = true ↔ 0 < r.refs x
  resident : r.residentBytes =
    ((r.units.filter fun x => (r.handles x).isSome).map fun x => (r.window x.1).mapBytes).sum
  prefix_le : r.mappedPrefix ≤ r.batch
  below : ∀ s < r.mappedPrefix, r.mapped s = true
  longest : ∀ n ≤ r.batch, (∀ s < n, r.mapped s = true) → n ≤ r.mappedPrefix
  /-- a handle is in one place, or was released once -/
  handles : (r.units.filterMap r.handles ++ (r.idle ++ r.spare).map Prod.snd ++ r.driver.released).Perm
    (List.range r.driver.made)

theorem VmmRings.Sound.accounted {held : List (ℕ × ℕ)} (hr : r.Sound held)
    (hpin : ∀ x ∈ held, (r.window x.1).pinned = true) : r.Accounted := by
  refine ⟨fun i w u hw hu hp => ?_, fun x _ => hr.units.handle x, ?_, hr.slots.prefix_le, hr.slots.below,
    fun n hn hall => ?_, ?_⟩
  · have hno : (i, u) ∉ held := by
      intro hmem
      have := hpin _ hmem
      rw [VmmRings.window_eq hw, hp] at this
      cases this
    rw [hr.units.refs, count_eq_zero_of_not_mem hno, add_zero]
    unfold VmmRings.uses
    apply countP_congr
    intro s _
    have hmem : (i, u) ∈ r.slotUnits s ↔ VmmRings.Meets w s u := by
      rw [VmmRings.mem_slotUnits hr.units.shaped]
      constructor
      · rintro ⟨w', hw', -, hm⟩
        rw [hw] at hw'
        cases hw'
        exact hm
      · exact fun hm => ⟨w, hw, hp, hm⟩
    rw [decide_eq_decide.mpr hmem]
  · rw [hr.units.resident]
    congr 1
    unfold VmmRings.own
    generalize r.units = l
    induction l with
    | nil => rfl
    | cons x l ih =>
      cases hx : r.handles x with
      | none =>
        rw [filterMap_cons_none (by rw [hx]; rfl), filter_cons_of_neg (by rw [hx]; nofun)]
        exact ih
      | some h =>
        rw [filterMap_cons_some (by rw [hx]; rfl), filter_cons_of_pos (by rw [hx]; rfl),
          map_cons, map_cons, ih]
  · by_contra hlt
    have := hall r.mappedPrefix (by omega)
    rw [hr.slots.stop] at this
    cases this
  · have hown : r.own.map Prod.snd = r.units.filterMap r.handles := VmmRings.own_snd r
    rw [← hown, append_assoc, ← append_assoc]
    have := hr.units.owned
    unfold VmmRings.handlesOf at this
    rw [append_assoc r.own, map_append] at this
    simpa only [nil_append, append_assoc] using this

theorem idleBacked_drop {granularity : Option ℕ} {reserve : ℕ → Option ℕ}
    {tensors : List LiveRingTensor} {batch : ℕ}
    (h : VmmRings.new granularity reserve tensors batch = some r) :
    (r.idleBacked ok).1.drop.released.Perm (range (r.idleBacked ok).1.drop.made) := by
  obtain ⟨held, hu, -⟩ := VmmRings.idleBacked_ok ok (VmmRings.new_fresh h)
  exact VmmRings.drop_perm hu

/-- Every state of a run accounts for its slots and handles; no operation panics; an `ensure_slot` that
fails leaves the mapped slots alone; and dropping the rings gives every handle back, also where their
construction fails. -/
theorem rings_accounted (ok : ℕ → Bool) :
    (∀ r, Reach ok r → r.Accounted ∧ (∀ o, ∃ p, r.step ok o = some p) ∧
      (∀ slot r', r.step ok (.ensureSlot slot) = some (r', false) →
        r'.mapped = r.mapped ∧ r'.mappedPrefix = r.mappedPrefix ∧ r'.mappedSlots = r.mappedSlots) ∧
      r.drop.released.Perm (List.range r.drop.made)) ∧
    ∀ granularity reserve tensors batch r, VmmRings.new granularity reserve tensors batch = some r →
      (r.idleBacked ok).1.drop.released.Perm (List.range (r.idleBacked ok).1.drop.made) := by
  refine ⟨fun r h => ?_, fun granularity reserve tensors batch r h => idleBacked_drop h⟩
  obtain ⟨held, hr, hpin⟩ := h.sound
  refine ⟨hr.accounted hpin, fun o => ?_, fun slot r' hs => ?_, VmmRings.drop_perm hr.units⟩
  · obtain ⟨p, hp, -⟩ := VmmRings.step_ok ok o hr
    exact ⟨p, hp⟩
  · obtain ⟨p, hp, -, -, -, hk⟩ := VmmRings.ensureSlot_ok ok slot hr
    change r.ensureSlot ok slot = some (r', false) at hs
    rw [hs] at hp
    cases hp
    have hk := hk rfl
    exact ⟨hk.mapped, hk.mappedPrefix, hk.mappedSlots⟩

/-- Two slots of ten bytes share the first unit of sixteen. -/
theorem rings_accounted_shared : ∃ r, Reach (fun _ => true) r ∧ r.refs (0, 0) = 2 ∧
    r.residentBytes = 32 ∧ r.Accounted ∧ r.drop.released.Perm (List.range r.drop.made) := by
  have h₀ : Reach (fun _ => true) _ := @Reach.new _ (some 16) (fun _ => some 64) [⟨0, 10⟩] 3 _ rfl
  have h : Reach (fun _ => true) _ := @Reach.step _ _ _ (.ensureSlot 1) _
    (@Reach.step _ _ _ (.ensureSlot 0) _ h₀ rfl) rfl
  obtain ⟨hall, -, -, hdrop⟩ := (rings_accounted _).1 _ h
  exact ⟨_, h, rfl, rfl, hall, hdrop⟩

end Plow.Rings
