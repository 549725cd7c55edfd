import Plow.Rings.Account

/-!
# Loops over units and what is kept

The loops over a slot's units keep what the units account for: giving all of them up
(`releaseUnits_ok`), committing them one after the other (`ensureUnits_ok`).  `trim_spare` ends, and
with no more than the cap kept (`trimSpare_ok`).
-/

namespace Plow.Rings

open List Function

namespace VmmRings
variable (ok : ℕ → Bool) {r r' s : VmmRings} {x : ℕ × ℕ} {held l touched held' : List (ℕ × ℕ)} {slot p : ℕ}

/-- what the units of `l` give back when one reference of each is given up -/
def freed (r : VmmRings) (l : List (ℕ × ℕ)) : List ℕ :=
  (l.filter fun x => decide (r.refs x = 1)).map fun x => (r.window x.1).mapBytes

/-- what the units of `l` that nothing refers to need -/
def missing (r : VmmRings) (l : List (ℕ × ℕ)) : List ℕ :=
  (l.filter fun x => decide (r.refs x = 0)).map fun x => (r.window x.1).mapBytes

theorem freed_congr (hf : Frame r r') (h : ∀ y ∈ l, r'.refs y = r.refs y) : r'.freed l = r.freed l := by
  unfold freed
  rw [filter_congr fun y hy => by rw [h y hy]]
  exact map_congr_left fun y _ => by rw [hf.window]

theorem missing_congr (hf : Frame r r') (h : ∀ y ∈ l, r'.refs y = r.refs y) :
    r'.missing l = r.missing l := by
  unfold missing
  rw [filter_congr fun y hy => by rw [h y hy]]
  exact map_congr_left fun y _ => by rw [hf.window]

theorem freed_cons (r : VmmRings) (x : ℕ × ℕ) (l : List (ℕ × ℕ)) :
    r.freed (x :: l) = (if r.refs x = 1 then [(r.window x.1).mapBytes] else []) ++ r.freed l := by
  unfold freed
  by_cases h : r.refs x = 1
  · rw [filter_cons_of_pos (by simpa using h), if_pos h]
    rfl
  · rw [filter_cons_of_neg (by simpa using h), if_neg h]
    rfl

theorem missing_cons (r : VmmRings) (x : ℕ × ℕ) (l : List (ℕ × ℕ)) :
    r.missing (x :: l) = (if r.refs x = 0 then [(r.window x.1).mapBytes] else []) ++ r.missing l := by
  unfold missing
  by_cases h : r.refs x = 0
  · rw [filter_cons_of_pos (by simpa using h), if_pos h]
    rfl
  · rw [filter_cons_of_neg (by simpa using h), if_neg h]
    rfl

/-! ### Giving up a list of units -/

theorem releaseUnits_ok (hl : l.Nodup) (hr : r.UnitsOk (l ++ held) []) :
    ∃ r', r.releaseUnits ok l = some r' ∧ Frame r r' ∧ r'.UnitsOk held [] ∧
      r'.spare.map Prod.fst = r.spare.map Prod.fst ++ if r.recycle then r.freed l else [] := by
  induction l generalizing r with
  | nil =>
    refine ⟨r, rfl, Frame.refl r, hr, ?_⟩
    show _ = _ ++ if r.recycle then [] else []
    rw [ite_self, append_nil]
  | cons x l ih =>
    obtain ⟨hx, hl⟩ := nodup_cons.mp hl
    obtain ⟨r₁, h₁, hone⟩ := releaseUnit_ok ok hr
    obtain ⟨r₂, h₂, hf, hunits, hspare⟩ := ih hl hone.units
    refine ⟨r₂, ?_, hone.frame.trans hf, hunits, ?_⟩
    · unfold releaseUnits
      rw [foldlM_cons, h₁]
      exact h₂
    · have hsame : ∀ y ∈ l, r₁.refs y = r.refs y := by
        intro y hy
        rw [hone.refs]
        exact update_of_ne (fun he : y = x => hx (he ▸ hy)) _ _
      rw [hspare, hone.spare, hone.frame.recycle, freed_congr hone.frame hsame, freed_cons]
      cases hrec : r.recycle with
      | true => simp only [true_and, if_true, append_assoc]
      | false => simp only [Bool.false_eq_true, false_and, if_false, append_nil]

/-- where the units are the same, and what uses them is -/
structure SameUnits (r r' : VmmRings) : Prop where
  windows : r'.windows = r.windows
  batch : r'.batch = r.batch
  refs : r'.refs = r.refs
  handles : r'.handles = r.handles
  residentBytes : r'.residentBytes = r.residentBytes
  idle : r'.idle = r.idle
  spare : r'.spare = r.spare
  driver : r'.driver = r.driver

theorem SameUnits.unitsOk (h : SameUnits r r') (hr : r.UnitsOk held [])
    (huse : ∀ x, r'.uses x + held'.count x = r.uses x + held.count x)
    (hheld : ∀ x ∈ held', x ∈ r.units) : r'.UnitsOk held' [] := by
  have hunits : r'.units = r.units := by
    unfold units
    rw [h.windows]
  have hown : r'.own = r.own := by
    unfold own window
    rw [hunits, h.handles, h.windows]
  refine ⟨?_, fun x => ?_, fun x hx => ?_, fun x => ?_, ?_, ?_⟩
  · intro w hw
    rw [h.windows] at hw
    rw [h.batch]
    exact hr.shaped w hw
  · rw [h.refs, huse, hr.refs x]
  · rw [hunits]
    exact hheld x hx
  · rw [h.handles, h.refs]
    exact hr.handle x
  · rw [h.residentBytes, hown]
    exact hr.resident
  · unfold handlesOf
    rw [hown, h.idle, h.spare, h.driver]
    exact hr.owned

theorem UnitsOk.unused (hr : r.UnitsOk held []) (hs : slot < r.batch) (h : SameUnits r r')
    (hyes : (r.mapped slot || r.parked slot) = true) (hno : (r'.mapped slot || r'.parked slot) = false)
    (hsame : ∀ s, s ≠ slot → (r.mapped s || r.parked s) = (r'.mapped s || r'.parked s)) :
    r'.UnitsOk (r.slotUnits slot ++ held) [] := by
  refine h.unitsOk hr (fun x => ?_) fun x hx => ?_
  · have hadd := uses_add (by rw [h.batch]; exact hs) h.windows.symm h.batch.symm hno hyes hsame x
    have hslot : r'.slotUnits slot = r.slotUnits slot := by
      unfold slotUnits
      rw [h.windows]
    rw [hadd, hslot, count_append]
    omega
  · rcases mem_append.mp hx with hx | hx
    · exact slotUnits_subset hr.shaped hs x hx
    · exact hr.held x hx

theorem UnitsOk.used (hr : r.UnitsOk (r.slotUnits slot ++ held) []) (hs : slot < r.batch)
    (h : SameUnits r r') (hno : (r.mapped slot || r.parked slot) = false)
    (hyes : (r'.mapped slot || r'.parked slot) = true)
    (hsame : ∀ s, s ≠ slot → (r'.mapped s || r'.parked s) = (r.mapped s || r.parked s)) :
    r'.UnitsOk held [] := by
  refine h.unitsOk hr (fun x => ?_) fun x hx => hr.held x (mem_append_right _ hx)
  rw [uses_add hs h.windows h.batch hno hyes hsame x, count_append]
  omega

/-! ### Committing the units of a slot -/

/-- what committing a list of units does -/
structure Ensured (r : VmmRings) (l touched held : List (ℕ × ℕ)) (p : VmmRings × List (ℕ × ℕ) × Bool) :
    Prop where
  frame : Frame r p.1
  units : p.1.UnitsOk (p.2.1 ++ held) []
  done : p.2.2 = true → p.2.1 = l.reverse ++ touched ∧
    (p.1.spare.map Prod.fst).Perm ((r.spare.map Prod.fst).diff (r.missing l))
  /-- the units before one that the driver refuses -/
  undone : p.2.2 = false → ∃ l₁ u l₂, l = l₁ ++ u :: l₂ ∧ p.2.1 = l₁.reverse ++ touched ∧
    r.refs u = 0 ∧ (∀ y, p.1.refs y = r.refs y + l₁.count y) ∧
    (p.1.spare.map Prod.fst).Perm ((r.spare.map Prod.fst).diff (r.missing (l₁ ++ [u])))

theorem addRef_refs (r : VmmRings) (x y : ℕ × ℕ) :
    (r.addRef x).refs y = r.refs y + if y = x then 1 else 0 := by
  show update r.refs x (r.refs x + 1) y = _
  by_cases hy : y = x
  · rw [hy, update_self, if_pos rfl]
  · rw [update_of_ne hy, if_neg hy]
    rfl

theorem addRef_ok (hr : r.UnitsOk held []) (hx : x ∈ r.units) (h0 : r.refs x ≠ 0) :
    (r.addRef x).UnitsOk (x :: held) [] := by
  refine ⟨hr.shaped, fun y => ?_, fun y hy => ?_, fun y => ?_, hr.resident, hr.owned⟩
  · rw [addRef_refs, hr.refs y, count_cons]
    show _ = r.uses y + _
    by_cases hy : y = x
    · rw [hy]
      simp
      omega
    · simp [hy, Ne.symm hy]
  · rcases mem_cons.mp hy with rfl | hy
    · exact hx
    · exact hr.held y hy
  · rw [addRef_refs]
    show (r.handles y).isSome = true ↔ _
    rw [hr.handle y]
    by_cases hy : y = x
    · rw [hy]
      omega
    · simp [hy]

theorem frame_addRef (r : VmmRings) (x : ℕ × ℕ) : Frame r (r.addRef x) :=
  ⟨rfl, rfl, rfl, rfl, rfl, rfl, rfl, rfl, rfl, rfl⟩

/-- One unit that is there, and the rest of them. -/
theorem Ensured.cons {p : VmmRings × List (ℕ × ℕ) × Bool} (hf : Frame r r') (hx : x ∉ l)
    (hrefs : ∀ y, r'.refs y = r.refs y + if y = x then 1 else 0)
    (hspare : (r'.spare.map Prod.fst).Perm ((r.spare.map Prod.fst).diff (r.missing [x])))
    (h : Ensured r' l (x :: touched) held p) : Ensured r (x :: l) touched held p := by
  have hsame : ∀ y ∈ l, r'.refs y = r.refs y := by
    intro y hy
    rw [hrefs, if_neg fun he : y = x => hx (he ▸ hy)]
    rfl
  have hdiff : ∀ l₁, (∀ y ∈ l₁, y ∈ l) → ((r'.spare.map Prod.fst).diff (r'.missing l₁)).Perm
      ((r.spare.map Prod.fst).diff (r.missing (x :: l₁))) := by
    intro l₁ hl₁
    have hsplit : r.missing (x :: l₁) = r.missing [x] ++ r.missing l₁ := by
      rw [missing_cons, missing_cons r x []]
      show _ = (_ ++ []) ++ _
      rw [append_nil]
    rw [missing_congr hf fun y hy => hsame y (hl₁ y hy), hsplit, diff_append]
    exact hspare.diff_right _
  refine ⟨hf.trans h.frame, h.units, fun hb => ?_, fun hb => ?_⟩
  · obtain ⟨ht, hs⟩ := h.done hb
    refine ⟨?_, hs.trans (hdiff l fun y hy => hy)⟩
    rw [ht, reverse_cons, append_assoc]
    rfl
  · obtain ⟨l₁, u, l₂, rfl, ht, hu, hr, hs⟩ := h.undone hb
    refine ⟨x :: l₁, u, l₂, rfl, ?_, ?_, fun y => ?_, hs.trans (hdiff _ fun y hy => ?_)⟩
    · rw [ht, reverse_cons, append_assoc]
      rfl
    · rw [← hsame u (mem_append_right _ mem_cons_self)]
      exact hu
    · rw [hr, hrefs, count_cons]
      by_cases hy : y = x
      · rw [hy]
        simp
        omega
      · simp [hy, Ne.symm hy]
    · rcases mem_append.mp hy with hy | hy
      · exact mem_append_left _ hy
      · rw [mem_singleton.mp hy]
        exact mem_append_right _ mem_cons_self

theorem ensureUnits_ok (hl : l.Nodup) (hsub : ∀ y ∈ l, y ∈ r.units) (hr : r.UnitsOk (touched ++ held) []) :
    Ensured r l touched held (r.ensureUnits ok l touched) := by
  induction l generalizing r touched with
  | nil => exact ⟨Frame.refl r, hr, fun _ => ⟨rfl, .refl _⟩, nofun⟩
  | cons x l ih =>
    obtain ⟨hx, hl⟩ := nodup_cons.mp hl
    have hxu := hsub x mem_cons_self
    unfold ensureUnits
    split
    · next h0 =>
      have hcommit := commitUnit_ok ok hr hxu h0
      have hmiss : r.missing [x] = [(r.window x.1).mapBytes] := by
        rw [missing_cons, if_pos h0]
        rfl
      split
      · next r₁ he =>
        rw [he] at hcommit
        have hf : Frame r (r₁.addRef x) := hcommit.frame.trans (frame_addRef r₁ x)
        have hrefs : ∀ y, (r₁.addRef x).refs y = r.refs y + if y = x then 1 else 0 := by
          intro y
          rw [addRef_refs, hcommit.refs]
        have hspare : ((r₁.addRef x).spare.map Prod.fst).Perm
            ((r.spare.map Prod.fst).diff (r.missing [x])) := by
          rw [hmiss, diff_cons, diff_nil]
          exact hcommit.spare
        refine Ensured.cons hf hx hrefs hspare (ih hl (fun y hy => ?_) (hcommit.done rfl))
        rw [hf.units]
        exact hsub y (mem_cons_of_mem _ hy)
      · next r₁ he =>
        rw [he] at hcommit
        refine ⟨hcommit.frame, hcommit.undone rfl, nofun, fun _ => ⟨[], x, l, rfl, rfl, h0, ?_, ?_⟩⟩
        · intro y
          rw [hcommit.refs]
          rfl
        · show (r₁.spare.map Prod.fst).Perm ((r.spare.map Prod.fst).diff (r.missing [x]))
          rw [hmiss, diff_cons, diff_nil]
          exact hcommit.spare
    · next h0 =>
      have hmiss : r.missing [x] = [] := by
        rw [missing_cons, if_neg h0]
        rfl
      refine Ensured.cons (frame_addRef r x) hx (addRef_refs r x) ?_
        (ih hl (fun y hy => hsub y (mem_cons_of_mem _ hy)) (addRef_ok hr hxu h0))
      rw [hmiss]
      exact .refl _

/-! ### What is kept, and giving it up -/

/-- the slots: none is both mapped and parked, and the prefix is the longest mapped one -/
structure Slots (r : VmmRings) : Prop where
  apart : ∀ s, r.mapped s = true → r.parked s = false
  inBatch : ∀ s, (r.mapped s || r.parked s) = true → s < r.batch
  count : r.mappedSlots = (List.range r.batch).countP r.mapped
  prefix_le : r.mappedPrefix ≤ r.batch
  below : ∀ s < r.mappedPrefix, r.mapped s = true
  stop : r.mapped r.mappedPrefix = false

/-- Everything accounted for: `held` are the units that stay committed. -/
structure Sound (r : VmmRings) (held : List (ℕ × ℕ)) : Prop where
  units : r.UnitsOk held []
  slots : r.Slots

/-- what giving up parked slots leaves alone -/
structure Kept (r r' : VmmRings) : Prop where
  windows : r'.windows = r.windows
  batch : r'.batch = r.batch
  mapped : r'.mapped = r.mapped
  mappedPrefix : r'.mappedPrefix = r.mappedPrefix
  mappedSlots : r'.mappedSlots = r.mappedSlots
  idle : r'.idle = r.idle
  spareCap : r'.spareCap = r.spareCap
  recycle : r'.recycle = r.recycle
  bounded : r'.bounded = r.bounded
  parked : ∀ s, r'.parked s = true → r.parked s = true

namespace Kept

theorem refl (r : VmmRings) : Kept r r := ⟨rfl, rfl, rfl, rfl, rfl, rfl, rfl, rfl, rfl, fun _ h => h⟩

theorem of_frame (h : Frame r r') : Kept r r' :=
  ⟨h.windows, h.batch, h.mapped, h.mappedPrefix, h.mappedSlots, h.idle, h.spareCap, h.recycle, h.bounded,
    fun s hs => by rw [← h.parked]; exact hs⟩

theorem trans {a b c : VmmRings} (h : Kept a b) (h' : Kept b c) : Kept a c where
  windows := h'.windows.trans h.windows
  batch := h'.batch.trans h.batch
  mapped := h'.mapped.trans h.mapped
  mappedPrefix := h'.mappedPrefix.trans h.mappedPrefix
  mappedSlots := h'.mappedSlots.trans h.mappedSlots
  idle := h'.idle.trans h.idle
  spareCap := h'.spareCap.trans h.spareCap
  recycle := h'.recycle.trans h.recycle
  bounded := h'.bounded.trans h.bounded
  parked := fun s hs => h.parked s (h'.parked s hs)

theorem slotUnits (h : Kept r r') (s : ℕ) : r'.slotUnits s = r.slotUnits s := by
  unfold VmmRings.slotUnits
  rw [h.windows]

theorem slotCharge (h : Kept r r') : r'.slotCharge = r.slotCharge := by
  unfold VmmRings.slotCharge
  rw [h.windows]

theorem slots (h : Kept r r') (hr : r.Slots) : r'.Slots := by
  refine ⟨fun s hs => ?_, fun s hs => ?_, ?_, ?_, fun s hs => ?_, ?_⟩
  · rw [h.mapped] at hs
    by_contra hp
    have := h.parked s (by simpa using hp)
    rw [hr.apart s hs] at this
    cases this
  · rw [h.batch]
    apply hr.inBatch
    rw [h.mapped] at hs
    rcases (Bool.or_eq_true _ _).mp hs with hs | hs
    · rw [hs]
      rfl
    · rw [h.parked s hs, Bool.or_true]
  · rw [h.mappedSlots, h.batch, h.mapped]
    exact hr.count
  · rw [h.mappedPrefix, h.batch]
    exact hr.prefix_le
  · rw [h.mapped]
    exact hr.below s (by rw [← h.mappedPrefix]; exact hs)
  · rw [h.mapped, h.mappedPrefix]
    exact hr.stop

end Kept

theorem parkedCount_unpark (hs : slot < r.batch) (hp : r.parked slot = true) :
    ({ r with parked := update r.parked slot false } : VmmRings).parkedCount + 1 =
      r.parkedCount := by
  have := countP_range_add (update r.parked slot false) r.parked hs (update_self _ _ _)
    fun b hb => (update_of_ne hb _ _).symm
  rw [if_pos hp] at this
  exact this.symm

/-- what giving up a parked slot does -/
structure Unparked (r : VmmRings) (slot : ℕ) (held : List (ℕ × ℕ)) (r' : VmmRings) : Prop where
  frame : Frame { r with parked := Function.update r.parked slot false } r'
  kept : Kept r r'
  sound : r'.Sound held
  count : r'.parkedCount + 1 = r.parkedCount
  spare : r'.spare.map Prod.fst = r.spare.map Prod.fst ++ if r.recycle then r.freed (r.slotUnits slot) else []

theorem unpark_ok (hr : r.Sound held) (hp : r.parked slot = true) :
    ∃ r', r.unpark ok slot = some r' ∧ Unparked r slot held r' := by
  have hs : slot < r.batch := hr.slots.inBatch slot (by rw [hp, Bool.or_true])
  obtain ⟨s, hsdef⟩ : ∃ s, s = ({ r with parked := update r.parked slot false } : VmmRings) :=
    ⟨_, rfl⟩
  have hm : r.mapped slot = false := by
    by_contra h
    have := hr.slots.apart slot (by simpa using h)
    rw [hp] at this
    cases this
  have hkept : Kept r s := by
    rw [hsdef]
    refine ⟨rfl, rfl, rfl, rfl, rfl, rfl, rfl, rfl, rfl, fun t ht => ?_⟩
    by_cases he : t = slot
    · rw [he]
      exact hp
    · have : update r.parked slot false t = true := ht
      rwa [update_of_ne he] at this
  have hunits : s.UnitsOk (r.slotUnits slot ++ held) [] := by
    rw [hsdef]
    refine hr.units.unused hs ⟨rfl, rfl, rfl, rfl, rfl, rfl, rfl, rfl⟩ ?_ ?_ fun t ht => ?_
    · rw [hp, Bool.or_true]
    · show (r.mapped slot || update r.parked slot false slot) = false
      rw [hm, update_self]
      rfl
    · show _ = (r.mapped t || update r.parked slot false t)
      rw [update_of_ne ht]
  obtain ⟨r', h', hf, hok, hspare⟩ := releaseUnits_ok ok (nodup_slotUnits r slot) hunits
  refine ⟨r', ?_, ?_⟩
  · unfold unpark
    rw [← hsdef]
    exact h'
  · have hk := hkept.trans (Kept.of_frame hf)
    rw [hsdef] at hf hspare
    refine ⟨hf, hk, ⟨hok, hk.slots hr.slots⟩, ?_, hspare⟩
    rw [hf.parkedCount]
    exact parkedCount_unpark hs hp

theorem lastParked_some (h : r.lastParked = some p) : r.parked p = true :=
  find?_some h

theorem lastParked_none (h : r.lastParked = none) : r.parkedCount = 0 := by
  unfold parkedCount
  rw [countP_eq_zero]
  intro s hs
  exact find?_eq_none.mp h s (mem_reverse.mpr hs)

/-- the turns that `trimLoop` may still take -/
def trimWork (r : VmmRings) : ℕ :=
  r.spare.length + (((List.range r.batch).filter r.parked).map fun p => (r.slotUnits p).length + 1).sum

theorem sum_filter_add {n a : ℕ} (P Q : ℕ → Bool) (f : ℕ → ℕ) (ha : a < n) (hP : P a = true)
    (hQ : Q a = false) (hsame : ∀ b, b ≠ a → Q b = P b) :
    (((range n).filter P).map f).sum = (((range n).filter Q).map f).sum + f a := by
  induction n with
  | zero => omega
  | succ n ih =>
    rw [range_succ, filter_append, filter_append, map_append, map_append,
      sum_append, sum_append]
    by_cases han : a = n
    · subst han
      have hlow : (range a).filter Q = (range a).filter P := by
        apply filter_congr
        intro b hb
        exact hsame b (Nat.ne_of_lt (mem_range.mp hb))
      rw [hlow, filter_cons_of_pos hP, filter_cons_of_neg (by rw [hQ]; exact Bool.false_ne_true)]
      simp
    · have hn := hsame n (Ne.symm han)
      rw [ih (by omega), filter_congr (l := [n]) (p := Q) (q := P) fun b hb => by
        rw [mem_singleton.mp hb, hn]]
      omega

theorem trimWork_unpark (hr : r.Sound held) (hp : r.parked p = true)
    (h : Unparked r p held r') : r'.trimWork < r.trimWork := by
  have hs : p < r.batch := hr.slots.inBatch p (by rw [hp, Bool.or_true])
  have hlen : r'.spare.length ≤ r.spare.length + (r.slotUnits p).length := by
    have := congrArg length h.spare
    rw [length_map, length_append, length_map] at this
    have hfreed : (r.freed (r.slotUnits p)).length ≤ (r.slotUnits p).length := by
      unfold freed
      rw [length_map]
      exact length_filter_le _ _
    split at this
    · omega
    · rw [length_nil] at this
      omega
  have hsum := sum_filter_add r.parked r'.parked (fun p => (r.slotUnits p).length + 1) hs hp
    (by rw [h.frame.parked]; exact update_self _ _ _)
    fun b hb => by rw [h.frame.parked]; exact update_of_ne hb _ _
  unfold trimWork
  rw [hsum, h.kept.batch]
  simp only [h.kept.slotUnits]
  omega

/-- A spare unit goes back to the driver. -/
theorem popSpare_ok {p : ℕ × ℕ} (hr : r.Sound held) (hp : r.spare.getLast? = some p)
    (hs : s = { r with spare := r.spare.dropLast, driver := r.driver.release p.2 }) :
    Kept r s ∧ s.Sound held ∧ s.trimWork < r.trimWork := by
  have hspare : r.spare = r.spare.dropLast ++ [p] := (dropLast_append_getLast? p hp).symm
  have hkept : Kept r s := by
    rw [hs]
    exact ⟨rfl, rfl, rfl, rfl, rfl, rfl, rfl, rfl, rfl, fun _ h => h⟩
  refine ⟨hkept, ⟨?_, hkept.slots hr.slots⟩, ?_⟩
  · rw [hs]
    refine ⟨hr.units.shaped, hr.units.refs, hr.units.held, hr.units.handle, hr.units.resident, ?_⟩
    show ((r.own ++ r.idle ++ r.spare.dropLast).map Prod.snd ++ p.2 :: r.driver.released).Perm
      (range r.driver.made)
    refine Perm.trans ?_ hr.units.owned
    unfold handlesOf
    rw [hspare, perm_iff_count]
    intro a
    simp only [dropLast_concat, map_append, map_cons, map_nil, count_append,
      count_cons, count_nil, nil_append]
    omega
  · have hlen : r.spare.length = r.spare.dropLast.length + 1 := by
      have := congrArg length hspare
      rw [length_append] at this
      exact this
    rw [hs]
    unfold trimWork
    dsimp only
    rw [hlen]
    exact Nat.add_lt_add_right (Nat.lt_succ_self _) _

theorem trimLoop_ok (n : ℕ) (hr : r.Sound held) (hn : r.trimWork < n) :
    ∃ r', r.trimLoop ok n = some r' ∧ Kept r r' ∧ r'.Sound held ∧ r'.spareBytes ≤ r'.spareCap := by
  induction n generalizing r with
  | zero => omega
  | succ n ih =>
    unfold trimLoop
    split
    · next hle => exact ⟨r, rfl, Kept.refl r, hr, hle⟩
    · split
      · next b h hlast =>
        obtain ⟨hk, hs, hw⟩ := popSpare_ok hr hlast rfl
        obtain ⟨r', h', hk', hs', hle⟩ := ih hs (by omega)
        exact ⟨r', h', hk.trans hk', hs', hle⟩
      · next hlast =>
        split
        · next p hp =>
          obtain ⟨r₁, h₁, hun⟩ := unpark_ok ok hr (lastParked_some hp)
          have hw := trimWork_unpark hr (lastParked_some hp) hun
          obtain ⟨r', h', hk', hs', hle⟩ := ih hun.sound (by omega)
          refine ⟨r', ?_, hun.kept.trans hk', hs', hle⟩
          rw [h₁]
          exact h'
        · next hp =>
          refine ⟨r, rfl, Kept.refl r, hr, ?_⟩
          unfold spareBytes
          rw [getLast?_eq_none_iff.mp hlast, lastParked_none hp, Nat.zero_mul]
          exact Nat.zero_le _

theorem trimSpare_ok (hr : r.Sound held) :
    ∃ r', r.trimSpare ok = some r' ∧ Kept r r' ∧ r'.Sound held ∧ r'.spareBytes ≤ r'.spareCap :=
  trimLoop_ok ok _ hr (Nat.lt_succ_self _)

end VmmRings

end Plow.Rings
