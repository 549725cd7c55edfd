import Plow.Rings.Units

/-!
# What the units account for

`UnitsOk r held hand` ties the units of the rings to the slots: a unit has as many references as
slots use it, and those of the units in `held`; it has a handle of its own exactly while it has
references; and every handle ever made is in one place, `hand` being those on their way.  Committing
a unit and giving one up keep it (`commitUnit_ok`, `releaseUnit_ok`), and so do the loops.
-/

namespace Plow.Rings

open Lib List Function

theorem filterMap_update_perm {A B : Type} [DecidableEq A] {l : List A} (hl : l.Nodup) {x : A}
    (hx : x ∈ l) {f : A → Option B} (hf : f x = none) (b : B) :
    (l.filterMap (update f x (some b))).Perm (b :: l.filterMap f) := by
  induction l with
  | nil => cases hx
  | cons a l ih =>
    obtain ⟨ha, hl⟩ := nodup_cons.mp hl
    by_cases hax : a = x
    · subst hax
      have hsame : l.filterMap (update f a (some b)) = l.filterMap f := by
        apply filterMap_congr
        intro y hy
        exact update_of_ne (fun he : y = a => ha (he ▸ hy)) _ _
      rw [filterMap_cons_some (update_self a _ f), filterMap_cons_none hf, hsame]
    · have hx : x ∈ l := (mem_cons.mp hx).resolve_left (Ne.symm hax)
      have hfa : update f x (some b) a = f a := update_of_ne hax _ _
      cases hv : f a with
      | none =>
        rw [filterMap_cons_none (hfa.trans hv), filterMap_cons_none hv]
        exact ih hl hx
      | some c =>
        rw [filterMap_cons_some (hfa.trans hv), filterMap_cons_some hv]
        exact ((ih hl hx).cons c).trans (Perm.swap b c _)

namespace VmmRings
variable (ok : ℕ → Bool) {r r' : VmmRings} {x : ℕ × ℕ} {held l : List (ℕ × ℕ)} {hand : List ℕ} {h : ℕ}

def own (r : VmmRings) : List (ℕ × ℕ) :=
  r.units.filterMap fun x => (r.handles x).map fun h => ((r.window x.1).mapBytes, h)

def handlesOf (r : VmmRings) : List ℕ :=
  (r.own ++ r.idle ++ r.spare).map Prod.snd ++ r.driver.released

structure UnitsOk (r : VmmRings) (held : List (ℕ × ℕ)) (hand : List ℕ) : Prop where
  shaped : r.Shaped
  refs : ∀ x, r.refs x = r.uses x + held.count x
  held : ∀ x ∈ held, x ∈ r.units
  handle : ∀ x, (r.handles x).isSome = true ↔ 0 < r.refs x
  resident : r.residentBytes = (r.own.map Prod.fst).sum
  owned : (hand ++ r.handlesOf).Perm (List.range r.driver.made)

theorem own_set (hx : x ∈ r.units) (hno : r.handles x = none) (h : ℕ) :
    ({ r with handles := update r.handles x (some h) } : VmmRings).own.Perm
      (((r.window x.1).mapBytes, h) :: r.own) := by
  have hfun : (fun y : ℕ × ℕ => (update r.handles x (some h) y).map fun h =>
      ((r.window y.1).mapBytes, h)) = update (fun y : ℕ × ℕ => (r.handles y).map fun h =>
        ((r.window y.1).mapBytes, h)) x (some ((r.window x.1).mapBytes, h)) := by
    funext y
    by_cases hy : y = x
    · rw [hy, update_self, update_self]
      rfl
    · rw [update_of_ne hy, update_of_ne hy]
  show (r.units.filterMap fun y : ℕ × ℕ => (update r.handles x (some h) y).map fun h =>
    ((r.window y.1).mapBytes, h)).Perm _
  rw [hfun]
  refine filterMap_update_perm (nodup_units r) hx ?_ _
  show (r.handles x).map _ = none
  rw [hno]
  rfl

theorem own_unset (hx : x ∈ r.units) (hh : r.handles x = some h) :
    r.own.Perm (((r.window x.1).mapBytes, h) ::
      ({ r with handles := update r.handles x none } : VmmRings).own) := by
  obtain ⟨s, hs⟩ : ∃ s, s = ({ r with handles := update r.handles x none } : VmmRings) := ⟨_, rfl⟩
  have hset := @own_set s x (by rw [hs]; exact hx) (by rw [hs]; exact update_self x _ _) h
  have hback : ({ s with handles := update s.handles x (some h) } : VmmRings) = r := by
    rw [hs]
    show ({ r with handles := _ } : VmmRings) = r
    rw [update_idem, ← hh, update_eq_self]
  rw [hback] at hset
  rw [← hs]
  refine hset.trans ?_
  rw [hs]
  exact .refl _

/-! ### What stays -/

/-- what the unit operations leave alone -/
structure Frame (r r' : VmmRings) : Prop where
  windows : r'.windows = r.windows
  batch : r'.batch = r.batch
  mapped : r'.mapped = r.mapped
  mappedPrefix : r'.mappedPrefix = r.mappedPrefix
  mappedSlots : r'.mappedSlots = r.mappedSlots
  idle : r'.idle = r.idle
  spareCap : r'.spareCap = r.spareCap
  recycle : r'.recycle = r.recycle
  bounded : r'.bounded = r.bounded
  parked : r'.parked = r.parked

namespace Frame

theorem refl (r : VmmRings) : Frame r r := ⟨rfl, rfl, rfl, rfl, rfl, rfl, rfl, rfl, rfl, rfl⟩

theorem trans {a b c : VmmRings} (h : Frame a b) (h' : Frame b c) : Frame a c where
  windows := h'.windows.trans h.windows
  batch := h'.batch.trans h.batch
  mapped := h'.mapped.trans h.mapped
  mappedPrefix := h'.mappedPrefix.trans h.mappedPrefix
  mappedSlots := h'.mappedSlots.trans h.mappedSlots
  idle := h'.idle.trans h.idle
  spareCap := h'.spareCap.trans h.spareCap
  recycle := h'.recycle.trans h.recycle
  bounded := h'.bounded.trans h.bounded
  parked := h'.parked.trans h.parked

theorem units (h : Frame r r') : r'.units = r.units := by
  unfold VmmRings.units
  rw [h.windows]

theorem window (h : Frame r r') (i : ℕ) : r'.window i = r.window i := by
  unfold VmmRings.window
  rw [h.windows]

theorem slotUnits (h : Frame r r') (s : ℕ) : r'.slotUnits s = r.slotUnits s := by
  unfold VmmRings.slotUnits
  rw [h.windows]

theorem parkedCount (h : Frame r r') : r'.parkedCount = r.parkedCount := by
  unfold VmmRings.parkedCount
  rw [h.batch, h.parked]

theorem uses (h : Frame r r') : r'.uses = r.uses :=
  uses_congr h.windows h.batch fun s => by rw [h.mapped, h.parked]

end Frame

def Touched (r r' : VmmRings) : Prop :=
  r' = { r with idleUnits := r'.idleUnits, driver := { r.driver with calls := r'.driver.calls } }

theorem Touched.frame (h : Touched r r') : Frame r r' := by
  rw [h]
  exact ⟨rfl, rfl, rfl, rfl, rfl, rfl, rfl, rfl, rfl, rfl⟩

theorem Touched.spare (h : Touched r r') : r'.spare = r.spare := by
  rw [h]

theorem Touched.refs (h : Touched r r') : r'.refs = r.refs := by
  rw [h]

theorem Touched.unitsOk (h : Touched r r') (hr : r.UnitsOk held hand) : r'.UnitsOk held hand := by
  rw [h]
  exact ⟨hr.shaped, hr.refs, hr.held, hr.handle, hr.resident, hr.owned⟩

theorem map_driver (d : Driver) (ok : ℕ → Bool) :
    (d.map ok).1 = { d with calls := (d.map ok).1.calls } := by
  unfold Driver.map
  split <;> rfl

theorem backIdle_touched (x : ℕ × ℕ) : Touched r (r.backIdle ok x).1 := by
  unfold backIdle Touched
  split
  · rfl
  · have hd := map_driver r.driver ok
    split
    · next d he =>
      rw [he] at hd
      change d = _ at hd
      show ({ r with driver := d, idleUnits := _ } : VmmRings) = _
      rw [hd]
    · next d he =>
      rw [he] at hd
      change d = _ at hd
      show ({ r with driver := d } : VmmRings) = _
      rw [hd]

/-! ### Committing a unit -/

/-- A handle is in hand: a spare one of the size, or a new one. -/
theorem takeHandle_ok (hr : r.UnitsOk held hand) (mb : ℕ) :
    Frame r (r.takeHandle ok mb).1 ∧ (r.takeHandle ok mb).1.refs = r.refs ∧
      (r.takeHandle ok mb).1.handles = r.handles ∧
      (((r.takeHandle ok mb).1.spare.map Prod.fst).Perm ((r.spare.map Prod.fst).erase mb)) ∧
      (r.takeHandle ok mb).1.UnitsOk held ((r.takeHandle ok mb).2.toList ++ hand) := by
  unfold takeHandle
  cases hi : r.spare.findIdx? fun p => decide (p.1 = mb) with
  | some i =>
    obtain ⟨hlt, hp, -⟩ := findIdx?_eq_some_iff_getElem.mp hi
    have hget : r.spare[i]? = some r.spare[i] := getElem?_eq_getElem hlt
    have hperm := swapRemove_perm hget
    have hmb : r.spare[i].1 = mb := of_decide_eq_true hp
    dsimp only
    rw [hget]
    refine ⟨⟨rfl, rfl, rfl, rfl, rfl, rfl, rfl, rfl, rfl, rfl⟩, rfl, rfl, ?_,
      hr.shaped, hr.refs, hr.held, hr.handle, hr.resident, ?_⟩
    · have := (hperm.map Prod.fst).erase mb
      rw [map_cons, hmb, erase_cons_head] at this
      exact this
    · refine Perm.trans ?_ hr.owned
      show ([r.spare[i].2] ++ hand ++ ((r.own ++ r.idle ++ swapRemove r.spare i).map Prod.snd ++
        r.driver.released)).Perm (hand ++ ((r.own ++ r.idle ++ r.spare).map Prod.snd ++ r.driver.released))
      have hp2 := hperm.map Prod.snd
      rw [map_cons] at hp2
      rw [map_append, map_append, map_append, map_append]
      rw [perm_iff_count]
      intro a
      have := hp2.count_eq a
      simp only [count_append, count_cons, count_nil] at this ⊢
      omega
  | none =>
    have hno : mb ∉ r.spare.map Prod.fst := by
      intro hmem
      obtain ⟨p, hp, hpb⟩ := mem_map.mp hmem
      have := findIdx?_eq_none_iff.mp hi p hp
      simp [hpb] at this
    dsimp only
    unfold Driver.create
    split
    · refine ⟨⟨rfl, rfl, rfl, rfl, rfl, rfl, rfl, rfl, rfl, rfl⟩, rfl, rfl, ?_,
        hr.shaped, hr.refs, hr.held, hr.handle, hr.resident, ?_⟩
      · rw [erase_of_not_mem hno]
      · show ([r.driver.made] ++ hand ++ r.handlesOf).Perm (range (r.driver.made + 1))
        rw [range_succ, append_assoc]
        exact (hr.owned.cons _).trans (perm_append_singleton _ _).symm
    · refine ⟨⟨rfl, rfl, rfl, rfl, rfl, rfl, rfl, rfl, rfl, rfl⟩, rfl, rfl, ?_,
        hr.shaped, hr.refs, hr.held, hr.handle, hr.resident, hr.owned⟩
      rw [erase_of_not_mem hno]

/-- A handle in hand is mapped under a unit that nothing refers to yet, or given back. -/
theorem mapUnit_ok (hr : r.UnitsOk held (h :: hand)) (hx : x ∈ r.units) (h0 : r.refs x = 0) :
    Frame r (r.mapUnit ok x h).1 ∧ (r.mapUnit ok x h).1.refs = r.refs ∧
      (r.mapUnit ok x h).1.spare = r.spare ∧
      ((r.mapUnit ok x h).2 = true → ((r.mapUnit ok x h).1.addRef x).UnitsOk (x :: held) hand) ∧
      ((r.mapUnit ok x h).2 = false → (r.mapUnit ok x h).1.UnitsOk held hand) := by
  have hno : r.handles x = none := by
    have := hr.handle x
    rw [h0] at this
    simpa using this
  have hd := map_driver r.driver ok
  unfold mapUnit
  split
  · next d he =>
    rw [he] at hd
    change d = _ at hd
    refine ⟨⟨rfl, rfl, rfl, rfl, rfl, rfl, rfl, rfl, rfl, rfl⟩, rfl, rfl, fun _ => ?_, nofun⟩
    have hset := own_set hx hno h
    refine ⟨hr.shaped, fun y => ?_, fun y hy => ?_, fun y => ?_, ?_, ?_⟩
    · show update r.refs x (r.refs x + 1) y = r.uses y + (x :: held).count y
      rw [count_cons]
      by_cases hy : y = x
      · rw [hy, update_self, hr.refs x]
        simp
        omega
      · rw [update_of_ne hy, hr.refs y, if_neg (by simpa using Ne.symm hy)]
        rfl
    · rcases mem_cons.mp hy with rfl | hy
      · exact hx
      · exact hr.held y hy
    · show (update r.handles x (some h) y).isSome = true ↔
        0 < update r.refs x (r.refs x + 1) y
      by_cases hy : y = x
      · rw [hy, update_self, update_self]
        simp
      · rw [update_of_ne hy, update_of_ne hy]
        exact hr.handle y
    · show r.residentBytes + (r.window x.1).mapBytes = (map Prod.fst
        ({ r with handles := update r.handles x (some h) } : VmmRings).own).sum
      rw [(hset.map Prod.fst).sum_eq, map_cons, sum_cons, hr.resident, Nat.add_comm]
    · show (hand ++ ((({ r with handles := update r.handles x (some h) } : VmmRings).own ++
        r.idle ++ r.spare).map Prod.snd ++ d.released)).Perm (range d.made)
      rw [hd]
      refine Perm.trans ?_ hr.owned
      have hset := hset.map Prod.snd
      unfold handlesOf
      rw [perm_iff_count]
      intro a
      have := hset.count_eq a
      simp only [map_append, map_cons, count_append, count_cons] at this ⊢
      omega
  · next d he =>
    rw [he] at hd
    change d = _ at hd
    refine ⟨⟨rfl, rfl, rfl, rfl, rfl, rfl, rfl, rfl, rfl, rfl⟩, rfl, rfl, nofun, fun _ => ?_⟩
    refine ⟨hr.shaped, hr.refs, hr.held, hr.handle, hr.resident, ?_⟩
    show (hand ++ ((r.own ++ r.idle ++ r.spare).map Prod.snd ++ h :: d.released)).Perm (range d.made)
    rw [hd]
    refine Perm.trans ?_ hr.owned
    unfold handlesOf
    rw [perm_iff_count]
    intro a
    simp only [count_append, count_cons, cons_append]
    omega

/-- what committing a unit does -/
structure Committed (r : VmmRings) (x : ℕ × ℕ) (held : List (ℕ × ℕ)) (p : VmmRings × Bool) : Prop where
  frame : Frame r p.1
  refs : p.1.refs = r.refs
  spare : (p.1.spare.map Prod.fst).Perm ((r.spare.map Prod.fst).erase (r.window x.1).mapBytes)
  done : p.2 = true → (p.1.addRef x).UnitsOk (x :: held) []
  undone : p.2 = false → p.1.UnitsOk held []

theorem commitUnit_ok (hr : r.UnitsOk held []) (hx : x ∈ r.units) (h0 : r.refs x = 0) :
    Committed r x held (r.commitUnit ok x) := by
  -- where it fails the unit goes back to the idle mapping
  have hback : ∀ r₁ : VmmRings, Committed r x held (r₁, false) →
      Committed r x held (if r.idleUnits x then (r₁.backIdle ok x).1 else r₁, false) := by
    intro r₁ hp
    have ht : Touched r₁ (if r.idleUnits x then (r₁.backIdle ok x).1 else r₁) := by
      split
      · exact backIdle_touched ok x
      · rfl
    refine ⟨hp.frame.trans ht.frame, ht.refs.trans hp.refs, ?_, fun h => Bool.noConfusion h,
      fun _ => ht.unitsOk (hp.undone rfl)⟩
    show (map Prod.fst (if r.idleUnits x then (r₁.backIdle ok x).1 else r₁).spare).Perm _
    rw [ht.spare]
    exact hp.spare
  obtain ⟨r₀, hr₀⟩ : ∃ r₀, r₀ = if r.idleUnits x then r.unmapIdle x else r := ⟨_, rfl⟩
  have ht : Touched r r₀ := by
    rw [hr₀]
    split <;> rfl
  have htake := takeHandle_ok ok (ht.unitsOk hr) (r₀.window x.1).mapBytes
  unfold commitUnit
  dsimp only
  rw [← hr₀]
  rw [ht.frame.window x.1, ht.spare, ht.refs] at htake
  rw [ht.frame.window x.1]
  generalize r₀.takeHandle ok (r.window x.1).mapBytes = q at htake ⊢
  obtain ⟨r₁, h⟩ := q
  obtain ⟨hf, hrefs, -, hspare, hunits⟩ := htake
  have hfr := ht.frame.trans hf
  cases h with
  | none => exact hback _ ⟨hfr, hrefs, hspare, fun h => Bool.noConfusion h, fun _ => hunits⟩
  | some h =>
    obtain ⟨hf', hrefs', hspare', hdone, hundone⟩ := mapUnit_ok ok (x := x) hunits
      (by rw [hfr.units]; exact hx) (by rw [hrefs]; exact h0)
    have hmap : Committed r x held (r₁.mapUnit ok x h) := by
      refine ⟨hfr.trans hf', hrefs'.trans hrefs, ?_, hdone, hundone⟩
      rw [hspare']
      exact hspare
    dsimp only
    generalize r₁.mapUnit ok x h = p at hmap ⊢
    obtain ⟨r₂, b⟩ := p
    cases b with
    | true => exact hmap
    | false => exact hback _ hmap

/-! ### Giving a unit up -/

/-- what giving up a unit does -/
structure Released (r : VmmRings) (x : ℕ × ℕ) (held : List (ℕ × ℕ)) (r' : VmmRings) : Prop where
  frame : Frame r r'
  refs : r'.refs = Function.update r.refs x (r.refs x - 1)
  spare : r'.spare.map Prod.fst = r.spare.map Prod.fst ++
    if r.recycle ∧ r.refs x = 1 then [(r.window x.1).mapBytes] else []
  units : r'.UnitsOk held []

theorem releaseUnit_ok (hr : r.UnitsOk (x :: held) []) :
    ∃ r', r.releaseUnit ok x = some r' ∧ Released r x held r' := by
  have hx : x ∈ r.units := hr.held x mem_cons_self
  have hpos : r.refs x = r.uses x + held.count x + 1 := by
    rw [hr.refs x, count_cons_self]
    omega
  have hrefs : ∀ y, update r.refs x (r.refs x - 1) y = r.uses y + held.count y := by
    intro y
    by_cases hy : y = x
    · rw [hy, update_self]
      omega
    · rw [update_of_ne hy, hr.refs y, count_cons_of_ne (Ne.symm hy)]
  have hheld : ∀ y ∈ held, y ∈ r.units := fun y hy => hr.held y (mem_cons_of_mem _ hy)
  unfold releaseUnit
  rw [if_neg (by omega)]
  simp only [update_self]
  by_cases h1 : r.refs x - 1 ≠ 0
  · -- somebody else refers to it
    rw [if_pos h1]
    refine ⟨_, rfl, ⟨rfl, rfl, rfl, rfl, rfl, rfl, rfl, rfl, rfl, rfl⟩, rfl, ?_, hr.shaped, hrefs, hheld,
      fun y => ?_, hr.resident, hr.owned⟩
    · rw [if_neg fun h => by omega, append_nil]
    · show (r.handles y).isSome = true ↔ 0 < update r.refs x (r.refs x - 1) y
      by_cases hy : y = x
      · rw [hy, update_self, hr.handle x]
        omega
      · rw [update_of_ne hy]
        exact hr.handle y
  · rw [if_neg h1]
    obtain ⟨h, hh⟩ := Option.isSome_iff_exists.mp ((hr.handle x).mpr (by omega))
    rw [hh]
    refine ⟨_, rfl, ?_⟩
    have hperm := own_unset hx hh
    obtain ⟨s, hs⟩ : ∃ s, s = ({ r with refs := update r.refs x (r.refs x - 1) }
      : VmmRings).keepHandle x h := ⟨_, rfl⟩
    have hkept : Released r x held s := by
      have hsum : r.residentBytes - (r.window x.1).mapBytes = (map Prod.fst
          ({ r with handles := update r.handles x none } : VmmRings).own).sum := by
        have hsum := hr.resident.trans (hperm.map Prod.fst).sum_eq
        rw [map_cons, sum_cons] at hsum
        exact Nat.sub_eq_of_eq_add' hsum
      have hhandle : ∀ y, (update r.handles x none y).isSome = true ↔
          0 < update r.refs x (r.refs x - 1) y := by
        intro y
        by_cases hy : y = x
        · rw [hy, update_self, update_self]
          exact ⟨nofun, fun h => absurd (Nat.pos_iff_ne_zero.mp h) h1⟩
        · rw [update_of_ne hy, update_of_ne hy]
          exact hr.handle y
      have hcount := fun a => (hperm.map Prod.snd).count_eq a
      rw [hs]
      unfold keepHandle
      dsimp only
      split
      · next hrec =>
        refine ⟨⟨rfl, rfl, rfl, rfl, rfl, rfl, rfl, rfl, rfl, rfl⟩, rfl, ?_, hr.shaped, hrefs, hheld, hhandle,
          hsum, ?_⟩
        · rw [if_pos ⟨hrec, by omega⟩]
          exact map_append
        · show ((({ r with handles := update r.handles x none } : VmmRings).own ++ r.idle ++
            (r.spare ++ [((r.window x.1).mapBytes, h)])).map Prod.snd ++ r.driver.released).Perm
              (range r.driver.made)
          refine Perm.trans ?_ hr.owned
          unfold handlesOf
          rw [perm_iff_count]
          intro a
          have := hcount a
          simp only [map_append, map_cons, map_nil, count_append, count_cons,
            count_nil, nil_append] at this ⊢
          omega
      · next hrec =>
        refine ⟨⟨rfl, rfl, rfl, rfl, rfl, rfl, rfl, rfl, rfl, rfl⟩, rfl, ?_, hr.shaped, hrefs, hheld, hhandle,
          hsum, ?_⟩
        · rw [if_neg fun h => hrec h.1]
          exact (append_nil _).symm
        · show ((({ r with handles := update r.handles x none } : VmmRings).own ++ r.idle ++
            r.spare).map Prod.snd ++ h :: r.driver.released).Perm (range r.driver.made)
          refine Perm.trans ?_ hr.owned
          unfold handlesOf
          rw [perm_iff_count]
          intro a
          have := hcount a
          simp only [map_append, map_cons, count_append, count_cons,
            nil_append] at this ⊢
          omega
    beta_reduce
    rw [← hs]
    have hback : Touched s (s.backIdle ok x).1 := backIdle_touched ok x
    refine ⟨hkept.frame.trans hback.frame, hback.refs.trans hkept.refs, ?_, hback.unitsOk hkept.units⟩
    rw [hback.spare]
    exact hkept.spare

end VmmRings

end Plow.Rings
