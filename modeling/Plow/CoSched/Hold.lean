import Plow.CoSched.Turn

/-!
# One hold at a time

`handOff_spec` says once what a hand-off does.  `Inv` ties the models to the queue and the channels;
every step keeps it (`step_inv`) but one: a guard that runs for a discarded waiter while the device
is in use hands it on a second time.  So runs without that step are sound (`turn_sound`).
-/

set_option linter.unusedSectionVars false

namespace Plow.CoSched
open Lib List Function Option

/-! ### A hand-off -/

/-- the device goes to `w` and the waiters `dead` leave the queue with it -/
structure Sends (now : Instant) (s s' : PrioState) (chan chan' : ℕ → Chan) (w : Waiter)
    (dead : List Waiter) : Prop where
  queue : s.waiters.Perm (w :: (dead ++ s'.waiters))
  live : chan w.seq = .empty
  dead : ∀ d ∈ dead, chan d.seq ≠ .empty
  best : ∀ u ∈ s.waiters, chan u.seq = .empty → s.key now w ≤ s.key now u
  held : s'.held = s.held
  seq : s'.seq = s.seq
  chan : chan' = Function.update chan w.seq .sent

/-- all waiters were cancelled and the device is free -/
structure Frees (s s' : PrioState) (chan chan' : ℕ → Chan) : Prop where
  dead : ∀ u ∈ s.waiters, chan u.seq ≠ .empty
  waiters : s'.waiters = []
  held : s'.held = false
  seq : s'.seq = s.seq
  chan : chan' = chan

theorem frees_nil {s : PrioState} (chan : ℕ → Chan) (h : s.waiters = []) :
    Frees s { s with held := false } chan chan where
  dead u hu := by
    rw [h] at hu
    cases hu
  waiters := h
  held := rfl
  seq := rfl
  chan := rfl

theorem handOffLoop_spec (now : Instant) (n : ℕ) (s : PrioState) (chan : ℕ → Chan)
    (hn : s.waiters.length ≤ n) :
    (∃ w dead, Sends now s (handOffLoop now n s chan).1 chan (handOffLoop now n s chan).2 w dead) ∨
      Frees s (handOffLoop now n s chan).1 chan (handOffLoop now n s chan).2 := by
  induction n generalizing s with
  | zero => exact .inr (frees_nil chan (length_eq_zero_iff.mp (Nat.le_zero.mp hn)))
  | succ n ih =>
    unfold handOffLoop
    split
    · next hnone => exact .inr (frees_nil chan (PrioState.tightest_none hnone))
    · next w i htop =>
      have hget := PrioState.tightest_get htop
      have hperm := swapRemove_perm hget
      simp only
      split
      · next hlive =>
        refine .inl ⟨w, [], ?_, hlive, nofun, ?_, rfl, rfl, rfl⟩
        · exact hperm.symm
        · exact fun u hu _ => PrioState.tightest_le htop hu
      · next hdead =>
        have hlen : (swapRemove s.waiters i).length ≤ n := by
          have := hperm.length_eq
          rw [length_cons] at this
          omega
        rcases ih { s with waiters := swapRemove s.waiters i } hlen with ⟨v, dead, h⟩ | h
        · -- the closed receiver leaves the queue, the rest decides
          refine .inl ⟨v, w :: dead, ?_, h.live, ?_, ?_, h.held, h.seq, h.chan⟩
          · refine hperm.symm.trans ((h.queue.cons w).trans ?_)
            exact List.Perm.swap _ _ _
          · intro d hd
            rcases mem_cons.mp hd with rfl | hd
            · exact hdead
            · exact h.dead d hd
          · intro u hu hlive
            rcases mem_cons.mp (hperm.symm.subset hu) with rfl | hu
            · exact absurd hlive hdead
            · exact h.best u hu hlive
        · refine .inr ⟨?_, h.waiters, h.held, h.seq, h.chan⟩
          intro u hu
          rcases mem_cons.mp (hperm.symm.subset hu) with rfl | hu
          · exact hdead
          · exact h.dead u hu

theorem handOff_spec (now : Instant) (s : PrioState) (chan : ℕ → Chan) :
    (∃ w dead, Sends now s (handOff now s chan).1 chan (handOff now s chan).2 w dead) ∨
      Frees s (handOff now s chan).1 chan (handOff now s chan).2 :=
  handOffLoop_spec now s.waiters.length s chan (le_refl _)

theorem handOff_waiters {now : Instant} {s : PrioState} {chan : ℕ → Chan} {u : Waiter}
    (hu : u ∈ (handOff now s chan).1.waiters) : u ∈ s.waiters := by
  rcases handOff_spec now s chan with ⟨w, dead, h⟩ | h
  · refine h.queue.symm.subset ?_
    exact mem_cons_of_mem _ (mem_append_right _ hu)
  · rw [h.waiters] at hu
    cases hu

namespace Sys
variable {P : Type} [DecidableEq P] {s s' : Sys P} {p q r : P} {now since : Instant} {pc : Pc} {seq : ℕ}
  {handed : Bool} {due : Due} {o : Op P}

/-! ### The invariant -/

def number : Pc → Option ℕ
  | .waiting seq => some seq
  | .cancelled seq _ => some seq
  | _ => none

/-- the model's point, its channel and the queue agree -/
def Tied (s : Sys P) (p : P) : Prop :=
  match s.task p with
  | .waiting seq => (s.chan seq = .empty ∧ s.Queued seq) ∨ (s.chan seq = .sent ∧ ¬ s.Queued seq)
  | .cancelled seq handed => s.chan seq = .closed ∧ (handed = true → ¬ s.Queued seq)
  | _ => True

structure Inv (s : Sys P) : Prop where
  nodup : (s.prio.waiters.map Waiter.seq).Nodup
  le : ∀ p n, number (s.task p) = some n → n ≤ s.prio.seq
  inj : ∀ p q n, number (s.task p) = some n → number (s.task q) = some n → p = q
  tied : ∀ p, s.Tied p
  owned : ∀ w ∈ s.prio.waiters, ∃ p, number (s.task p) = some w.seq
  queue : s.prio.held = false → s.prio.waiters = []
  one : ∀ p q, s.Uses p → s.Uses q → p = q
  held : s.prio.held = true ↔ ∃ p, s.Uses p

theorem inv_new (maxWait : Duration) : (new maxWait : Sys P).Inv where
  nodup := nodup_nil
  le _ _ h := nomatch h
  inj _ _ _ h := nomatch h
  tied _ := trivial
  owned _ hw := nomatch hw
  queue _ := rfl
  one _ _ h := h.elim
  held := ⟨(fun h => nomatch h), fun ⟨_, h⟩ => h.elim⟩

theorem Inv.sound (h : s.Inv) : s.Sound := by
  refine ⟨h.one, fun hno => ?_⟩
  have hheld : s.prio.held = false := by
    by_contra hne
    obtain ⟨p, hp⟩ := h.held.mp (eq_true_of_ne_false hne)
    exact hno p hp
  refine ⟨hheld, fun w hw => ?_⟩
  rw [h.queue hheld] at hw
  cases hw

/-! ### Models that do not move -/

/-- a step leaves the model and its channel alone -/
structure Still (s s' : Sys P) (r : P) : Prop where
  task : s'.task r = s.task r
  chan : ∀ n, number (s.task r) = some n → s'.chan n = s.chan n

theorem Still.uses (h : Still s s' r) : s'.Uses r ↔ s.Uses r := by
  have hc := h.chan
  unfold Uses
  rw [h.task]
  match ht : s.task r with
  | .waiting seq =>
    rw [ht] at hc
    show s'.chan seq = .sent ↔ s.chan seq = .sent
    rw [hc seq rfl]
  | .idle => exact Iff.rfl
  | .holding _ => exact Iff.rfl
  | .yielding _ => exact Iff.rfl
  | .acquiring _ => exact Iff.rfl
  | .cancelled _ _ => exact Iff.rfl

theorem Still.tied (h : Still s s' r) (ht : s.Tied r)
    (hq : ∀ n, number (s.task r) = some n → s'.Queued n → s.Queued n)
    (hl : ∀ n, number (s.task r) = some n → s.chan n = .empty → s.Queued n → s'.Queued n) :
    s'.Tied r := by
  have hc := h.chan
  unfold Tied at *
  rw [h.task]
  match hr : s.task r with
  | .waiting seq =>
    rw [hr] at ht hc hq hl
    show (s'.chan seq = .empty ∧ s'.Queued seq) ∨ (s'.chan seq = .sent ∧ ¬ s'.Queued seq)
    rw [hc seq rfl]
    rcases ht with ⟨he, hin⟩ | ⟨hsent, hout⟩
    · exact .inl ⟨he, hl seq rfl he hin⟩
    · exact .inr ⟨hsent, fun hin => hout (hq seq rfl hin)⟩
  | .cancelled seq handed =>
    rw [hr] at ht hc hq
    show s'.chan seq = .closed ∧ (handed = true → ¬ s'.Queued seq)
    rw [hc seq rfl]
    exact ⟨ht.1, fun hh hin => ht.2 hh (hq seq rfl hin)⟩
  | .idle => exact trivial
  | .holding _ => exact trivial
  | .yielding _ => exact trivial
  | .acquiring _ => exact trivial

theorem tied_of_number (h : number (s.task r) = none) : s.Tied r := by
  unfold Tied
  match hr : s.task r with
  | .waiting _ => rw [hr] at h; cases h
  | .cancelled _ _ => rw [hr] at h; cases h
  | .idle => exact trivial
  | .holding _ => exact trivial
  | .yielding _ => exact trivial
  | .acquiring _ => exact trivial

theorem not_uses_of_number {n : ℕ} (h : s.Tied r) (hn : number (s.task r) = some n)
    (hq : s.Queued n) : ¬ s.Uses r := by
  unfold Tied at h
  unfold Uses
  match hr : s.task r with
  | .waiting seq =>
    rw [hr] at h hn
    cases hn
    rcases h with ⟨he, -⟩ | ⟨-, hnq⟩
    · show ¬ s.chan _ = .sent
      rw [he]
      exact nofun
    · exact absurd hq hnq
  | .cancelled seq handed =>
    rw [hr] at h hn
    cases hn
    exact fun hh => h.2 hh hq
  | .idle => exact id
  | .holding _ => rw [hr] at hn; cases hn
  | .yielding _ => rw [hr] at hn; cases hn
  | .acquiring _ => exact id

theorem Inv.waiting (h : s.Inv) {w : Waiter} (hw : w ∈ s.prio.waiters) (hl : s.Live w) :
    ∃ q, s.task q = .waiting w.seq := by
  obtain ⟨q, hq⟩ := h.owned w hw
  refine ⟨q, ?_⟩
  have ht := h.tied q
  unfold Tied at ht
  match hr : s.task q with
  | .waiting seq =>
    rw [hr] at hq
    cases hq
    rfl
  | .cancelled seq handed =>
    rw [hr] at hq ht
    cases hq
    have : s.chan w.seq = .closed := ht.1
    rw [show s.chan w.seq = .empty from hl] at this
    cases this
  | .idle => rw [hr] at hq; cases hq
  | .holding _ => rw [hr] at hq; cases hq
  | .yielding _ => rw [hr] at hq; cases hq
  | .acquiring _ => rw [hr] at hq; cases hq

/-! ### The steps -/

theorem task_update (hr : r ≠ p) : update s.task p pc r = s.task r :=
  update_of_ne hr _ _

/-- The last user hands the device on, or nobody used it. -/
theorem pass_inv (h : s.Inv) (hall : ∀ q, s.Uses q → q = p) (hpc : number pc = none)
    (hfree : ∀ t : Sys P, t.task p = pc → ¬ t.Uses p)
    (hout : ∀ n, number (s.task p) = some n → ¬ s.Queued n) : (s.pass p now pc).Inv := by
  have htp : (s.pass p now pc).task p = pc := update_self ..
  have htask : ∀ r, r ≠ p → (s.pass p now pc).task r = s.task r := fun r hr => task_update hr
  have hnum : ∀ {r n}, number ((s.pass p now pc).task r) = some n →
      r ≠ p ∧ number (s.task r) = some n := by
    intro r n hr
    have hne : r ≠ p := by
      rintro rfl
      rw [htp, hpc] at hr
      cases hr
    exact ⟨hne, htask r hne ▸ hr⟩
  have hnot : ¬ (s.pass p now pc).Uses p := hfree _ htp
  have hinj : ∀ q r n, number ((s.pass p now pc).task q) = some n →
      number ((s.pass p now pc).task r) = some n → q = r := fun q r n hq hr =>
    h.inj q r n (hnum hq).2 (hnum hr).2
  have hownp : ∀ w ∈ s.prio.waiters, ∃ q, q ≠ p ∧ number (s.task q) = some w.seq := by
    intro w hw
    obtain ⟨q, hq⟩ := h.owned w hw
    refine ⟨q, ?_, hq⟩
    rintro rfl
    exact hout _ hq ⟨w, hw, rfl⟩
  have howned : ∀ w ∈ (s.pass p now pc).prio.waiters,
      ∃ q, number ((s.pass p now pc).task q) = some w.seq := by
    intro w hw
    obtain ⟨q, hne, hq⟩ := hownp w (handOff_waiters hw)
    exact ⟨q, by rw [htask q hne]; exact hq⟩
  have hless : ∀ n, (s.pass p now pc).Queued n → s.Queued n := fun _ ⟨u, hu, he⟩ =>
    ⟨u, handOff_waiters hu, he⟩
  rcases handOff_spec now s.prio s.chan with ⟨w, dead, hs⟩ | hf
  · -- the device goes to `w`, whose model waits
    have hw : w ∈ s.prio.waiters := hs.queue.symm.subset mem_cons_self
    obtain ⟨q, hq⟩ := h.waiting hw hs.live
    have hqn : number (s.task q) = some w.seq := by rw [hq]; rfl
    have hqp : q ≠ p := by
      rintro rfl
      exact hout _ hqn ⟨w, hw, rfl⟩
    have hheld : s.prio.held = true := by
      by_contra hne
      rw [h.queue (eq_false_of_ne_true hne)] at hw
      cases hw
    have hnd : (w :: (dead ++ (s.pass p now pc).prio.waiters) |>.map Waiter.seq).Nodup :=
      (hs.queue.map Waiter.seq).nodup_iff.mp h.nodup
    rw [map_cons, map_append] at hnd
    obtain ⟨hwn, hnd⟩ := nodup_cons.mp hnd
    have hchan : ∀ n, n ≠ w.seq → (s.pass p now pc).chan n = s.chan n := by
      intro n hn
      show (handOff now s.prio s.chan).2 n = _
      rw [hs.chan, update_of_ne hn]
    have hsent : (s.pass p now pc).chan w.seq = .sent := by
      show (handOff now s.prio s.chan).2 w.seq = _
      rw [hs.chan, update_self]
    have hgone : ¬ (s.pass p now pc).Queued w.seq := by
      rintro ⟨u, hu, he⟩
      refine hwn (mem_append_right _ ?_)
      exact he ▸ mem_map_of_mem hu
    have hqt : (s.pass p now pc).task q = .waiting w.seq := (htask q hqp).trans hq
    have hquses : (s.pass p now pc).Uses q := by
      unfold Uses
      rw [hqt]
      exact hsent
    have hstill : ∀ r, r ≠ p → r ≠ q → Still s (s.pass p now pc) r := fun r hrp hrq =>
      ⟨htask r hrp, fun n hn => hchan n (by rintro rfl; exact hrq (h.inj r q _ hn hqn))⟩
    have honly : ∀ r, (s.pass p now pc).Uses r → r = q := by
      intro r hr
      by_contra hrq
      have hrp : r ≠ p := by
        rintro rfl
        exact hnot hr
      exact hrp (hall r ((hstill r hrp hrq).uses.mp hr))
    refine ⟨?_, ?_, hinj, fun r => ?_, howned, ?_, ?_, ?_⟩
    · exact hnd.of_append_right
    · intro r n hr
      show n ≤ (handOff now s.prio s.chan).1.seq
      rw [hs.seq]
      exact h.le r n (hnum hr).2
    · by_cases hrp : r = p
      · subst hrp
        exact tied_of_number (by rw [htp]; exact hpc)
      by_cases hrq : r = q
      · subst hrq
        unfold Tied
        rw [hqt]
        exact .inr ⟨hsent, hgone⟩
      · refine (hstill r hrp hrq).tied (h.tied r) (fun n _ => hless n) fun n hn he hin => ?_
        obtain ⟨u, hu, rfl⟩ := hin
        rcases mem_cons.mp (hs.queue.subset hu) with rfl | hu
        · exact absurd (h.inj r q _ hn hqn) hrq
        rcases mem_append.mp hu with hu | hu
        · exact absurd he (hs.dead u hu)
        · exact ⟨u, hu, rfl⟩
    · intro hfalse
      rw [show (s.pass p now pc).prio.held = s.prio.held from hs.held, hheld] at hfalse
      cases hfalse
    · exact fun a b ha hb => (honly a ha).trans (honly b hb).symm
    · exact ⟨fun _ => ⟨q, hquses⟩, fun _ => (show _ = _ from hs.held).trans hheld⟩
  · -- nobody waits
    have hwnil : (s.pass p now pc).prio.waiters = [] := hf.waiters
    have hchan : (s.pass p now pc).chan = s.chan := hf.chan
    have hno : ∀ r, ¬ (s.pass p now pc).Uses r := by
      intro r hr
      by_cases hrp : r = p
      · subst hrp
        exact hnot hr
      · refine hrp (hall r ?_)
        unfold Uses at *
        rw [htask r hrp, hchan] at hr
        exact hr
    refine ⟨?_, ?_, hinj, fun r => ?_, howned, fun _ => hwnil, ?_, ?_⟩
    · rw [hwnil]
      exact nodup_nil
    · intro r n hr
      show n ≤ (handOff now s.prio s.chan).1.seq
      rw [hf.seq]
      exact h.le r n (hnum hr).2
    · by_cases hrp : r = p
      · subst hrp
        exact tied_of_number (by rw [htp]; exact hpc)
      · have hstill : Still s (s.pass p now pc) r := ⟨htask r hrp, fun n _ => congrFun hchan n⟩
        refine hstill.tied (h.tied r) (fun n _ => hless n) fun n _ he hin => ?_
        obtain ⟨u, hu, rfl⟩ := hin
        exact absurd he (hf.dead u hu)
    · exact fun r _ hr => absurd hr (hno r)
    · refine ⟨fun hheld => ?_, fun ⟨r, hr⟩ => absurd hr (hno r)⟩
      rw [show (s.pass p now pc).prio.held = false from hf.held] at hheld
      cases hheld

/-- A step of one model that keeps its number or gives it up; the queue may lose waiters. -/
theorem Inv.moved (h : s.Inv) (hstill : ∀ r, r ≠ p → Still s s' r)
    (hnum : ∀ n, number (s'.task p) = some n → number (s.task p) = some n) (htied : s'.Tied p)
    (hu : s'.Uses p ↔ s.Uses p) (hseq : s'.prio.seq = s.prio.seq) (hheld : s'.prio.held = s.prio.held)
    (hnd : (s'.prio.waiters.map Waiter.seq).Nodup) (hsub : s'.prio.waiters ⊆ s.prio.waiters)
    (hown : ∀ w ∈ s'.prio.waiters, number (s.task p) = some w.seq → number (s'.task p) = some w.seq)
    (hkeep : ∀ r, r ≠ p → ∀ n, number (s.task r) = some n → s.Queued n → s'.Queued n) : s'.Inv := by
  have hnumber : ∀ {r n}, number (s'.task r) = some n → number (s.task r) = some n := by
    intro r n hr
    by_cases hne : r = p
    · subst hne
      exact hnum n hr
    · exact (hstill r hne).task ▸ hr
  have huses : ∀ r, s'.Uses r ↔ s.Uses r := by
    intro r
    by_cases hr : r = p
    · subst hr
      exact hu
    · exact (hstill r hr).uses
  refine ⟨hnd, fun r n hr => hseq ▸ h.le r n (hnumber hr), fun q r n hq hr =>
    h.inj q r n (hnumber hq) (hnumber hr), fun r => ?_, fun w hw => ?_, fun hf => ?_,
    fun a b ha hb => h.one a b ((huses a).mp ha) ((huses b).mp hb),
    hheld ▸ h.held.trans (exists_congr fun r => (huses r).symm)⟩
  · by_cases hr : r = p
    · subst hr
      exact htied
    · exact (hstill r hr).tied (h.tied r) (fun _ _ ⟨u, hw, he⟩ => ⟨u, hsub hw, he⟩)
        fun n hn _ => hkeep r hr n hn
  · obtain ⟨q, hq⟩ := h.owned w (hsub hw)
    by_cases hne : q = p
    · subst hne
      exact ⟨q, hown w hw hq⟩
    · exact ⟨q, by rw [(hstill q hne).task]; exact hq⟩
  · rw [h.queue (hheld ▸ hf)] at hsub
    exact subset_nil.mp hsub

/-- a step of one model that touches neither queue nor channels -/
theorem goto_inv (h : s.Inv) (hn : number (s.task p) = none) (hpc : number pc = none)
    (hu : (s.goto p pc).Uses p ↔ s.Uses p) : (s.goto p pc).Inv := by
  have htp : number ((s.goto p pc).task p) = none := by
    rw [← hpc]
    exact congrArg number (update_self ..)
  refine h.moved (fun r hr => ⟨task_update hr, fun _ _ => rfl⟩) (fun n hp => ?_)
    (tied_of_number htp) hu rfl rfl h.nodup (Subset.refl _) (fun w _ hp => ?_) fun _ _ _ _ => id
  · rw [htp] at hp
    cases hp
  · rw [hn] at hp
    cases hp

theorem check_inv {again : Option Due} (h : s.Inv)
    (ht : s.task p = .holding since) : (s.check p due since now again).Inv := by
  unfold check
  split
  · refine goto_inv h (by rw [ht]; rfl) rfl ?_
    have htp : (s.goto p (.yielding again)).task p = .yielding again := update_self ..
    unfold Uses
    rw [htp, ht]
  · exact h

theorem acquire_inv (h : s.Inv) (ht : s.task p = .acquiring due) : (s.acquire p now due).Inv := by
  have hnp : ¬ s.Uses p := by
    unfold Uses
    rw [ht]
    exact id
  unfold acquire
  split
  · next hfree =>
    -- nobody uses the device
    have hno : ∀ q, ¬ s.Uses q := fun q hq => by
      have := h.held.mpr ⟨q, hq⟩
      rw [hfree.1] at this
      cases this
    set t : Sys P := { s with
      prio := { s.prio with held := true }
      task := update s.task p (.holding now) } with htdef
    have htask : ∀ r, r ≠ p → t.task r = s.task r := fun r hr => task_update hr
    have htp : t.task p = .holding now := update_self ..
    have hup : t.Uses p := by
      unfold Uses
      rw [htp]
      trivial
    have honly : ∀ r, t.Uses r → r = p := by
      intro r hr
      by_contra hne
      have hstill : Still s t r := ⟨htask r hne, fun _ _ => rfl⟩
      exact hno r (hstill.uses.mp hr)
    have hnum : ∀ {r n}, number (t.task r) = some n → number (s.task r) = some n := by
      intro r n hr
      by_cases hne : r = p
      · subst hne
        rw [htp] at hr
        cases hr
      · exact htask r hne ▸ hr
    refine ⟨h.nodup, fun r n hr => h.le r n (hnum hr), fun q r n hq hr =>
      h.inj q r n (hnum hq) (hnum hr), fun r => ?_, fun w hw => ?_, nofun,
      fun a b ha hb => (honly a ha).trans (honly b hb).symm, fun _ => ⟨p, hup⟩, fun _ => rfl⟩
    · by_cases hr : r = p
      · subst hr
        exact tied_of_number (by rw [htp]; rfl)
      · exact Still.tied ⟨htask r hr, fun _ _ => rfl⟩ (h.tied r) (fun _ _ => id) fun _ _ _ => id
    · rw [show t.prio.waiters = [] from hfree.2] at hw
      cases hw
  · next hbusy =>
    -- the model queues behind the others, under a fresh number
    have hheld : s.prio.held = true := by
      by_contra hne
      have hfalse := eq_false_of_ne_true hne
      exact hbusy ⟨hfalse, h.queue hfalse⟩
    simp only
    set seq := s.prio.seq + 1 with hseq
    set t : Sys P := {
      prio := { s.prio with seq := seq, waiters := s.prio.waiters ++ [⟨due, now, seq⟩] }
      chan := update s.chan seq .empty
      task := update s.task p (.waiting seq) } with htdef
    have htask : ∀ r, r ≠ p → t.task r = s.task r := fun r hr => task_update hr
    have htp : t.task p = .waiting seq := update_self ..
    have hfresh : ∀ {r n}, number (s.task r) = some n → n ≠ seq := by
      intro r n hr
      have := h.le r n hr
      omega
    have hstill : ∀ r, r ≠ p → Still s t r := fun r hr =>
      ⟨htask r hr, fun n hn => update_of_ne (hfresh hn) _ _⟩
    have hnew : t.chan seq = .empty := update_self ..
    have hqseq : t.Queued seq := ⟨_, mem_append_right _ (mem_singleton.mpr rfl), rfl⟩
    have hqueued : ∀ n, n ≠ seq → (t.Queued n ↔ s.Queued n) := by
      intro n hn
      constructor
      · rintro ⟨w, hw, rfl⟩
        rcases mem_append.mp hw with hw | hw
        · exact ⟨w, hw, rfl⟩
        · rw [mem_singleton.mp hw] at hn
          exact absurd rfl hn
      · rintro ⟨w, hw, rfl⟩
        exact ⟨w, mem_append_left _ hw, rfl⟩
    have hnot : ¬ t.Uses p := by
      unfold Uses
      rw [htp]
      show ¬ t.chan seq = .sent
      rw [hnew]
      exact nofun
    have huses : ∀ r, t.Uses r ↔ s.Uses r := by
      intro r
      by_cases hr : r = p
      · subst hr
        exact iff_of_false hnot hnp
      · exact (hstill r hr).uses
    have hnum : ∀ {r n}, number (t.task r) = some n →
        (r = p ∧ n = seq) ∨ (r ≠ p ∧ number (s.task r) = some n) := by
      intro r n hr
      by_cases hne : r = p
      · subst hne
        rw [htp] at hr
        exact .inl ⟨rfl, (some.inj hr).symm⟩
      · exact .inr ⟨hne, htask r hne ▸ hr⟩
    refine ⟨?_, ?_, ?_, fun r => ?_, fun w hw => ?_, fun hf => ?_, ?_, ?_⟩
    · show ((s.prio.waiters ++ [(⟨due, now, seq⟩ : Waiter)]).map Waiter.seq).Nodup
      rw [map_append]
      refine h.nodup.append (nodup_singleton _) fun n hn hn' => ?_
      obtain ⟨w, hw, rfl⟩ := mem_map.mp hn
      obtain ⟨q, hq⟩ := h.owned w hw
      exact hfresh hq (mem_singleton.mp hn')
    · intro r n hr
      rcases hnum hr with ⟨-, rfl⟩ | ⟨-, hr⟩
      · exact le_refl _
      · exact Nat.le_succ_of_le (h.le r n hr)
    · intro q r n hq hr
      rcases hnum hq with ⟨rfl, rfl⟩ | ⟨-, hq⟩
      · rcases hnum hr with ⟨rfl, -⟩ | ⟨-, hr⟩
        · rfl
        · exact absurd rfl (hfresh hr)
      · rcases hnum hr with ⟨-, rfl⟩ | ⟨-, hr⟩
        · exact absurd rfl (hfresh hq)
        · exact h.inj q r n hq hr
    · by_cases hr : r = p
      · subst hr
        unfold Tied
        rw [htp]
        exact .inl ⟨hnew, hqseq⟩
      · exact (hstill r hr).tied (h.tied r) (fun n hn => (hqueued n (hfresh hn)).mp)
          fun n hn _ => (hqueued n (hfresh hn)).mpr
    · rcases mem_append.mp hw with hw | hw
      · obtain ⟨q, hq⟩ := h.owned w hw
        have hne : q ≠ p := by
          rintro rfl
          rw [ht] at hq
          cases hq
        exact ⟨q, by rw [htask q hne]; exact hq⟩
      · rw [mem_singleton.mp hw]
        exact ⟨p, by rw [htp]; rfl⟩
    · rw [show t.prio.held = s.prio.held from rfl, hheld] at hf
      cases hf
    · exact fun a b ha hb => h.one a b ((huses a).mp ha) ((huses b).mp hb)
    · exact h.held.trans (exists_congr fun r => (huses r).symm)

/-- a waiting model's receiver goes, with the queue as it is -/
theorem leave_inv (h : s.Inv) (ht : s.task p = .waiting seq)
    (hn : ∀ n, number pc = some n → n = seq) (hq : s.Queued seq → number pc = some seq)
    (hu : ∀ t : Sys P, t.task p = pc → (t.Uses p ↔ s.Uses p))
    (htied : ∀ t : Sys P, t.task p = pc → t.chan seq = .closed → (t.Queued seq ↔ s.Queued seq) →
      t.Tied p) :
    ({ s with
      chan := update s.chan seq .closed
      task := update s.task p pc } : Sys P).Inv := by
  set t : Sys P := { s with
    chan := update s.chan seq .closed
    task := update s.task p pc } with htdef
  have hnp : number (s.task p) = some seq := by rw [ht]; rfl
  have htp : t.task p = pc := update_self ..
  refine h.moved (fun r hr => ⟨task_update hr, fun n hr' => update_of_ne
    (fun he => hr (h.inj r p _ (he ▸ hr') hnp)) _ _⟩) (fun n hp => ?_)
    (htied t htp (update_self ..) Iff.rfl) (hu t htp) rfl rfl h.nodup (Subset.refl _)
    (fun w hw hp => ?_) fun _ _ _ _ => id
  · rw [htp] at hp
    rw [hn n hp]
    exact hnp
  · rw [hnp] at hp
    rw [htp, ← hp]
    exact hq ⟨w, hw, (some.inj hp).symm⟩

theorem wake_inv (h : s.Inv) (ht : s.task p = .waiting seq)
    (hsent : s.chan seq = .sent) :
    ({ s with
      chan := update s.chan seq .closed
      task := update s.task p (.holding now) } : Sys P).Inv := by
  have hup : s.Uses p := by
    unfold Uses
    rw [ht]
    exact hsent
  refine leave_inv h ht (fun n hn => nomatch hn) (fun hin => ?_) (fun t htp => ?_)
    fun t htp _ _ => tied_of_number (by rw [htp]; rfl)
  · have hnu := not_uses_of_number (h.tied p) (by rw [ht]; rfl) hin
    exact absurd hup hnu
  · refine iff_of_true ?_ hup
    unfold Uses
    rw [htp]
    trivial

theorem close_inv (h : s.Inv) (ht : s.task p = .waiting seq) :
    ({ s with
      chan := update s.chan seq .closed
      task := update s.task p (.cancelled seq (s.chan seq = .sent)) } : Sys P).Inv := by
  refine leave_inv h ht (fun n hn => (some.inj hn).symm) (fun _ => rfl) (fun t htp => ?_)
    fun t htp hc hq => ?_
  · unfold Uses
    rw [htp, ht]
    exact decide_eq_true_iff
  · have htied := h.tied p
    unfold Tied at *
    rw [htp]
    rw [ht] at htied
    refine ⟨hc, fun hsent hin => ?_⟩
    rcases htied with ⟨he, -⟩ | ⟨-, hout⟩
    · rw [of_decide_eq_true hsent] at he
      cases he
    · exact hout (hq.mp hin)

/-- a cancelled waiter that is still queued leaves the queue -/
theorem leave_queue_inv {i : ℕ} (h : s.Inv)
    (ht : s.task p = .cancelled seq handed)
    (hi : s.prio.waiters.findIdx? (·.seq = seq) = some i) :
    ({ s with
      prio := { s.prio with waiters := swapRemove s.prio.waiters i }
      task := update s.task p .idle } : Sys P).Inv := by
  obtain ⟨hlt, hat, -⟩ := findIdx?_eq_some_iff_getElem.mp hi
  set w := s.prio.waiters[i] with hw
  have hseq : w.seq = seq := of_decide_eq_true hat
  have hperm : (w :: swapRemove s.prio.waiters i).Perm s.prio.waiters :=
    swapRemove_perm (getElem?_eq_getElem hlt)
  set t : Sys P := { s with
    prio := { s.prio with waiters := swapRemove s.prio.waiters i }
    task := update s.task p .idle } with htdef
  have hmem : ∀ {u}, u ∈ t.prio.waiters → u ∈ s.prio.waiters := fun hu =>
    hperm.subset (mem_cons_of_mem _ hu)
  have hnd : (w.seq :: t.prio.waiters.map Waiter.seq).Nodup :=
    (hperm.map Waiter.seq).nodup_iff.mpr h.nodup
  obtain ⟨hwn, hnd⟩ := nodup_cons.mp hnd
  have hnp : number (s.task p) = some seq := by rw [ht]; rfl
  have hwin : s.Queued seq := ⟨w, hperm.subset mem_cons_self, hseq⟩
  have hnot : ¬ s.Uses p := not_uses_of_number (h.tied p) hnp hwin
  have htp : t.task p = .idle := update_self ..
  refine h.moved (fun r hr => ⟨task_update hr, fun _ _ => rfl⟩) (fun n hp => ?_)
    (tied_of_number (by rw [htp]; rfl)) (iff_of_false ?_ hnot) rfl rfl hnd (fun _ => hmem)
    (fun u hu hp => ?_) fun r hr n hn ⟨u, hu, he⟩ => ?_
  · rw [htp] at hp
    cases hp
  · unfold Uses
    rw [htp]
    exact id
  · rw [hnp] at hp
    have : u.seq = w.seq := (some.inj hp).symm.trans hseq.symm
    exact absurd (this ▸ mem_map_of_mem hu) hwn
  · rcases mem_cons.mp (hperm.symm.subset hu) with rfl | hu
    · refine absurd (h.inj r p seq ?_ hnp) hr
      rw [← hseq, he]
      exact hn
    · exact ⟨u, hu, he⟩

theorem guard_inv (h : s.Inv) (ht : s.task p = .cancelled seq handed)
    (hc : s.Discarded p → ∀ q, ¬ s.Uses q) : (s.guard p now seq).Inv := by
  unfold guard
  split
  · next i hi => exact leave_queue_inv h ht hi
  · next hnone =>
    have hout : ¬ s.Queued seq := fun ⟨w, hw, he⟩ =>
      absurd he (of_decide_eq_false (findIdx?_eq_none_iff.mp hnone w hw))
    have hnum : ∀ n, number (s.task p) = some n → ¬ s.Queued n := by
      intro n hn
      rw [ht] at hn
      cases hn
      exact hout
    refine pass_inv h (fun q hq => ?_) rfl (fun t htp => ?_) hnum
    · cases handed with
      | false => exact absurd hq (hc ⟨seq, ht, hout⟩ q)
      | true =>
        refine h.one q p hq ?_
        unfold Uses
        rw [ht]
    · unfold Uses
      rw [htp]
      exact id

def Clean (s : Sys P) (o : Op P) : Prop :=
  match o.act with
  | .guard => s.Discarded o.who → ∀ q, ¬ s.Uses q
  | _ => True

/-- **One step.** -/
theorem step_inv (h : s.Inv) (hc : s.Clean o) (hstep : s.step o = some s') : s'.Inv := by
  have hpass : ∀ {pc}, (pc = .idle ∨ ∃ due, pc = .acquiring due) → s.Uses o.who →
      number (s.task o.who) = none → (s.pass o.who o.now pc).Inv := by
    intro pc hpc hu hn
    refine pass_inv h (fun q hq => h.one q _ hq hu) ?_ (fun t htp => ?_) fun n hn' => ?_
    · rcases hpc with rfl | ⟨due, rfl⟩
      · rfl
      · rfl
    · unfold Uses
      rw [htp]
      rcases hpc with rfl | ⟨due, rfl⟩
      · exact id
      · exact id
    · rw [hn] at hn'
      cases hn'
  have huse : ∀ {pc}, s.task o.who = pc → (∃ since, pc = .holding since) ∨
      (∃ again, pc = .yielding again) → s.Uses o.who := by
    rintro pc hpc (⟨since, rfl⟩ | ⟨again, rfl⟩)
    · unfold Uses
      rw [hpc]
      trivial
    · unfold Uses
      rw [hpc]
      trivial
  unfold step at hstep
  split at hstep
  · next due ha ht =>
    cases hstep
    refine goto_inv h (by rw [ht]; rfl) rfl ?_
    have htp : (s.goto o.who (.acquiring due)).task o.who = .acquiring due :=
      update_self ..
    unfold Uses
    rw [htp, ht]
  · next ht =>
    cases hstep
    exact check_inv h ht
  · cases hstep
    exact h
  · next ht =>
    cases hstep
    exact check_inv h ht
  · next since ha ht =>
    cases hstep
    exact hpass (.inl rfl) (huse ht (.inl ⟨since, rfl⟩)) (by rw [ht]; rfl)
  · next ha ht =>
    cases hstep
    exact hpass (.inl rfl) (huse ht (.inr ⟨none, rfl⟩)) (by rw [ht]; rfl)
  · next due ha ht =>
    cases hstep
    exact hpass (.inr ⟨due, rfl⟩) (huse ht (.inr ⟨some due, rfl⟩)) (by rw [ht]; rfl)
  · next due ha ht =>
    cases hstep
    exact acquire_inv h ht
  · next seq ha ht =>
    split at hstep
    · next hsent =>
      cases hstep
      exact wake_inv h ht hsent
    · cases hstep
  · next seq ha ht =>
    cases hstep
    exact close_inv h ht
  · next seq handed ha ht =>
    cases hstep
    refine guard_inv h ht ?_
    unfold Clean at hc
    rw [ha] at hc
    exact hc
  · cases hstep

/-! ### Hand-offs -/

theorem pass_handsBest : s.HandsBest (s.pass p now pc) now := by
  intro seq hne hsent
  rcases handOff_spec now s.prio s.chan with ⟨w, dead, hs⟩ | hf
  · have hchan : (s.pass p now pc).chan = update s.chan w.seq .sent := hs.chan
    have heq : seq = w.seq := by
      by_contra hn
      rw [hchan, update_of_ne hn] at hsent
      exact hne hsent
    refine ⟨w, hs.queue.symm.subset mem_cons_self, heq.symm, hs.live, fun u hu hl => ?_⟩
    have hle := hs.best u hu hl
    exact ⟨hle, PrioState.key_overdue hle⟩
  · rw [show (s.pass p now pc).chan = s.chan from hf.chan] at hsent
    exact absurd hsent hne

theorem step_handsBest (h : s.step o = some s') : s.HandsBest s' o.now := by
  have hsame : ∀ {t : Sys P}, t.chan = s.chan → s.HandsBest t o.now := fun ht seq hne hsent =>
    absurd (ht ▸ hsent) hne
  have hset : ∀ {t : Sys P} {n c}, c ≠ .sent → t.chan = update s.chan n c →
      s.HandsBest t o.now := by
    intro t n c hc ht seq hne hsent
    rw [ht] at hsent
    by_cases hn : seq = n
    · subst hn
      rw [update_self] at hsent
      exact absurd hsent hc
    · rw [update_of_ne hn] at hsent
      exact absurd hsent hne
  have hcheck : ∀ {due since again}, s.HandsBest (s.check o.who due since o.now again) o.now := by
    intro due since again
    unfold check
    split
    · exact hsame rfl
    · exact hsame rfl
  unfold step at h
  split at h
  · cases h
    exact hsame rfl
  · cases h
    exact hcheck
  · cases h
    exact hsame rfl
  · cases h
    exact hcheck
  · cases h
    exact pass_handsBest
  · cases h
    exact pass_handsBest
  · cases h
    exact pass_handsBest
  · cases h
    unfold acquire
    split
    · exact hsame rfl
    · exact hset (c := .empty) nofun rfl
  · split at h
    · cases h
      exact hset (c := .closed) nofun rfl
    · cases h
  · cases h
    exact hset (c := .closed) nofun rfl
  · cases h
    unfold guard
    split
    · exact hsame rfl
    · exact pass_handsBest
  · cases h

end Sys

/-! ### Runs -/

variable {P : Type} [DecidableEq P]

/-- **The turn is sound in every run in which no discarded waiter's guard meets a device in use**:
one model holds it at a time, a free device has no live waiter, and every hand-off is to the best of
the live waiters. -/
theorem turn_sound (maxWait : Duration) (ops : List (Op P)) (s : Sys P)
    (hc : Each Sys.step Sys.Clean (Sys.new maxWait) ops)
    (h : exec Sys.step (Sys.new maxWait) ops = some s) :
    s.Sound ∧ ∀ o s', s.step o = some s' → s.HandsBest s' o.now :=
  ⟨(exec_inv_of (fun _ _ _ hi hcl hs => Sys.step_inv hi hcl hs) (Sys.inv_new maxWait) hc h).sound,
    fun _ _ => Sys.step_handsBest⟩

def nowDue : Due := ⟨0, 0, .stream⟩

def handedOn : List (Op (Fin 3)) :=
  [⟨0, .take nowDue, 0⟩, ⟨0, .acquire, 0⟩, ⟨1, .take nowDue, 0⟩, ⟨1, .acquire, 0⟩,
    ⟨0, .release, 0⟩, ⟨1, .wake, 0⟩]

theorem turn_sound_handedOn : ∃ s : Sys (Fin 3),
    exec Sys.step (Sys.new (millis 2000)) handedOn = some s ∧ s.Sound := by
  refine ⟨_, rfl, (turn_sound (millis 2000) handedOn _ ?_ rfl).1⟩
  exact ⟨trivial, fun _ _ => ⟨trivial, fun _ _ => ⟨trivial, fun _ _ => ⟨trivial, fun _ _ =>
    ⟨trivial, fun _ _ => ⟨trivial, fun _ _ => trivial⟩⟩⟩⟩⟩⟩

/-- Model 1 is cancelled: its receiver closes, model 0 hands on to 2, then the guard of 1 frees the
device that 2 was given. -/
def handedTwice : List (Op (Fin 3)) :=
  [⟨0, .take nowDue, 0⟩, ⟨0, .acquire, 0⟩, ⟨1, .take nowDue, 0⟩, ⟨1, .acquire, 0⟩,
    ⟨2, .take nowDue, 0⟩, ⟨2, .acquire, 0⟩, ⟨1, .close, 0⟩, ⟨0, .release, 0⟩, ⟨1, .guard, 0⟩,
    ⟨0, .take nowDue, 0⟩, ⟨0, .acquire, 0⟩, ⟨2, .wake, 0⟩]

theorem two_hold : ∃ s : Sys (Fin 3),
    exec Sys.step (Sys.new (millis 2000)) handedTwice = some s ∧ ¬ s.Sound := by
  refine ⟨_, rfl, fun h => ?_⟩
  exact absurd (h.one 0 2 trivial trivial) (by decide)

end Plow.CoSched
