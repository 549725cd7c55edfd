import Plow.Kernarg.Ring

/-!
# Queues, tickets and their calls

The host's calls in any order.  A `preflight` is two steps, `observe` and `grant`, with any other
calls between them; every ticket handed out is kept and may be presented at any time, to any queue.
The capacity of a queue is fixed.
-/

namespace Plow.Kernarg

open Relation Lib List Option

/-! ### The calls with the queue's log -/

namespace Queue

variable (Q : Queue)

def reserve (count capacity : Nat) : Queue :=
  match Q.ring.reserve count capacity with
  | (r, .ok base) => { Q with ring := r, log := .granted base count :: Q.log }
  | (r, .error _) => { Q with ring := r }

def reserveAdmitted (t : Admission) : Queue :=
  match Q.ring.reserveAdmitted t with
  | (r, .ok base) => { Q with ring := r, log := .granted base t.count :: Q.log }
  | (r, .error _) => { Q with ring := r }

/-- an admission that needed the signal was given a zero one -/
def grant (t : Admission) (signal : Int) : Queue × Option Admission :=
  match Q.ring.grant t signal with
  | .ok t => ({ Q with log := if t.completed then .zero t.issued :: Q.log else Q.log }, some t)
  | .error _ => (Q, none)

def publish (stop : Nat) : Queue :=
  match Q.ring.publish stop with
  | (r, .ok ()) => { Q with ring := r, log := .published stop :: Q.log }
  | (r, .error _) => { Q with ring := r }

def negative : Except Error Unit → Bool
  | .error (.incomplete s) => s < 0
  | _ => false

def complete (ticket : Nat) (signal : Int) : Queue :=
  match Q.ring.complete ticket signal with
  | (r, .ok ()) => { Q with ring := r, log := .zero ticket :: Q.log }
  | (r, .error e) => { Q with ring := r, poisoned := Q.poisoned || negative (.error e) }

def completePrefix (p : Prefix) (next : Nat) (signal : Int) : Queue :=
  match Q.ring.completePrefix p next signal with
  | (r, e) => { Q with ring := r, poisoned := Q.poisoned || negative e }

def cancel : Queue := { Q with ring := Q.ring.cancel, poisoned := true }

variable {Q} {capacity : Nat}

theorem reserve_changes (count : Nat) : Changes capacity Q (Q.reserve count capacity) := by
  unfold reserve
  rcases Q.ring.reserve_cases count capacity with ⟨e, he⟩ | ⟨he, h1, h2, h3, h4, h5⟩
  · rw [he]
  · rw [he]
    exact .single (.grant count h1 h2 h3 h4 h5)

theorem publish_changes (stop : Nat) : Changes capacity Q (Q.publish stop) := by
  unfold publish
  rcases Q.ring.publish_cases stop with he | ⟨he, rfl, h2⟩
  · rw [he]
  · rw [he]
    exact .single (.publish h2)

theorem cancel_changes : Changes capacity Q Q.cancel := .single .poison

theorem complete_changes (ticket : Nat) (signal : Int) :
    Changes capacity Q (Q.complete ticket signal) := by
  unfold complete
  rcases Q.ring.complete_cases ticket signal with ⟨e, he, hs⟩ | ⟨he, hs⟩ | ⟨he, -, h1, rfl⟩
  · have hn : negative (.error e) = false := by
      unfold negative
      split
      · next s hse => exact decide_eq_false (Int.not_lt.mpr (hs s (Except.error.inj hse)))
      · rfl
    rw [he]
    simp only [hn, Bool.or_false]
    exact .refl
  · rw [he]
    simp only [negative, hs, decide_true, Bool.or_true]
    exact .single .poison
  · rw [he]
    exact .tail (.single (.zero h1)) (.retire h1 mem_cons_self)

theorem completePrefix_changes (p : Prefix) (next : Nat) (signal : Int) :
    Changes capacity Q (Q.completePrefix p next signal) := by
  unfold completePrefix
  rcases Q.ring.completePrefix_cases p next signal with ⟨e, he, hs⟩ | ⟨he, hs⟩
  · have hn : negative e = false := by
      unfold negative
      split
      · next s => exact decide_eq_false (Int.not_lt.mpr (hs s rfl))
      · rfl
    rw [he]
    simp only [hn, Bool.or_false]
    exact .refl
  · rw [he]
    simp only [negative, hs, decide_true, Bool.or_true]
    exact .single .poison

end Queue

/-! ### Tickets -/

/-- the admission was taken on this queue, at counters it has not fallen behind -/
structure Taken (capacity : Nat) (Q : Queue) (t : Admission) : Prop where
  queue : t.queue = Q.ring.queue
  capacity : t.capacity = capacity
  issued : t.issued ≤ Q.ring.issued
  retired : t.retired ≤ Q.ring.retired

/-- a finished `preflight`: if it needed the signal, it saw a zero -/
structure Admitted (capacity : Nat) (Q : Queue) (t : Admission) : Prop
    extends Taken capacity Q t where
  seen : t.completed = true → .zero t.issued ∈ Q.log

/-- the prefix was taken on this queue -/
structure Emitted (Q : Queue) (p : Prefix) : Prop where
  queue : p.queue = Q.ring.queue
  lt : p.base < p.stop
  published : p.base ≤ Q.ring.published
  issued : p.stop ≤ Q.ring.issued

variable {capacity : Nat} {Q Q' : Queue} {t : Admission} {p : Prefix}

theorem Taken.grows (h : Taken capacity Q t) (g : Grows Q Q') : Taken capacity Q' t :=
  ⟨h.queue.trans g.queue.symm, h.capacity, Nat.le_trans h.issued g.issued,
    Nat.le_trans h.retired g.retired⟩

theorem Admitted.grows (h : Admitted capacity Q t) (g : Grows Q Q') : Admitted capacity Q' t :=
  ⟨h.toTaken.grows g, fun hc => g.log.subset (h.seen hc)⟩

theorem Emitted.grows (h : Emitted Q p) (g : Grows Q Q') : Emitted Q' p :=
  ⟨h.queue.trans g.queue.symm, h.lt, Nat.le_trans h.published g.published,
    Nat.le_trans h.issued g.issued⟩

theorem Queue.reserveAdmitted_changes (h : t.queue = Q.ring.queue → Admitted capacity Q t) :
    Changes capacity Q (Q.reserveAdmitted t) := by
  unfold reserveAdmitted
  rcases Q.ring.reserveAdmitted_cases t with ⟨e, he⟩ | ⟨hv, hc, he⟩ | ⟨hv, -, he⟩
  · rw [he]
  · obtain ⟨h1, h2, h3, -⟩ := Retirement.validate_ok.mp hv
    have ha := h h1
    have hz := ha.seen hc
    rw [h3] at hz
    have hr := @Change.retire capacity Q h2 hz
    rw [he, ha.capacity]
    rcases Retirement.reserve_cases { Q.ring with retired := Q.ring.issued } t.count capacity with
      ⟨e, he⟩ | ⟨he, h1, h2, h3, h4, h5⟩
    · rw [he]
      exact .single hr
    · rw [he]
      exact .tail (.single hr)
        (Change.grant (Q := { Q with ring := { Q.ring with retired := Q.ring.issued } })
          t.count h1 h2 h3 h4 h5)
  · obtain ⟨h1, -⟩ := Retirement.validate_ok.mp hv
    rw [he, (h h1).capacity]
    exact Queue.reserve_changes t.count

theorem Queue.grant_changes (t : Admission) (signal : Int) :
    Changes capacity Q (Q.grant t signal).1 := by
  unfold grant
  split
  · next t' ht =>
    obtain ⟨rfl, -, hv⟩ := Retirement.grant_ok ht
    obtain ⟨-, h2, h3, -⟩ := Retirement.validate_ok.mp hv
    split
    · rw [h3]
      exact .single (.zero h2)
    · exact .refl
  · exact .refl

theorem Queue.grant_admitted {t' : Admission} {signal : Int} (h : Taken capacity Q t)
    (ht : (Q.grant t signal).2 = some t') : Admitted capacity (Q.grant t signal).1 t' := by
  unfold grant at ht ⊢
  split at ht
  · next t₀ h0 =>
    obtain ⟨rfl, -, hv⟩ := Retirement.grant_ok h0
    cases ht
    refine ⟨⟨h.queue, h.capacity, h.issued, h.retired⟩, fun hc => ?_⟩
    show Event.zero _ ∈ if _ then _ else _
    rw [if_pos hc]
    exact mem_cons_self
  · cases ht

/-! ### The world -/

structure World where
  queues : List Queue
  /-- `preflight` calls that are reading their signal -/
  observed : List (Nat × Admission)
  admissions : List Admission
  prefixes : List Prefix
  deriving DecidableEq

def World.empty : World := ⟨[], [], [], []⟩

/-- one call; `q` is the queue it is made on -/
inductive Op
  | create
  | observe (q count : Nat)
  | grant (q : Nat) (t : Admission) (signal : Int)
  | reserveAdmitted (q : Nat) (t : Admission)
  | reserve (q count : Nat)
  | publish (q stop : Nat)
  | complete (q ticket : Nat) (signal : Int)
  | prefixTicket (q base next stop : Nat) (immediate : Bool)
  | completePrefix (q : Nat) (p : Prefix) (next : Nat) (signal : Int)
  | cancel (q : Nat)
  deriving DecidableEq

def World.put (w : World) (q : Nat) (Q : Queue) : World := { w with queues := w.queues.set q Q }

/-- One call.  It cannot be made on a queue that does not exist or with a ticket nobody holds. -/
def step (capacity : Nat → Nat) (w : World) : Op → Option World
  | .create =>
    if w.queues.length + 1 < u64Max then
      some { w with queues := w.queues ++ [⟨.new (w.queues.length + 1), [], false⟩] }
    else none
  | .observe q count =>
    w.queues[q]?.bind fun Q =>
      match Q.ring.observe count (capacity q) with
      | .error _ => some w
      | .ok t => some { w with observed := (q, t) :: w.observed }
  | .grant q t signal =>
    w.queues[q]?.bind fun Q =>
      if (q, t) ∈ w.observed then
        some { w.put q (Q.grant t signal).1 with
          admissions := (Q.grant t signal).2.toList ++ w.admissions }
      else none
  | .reserveAdmitted q t =>
    w.queues[q]?.bind fun Q => if t ∈ w.admissions then some (w.put q (Q.reserveAdmitted t)) else none
  | .reserve q count =>
    w.queues[q]?.bind fun Q => some (w.put q (Q.reserve count (capacity q)))
  | .publish q stop =>
    w.queues[q]?.bind fun Q => some (w.put q (Q.publish stop))
  | .complete q ticket signal =>
    w.queues[q]?.bind fun Q => some (w.put q (Q.complete ticket signal))
  | .prefixTicket q base next stop immediate =>
    w.queues[q]?.bind fun Q =>
      match Q.ring.prefixTicket base next stop immediate with
      | .error _ => some w
      | .ok p => some { w with prefixes := p :: w.prefixes }
  | .completePrefix q p next signal =>
    w.queues[q]?.bind fun Q => if p ∈ w.prefixes then some (w.put q (Q.completePrefix p next signal)) else none
  | .cancel q =>
    w.queues[q]?.bind fun Q => some (w.put q Q.cancel)

/-- The invariant of the world. -/
structure Ok (capacity : Nat → Nat) (w : World) : Prop where
  queues : ∀ q Q, w.queues[q]? = some Q → Q.ring.queue = q + 1 ∧ Inv (capacity q) Q
  observed : ∀ x ∈ w.observed, ∃ Q, w.queues[x.1]? = some Q ∧ Taken (capacity x.1) Q x.2
  admissions : ∀ t ∈ w.admissions, ∃ q Q, w.queues[q]? = some Q ∧ Admitted (capacity q) Q t
  prefixes : ∀ p ∈ w.prefixes, ∃ (q : Nat) (Q : Queue), w.queues[q]? = some Q ∧ Emitted Q p

/-- what a run leaves: the queues changed as calls change them, and no ticket is lost -/
structure Later (capacity : Nat → Nat) (w w' : World) : Prop where
  queues : ∀ q Q, w.queues[q]? = some Q →
    ∃ Q', w'.queues[q]? = some Q' ∧ Changes (capacity q) Q Q'
  admissions : w.admissions ⊆ w'.admissions
  prefixes : w.prefixes ⊆ w'.prefixes

variable {cap : Nat → Nat} {w w' w'' : World} {q : Nat}

theorem Later.refl (w : World) : Later cap w w :=
  ⟨fun _ Q h => ⟨Q, h, .refl⟩, fun _ h => h, fun _ h => h⟩

theorem Later.trans (h : Later cap w w') (h' : Later cap w' w'') : Later cap w w'' where
  queues := fun q Q hQ => by
    obtain ⟨Q', hQ', c⟩ := h.queues q Q hQ
    obtain ⟨Q'', hQ'', c'⟩ := h'.queues q Q' hQ'
    exact ⟨Q'', hQ'', ReflTransGen.trans c c'⟩
  admissions := fun _ ht => h'.admissions (h.admissions ht)
  prefixes := fun _ hp => h'.prefixes (h.prefixes hp)

theorem Ok.empty : Ok cap .empty where
  queues := fun _ _ h => by simp [World.empty] at h
  observed := fun _ h => (not_mem_nil h).elim
  admissions := fun _ h => (not_mem_nil h).elim
  prefixes := fun _ h => (not_mem_nil h).elim

theorem put_get (hQ : w.queues[q]? = some Q) {i : Nat} {P : Queue} (hP : w.queues[i]? = some P) :
    (w.put q Q').queues[i]? = some (if i = q then Q' else P) := by
  have hlt : q < w.queues.length := (List.getElem?_eq_some_iff.mp hQ).1
  show (w.queues.set q Q')[i]? = _
  by_cases h : i = q
  · subst h
    rw [if_pos rfl, getElem?_set_self hlt]
  · rw [if_neg h, getElem?_set_ne (Ne.symm h), hP]

/-- the queue of a call changes and every ticket stays good -/
theorem Ok.put (h : Ok cap w) (hQ : w.queues[q]? = some Q) (c : Changes (cap q) Q Q') :
    Ok cap (w.put q Q') ∧ Later cap w (w.put q Q') := by
  have hc := c.spec (h.queues q Q hQ).2
  have later : ∀ i P, w.queues[i]? = some P →
      ∃ P', (w.put q Q').queues[i]? = some P' ∧ Changes (cap i) P P' ∧ Grows P P' := by
    intro i P hP
    refine ⟨_, put_get hQ hP, ?_⟩
    by_cases hi : i = q
    · subst hi
      cases hQ.symm.trans hP
      rw [if_pos rfl]
      exact ⟨c, hc.2⟩
    · rw [if_neg hi]
      exact ⟨.refl, Grows.refl P⟩
  refine ⟨⟨?_, ?_, ?_, ?_⟩, ⟨?_, fun _ h => h, fun _ h => h⟩⟩
  · intro i P' hP'
    by_cases hi : i = q
    · subst hi
      rw [put_get hQ hQ, if_pos rfl] at hP'
      cases hP'
      exact ⟨hc.2.queue.trans (h.queues i Q hQ).1, hc.1⟩
    · refine h.queues i P' ?_
      rwa [show (w.put q Q').queues[i]? = w.queues[i]? from getElem?_set_ne (Ne.symm hi)] at hP'
  · intro x hx
    obtain ⟨P, hP, ht⟩ := h.observed x hx
    obtain ⟨P', hP', -, g⟩ := later _ P hP
    exact ⟨P', hP', ht.grows g⟩
  · intro t ht
    obtain ⟨i, P, hP, ha⟩ := h.admissions t ht
    obtain ⟨P', hP', -, g⟩ := later i P hP
    exact ⟨i, P', hP', ha.grows g⟩
  · intro p hp
    obtain ⟨i, P, hP, he⟩ := h.prefixes p hp
    obtain ⟨P', hP', -, g⟩ := later i P hP
    exact ⟨i, P', hP', he.grows g⟩
  · intro i P hP
    obtain ⟨P', hP', c', -⟩ := later i P hP
    exact ⟨P', hP', c'⟩

theorem Ok.admitted (h : Ok cap w) (hQ : w.queues[q]? = some Q) (ht : t ∈ w.admissions)
    (hq : t.queue = Q.ring.queue) : Admitted (cap q) Q t := by
  obtain ⟨i, P, hP, ha⟩ := h.admissions t ht
  have h1 := (h.queues i P hP).1
  have h2 := (h.queues q Q hQ).1
  have h3 := ha.queue
  obtain rfl : i = q := by omega
  cases hQ.symm.trans hP
  exact ha

theorem Ok.emitted (h : Ok cap w) (hQ : w.queues[q]? = some Q) (hp : p ∈ w.prefixes)
    (hq : p.queue = Q.ring.queue) : Emitted Q p := by
  obtain ⟨i, P, hP, he⟩ := h.prefixes p hp
  have h1 := (h.queues i P hP).1
  have h2 := (h.queues q Q hQ).1
  have h3 := he.queue
  obtain rfl : i = q := by omega
  cases hQ.symm.trans hP
  exact he

theorem Ok.create (h : Ok cap w) :
    Ok cap { w with queues := w.queues ++ [⟨.new (w.queues.length + 1), [], false⟩] } ∧
      Later cap w { w with queues := w.queues ++ [⟨.new (w.queues.length + 1), [], false⟩] } := by
  have keep : ∀ (i : Nat) (P : Queue), w.queues[i]? = some P →
      (w.queues ++ [⟨.new (w.queues.length + 1), [], false⟩])[i]? = some P := by
    intro i P hP
    rw [getElem?_append_left (List.getElem?_eq_some_iff.mp hP).1, hP]
  refine ⟨⟨?_, ?_, ?_, ?_⟩, ⟨fun i P hP => ⟨P, keep i P hP, .refl⟩, fun _ h => h, fun _ h => h⟩⟩
  · intro i P hP
    rcases Nat.lt_or_ge i w.queues.length with hi | hi
    · exact h.queues i P (by rwa [getElem?_append_left hi] at hP)
    · rw [getElem?_append_right hi] at hP
      obtain ⟨h0, rfl⟩ := List.getElem?_eq_some_iff.mp hP
      simp only [length_singleton] at h0
      obtain rfl : i = w.queues.length := by omega
      simp only [Nat.sub_self, getElem_singleton]
      exact ⟨rfl, Inv.new _ _⟩
  · intro x hx
    obtain ⟨P, hP, ht⟩ := h.observed x hx
    exact ⟨P, keep _ P hP, ht⟩
  · intro t ht
    obtain ⟨i, P, hP, ha⟩ := h.admissions t ht
    exact ⟨i, P, keep i P hP, ha⟩
  · intro p hp
    obtain ⟨i, P, hP, he⟩ := h.prefixes p hp
    exact ⟨i, P, keep i P hP, he⟩

/-- One call. -/
theorem step_spec (h : Ok cap w) {o : Op} (hs : step cap w o = some w') :
    Ok cap w' ∧ Later cap w w' := by
  cases o with
  | create =>
    simp only [step] at hs
    split at hs
    · cases hs
      exact h.create
    · cases hs
  | observe q count =>
    obtain ⟨Q, hQ, hs⟩ := bind_eq_some_iff.mp hs
    split at hs
    · cases hs
      exact ⟨h, Later.refl w⟩
    · next t ht =>
      cases hs
      obtain ⟨h1, h2, h3, h4⟩ := Retirement.observe_ok ht
      refine ⟨⟨h.queues, ?_, h.admissions, h.prefixes⟩, ⟨fun _ P hP => ⟨P, hP, .refl⟩,
        fun _ h => h, fun _ h => h⟩⟩
      intro x hx
      rcases mem_cons.mp hx with rfl | hx
      · exact ⟨Q, hQ, h1, h4, Nat.le_of_eq h2, Nat.le_of_eq h3⟩
      · exact h.observed x hx
  | grant q t signal =>
    obtain ⟨Q, hQ, hs⟩ := bind_eq_some_iff.mp hs
    split at hs
    · next hm =>
      cases hs
      obtain ⟨ho, hl⟩ := h.put hQ (Queue.grant_changes t signal)
      obtain ⟨P, hP, ht⟩ := h.observed _ hm
      cases hQ.symm.trans hP
      refine ⟨⟨ho.queues, ho.observed, ?_, ho.prefixes⟩,
        ⟨hl.queues, fun _ h => mem_append_right _ h, hl.prefixes⟩⟩
      intro t' ht'
      rcases mem_append.mp ht' with hnew | hold
      · refine ⟨q, _, by rw [put_get hQ hQ, if_pos rfl], Queue.grant_admitted ht ?_⟩
        exact mem_toList.mp hnew
      · exact ho.admissions t' hold
    · cases hs
  | reserveAdmitted q t =>
    obtain ⟨Q, hQ, hs⟩ := bind_eq_some_iff.mp hs
    split at hs
    · next hm =>
      cases hs
      exact h.put hQ (Queue.reserveAdmitted_changes fun hq => h.admitted hQ hm hq)
    · cases hs
  | reserve q count =>
    obtain ⟨Q, hQ, hs⟩ := bind_eq_some_iff.mp hs
    cases hs
    exact h.put hQ (Queue.reserve_changes count)
  | publish q stop =>
    obtain ⟨Q, hQ, hs⟩ := bind_eq_some_iff.mp hs
    cases hs
    exact h.put hQ (Queue.publish_changes stop)
  | complete q ticket signal =>
    obtain ⟨Q, hQ, hs⟩ := bind_eq_some_iff.mp hs
    cases hs
    exact h.put hQ (Queue.complete_changes ticket signal)
  | prefixTicket q base next stop immediate =>
    obtain ⟨Q, hQ, hs⟩ := bind_eq_some_iff.mp hs
    split at hs
    · cases hs
      exact ⟨h, Later.refl w⟩
    · next p hp =>
      cases hs
      obtain ⟨-, h1, h2, h3, h4, h5, rfl⟩ := Retirement.prefixTicket_ok.mp hp
      refine ⟨⟨h.queues, h.observed, h.admissions, ?_⟩, ⟨fun _ P hP => ⟨P, hP, .refl⟩,
        fun _ h => h, subset_cons_self _ _⟩⟩
      intro p hp
      rcases mem_cons.mp hp with rfl | hp
      · refine ⟨q, Q, hQ, rfl, ?_, Nat.le_of_eq h4.symm, Nat.le_of_eq h5.symm⟩
        show base < stop
        omega
      · exact h.prefixes p hp
  | completePrefix q p next signal =>
    obtain ⟨Q, hQ, hs⟩ := bind_eq_some_iff.mp hs
    split at hs
    · cases hs
      exact h.put hQ (Queue.completePrefix_changes p next signal)
    · cases hs
  | cancel q =>
    obtain ⟨Q, hQ, hs⟩ := bind_eq_some_iff.mp hs
    cases hs
    exact h.put hQ Queue.cancel_changes

theorem exec_spec (h : Ok cap w) {os : List Op} (hs : exec (step cap) w os = some w') :
    Ok cap w' ∧ Later cap w w' :=
  exec_inv (P := fun v => Ok cap v ∧ Later cap w v)
    (fun _ _ _ hv hst => ⟨(step_spec hv.1 hst).1, hv.2.trans (step_spec hv.1 hst).2⟩)
    ⟨h, Later.refl w⟩ hs

end Plow.Kernarg
