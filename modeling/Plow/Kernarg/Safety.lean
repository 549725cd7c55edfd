import Plow.Kernarg.World

/-!
# Kernarg ring safety

`ring_safe` puts the facts of every run together: what each grant, publication and completion says
when it happens, which tickets are refused, and that poison is final.  Two things are not so:
a completion that retires nothing leaves the tickets taken before it good, and `preflight` refuses
a negative signal without poisoning the queue (`stale_ticket_accepted`).
-/

namespace Plow.Kernarg

open Relation Lib

/-! ### Refusals -/

/-- no reserve, publish or complete succeeds -/
structure Dead (r : Retirement) : Prop where
  reserve : ∀ count capacity, ∃ e, r.reserve count capacity = (r, .error e)
  reserveAdmitted : ∀ t, ∃ e, r.reserveAdmitted t = (r, .error e)
  publish : ∀ stop, ∃ e, r.publish stop = (r, .error e)
  complete : ∀ ticket signal, ∃ e, r.complete ticket signal = (r, .error e)

variable {capacity : Nat} {Q Q' : Queue} {t : Admission} {p : Prefix}

theorem reserveAdmitted_refused {r : Retirement} (h : r.validate t ≠ .ok ()) :
    ∃ e, r.reserveAdmitted t = (r, .error e) := by
  rcases r.reserveAdmitted_cases t with he | ⟨hv, -⟩ | ⟨hv, -⟩
  · exact he
  · exact absurd hv h
  · exact absurd hv h

theorem Inv.dead_ring (h : Inv capacity Q) (hp : Q.poisoned = true) : Dead Q.ring := by
  have hpub := h.dead hp
  have hb := h.below
  have hne : Q.ring.published ≠ Q.ring.issued := by omega
  refine ⟨fun count cap => ?_, fun t => ?_, fun stop => ?_, fun ticket signal => ?_⟩
  · rcases Q.ring.reserve_cases count cap with he | ⟨-, hq, -⟩
    · exact he
    · exact absurd hq hne
  · exact reserveAdmitted_refused fun hv => hne (Retirement.validate_ok.mp hv).2.1
  · rcases Q.ring.publish_cases stop with he | ⟨-, rfl, hlt⟩
    · exact ⟨_, he⟩
    · omega
  · unfold Retirement.complete
    split
    · exact ⟨_, rfl⟩
    · next n hn => exact absurd (Retirement.completionTicket_ok.mp hn).1 hne

theorem Taken.refused (h : Taken capacity Q t)
    (hc : Q.ring.issued < Q'.ring.issued ∨ Q.ring.retired < Q'.ring.retired) :
    ∃ e, Q'.ring.reserveAdmitted t = (Q'.ring, .error e) := by
  refine reserveAdmitted_refused fun hv => ?_
  obtain ⟨-, -, h1, h2⟩ := Retirement.validate_ok.mp hv
  have h3 := h.issued
  have h4 := h.retired
  omega

def Spent (Q : Queue) (p : Prefix) : Prop :=
  p.base < Q.ring.published ∨ p.stop < Q.ring.issued ∨ Q.ring.published = Q.ring.issued

theorem Change.spent (h : Inv capacity Q) (he : Emitted Q p) (c : Change capacity Q Q')
    (hs : Q'.log ≠ Q.log ∨ Spent Q p) : Spent Q' p := by
  have h1 := he.lt
  have h3 := he.issued
  have h4 := h.below
  cases c with
  | grant n quiet pos fits below room =>
    refine .inr (.inl ?_)
    show p.stop < Q.ring.issued + n
    omega
  | publish more =>
    refine .inl ?_
    show p.base < Q.ring.issued
    omega
  | zero quiet => exact .inr (.inr quiet)
  | retire quiet seen => exact .inr (.inr quiet)
  | poison =>
    refine .inl ?_
    show p.base < u64Max
    omega

theorem Changes.spent (h : Inv capacity Q) (he : Emitted Q p) (c : Changes capacity Q Q')
    (hs : Q'.log ≠ Q.log) : Spent Q' p := by
  induction c with
  | refl => exact absurd rfl hs
  | @tail Q₁ Q₂ c₁ c₂ ih =>
    obtain ⟨h₁, g₁⟩ := Changes.spec h c₁
    refine c₂.spent h₁ (he.grows g₁) ?_
    by_cases hl : Q₁.log = Q.log
    · exact .inl (by rwa [hl])
    · exact .inr (ih hl)

theorem Emitted.refused {next : Nat} {signal : Int} (he : p.base < p.stop) (hs : Spent Q p) :
    ∃ e, Q.ring.completePrefix p next signal = (Q.ring, .error e) := by
  unfold Retirement.completePrefix
  split
  · exact ⟨_, rfl⟩
  · split
    · exact ⟨_, rfl⟩
    · next hp =>
      obtain ⟨-, -, -, -, h1, h2, -⟩ := Retirement.prefixTicket_ok.mp hp
      unfold Spent at hs
      omega

/-! ### Every run -/

/-- In every run: each grant follows the one before it and shares no ring position with a batch
that is not yet retired; stale and foreign tickets are refused; a poisoned queue stays dead. -/
theorem ring_safe {cap : Nat → Nat} {before after : List Op} {w w' : World} {q : Nat} {Q Q' : Queue}
    (hw : exec (step cap) .empty before = some w) (hw' : exec (step cap) w after = some w')
    (hQ : w.queues[q]? = some Q) (hQ' : w'.queues[q]? = some Q') :
    (∀ ev old, ev :: old <:+ Q'.log → EventOk (cap q) old ev) ∧
      (∀ t ∈ w.admissions, t.queue ≠ Q'.ring.queue ∨ granted Q.log < granted Q'.log ∨
          Q.ring.retired ≠ Q'.ring.retired → ∃ e, Q'.ring.reserveAdmitted t = (Q'.ring, .error e)) ∧
      (∀ p ∈ w.prefixes, p.queue ≠ Q'.ring.queue ∨ Q.log ≠ Q'.log →
        ∀ next signal, ∃ e, Q'.ring.completePrefix p next signal = (Q'.ring, .error e)) ∧
      (Q.poisoned = true → Dead Q'.ring) := by
  have ho := (exec_spec Ok.empty hw).1
  obtain ⟨ho', hl⟩ := exec_spec ho hw'
  have hi := (ho.queues q Q hQ).2
  have hi' := (ho'.queues q Q' hQ').2
  obtain ⟨P, hP, c⟩ := hl.queues q Q hQ
  cases hQ'.symm.trans hP
  have g := (Changes.spec hi c).2
  refine ⟨hi'.log, ?_, ?_, fun hp => hi'.dead_ring (g.poisoned hp).1⟩
  · intro t ht hc
    by_cases hq : t.queue = Q'.ring.queue
    · refine (ho.admitted hQ ht (hq.trans g.queue)).toTaken.refused ?_
      have h1 := g.retired
      have h2 := hi.issued
      have h3 := hi'.issued
      rcases hc with hc | hc | hc
      · exact absurd hq hc
      · exact .inl (by omega)
      · exact .inr (by omega)
    · exact reserveAdmitted_refused fun hv => hq (Retirement.validate_ok.mp hv).1
  · intro p hp hc next signal
    by_cases hq : p.queue = Q'.ring.queue
    · have he := ho.emitted hQ hp (hq.trans g.queue)
      refine Emitted.refused he.lt (Changes.spent hi he c ?_)
      rcases hc with hc | hc
      · exact absurd hq hc
      · exact Ne.symm hc
    · unfold Retirement.completePrefix
      rw [if_pos (.inl hq)]
      exact ⟨_, rfl⟩

def sampleBefore : List Op :=
  [.create, .create, .reserve 0 4, .prefixTicket 0 0 2 4 true, .publish 0 4, .observe 0 3,
    .grant 0 ⟨1, 4, 0, 3, 4, true⟩ 0]

def sampleAfter : List Op :=
  [.reserveAdmitted 1 ⟨1, 4, 0, 3, 4, true⟩, .reserveAdmitted 0 ⟨1, 4, 0, 3, 4, true⟩, .cancel 0]

theorem ring_safe_sample : ∃ w w' Q Q', exec (step fun _ => 4) .empty sampleBefore = some w ∧
      exec (step fun _ => 4) w sampleAfter = some w' ∧ w.queues[0]? = some Q ∧
      w'.queues[0]? = some Q' ∧ Q'.log = [.granted 4 3, .zero 4, .published 4, .granted 0 4] ∧
      (∀ ev old, ev :: old <:+ Q'.log → EventOk 4 old ev) ∧
      (∀ t ∈ w.admissions, t.queue ≠ Q'.ring.queue ∨ granted Q.log < granted Q'.log ∨
          Q.ring.retired ≠ Q'.ring.retired → ∃ e, Q'.ring.reserveAdmitted t = (Q'.ring, .error e)) ∧
      (∀ p ∈ w.prefixes, p.queue ≠ Q'.ring.queue ∨ Q.log ≠ Q'.log →
        ∀ next signal, ∃ e, Q'.ring.completePrefix p next signal = (Q'.ring, .error e)) ∧
      (Q.poisoned = true → Dead Q'.ring) :=
  ⟨_, _, _, _, rfl, rfl, rfl, rfl, rfl, @ring_safe (fun _ => 4) sampleBefore sampleAfter _ _ 0 _ _ rfl rfl rfl rfl⟩

def emptyTicket : Admission := ⟨1, 0, 0, 1, 4, false⟩

/-- A completion that retires nothing leaves an admission good; and after `preflight` saw a negative
signal a batch is still retired and another granted. -/
theorem stale_ticket_accepted : (exec (step fun _ => 4) .empty
        [.create, .observe 0 1, .grant 0 emptyTicket 0, .complete 0 0 0]).map
      (fun w => (decide (emptyTicket ∈ w.admissions),
        w.queues.map fun Q => (Q.log, (Q.ring.reserveAdmitted emptyTicket).2))) =
      some (true, [([.zero 0], .ok 0)]) ∧
    (exec (step fun _ => 4) .empty [.create, .reserve 0 4, .publish 0 4]).map
      (fun w => w.queues.map fun Q => ((Q.ring.preflight 1 4 fun r => (r, -1)).2,
          ((Q.ring.preflight 1 4 fun r => (r, -1)).1.complete 4 0).2,
          (((Q.ring.preflight 1 4 fun r => (r, -1)).1.complete 4 0).1.reserve 1 4).2)) =
      some [(.error (.incomplete (-1)), .ok (), .ok 4)] := by
  constructor <;> rfl

end Plow.Kernarg
