import Plow.Kernarg.Retirement
import Plow.Lib.Ring
import Plow.Lib.Runs

/-!
# The kernarg ring over whole runs

Several queues live side by side; tickets are kept, replayed, and presented to any queue.  Every
queue carries a log of what happened to it (newest first) that the code does not have:

* `granted b n`   the positions `[b, b + n)` were reserved;
* `published e`   everything before `e` was published;
* `zero e`        a zero completion signal was taken while exactly the positions before `e` were
                  published.

`Change` lists what a call can do to a queue and `Inv` is kept by it; a run of the world is a
sequence of such changes on each queue (`step_spec`, `exec_spec`).
-/

namespace Plow.Kernarg

open Relation List

inductive Event
  | granted (base count : Nat)
  | published (stop : Nat)
  | zero (stop : Nat)
  deriving DecidableEq, Repr

structure Queue where
  ring : Retirement
  log : List Event
  poisoned : Bool
  deriving DecidableEq

def granted : List Event → Nat
  | [] => 0
  | .granted _ n :: log => n + granted log
  | _ :: log => granted log

def Apart (capacity b n b' n' : Nat) : Prop :=
  ∀ i < n, ∀ j < n', (b + i) % capacity ≠ (b' + j) % capacity

/-- What an event says at the time it happens, after the events `old`. -/
def EventOk (capacity : Nat) (old : List Event) : Event → Prop
  | .granted b n => b = granted old ∧ 0 < n ∧ n ≤ capacity ∧
      ∀ b' n', .granted b' n' ∈ old →
        (∃ e, .zero e ∈ old ∧ b' + n' ≤ e) ∨ Apart capacity b' n' b n
  | .published e => e = granted old
  | .zero e => e = granted old ∧ (e = 0 ∨ .published e ∈ old)

/-! ### What a call can do to a queue -/

inductive Change (capacity : Nat) (Q : Queue) : Queue → Prop
  | grant (n : Nat) (quiet : Q.ring.published = Q.ring.issued) (pos : 0 < n) (fits : n ≤ capacity)
      (below : Q.ring.issued + n < u64Max - 1)
      (room : Q.ring.issued - Q.ring.retired ≤ capacity - n) :
      Change capacity Q { Q with
        ring := { Q.ring with issued := Q.ring.issued + n }
        log := .granted Q.ring.issued n :: Q.log }
  | publish (more : Q.ring.published < Q.ring.issued) :
      Change capacity Q { Q with
        ring := { Q.ring with published := Q.ring.issued }
        log := .published Q.ring.issued :: Q.log }
  | zero (quiet : Q.ring.published = Q.ring.issued) :
      Change capacity Q { Q with log := .zero Q.ring.issued :: Q.log }
  | retire (quiet : Q.ring.published = Q.ring.issued) (seen : .zero Q.ring.issued ∈ Q.log) :
      Change capacity Q { Q with ring := { Q.ring with retired := Q.ring.issued } }
  | poison : Change capacity Q { Q with ring := Q.ring.cancel, poisoned := true }

/-- The invariant of a queue. -/
structure Inv (capacity : Nat) (Q : Queue) : Prop where
  issued : Q.ring.issued = granted Q.log
  below : Q.ring.issued < u64Max - 1
  retired_le : Q.ring.retired ≤ Q.ring.issued
  window : Q.ring.issued ≤ Q.ring.retired + capacity
  published : if Q.poisoned then Q.ring.published = u64Max
    else Q.ring.published ≤ Q.ring.issued ∧
      (Q.ring.published = 0 ∨ .published Q.ring.published ∈ Q.log)
  retired : Q.ring.retired = 0 ∨ .zero Q.ring.retired ∈ Q.log
  /-- every batch is before or after a retired range -/
  split : ∀ b n, .granted b n ∈ Q.log → b + n ≤ Q.ring.issued ∧
    ∀ e, .zero e ∈ Q.log → b + n ≤ e ∨ e ≤ b
  zero_le : ∀ e, .zero e ∈ Q.log → e ≤ Q.ring.issued
  log : ∀ ev old, ev :: old <:+ Q.log → EventOk capacity old ev

variable {capacity : Nat} {Q Q' : Queue}

theorem Inv.new (capacity queue : Nat) : Inv capacity ⟨.new queue, [], false⟩ where
  issued := rfl
  below := show 0 < u64Max - 1 by decide
  retired_le := Nat.le_refl 0
  window := Nat.zero_le _
  published := ⟨Nat.le_refl 0, .inl rfl⟩
  retired := .inl rfl
  split := fun b n h => by cases h
  zero_le := fun e h => by cases h
  log := fun ev old h => by simp at h

theorem Inv.dead (h : Inv capacity Q) (hp : Q.poisoned = true) : Q.ring.published = u64Max := by
  have h1 := h.published
  rw [hp] at h1
  exact h1

theorem Inv.live (h : Inv capacity Q) (hq : Q.ring.published ≤ Q.ring.issued) :
    Q.poisoned = false := by
  cases hp : Q.poisoned with
  | false => rfl
  | true =>
    have h2 := h.dead hp
    have h3 := h.below
    omega

theorem log_cons {ev : Event} {log : List Event} (hl : ∀ ev old, ev :: old <:+ log →
    EventOk capacity old ev) (h : EventOk capacity log ev) :
    ∀ ev' old, ev' :: old <:+ ev :: log → EventOk capacity old ev' := by
  intro ev' old hs
  rcases suffix_cons_iff.mp hs with heq | hs'
  · obtain ⟨rfl, rfl⟩ := List.cons.inj heq
    exact h
  · exact hl ev' old hs'

theorem Inv.apart (h : Inv capacity Q) {n : Nat} (fits : n ≤ capacity)
    (room : Q.ring.issued - Q.ring.retired ≤ capacity - n) {b' n' : Nat}
    (hg : .granted b' n' ∈ Q.log) :
    (∃ e, .zero e ∈ Q.log ∧ b' + n' ≤ e) ∨ Apart capacity b' n' Q.ring.issued n := by
  by_cases hc : ∃ e, .zero e ∈ Q.log ∧ b' + n' ≤ e
  · exact .inl hc
  · refine .inr fun i hi j hj heq => ?_
    obtain ⟨h1, h2⟩ := h.split b' n' hg
    have hb : Q.ring.retired ≤ b' := by
      rcases h.retired with h0 | hz
      · omega
      · rcases h2 _ hz with h3 | h3
        · exact absurd ⟨_, hz, h3⟩ hc
        · exact h3
    have := h.retired_le
    have := Lib.ring_row_inj heq (by omega) (by omega)
    omega

theorem Change.inv (h : Inv capacity Q) (c : Change capacity Q Q') : Inv capacity Q' := by
  cases c with
  | grant n quiet pos fits below room =>
    have hlive := h.live (Nat.le_of_eq quiet)
    have hp := h.published
    rw [hlive] at hp
    have hr := h.retired_le
    refine
      { issued := ?_, below := below, retired_le := Nat.le_trans hr (Nat.le_add_right _ _),
        window := ?_, published := ?_, retired := h.retired.imp id (mem_cons_of_mem _),
        split := ?_, zero_le := ?_, log := log_cons h.log ?_ }
    · show Q.ring.issued + n = n + granted Q.log
      rw [h.issued, Nat.add_comm]
    · show Q.ring.issued + n ≤ Q.ring.retired + capacity
      omega
    · show if Q.poisoned then _ else _
      rw [hlive]
      exact ⟨Nat.le_trans hp.1 (Nat.le_add_right _ _), hp.2.imp id (mem_cons_of_mem _)⟩
    · intro b m hm
      rcases mem_cons.mp hm with heq | hm
      · obtain ⟨rfl, rfl⟩ := Event.granted.inj heq
        refine ⟨Nat.le_refl _, fun e he => .inr ?_⟩
        rcases mem_cons.mp he with heq | he
        · cases heq
        · exact h.zero_le e he
      · obtain ⟨h1, h2⟩ := h.split b m hm
        refine ⟨Nat.le_trans h1 (Nat.le_add_right _ _), fun e he => h2 e ?_⟩
        rcases mem_cons.mp he with heq | he
        · cases heq
        · exact he
    · intro e he
      rcases mem_cons.mp he with heq | he
      · cases heq
      · exact Nat.le_trans (h.zero_le e he) (Nat.le_add_right _ _)
    · exact ⟨h.issued, pos, fits, fun b' n' hg => h.apart fits room hg⟩
  | publish more =>
    have hlive := h.live (Nat.le_of_lt more)
    refine
      { issued := h.issued, below := h.below, retired_le := h.retired_le, window := h.window,
        published := ?_, retired := h.retired.imp id (mem_cons_of_mem _), split := ?_,
        zero_le := ?_, log := log_cons h.log h.issued }
    · show if Q.poisoned then _ else _
      rw [hlive]
      exact ⟨Nat.le_refl _, .inr mem_cons_self⟩
    · intro b m hm
      rcases mem_cons.mp hm with heq | hm
      · cases heq
      · refine ⟨(h.split b m hm).1, fun e he => (h.split b m hm).2 e ?_⟩
        rcases mem_cons.mp he with heq | he
        · cases heq
        · exact he
    · intro e he
      rcases mem_cons.mp he with heq | he
      · cases heq
      · exact h.zero_le e he
  | zero quiet =>
    have hlive := h.live (Nat.le_of_eq quiet)
    have hp := h.published
    rw [hlive] at hp
    refine
      { issued := h.issued, below := h.below, retired_le := h.retired_le, window := h.window,
        published := ?_, retired := h.retired.imp id (mem_cons_of_mem _), split := ?_,
        zero_le := ?_, log := log_cons h.log ⟨h.issued, ?_⟩ }
    · show if Q.poisoned then _ else _
      rw [hlive]
      exact ⟨hp.1, hp.2.imp id (mem_cons_of_mem _)⟩
    · intro b m hm
      rcases mem_cons.mp hm with heq | hm
      · cases heq
      · refine ⟨(h.split b m hm).1, fun e he => ?_⟩
        rcases mem_cons.mp he with heq | he
        · obtain rfl := Event.zero.inj heq
          exact .inl (h.split b m hm).1
        · exact (h.split b m hm).2 e he
    · intro e he
      rcases mem_cons.mp he with heq | he
      · obtain rfl := Event.zero.inj heq
        exact Nat.le_refl _
      · exact h.zero_le e he
    · rw [← quiet]
      exact hp.2
  | retire quiet seen =>
    exact
      { issued := h.issued, below := h.below, retired_le := Nat.le_refl _,
        window := Nat.le_add_right _ _, published := h.published, retired := .inr seen,
        split := h.split, zero_le := h.zero_le, log := h.log }
  | poison =>
    exact
      { issued := h.issued, below := h.below, retired_le := h.retired_le, window := h.window,
        published := rfl, retired := h.retired, split := h.split, zero_le := h.zero_le,
        log := h.log }

/-- what changes leave: the log only grows, the counters only rise -/
structure Grows (Q Q' : Queue) : Prop where
  queue : Q'.ring.queue = Q.ring.queue
  log : Q.log <:+ Q'.log
  issued : Q.ring.issued ≤ Q'.ring.issued
  published : Q.ring.published ≤ Q'.ring.published
  retired : Q.ring.retired ≤ Q'.ring.retired
  poisoned : Q.poisoned = true → Q'.poisoned = true ∧ Q'.log = Q.log ∧ Q'.ring = Q.ring

theorem Grows.refl (Q : Queue) : Grows Q Q :=
  ⟨rfl, suffix_refl _, Nat.le_refl _, Nat.le_refl _, Nat.le_refl _, fun h => ⟨h, rfl, rfl⟩⟩

theorem Grows.trans {Q'' : Queue} (h : Grows Q Q') (h' : Grows Q' Q'') : Grows Q Q'' where
  queue := h'.queue.trans h.queue
  log := h.log.trans h'.log
  issued := Nat.le_trans h.issued h'.issued
  published := Nat.le_trans h.published h'.published
  retired := Nat.le_trans h.retired h'.retired
  poisoned := fun hp => by
    obtain ⟨h1, h2, h3⟩ := h.poisoned hp
    obtain ⟨h4, h5, h6⟩ := h'.poisoned h1
    exact ⟨h4, h5.trans h2, h6.trans h3⟩

theorem Change.grows (h : Inv capacity Q) (c : Change capacity Q Q') : Grows Q Q' := by
  -- a call that succeeds finds the queue alive
  have dead : ∀ {P : Prop}, Q.ring.published ≤ Q.ring.issued → Q.poisoned = true → P := by
    intro P hq hp
    rw [h.live hq] at hp
    cases hp
  cases c with
  | grant n quiet pos fits below room =>
    exact ⟨rfl, suffix_cons _ _, Nat.le_add_right _ _, Nat.le_refl _, Nat.le_refl _,
      dead (Nat.le_of_eq quiet)⟩
  | publish more =>
    exact ⟨rfl, suffix_cons _ _, Nat.le_refl _, Nat.le_of_lt more, Nat.le_refl _,
      dead (Nat.le_of_lt more)⟩
  | zero quiet =>
    exact ⟨rfl, suffix_cons _ _, Nat.le_refl _, Nat.le_refl _, Nat.le_refl _,
      dead (Nat.le_of_eq quiet)⟩
  | retire quiet seen =>
    exact ⟨rfl, suffix_refl _, Nat.le_refl _, Nat.le_refl _, h.retired_le,
      dead (Nat.le_of_eq quiet)⟩
  | poison =>
    have hle : Q.ring.published ≤ u64Max := by
      cases hp : Q.poisoned with
      | true => exact Nat.le_of_eq (h.dead hp)
      | false =>
        have h1 := h.published
        have h2 := h.below
        rw [hp] at h1
        have h3 : Q.ring.published ≤ Q.ring.issued := h1.1
        omega
    refine ⟨rfl, suffix_refl _, Nat.le_refl _, hle, Nat.le_refl _, fun hp => ⟨rfl, rfl, ?_⟩⟩
    show { Q.ring with published := u64Max } = Q.ring
    rw [← h.dead hp]

abbrev Changes (capacity : Nat) : Queue → Queue → Prop := ReflTransGen (Change capacity)

theorem Changes.spec (h : Inv capacity Q) (c : Changes capacity Q Q') :
    Inv capacity Q' ∧ Grows Q Q' := by
  induction c with
  | refl => exact ⟨h, Grows.refl Q⟩
  | tail _ hc ih => exact ⟨hc.inv ih.1, ih.2.trans (hc.grows ih.1)⟩

end Plow.Kernarg
