import Mathlib

/-!
# Counters

Instructions that wait on counters and increment counters when they finish, some of them behind
another one.  An instruction starts when its counters have reached their thresholds and the one
in front of it has finished; starting and finishing are steps of their own, in any order.

In a `Balanced` net a threshold is the number of increments there are, so a counter that has
reached it has seen all its producers finish (`CounterNet.done_of_ready`).  If the instructions can
be ranked so that each waits for lower ranks only, no state is stuck (`CounterNet.progress`).
-/

namespace Plow.Lib

open Finset

structure CounterNet (C : Type) where
  size : Nat
  wait : Nat → List C
  succ : Nat → List C
  pred : Nat → Option Nat
  threshold : C → Nat

namespace CounterNet
variable {C : Type} [DecidableEq C] {N : CounterNet C} {i j : Nat} {c : C} {done : Finset Nat}
  {val : C → Nat} {rank : Nat → Nat}

structure State (C : Type) where
  started : Finset Nat
  done : Finset Nat
  val : C → Nat

def init : State C := ⟨∅, ∅, fun _ => 0⟩

def Ready (N : CounterNet C) (done : Finset Nat) (val : C → Nat) (i : Nat) : Prop :=
  (∀ c ∈ N.wait i, N.threshold c ≤ val c) ∧ ∀ p ∈ N.pred i, p ∈ done

instance : Decidable (N.Ready done val i) :=
  inferInstanceAs (Decidable ((∀ c ∈ N.wait i, N.threshold c ≤ val c) ∧ ∀ p ∈ N.pred i, p ∈ done))

inductive Step (N : CounterNet C) : State C → State C → Prop where
  | start {s : State C} {i : Nat} (lt : i < N.size) (idle : i ∉ s.started)
      (ready : N.Ready s.done s.val i) : Step N s { s with started := insert i s.started }
  | finish {s : State C} {i : Nat} (started : i ∈ s.started) (running : i ∉ s.done) :
      Step N s { s with
        done := insert i s.done
        val := fun c => s.val c + (N.succ i).count c }

def Reachable (N : CounterNet C) : State C → Prop := Relation.ReflTransGen N.Step init

/-! ### The counters count -/

def increments (N : CounterNet C) (is : Finset Nat) (c : C) : Nat :=
  ∑ i ∈ is, (N.succ i).count c

def Balanced (N : CounterNet C) : Prop :=
  ∀ i < N.size, ∀ c ∈ N.wait i, N.threshold c = N.increments (Finset.range N.size) c

theorem increments_insert (h : i ∉ done) :
    N.increments (insert i done) c = N.increments done c + (N.succ i).count c := by
  unfold increments
  rw [sum_insert h, Nat.add_comm]

/-- What holds of every state of a run. -/
structure Counts (N : CounterNet C) (s : State C) : Prop where
  lt : ∀ i ∈ s.started, i < N.size
  sub : s.done ⊆ s.started
  val : s.val = N.increments s.done
  pred : ∀ i ∈ s.started, ∀ p ∈ N.pred i, p ∈ s.done

theorem counts_init : N.Counts init where
  lt _ h := absurd h (notMem_empty _)
  sub := Finset.Subset.refl _
  val := by
    funext c
    rfl
  pred _ h := absurd h (notMem_empty _)

theorem Counts.step {s s' : State C} (h : N.Counts s) (hs : N.Step s s') : N.Counts s' := by
  cases hs with
  | start lt idle ready =>
    refine ⟨fun j hj => ?_, fun j hj => mem_insert_of_mem (h.sub hj), h.val, fun j hj => ?_⟩
    · rcases mem_insert.mp hj with rfl | hj
      · exact lt
      · exact h.lt j hj
    · rcases mem_insert.mp hj with rfl | hj
      · exact ready.2
      · exact h.pred j hj
  | @finish i started running =>
    refine ⟨h.lt, fun j hj => ?_, ?_, fun j hj p hp => mem_insert_of_mem (h.pred j hj p hp)⟩
    · rcases mem_insert.mp hj with rfl | hj
      · exact started
      · exact h.sub hj
    · funext c
      rw [increments_insert running, h.val]

theorem Reachable.counts {s : State C} (h : N.Reachable s) : N.Counts s := by
  induction h with
  | refl => exact counts_init
  | tail _ hs ih => exact ih.step hs

theorem done_of_ready (hB : N.Balanced) (hdone : done ⊆ Finset.range N.size)
    (hval : val = N.increments done) (hi : i < N.size) (hr : N.Ready done val i) (hc : c ∈ N.wait i)
    (hj : j < N.size) (hjc : c ∈ N.succ j) : j ∈ done := by
  by_contra hnot
  have hle : N.increments (Finset.range N.size) c ≤ N.increments done c := by
    rw [← hB i hi c hc, ← hval]
    exact hr.1 c hc
  have hlt : N.increments done c < N.increments (Finset.range N.size) c := by
    unfold increments
    refine sum_lt_sum_of_subset hdone (mem_range.mpr hj) hnot ?_ fun _ _ _ => Nat.zero_le _
    exact List.count_pos_iff.mpr hjc
  omega

/-! ### Ranks -/

/-- Every instruction waits for instructions of a lower rank only. -/
structure Ranked (N : CounterNet C) (rank : Nat → Nat) : Prop where
  pred : ∀ i < N.size, ∀ p ∈ N.pred i, p < N.size ∧ rank p < rank i
  wait : ∀ i < N.size, ∀ c ∈ N.wait i, ∀ j < N.size, c ∈ N.succ j → rank j < rank i

theorem exists_ready (hB : N.Balanced) (hR : N.Ranked rank) (hdone : done ⊆ Finset.range N.size)
    (hval : val = N.increments done) (h : ∃ i < N.size, i ∉ done) :
    ∃ i < N.size, i ∉ done ∧ N.Ready done val i := by
  have hne : ((Finset.range N.size).filter (· ∉ done)).Nonempty := by
    obtain ⟨i, hi, hnot⟩ := h
    exact ⟨i, mem_filter.mpr ⟨mem_range.mpr hi, hnot⟩⟩
  obtain ⟨i, hi, hmin⟩ := exists_min_image _ rank hne
  obtain ⟨hi, hnot⟩ := mem_filter.mp hi
  have hi := mem_range.mp hi
  have hlow : ∀ j < N.size, rank j < rank i → j ∈ done := by
    intro j hj hlt
    by_contra hnot
    have := hmin j (mem_filter.mpr ⟨mem_range.mpr hj, hnot⟩)
    omega
  refine ⟨i, hi, hnot, fun c hc => ?_, fun p hp => ?_⟩
  · rw [hB i hi c hc, hval]
    apply Nat.le_of_eq
    symm
    unfold increments
    refine sum_subset hdone fun j hj hjd => ?_
    apply List.count_eq_zero_of_not_mem
    intro hjc
    have hj := mem_range.mp hj
    exact hjd (hlow j hj (hR.wait i hi c hc j hj hjc))
  · obtain ⟨hp1, hp2⟩ := hR.pred i hi p hp
    exact hlow p hp1 hp2

theorem Counts.done_sub {s : State C} (h : N.Counts s) : s.done ⊆ Finset.range N.size :=
  fun i hi => mem_range.mpr (h.lt i (h.sub hi))

theorem progress {s : State C} (hB : N.Balanced) (hR : N.Ranked rank) (h : N.Counts s)
    (hun : ∃ i < N.size, i ∉ s.done) : ∃ s', N.Step s s' := by
  obtain ⟨i, hi, hnot, hr⟩ := exists_ready hB hR h.done_sub h.val hun
  by_cases hs : i ∈ s.started
  · exact ⟨_, .finish hs hnot⟩
  · exact ⟨_, .start hi hs hr⟩

end CounterNet
end Plow.Lib

/-!
# Executions of counters

An execution is a list of events.  A net whose instructions are ready whenever those of another net are
has at least its executions (`Trace.transfer`): counters may be added or left out where the others, and
the order on the resources, imply what they ask for.
-/

namespace Plow.Lib.CounterNet
variable {C : Type} [DecidableEq C] {N N' : CounterNet C} {s t s' : State C}

inductive Event where
  | start (i : Nat)
  | finish (i : Nat)
  deriving DecidableEq, Repr

inductive Trace (N : CounterNet C) : State C → List Event → State C → Prop where
  | nil {s : State C} : Trace N s [] s
  | start {s t : State C} {i : Nat} {es : List Event} (lt : i < N.size) (idle : i ∉ s.started)
      (ready : N.Ready s.done s.val i) (rest : Trace N { s with started := insert i s.started } es t) :
      Trace N s (.start i :: es) t
  | finish {s t : State C} {i : Nat} {es : List Event} (started : i ∈ s.started) (running : i ∉ s.done)
      (rest : Trace N { s with
        done := insert i s.done
        val := fun c => s.val c + (N.succ i).count c } es t) : Trace N s (.finish i :: es) t

def Execution (N : CounterNet C) (es : List Event) : Prop := ∃ s, N.Trace init es s

variable {es : List Event}

def Implies (N N' : CounterNet C) : Prop :=
  ∀ s s' : State C, N.Counts s → N'.Counts s' → s.started = s'.started → s.done = s'.done →
    ∀ i < N.size, N.Ready s.done s.val i → N'.Ready s'.done s'.val i

theorem Trace.transfer (hsize : N.size = N'.size) (hready : Implies N N') (h : N.Trace s es t)
    (hc : N.Counts s) (hc' : N'.Counts s') (hst : s.started = s'.started) (hd : s.done = s'.done) :
    ∃ t', N'.Trace s' es t' := by
  induction h generalizing s' with
  | nil => exact ⟨s', .nil⟩
  | @start s t i es lt idle ready _ ih =>
    have lt' : i < N'.size := hsize ▸ lt
    have idle' : i ∉ s'.started := hst ▸ idle
    have ready' := hready s s' hc hc' hst hd i lt ready
    obtain ⟨t', ht'⟩ := ih (hc.step (.start lt idle ready)) (hc'.step (.start lt' idle' ready'))
      (congrArg (insert i) hst) hd
    exact ⟨t', .start lt' idle' ready' ht'⟩
  | @finish s t i es started running _ ih =>
    have started' : i ∈ s'.started := hst ▸ started
    have running' : i ∉ s'.done := hd ▸ running
    obtain ⟨t', ht'⟩ := ih (hc.step (.finish started running)) (hc'.step (.finish started' running'))
      hst (congrArg (insert i) hd)
    exact ⟨t', .finish started' running' ht'⟩

theorem Execution.transfer (hsize : N.size = N'.size) (hready : Implies N N') (h : N.Execution es) :
    N'.Execution es := by
  obtain ⟨t, ht⟩ := h
  exact ht.transfer hsize hready counts_init counts_init rfl rfl

end Plow.Lib.CounterNet
