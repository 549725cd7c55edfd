import Plow.Lib.CounterNet

/-!
# The order that coarse counters impose

A net is `Coarse` if its items fall into groups and each item increments the counter of its own
group: a counter at its threshold has then seen its whole group finish, and what waits on a group
is told by a relation `dep` on groups.  Over every history of such a net

* `Coarse.before`     a group is complete before a group that transitively waits on it starts;
* `Coarse.overlap`    two groups that do not wait on each other run at the same time in some
                      history, with nothing complete but what they wait on.

`Queue` is the net run by workers that take the items in order and wait at the one they have
taken.  If every item waits on earlier items only, no state of it is stuck before all items have
finished, and its histories are histories of the net.
-/

namespace Plow.Lib.CounterNet

open Function Finset Relation

variable {C : Type} [DecidableEq C] {N : CounterNet C} {grp : Nat → C} {dep : C → C → Prop}
  {a b c : C} {s s' : State C} {i j : Nat} {l : List (State C)}

/-! ### Histories -/

/-- The states of a history, newest first. -/
inductive History (N : CounterNet C) : List (State C) → Prop where
  | init : History N [init]
  | step {s s' : State C} {l : List (State C)} (h : History N (s :: l)) (hs : N.Step s s') :
      History N (s' :: s :: l)

theorem History.reachable (h : N.History l) : ∀ s ∈ l, N.Reachable s := by
  induction h with
  | init =>
    intro s hs
    rw [List.mem_singleton.mp hs]
    exact .refl
  | step _ hs ih =>
    intro t ht
    rcases List.mem_cons.mp ht with rfl | ht
    · exact (ih _ List.mem_cons_self).tail hs
    · exact ih t ht

theorem Reachable.history (h : N.Reachable s) : ∃ l, N.History (s :: l) := by
  induction h with
  | refl => exact ⟨[], .init⟩
  | tail _ hs ih =>
    obtain ⟨l, hl⟩ := ih
    exact ⟨_, hl.step hs⟩

def Started (grp : Nat → C) (s : State C) (c : C) : Prop := ∃ i ∈ s.started, grp i = c

def Complete (N : CounterNet C) (grp : Nat → C) (s : State C) (c : C) : Prop :=
  ∀ i < N.size, grp i = c → i ∈ s.done

/-- `a` is complete before `b` starts -/
def Before (N : CounterNet C) (grp : Nat → C) (l : List (State C)) (a b : C) : Prop :=
  ∀ s ∈ l, Started grp s b → Complete N grp s a

/-! ### Groups -/

/-- Every item increments the counter of its group, and the items of a group wait on the same
groups, all of them whole. -/
structure Coarse (N : CounterNet C) (grp : Nat → C) (dep : C → C → Prop) : Prop where
  pred : ∀ i, N.pred i = none
  succ : ∀ i < N.size, N.succ i = [grp i]
  wait : ∀ i < N.size, ∀ c, c ∈ N.wait i ↔ dep c (grp i)
  threshold : ∀ i < N.size, N.threshold (grp i) = ((Finset.range N.size).filter (grp · = grp i)).card
  inhabited : ∀ i < N.size, ∀ c, dep c (grp i) → ∃ j < N.size, grp j = c

namespace Coarse

theorem increments_eq (h : Coarse N grp dep) {is : Finset Nat} (hs : is ⊆ Finset.range N.size) :
    N.increments is c = (is.filter (grp · = c)).card := by
  unfold increments
  rw [card_filter]
  apply sum_congr rfl
  intro i hi
  rw [h.succ i (mem_range.mp (hs hi)), List.count_singleton]
  by_cases hc : grp i = c <;> simp [hc]

theorem balanced (h : Coarse N grp dep) : N.Balanced := by
  intro i hi c hc
  obtain ⟨j, hj, rfl⟩ := h.inhabited i hi c ((h.wait i hi c).mp hc)
  rw [h.threshold j hj, h.increments_eq (Finset.Subset.refl _)]

theorem complete_of_ready (h : Coarse N grp dep) (hs : N.Counts s) (hi : i < N.size)
    (hr : N.Ready s.done s.val i) (hc : dep c (grp i)) : Complete N grp s c := by
  intro j hj hjc
  refine done_of_ready h.balanced hs.done_sub hs.val hi hr ((h.wait i hi c).mpr hc) hj ?_
  rw [h.succ j hj, hjc]
  exact List.mem_singleton_self c

theorem ready_of_complete (h : Coarse N grp dep) (hs : N.Counts s) (hi : i < N.size)
    (hc : ∀ c, dep c (grp i) → Complete N grp s c) : N.Ready s.done s.val i := by
  refine ⟨fun c hw => ?_, fun p hp => ?_⟩
  · have hd := (h.wait i hi c).mp hw
    rw [h.balanced i hi c hw, hs.val, h.increments_eq (Finset.Subset.refl _),
      h.increments_eq hs.done_sub]
    apply card_le_card
    intro j hj
    obtain ⟨hj, hjc⟩ := mem_filter.mp hj
    exact mem_filter.mpr ⟨hc c hd j (mem_range.mp hj) hjc, hjc⟩
  · rw [h.pred i] at hp
    cases hp

end Coarse

namespace Coarse

theorem started_wait (h : Coarse N grp dep) (hs : N.Reachable s) :
    ∀ i ∈ s.started, ∀ c, dep c (grp i) → Complete N grp s c := by
  induction hs with
  | refl => exact fun i hi => absurd hi (notMem_empty i)
  | @tail s s' hs hst ih =>
    have hcount := Reachable.counts hs
    intro i hi c hc
    cases hst with
    | start lt idle ready =>
      show Complete N grp s c
      rcases mem_insert.mp hi with rfl | hi
      · exact h.complete_of_ready hcount lt ready hc
      · exact ih i hi c hc
    | finish started running =>
      intro j hj hjc
      exact mem_insert_of_mem (ih i hi c hc j hj hjc)

theorem complete_of_started (h : Coarse N grp dep) (hs : N.Reachable s)
    (hab : TransGen dep a b) (hb : Started grp s b) : Complete N grp s a := by
  have hc := Reachable.counts hs
  induction hab with
  | single hab =>
    obtain ⟨i, hi, rfl⟩ := hb
    exact h.started_wait hs i hi a hab
  | @tail m b _ hmb ih =>
    obtain ⟨i, hi, rfl⟩ := hb
    obtain ⟨j, hj, rfl⟩ := h.inhabited i (hc.lt i hi) m hmb
    have hdone := h.started_wait hs i hi _ hmb j hj rfl
    exact ih ⟨j, hc.sub hdone, rfl⟩

theorem before (h : Coarse N grp dep) (hl : N.History l)
    (hab : TransGen dep a b) : Before N grp l a b :=
  fun s hs hb => h.complete_of_started (hl.reachable s hs) hab hb

/-! ### Groups that run together -/

variable {rank : C → Nat} {A : C → Prop}

/-- exactly the items of the groups in `A` have run -/
def Ran (N : CounterNet C) (grp : Nat → C) (A : C → Prop) (s : State C) : Prop :=
  s.started = s.done ∧ ∀ i < N.size, i ∈ s.done ↔ A (grp i)

/-- A set of groups that waits on nothing outside itself can run alone. -/
theorem exists_ran (h : Coarse N grp dep) (hrank : ∀ a b, dep a b → rank a < rank b)
    (hA : ∀ a b, dep a b → A b → A a) : ∃ s, N.Reachable s ∧ Ran N grp A s := by
  classical
  -- induction on the items of `A` that are left
  suffices hall : ∀ n s, N.Reachable s → s.started = s.done → (∀ i ∈ s.done, A (grp i)) →
      ((Finset.range N.size).filter fun i => A (grp i) ∧ i ∉ s.done).card = n →
      ∃ s, N.Reachable s ∧ Ran N grp A s from
    hall _ init .refl rfl (fun i hi => absurd hi (notMem_empty i)) rfl
  intro n
  induction n with
  | zero =>
    intro s hs heq hin hcard
    have hnone := card_eq_zero.mp hcard
    refine ⟨s, hs, heq, fun i hi => ⟨hin i, fun ha => ?_⟩⟩
    by_contra hnot
    have hmem : i ∈ (Finset.range N.size).filter fun i => A (grp i) ∧ i ∉ s.done :=
      mem_filter.mpr ⟨mem_range.mpr hi, ha, hnot⟩
    rw [hnone] at hmem
    exact absurd hmem (notMem_empty i)
  | succ n ih =>
    intro s hs heq hin hcard
    have hne : ((Finset.range N.size).filter fun i => A (grp i) ∧ i ∉ s.done).Nonempty := by
      apply card_pos.mp
      omega
    obtain ⟨i, hi, hmin⟩ := exists_min_image _ (fun i => rank (grp i)) hne
    obtain ⟨hir, hAi, hnot⟩ := mem_filter.mp hi
    have hlt := mem_range.mp hir
    have hc := Reachable.counts hs
    have hready : N.Ready s.done s.val i := by
      refine h.ready_of_complete hc hlt fun c hcd j hj hjc => ?_
      by_contra hjn
      have hle := hmin j (mem_filter.mpr ⟨mem_range.mpr hj, hA _ _ (hjc ▸ hcd) hAi, hjn⟩)
      have := hrank c _ hcd
      rw [hjc] at hle
      omega
    have hidle : i ∉ s.started := heq ▸ hnot
    have h1 : N.Reachable { s with started := insert i s.started } :=
      hs.tail (.start hlt hidle hready)
    have h2 := h1.tail (.finish (mem_insert_self i s.started) hnot)
    refine ih _ h2 ?_ ?_ ?_
    · show insert i s.started = insert i s.done
      rw [heq]
    · intro j hj
      rcases mem_insert.mp hj with rfl | hj
      · exact hAi
      · exact hin j hj
    · have hset : ((Finset.range N.size).filter fun j => A (grp j) ∧ j ∉ insert i s.done) =
          ((Finset.range N.size).filter fun j => A (grp j) ∧ j ∉ s.done).erase i := by
        ext j
        simp only [mem_filter, mem_erase, mem_insert, not_or]
        tauto
      show ((Finset.range N.size).filter fun j => A (grp j) ∧ j ∉ insert i s.done).card = n
      rw [hset, card_erase_of_mem hi, hcard]
      rfl

omit [DecidableEq C] in
theorem rank_lt (hrank : ∀ a b, dep a b → rank a < rank b) (h : TransGen dep a b) :
    rank a < rank b := by
  induction h with
  | single h => exact hrank _ _ h
  | tail _ h ih => exact lt_trans ih (hrank _ _ h)

/-- Two groups neither of which waits on the other start in one history, with nothing complete but
what they wait on. -/
theorem overlap (h : Coarse N grp dep) (rank : C → Nat) (hrank : ∀ a b, dep a b → rank a < rank b)
    (hi : i < N.size) (hj : j < N.size) (hne : grp i ≠ grp j)
    (hij : ¬ TransGen dep (grp i) (grp j)) (hji : ¬ TransGen dep (grp j) (grp i)) :
    ∃ s, N.Reachable s ∧ Started grp s (grp i) ∧ Started grp s (grp j) ∧
      ∀ k < N.size, Complete N grp s (grp k) →
        TransGen dep (grp k) (grp i) ∨ TransGen dep (grp k) (grp j) := by
  have hself : ∀ c, ¬ TransGen dep c c := by
    intro c hcc
    exact lt_irrefl _ (rank_lt hrank hcc)
  obtain ⟨s, hs, hran⟩ := h.exists_ran
    (A := fun c => TransGen dep c (grp i) ∨ TransGen dep c (grp j)) hrank
    (fun a b hab => Or.imp (.head hab) (.head hab))
  have hc := Reachable.counts hs
  have hidle : ∀ k < N.size, ¬ (TransGen dep (grp k) (grp i) ∨
      TransGen dep (grp k) (grp j)) → k ∉ s.started := by
    intro k hk hA hm
    exact hA ((hran.2 k hk).mp (hran.1 ▸ hm))
  have hri : N.Ready s.done s.val i := h.ready_of_complete hc hi fun c hcd k hk hkc =>
    (hran.2 k hk).mpr (.inl (.single (hkc ▸ hcd)))
  have hrj : N.Ready s.done s.val j := h.ready_of_complete hc hj fun c hcd k hk hkc =>
    (hran.2 k hk).mpr (.inr (.single (hkc ▸ hcd)))
  have h1 : N.Reachable { s with started := insert i s.started } :=
    hs.tail (.start hi (hidle i hi (not_or.mpr ⟨hself _, hij⟩)) hri)
  have hj' : j ∉ insert i s.started := by
    intro hm
    rcases mem_insert.mp hm with rfl | hm
    · exact hne rfl
    · exact hidle j hj (not_or.mpr ⟨hji, hself _⟩) hm
  have h2 := h1.tail (.start hj hj' hrj)
  refine ⟨_, h2, ⟨i, ?_, rfl⟩, ⟨j, mem_insert_self _ _, rfl⟩, fun k hk hk' => ?_⟩
  · exact mem_insert_of_mem (mem_insert_self _ _)
  · exact (hran.2 k hk).mp (hk' k hk rfl)

end Coarse

/-! ### Workers that take the items in order -/

/-- `next` is the next item to be taken, `slot` the item a worker has. -/
structure Queue (C : Type) (n : Nat) where
  next : Nat
  slot : Fin n → Option Nat
  net : State C

namespace Queue
variable {n : Nat} {q q' : Queue C n} {f : Fin n → Option Nat}

def start (C : Type) (n : Nat) : Queue C n := ⟨0, fun _ => none, init⟩

inductive Step (N : CounterNet C) : Queue C n → Queue C n → Prop where
  | take {q : Queue C n} (k : Fin n) (free : q.slot k = none) (left : q.next < N.size) :
      Step N q { q with next := q.next + 1, slot := Function.update q.slot k (some q.next) }
  | start {q : Queue C n} {i : Nat} (k : Fin n) (has : q.slot k = some i) (idle : i ∉ q.net.started)
      (ready : N.Ready q.net.done q.net.val i) :
      Step N q { q with net := { q.net with started := insert i q.net.started } }
  | finish {q : Queue C n} {i : Nat} (k : Fin n) (has : q.slot k = some i)
      (started : i ∈ q.net.started) (running : i ∉ q.net.done) :
      Step N q { q with
        slot := Function.update q.slot k none
        net := { q.net with
          done := insert i q.net.done
          val := fun c => q.net.val c + (N.succ i).count c } }

def Reachable (N : CounterNet C) : Queue C n → Prop := Relation.ReflTransGen (Step N) (start C n)

/-- An item that has been taken has finished or is with one worker, which is not done with it. -/
structure Held (N : CounterNet C) (q : Queue C n) : Prop where
  net : CounterNet.Reachable N q.net
  next_le : q.next ≤ N.size
  slot_lt : ∀ k i, q.slot k = some i → i < q.next ∧ i ∉ q.net.done
  inj : ∀ k l i, q.slot k = some i → q.slot l = some i → k = l
  taken : ∀ i < q.next, i ∈ q.net.done ∨ ∃ k, q.slot k = some i
  started : ∀ i ∈ q.net.started, i < q.next

theorem held_start : Held N (start C n) where
  net := .refl
  next_le := Nat.zero_le _
  slot_lt _ _ h := nomatch h
  inj _ _ _ h := nomatch h
  taken _ h := absurd h (Nat.not_lt_zero _)
  started i h := absurd h (notMem_empty i)

omit [DecidableEq C] in
theorem update_some {k l : Fin n} {x : Nat} :
    update f k (some x) l = some i ↔ (l = k ∧ x = i) ∨ (l ≠ k ∧ f l = some i) := by
  by_cases h : l = k
  · subst h
    simp
  · simp [h]

omit [DecidableEq C] in
theorem update_none {k l : Fin n} : update f k none l = some i ↔ l ≠ k ∧ f l = some i := by
  by_cases h : l = k
  · subst h
    simp
  · simp [h]

theorem Held.take (h : Held N q) (k : Fin n) (free : q.slot k = none) (left : q.next < N.size) :
    Held N { q with next := q.next + 1, slot := update q.slot k (some q.next) } where
  net := h.net
  next_le := left
  slot_lt l i hl := by
    rcases update_some.mp hl with ⟨-, rfl⟩ | ⟨-, hl⟩
    · have hc := CounterNet.Reachable.counts h.net
      exact ⟨Nat.lt_succ_self _, fun hd => Nat.lt_irrefl _ (h.started _ (hc.sub hd))⟩
    · obtain ⟨h1, h2⟩ := h.slot_lt l i hl
      exact ⟨Nat.lt_succ_of_lt h1, h2⟩
  inj l m i hl hm := by
    rcases update_some.mp hl with ⟨hk, rfl⟩ | ⟨-, hl⟩
    · rcases update_some.mp hm with ⟨hm, -⟩ | ⟨-, hm⟩
      · rw [hk, hm]
      · exact absurd (h.slot_lt m _ hm).1 (lt_irrefl _)
    · rcases update_some.mp hm with ⟨-, rfl⟩ | ⟨-, hm⟩
      · exact absurd (h.slot_lt l _ hl).1 (lt_irrefl _)
      · exact h.inj l m i hl hm
  taken i hi := by
    rcases Nat.lt_succ_iff_lt_or_eq.mp hi with hi | rfl
    · rcases h.taken i hi with hd | ⟨l, hl⟩
      · exact .inl hd
      · refine .inr ⟨l, update_some.mpr (.inr ⟨fun hk => ?_, hl⟩)⟩
        rw [hk, free] at hl
        cases hl
    · exact .inr ⟨k, update_some.mpr (.inl ⟨rfl, rfl⟩)⟩
  started i hi := Nat.lt_succ_of_lt (h.started i hi)

theorem Held.finish (h : Held N q) (k : Fin n) (has : q.slot k = some i)
    (started : i ∈ q.net.started) (running : i ∉ q.net.done) :
    Held N { q with
      slot := update q.slot k none
      net := { q.net with
        done := insert i q.net.done
        val := fun c => q.net.val c + (N.succ i).count c } } where
  net := h.net.tail (.finish started running)
  next_le := h.next_le
  slot_lt l j hl := by
    obtain ⟨hk, hold⟩ := update_none.mp hl
    obtain ⟨h1, h2⟩ := h.slot_lt l j hold
    refine ⟨h1, fun hd => ?_⟩
    rcases mem_insert.mp hd with hd | hd
    · exact hk (h.inj l k i (hd ▸ hold) has)
    · exact h2 hd
  inj l m j hl hm := h.inj l m j (update_none.mp hl).2 (update_none.mp hm).2
  taken j hj := by
    rcases h.taken j hj with hd | ⟨l, hl⟩
    · exact .inl (mem_insert_of_mem hd)
    · by_cases hk : l = k
      · rw [hk, has] at hl
        cases hl
        exact .inl (mem_insert_self _ _)
      · exact .inr ⟨l, update_none.mpr ⟨hk, hl⟩⟩
  started := h.started

theorem Held.step (h : Held N q) (hs : Step N q q') : Held N q' := by
  cases hs with
  | take k free left => exact h.take k free left
  | @start i k has idle ready =>
    have hi := (h.slot_lt k i has).1
    refine ⟨h.net.tail (.start (lt_of_lt_of_le hi h.next_le) idle ready), h.next_le, h.slot_lt,
      h.inj, h.taken, fun j hj => ?_⟩
    rcases mem_insert.mp hj with rfl | hj
    · exact hi
    · exact h.started j hj
  | finish k has started running => exact h.finish k has started running

theorem Reachable.held (h : Reachable N q) : Held N q := by
  induction h with
  | refl => exact held_start
  | tail _ hs ih => exact ih.step hs

/-- Workers that take the items in order are not stuck while an item has not finished, if items
wait on earlier items only. -/
theorem progress (h : Coarse N grp dep)
    (hord : ∀ i < N.size, ∀ j < N.size, dep (grp j) (grp i) → j < i) (hn : 0 < n)
    (hq : Reachable N q) (hun : ∃ i < N.size, i ∉ q.net.done) : ∃ q', Step N q q' := by
  have hh := hq.held
  have hc := CounterNet.Reachable.counts hh.net
  obtain ⟨i, ⟨hi, hnot⟩, hmin⟩ : ∃ i, (i < N.size ∧ i ∉ q.net.done) ∧
      ∀ j < i, ¬ (j < N.size ∧ j ∉ q.net.done) :=
    ⟨Nat.find hun, Nat.find_spec hun, fun _ => Nat.find_min hun⟩
  by_cases ht : i < q.next
  · obtain hd | ⟨k, hk⟩ := hh.taken i ht
    · exact absurd hd hnot
    · by_cases hs : i ∈ q.net.started
      · exact ⟨_, .finish k hk hs hnot⟩
      · refine ⟨_, .start k hk hs (h.ready_of_complete hc hi fun c hcd j hj hjc => ?_)⟩
        have hlt := hord i hi j hj (hjc ▸ hcd)
        by_contra hjn
        exact hmin j hlt ⟨hj, hjn⟩
  · -- everything taken has finished, so every worker is free
    refine ⟨_, .take ⟨0, hn⟩ ?_ (lt_of_le_of_lt (Nat.not_lt.mp ht) hi)⟩
    cases hslot : q.slot ⟨0, hn⟩ with
    | none => rfl
    | some j =>
      obtain ⟨hj, hjn⟩ := hh.slot_lt _ j hslot
      exact absurd ⟨lt_of_lt_of_le hj hh.next_le, hjn⟩
        (hmin j (lt_of_lt_of_le hj (Nat.not_lt.mp ht)))

def work (q : Queue C n) : Nat := q.next + q.net.started.card + q.net.done.card

theorem Step.work (hs : Step N q q') : q'.work = q.work + 1 := by
  unfold Queue.work
  cases hs with
  | take k free left =>
    show q.next + 1 + q.net.started.card + q.net.done.card = _
    omega
  | start k has idle ready =>
    show q.next + (insert _ q.net.started).card + q.net.done.card = _
    rw [card_insert_of_notMem idle]
    omega
  | finish k has started running =>
    show q.next + q.net.started.card + (insert _ q.net.done).card = _
    rw [card_insert_of_notMem running]
    omega

end Queue
end Plow.Lib.CounterNet
