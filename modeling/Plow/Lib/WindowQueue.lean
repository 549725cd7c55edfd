import Mathlib

/-!
# Queues in windows

Items wait on counters and bump counters when they are done.  They stand in windows of one queue;
each window has workers that take its items in order and wait at the one they have taken.  The
windows of one segment are served together, the segments one after the other.

If each counter that is waited for is bumped as often as its threshold says (`Balanced`), no run is
stuck before every item is done exactly if no item comes before itself (`live_iff`): by waiting, by
standing behind another one of its window, or by the order of the segments.
-/

namespace Plow.Lib

open Function Finset Relation

structure WindowQueue where
  size : ℕ
  /-- counters and thresholds -/
  wait : ℕ → List (ℕ × ℕ)
  bump : ℕ → List ℕ
  windows : ℕ
  lo : ℕ → ℕ
  hi : ℕ → ℕ
  seg : ℕ → ℕ

namespace WindowQueue
variable {N : WindowQueue}

def In (N : WindowQueue) (w i : ℕ) : Prop := w < N.windows ∧ N.lo w ≤ i ∧ i < N.hi w

/-- Every item stands in one window. -/
structure Tiled (N : WindowQueue) : Prop where
  covers : ∀ i < N.size, ∃ w, N.In w i
  apart : ∀ v w i, N.In v i → N.In w i → v = w
  inside : ∀ w i, N.In w i → i < N.size
  ordered : ∀ w < N.windows, N.lo w ≤ N.hi w

structure State where
  /-- the next item of a window -/
  next : ℕ → ℕ
  /-- what the workers of a window have taken -/
  slot : ℕ → ℕ → Option ℕ
  done : Finset ℕ
  val : ℕ → ℕ

def init (N : WindowQueue) : State := ⟨N.lo, fun _ _ => none, ∅, fun _ => 0⟩

def Drained (N : WindowQueue) (done : Finset ℕ) (w : ℕ) : Prop :=
  ∀ v i, N.In v i → N.seg v < N.seg w → i ∈ done

def Ready (N : WindowQueue) (val : ℕ → ℕ) (i : ℕ) : Prop := ∀ c ∈ N.wait i, c.2 ≤ val c.1

inductive Step (N : WindowQueue) (workers : ℕ → ℕ) : State → State → Prop where
  | take {s : State} (w k : ℕ) (hw : w < N.windows) (hk : k < workers w) (free : s.slot w k = none)
      (left : s.next w < N.hi w) (drained : N.Drained s.done w) : Step N workers s
        { s with
          next := Function.update s.next w (s.next w + 1)
          slot := Function.update s.slot w (Function.update (s.slot w) k (some (s.next w))) }
  | run {s : State} (w k i : ℕ) (has : s.slot w k = some i) (ready : N.Ready s.val i) :
      Step N workers s
        { s with
          slot := Function.update s.slot w (Function.update (s.slot w) k none)
          done := insert i s.done
          val := fun c => s.val c + (N.bump i).count c }

def Reachable (N : WindowQueue) (workers : ℕ → ℕ) : State → Prop :=
  Relation.ReflTransGen (N.Step workers) N.init

def Live (N : WindowQueue) : Prop :=
  ∀ workers : ℕ → ℕ, (∀ w, 0 < workers w) → ∀ s, N.Reachable workers s →
    (∃ i < N.size, i ∉ s.done) → ∃ s', N.Step workers s s'

/-! ### Counters -/

def bumps (N : WindowQueue) (is : Finset ℕ) (c : ℕ) : ℕ := ∑ i ∈ is, (N.bump i).count c

def Balanced (N : WindowQueue) : Prop :=
  ∀ i < N.size, ∀ c ∈ N.wait i, c.2 = N.bumps (Finset.range N.size) c.1

def WaitsFor (N : WindowQueue) (i j : ℕ) : Prop :=
  i < N.size ∧ j < N.size ∧ ∃ c ∈ N.wait i, c.1 ∈ N.bump j

section
variable {done : Finset ℕ} {val : ℕ → ℕ} {i j : ℕ}

theorem ready_iff (hB : N.Balanced) (hdone : done ⊆ Finset.range N.size) (hval : val = N.bumps done)
    (hi : i < N.size) : N.Ready val i ↔ ∀ j, N.WaitsFor i j → j ∈ done := by
  constructor
  · rintro h j ⟨-, hj, c, hc, hcj⟩
    by_contra hnot
    have hle : N.bumps (Finset.range N.size) c.1 ≤ N.bumps done c.1 := by
      rw [← hB i hi c hc, ← hval]
      exact h c hc
    have hlt : N.bumps done c.1 < N.bumps (Finset.range N.size) c.1 := by
      unfold bumps
      refine sum_lt_sum_of_subset hdone (mem_range.mpr hj) hnot ?_
        fun _ _ _ => Nat.zero_le _
      exact List.count_pos_iff.mpr hcj
    omega
  · intro h c hc
    rw [hB i hi c hc, hval]
    apply le_of_eq
    symm
    unfold bumps
    refine sum_subset hdone fun j hj hjd => ?_
    apply List.count_eq_zero_of_not_mem
    intro hcj
    exact hjd (h j ⟨hi, mem_range.mp hj, c, hc, hcj⟩)

end

/-! ### What comes first -/

/-- `j` has to come before `i` -/
def Precedes (N : WindowQueue) (j i : ℕ) : Prop :=
  N.WaitsFor i j ∨ ∃ v w, N.In v j ∧ N.In w i ∧ (N.seg v < N.seg w ∨ v = w ∧ j < i)

theorem Precedes.lt (hT : N.Tiled) {i j : ℕ} (h : N.Precedes j i) : j < N.size ∧ i < N.size := by
  rcases h with ⟨hi, hj, -⟩ | ⟨v, w, hv, hw, -⟩
  · exact ⟨hj, hi⟩
  · exact ⟨hT.inside v j hv, hT.inside w i hw⟩

theorem exists_first (hT : N.Tiled) (hA : ∀ i, ¬ TransGen N.Precedes i i)
    (left : ℕ → Prop) {i : ℕ} (hi : left i) : ∃ i, left i ∧ ∀ j, N.Precedes j i → ¬ left j := by
  classical
  let R : Fin N.size → Fin N.size → Prop := fun a b => TransGen N.Precedes a b
  have : IsTrans (Fin N.size) R := ⟨fun _ _ _ => TransGen.trans⟩
  have : Std.Irrefl R := ⟨fun a => hA a⟩
  have hwf : WellFounded R := Finite.wellFounded_of_trans_of_irrefl R
  by_cases hlt : i < N.size
  · obtain ⟨m, hm, hmin⟩ := hwf.has_min {a : Fin N.size | left a} ⟨⟨i, hlt⟩, hi⟩
    refine ⟨m, hm, fun j hj hleft => ?_⟩
    exact hmin ⟨j, (hj.lt hT).1⟩ hleft (.single hj)
  · exact ⟨i, hi, fun j hj => absurd (hj.lt hT).2 hlt⟩

/-! ### Any number of workers -/

/-- An item that has been taken is done or with one worker. -/
structure Held (N : WindowQueue) (workers : ℕ → ℕ) (s : State) : Prop where
  val : s.val = N.bumps s.done
  next : ∀ w < N.windows, N.lo w ≤ s.next w ∧ s.next w ≤ N.hi w
  slot : ∀ w k i, s.slot w k = some i → N.In w i ∧ i < s.next w ∧ i ∉ s.done
  inj : ∀ w k l i, s.slot w k = some i → s.slot w l = some i → k = l
  taken : ∀ w i, N.In w i → i < s.next w → i ∈ s.done ∨ ∃ k, s.slot w k = some i
  done : ∀ i ∈ s.done, ∃ w, N.In w i ∧ i < s.next w

section
variable {workers : ℕ → ℕ} {s s' : State}

theorem held_init (hT : N.Tiled) : Held N workers N.init where
  val := by
    funext c
    rfl
  next w hw := ⟨le_rfl, hT.ordered w hw⟩
  slot _ _ _ h := nomatch h
  inj _ _ _ _ h := nomatch h
  taken w i hi h := absurd h (Nat.not_lt.mpr hi.2.1)
  done i h := absurd h (notMem_empty i)

theorem slot_some {f : ℕ → ℕ → Option ℕ} {w k v l : ℕ} {x : Option ℕ} {i : ℕ} :
    update f w (update (f w) k x) v l = some i ↔
      (v = w ∧ l = k ∧ x = some i) ∨ (¬ (v = w ∧ l = k) ∧ f v l = some i) := by
  by_cases hv : v = w
  · subst hv
    rw [update_self]
    by_cases hl : l = k
    · subst hl
      simp
    · simp [hl]
  · simp [hv]

theorem Held.step (hT : N.Tiled) (h : Held N workers s) (hs : N.Step workers s s') :
    Held N workers s' := by
  cases hs with
  | take w k hw hk free left drained =>
    have hnext : N.In w (s.next w) := ⟨hw, (h.next w hw).1, left⟩
    have hgrow : ∀ v, s.next v ≤ update s.next w (s.next w + 1) v := by
      intro v
      by_cases hv : v = w
      · rw [hv, update_self]
        exact Nat.le_succ _
      · rw [update_of_ne hv]
    have hfresh : s.next w ∉ s.done := by
      intro hd
      obtain ⟨v, hv, hlt⟩ := h.done _ hd
      rw [hT.apart v w _ hv hnext] at hlt
      exact lt_irrefl _ hlt
    refine ⟨h.val, fun v hv => ?_, fun v l i hl => ?_, fun v l m i hl hm => ?_,
      fun v i hi hlt => ?_, fun i hi => ?_⟩
    · show N.lo v ≤ update s.next w (s.next w + 1) v ∧
        update s.next w (s.next w + 1) v ≤ N.hi v
      refine ⟨(h.next v hv).1.trans (hgrow v), ?_⟩
      by_cases hvw : v = w
      · rw [hvw, update_self]
        exact left
      · rw [update_of_ne hvw]
        exact (h.next v hv).2
    · rcases slot_some.mp hl with ⟨rfl, rfl, hi⟩ | ⟨-, hl⟩
      · cases hi
        refine ⟨hnext, ?_, hfresh⟩
        show s.next v < update s.next v (s.next v + 1) v
        rw [update_self]
        exact Nat.lt_succ_self _
      · obtain ⟨h1, h2, h3⟩ := h.slot v l i hl
        exact ⟨h1, h2.trans_le (hgrow v), h3⟩
    · rcases slot_some.mp hl with ⟨rfl, rfl, hi⟩ | ⟨-, hl'⟩
      · cases hi
        rcases slot_some.mp hm with ⟨-, rfl, -⟩ | ⟨-, hm'⟩
        · rfl
        · exact absurd (h.slot _ _ _ hm').2.1 (lt_irrefl _)
      · rcases slot_some.mp hm with ⟨rfl, rfl, hi⟩ | ⟨-, hm'⟩
        · cases hi
          exact absurd (h.slot _ _ _ hl').2.1 (lt_irrefl _)
        · exact h.inj v l m i hl' hm'
    · change i < update s.next w (s.next w + 1) v at hlt
      by_cases hold : i < s.next v
      · rcases h.taken v i hi hold with hd | ⟨l, hl⟩
        · exact .inl hd
        · refine .inr ⟨l, slot_some.mpr (.inr ⟨?_, hl⟩)⟩
          rintro ⟨rfl, rfl⟩
          rw [free] at hl
          cases hl
      · have hv : v = w := by
          by_contra hvw
          exact hold (by rwa [update_of_ne hvw] at hlt)
        subst hv
        rw [update_self] at hlt
        have : i = s.next v := by omega
        exact .inr ⟨k, slot_some.mpr (.inl ⟨rfl, rfl, by rw [this]⟩)⟩
    · obtain ⟨v, hv, hlt⟩ := h.done i hi
      exact ⟨v, hv, hlt.trans_le (hgrow v)⟩
  | run w k i has ready =>
    obtain ⟨hin, hlt, hnot⟩ := h.slot w k i has
    refine ⟨?_, h.next, fun v l j hl => ?_, fun v l m j hl hm => ?_, fun v j hj hjlt => ?_,
      fun j hj => ?_⟩
    · funext c
      show s.val c + (N.bump i).count c = N.bumps (insert i s.done) c
      rw [h.val]
      unfold bumps
      rw [sum_insert hnot, add_comm]
    · rcases slot_some.mp hl with ⟨-, -, hj⟩ | ⟨hne, hl'⟩
      · cases hj
      · obtain ⟨h1, h2, h3⟩ := h.slot v l j hl'
        refine ⟨h1, h2, fun hd => ?_⟩
        rcases mem_insert.mp hd with rfl | hd
        · have hv := hT.apart v w j h1 hin
          subst hv
          exact hne ⟨rfl, h.inj v l k j hl' has⟩
        · exact h3 hd
    · rcases slot_some.mp hl with ⟨-, -, hj⟩ | ⟨-, hl⟩
      · cases hj
      · rcases slot_some.mp hm with ⟨-, -, hj⟩ | ⟨-, hm⟩
        · cases hj
        · exact h.inj v l m j hl hm
    · rcases h.taken v j hj hjlt with hd | ⟨l, hl⟩
      · exact .inl (mem_insert_of_mem hd)
      · by_cases hvl : v = w ∧ l = k
        · obtain ⟨rfl, rfl⟩ := hvl
          rw [has] at hl
          cases hl
          exact .inl (mem_insert_self _ _)
        · exact .inr ⟨l, slot_some.mpr (.inr ⟨hvl, hl⟩)⟩
    · rcases mem_insert.mp hj with rfl | hj
      · exact ⟨w, hin, hlt⟩
      · exact h.done j hj

theorem Reachable.held (hT : N.Tiled) (h : N.Reachable workers s) : Held N workers s := by
  induction h with
  | refl => exact held_init hT
  | tail _ hs ih => exact ih.step hT hs

theorem Held.done_sub (hT : N.Tiled) (h : Held N workers s) : s.done ⊆ Finset.range N.size := by
  intro i hi
  obtain ⟨w, hw, -⟩ := h.done i hi
  exact mem_range.mpr (hT.inside w i hw)

theorem live_of_acyclic (hT : N.Tiled) (hB : N.Balanced)
    (hA : ∀ i, ¬ TransGen N.Precedes i i) : N.Live := by
  intro workers hpos s hs hun
  have h := Reachable.held hT hs
  obtain ⟨i, hi, hnot⟩ := hun
  obtain ⟨i, ⟨hi, hnot⟩, hfirst⟩ :=
    exists_first hT hA (fun i => i < N.size ∧ i ∉ s.done) ⟨hi, hnot⟩
  have hpre : ∀ j, N.Precedes j i → j ∈ s.done := by
    intro j hj
    by_contra hjd
    exact hfirst j hj ⟨(hj.lt hT).1, hjd⟩
  obtain ⟨w, hw⟩ := hT.covers i hi
  by_cases ht : i < s.next w
  · rcases h.taken w i hw ht with hd | ⟨k, hk⟩
    · exact absurd hd hnot
    · refine ⟨_, .run w k i hk ?_⟩
      exact (ready_iff hB (h.done_sub hT) h.val hi).mpr fun j hj => hpre j (.inl hj)
  · -- all that is in front of it is done, so the first worker of the window is free
    have hle := Nat.not_lt.mp ht
    refine ⟨_, .take w 0 hw.1 (hpos w) ?_ (hle.trans_lt hw.2.2) ?_⟩
    · cases hslot : s.slot w 0 with
      | none => rfl
      | some j =>
        obtain ⟨hj, hjlt, hjd⟩ := h.slot w 0 j hslot
        exact absurd (hpre j (.inr ⟨w, w, hj, hw, .inr ⟨rfl, hjlt.trans_le hle⟩⟩)) hjd
    · intro v j hj hseg
      exact hpre j (.inr ⟨v, w, hj, hw, .inl hseg⟩)

end

/-! ### One worker each -/

/-- With one worker a window, what is done is closed under what comes first. -/
structure InTurn (N : WindowQueue) (s : State) : Prop where
  busy : ∀ w k i, s.slot w k = some i →
    k = 0 ∧ s.next w = i + 1 ∧ N.Drained s.done w ∧ ∀ j, N.In w j → j < i → j ∈ s.done
  free : ∀ w, s.slot w 0 = none → ∀ j, N.In w j → j < s.next w → j ∈ s.done
  closed : ∀ i ∈ s.done, ∀ j, N.Precedes j i → j ∈ s.done

section
variable {s s' : State}

theorem inTurn_init : InTurn N N.init where
  busy _ _ _ h := nomatch h
  free _ _ _ hj h := absurd h (Nat.not_lt.mpr hj.2.1)
  closed i h := absurd h (notMem_empty i)

theorem InTurn.step (hT : N.Tiled) (hB : N.Balanced) (hh : Held N (fun _ => 1) s)
    (h : InTurn N s) (hs : N.Step (fun _ => 1) s s') : InTurn N s' := by
  cases hs with
  | take w k hw hk free left drained =>
    have hk0 : k = 0 := by omega
    subst hk0
    refine ⟨fun v l i hl => ?_, fun v hv j hj hlt => ?_, h.closed⟩
    · rcases slot_some.mp hl with ⟨rfl, rfl, hi⟩ | ⟨hne, hl⟩
      · cases hi
        exact ⟨rfl, update_self .., drained, fun j hj hlt => h.free v free j hj hlt⟩
      · obtain ⟨h0, h1, h2⟩ := h.busy v l i hl
        have hvw : v ≠ w := fun hvw => hne ⟨hvw, h0⟩
        exact ⟨h0, (update_of_ne hvw ..).trans h1, h2⟩
    · have hvw : v ≠ w := by
        rintro rfl
        change update s.slot v _ v 0 = none at hv
        rw [update_self, update_self] at hv
        cases hv
      change update s.slot w _ v 0 = none at hv
      change j < update s.next w _ v at hlt
      rw [update_of_ne hvw] at hv hlt
      exact h.free v hv j hj hlt
  | run w k i has ready =>
    obtain ⟨rfl, hnext, hdr, hbefore⟩ := h.busy w k i has
    obtain ⟨hin, -, -⟩ := hh.slot w 0 i has
    have hpre : ∀ j, N.Precedes j i → j ∈ s.done := by
      rintro j (hj | ⟨v, u, hv, hu, hseg⟩)
      · exact (ready_iff hB (hh.done_sub hT) hh.val (hT.inside w i hin)).mp ready j hj
      · have huw := hT.apart u w i hu hin
        subst huw
        rcases hseg with hseg | ⟨rfl, hlt⟩
        · exact hdr v j hv hseg
        · exact hbefore j hv hlt
    have hsub : s.done ⊆ insert i s.done := subset_insert _ _
    refine ⟨fun v l j hl => ?_, fun v hv j hj hlt => ?_, fun x hx j hj => ?_⟩
    · rcases slot_some.mp hl with ⟨-, -, hj⟩ | ⟨hne, hl⟩
      · cases hj
      · obtain ⟨h0, h1, h2, h3⟩ := h.busy v l j hl
        exact ⟨h0, h1, fun u x hx hseg => hsub (h2 u x hx hseg), fun x hx hlt => hsub (h3 x hx hlt)⟩
    · by_cases hvw : v = w
      · subst hvw
        change j < s.next v at hlt
        rw [hnext] at hlt
        rcases Nat.lt_succ_iff_lt_or_eq.mp hlt with hlt | rfl
        · exact hsub (hbefore j hj hlt)
        · exact mem_insert_self _ _
      · change update s.slot w _ v 0 = none at hv
        rw [update_of_ne hvw] at hv
        exact hsub (h.free v hv j hj hlt)
    · rcases mem_insert.mp hx with rfl | hx
      · exact hsub (hpre j hj)
      · exact hsub (h.closed x hx j hj)

theorem Reachable.inTurn (hT : N.Tiled) (hB : N.Balanced) (h : N.Reachable (fun _ => 1) s) :
    InTurn N s := by
  induction h with
  | refl => exact inTurn_init
  | tail h hs ih => exact ih.step hT hB (Reachable.held hT h) hs

def work (N : WindowQueue) (s : State) : ℕ :=
  (∑ w ∈ Finset.range N.windows, (N.hi w - s.next w)) + (N.size - s.done.card)

theorem Step.work {workers : ℕ → ℕ} (hT : N.Tiled) (hh : Held N workers s)
    (hs : N.Step workers s s') : N.work s' < N.work s := by
  cases hs with
  | take w k hw hk free left drained =>
    unfold WindowQueue.work
    apply Nat.add_lt_add_right
    refine sum_lt_sum (fun v _ => ?_) ⟨w, mem_range.mpr hw, ?_⟩
    · show N.hi v - update s.next w (s.next w + 1) v ≤ N.hi v - s.next v
      by_cases hv : v = w
      · rw [hv, update_self]
        omega
      · rw [update_of_ne hv]
    · show N.hi w - update s.next w (s.next w + 1) w < N.hi w - s.next w
      rw [update_self]
      omega
  | run w k i has ready =>
    obtain ⟨hin, -, hnot⟩ := hh.slot w k i has
    unfold WindowQueue.work
    apply Nat.add_lt_add_left
    show N.size - (insert i s.done).card < N.size - s.done.card
    have hsub : insert i s.done ⊆ Finset.range N.size :=
      insert_subset (mem_range.mpr (hT.inside w i hin)) (hh.done_sub hT)
    have hle := card_le_card hsub
    rw [card_insert_of_notMem hnot, card_range] at hle
    rw [card_insert_of_notMem hnot]
    omega

theorem Live.finishes (hT : N.Tiled) (hL : N.Live) :
    ∃ s, N.Reachable (fun _ => 1) s ∧ ∀ i < N.size, i ∈ s.done := by
  suffices hall : ∀ n s, N.Reachable (fun _ => 1) s → N.work s ≤ n →
      ∃ s, N.Reachable (fun _ => 1) s ∧ ∀ i < N.size, i ∈ s.done from
    hall _ N.init .refl le_rfl
  intro n
  induction n with
  | zero =>
    intro s hs hn
    refine ⟨s, hs, fun i hi => ?_⟩
    by_contra hnot
    obtain ⟨s', hs'⟩ := hL _ (fun _ => one_pos) s hs ⟨i, hi, hnot⟩
    have := hs'.work hT (Reachable.held hT hs)
    omega
  | succ n ih =>
    intro s hs hn
    by_cases hun : ∃ i < N.size, i ∉ s.done
    · obtain ⟨s', hs'⟩ := hL _ (fun _ => one_pos) s hs hun
      have := hs'.work hT (Reachable.held hT hs)
      exact ih s' (hs.tail hs') (by omega)
    · refine ⟨s, hs, fun i hi => ?_⟩
      by_contra hnot
      exact hun ⟨i, hi, hnot⟩

/-- In a live queue no item comes before itself: of a cycle, no item could be the first to be
done. -/
theorem acyclic_of_live (hT : N.Tiled) (hB : N.Balanced) (hL : N.Live) (i : ℕ) :
    ¬ TransGen N.Precedes i i := by
  intro hcyc
  obtain ⟨s, hs, hall⟩ := hL.finishes hT
  -- by induction on the run: nothing that lies on a cycle with the item is ever done
  have hnone : ∀ s, N.Reachable (fun _ => 1) s → ∀ j, TransGen N.Precedes i j →
      TransGen N.Precedes j i → j ∉ s.done := by
    intro s hs
    induction hs with
    | refl => exact fun j _ _ => notMem_empty j
    | @tail s s' hs hst ih =>
      intro j hij hji hj
      have hturn' := Reachable.inTurn hT hB (hs.tail hst)
      obtain ⟨p, hip, hpj⟩ := TransGen.tail'_iff.mp (hji.trans hij)
      have hpd := hturn'.closed j hj p hpj
      have hcp : TransGen N.Precedes i p := by
        rcases reflTransGen_iff_eq_or_transGen.mp hip with rfl | hjp
        · exact hij
        · exact hij.trans hjp
      have hpi : TransGen N.Precedes p i := .head hpj hji
      have hpn := ih p hcp hpi
      have hjn := ih j hij hji
      cases hst with
      | take w k hw hk free left drained => exact hpn hpd
      | run w k x has ready =>
        have hxp : p = x := (mem_insert.mp hpd).resolve_right hpn
        have hxj : j = x := (mem_insert.mp hj).resolve_right hjn
        have hpre := Reachable.inTurn hT hB hs
        have hheld := Reachable.held hT hs
        -- the item waits for itself, so it was not ready
        obtain ⟨rfl, hnext, hdr, hbefore⟩ := hpre.busy w k x has
        obtain ⟨hin, -, -⟩ := hheld.slot w 0 x has
        rw [hxp, hxj] at hpj
        rcases hpj with hwait | ⟨v, u, hv, hu, hseg⟩
        · have := (ready_iff hB (hheld.done_sub hT) hheld.val (hT.inside w x hin)).mp ready x hwait
          exact hjn (hxj ▸ this)
        · rw [hT.apart v u x hv hu] at hseg
          rcases hseg with hseg | ⟨-, hlt⟩
          · exact lt_irrefl _ hseg
          · exact lt_irrefl _ hlt
  exact hnone s hs i hcyc hcyc (hall i (by
    obtain ⟨j, hij, -⟩ := TransGen.head'_iff.mp hcyc
    exact (hij.lt hT).1))

end
end WindowQueue
end Plow.Lib
