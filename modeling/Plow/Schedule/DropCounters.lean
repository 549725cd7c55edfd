import Plow.Schedule.Verify

/-!
# A stream without some of its counters

A stream that `verify` accepts may lose the counters whose producers come before their consumers on one
resource: what is left is accepted again and has the same executions (`verify_without`).  A replay comes
to its end wherever the counters balance, the instructions can be ranked and every edge is gated
(`replay_ends`).
-/

namespace Plow.Schedule
open Plow.Lib Plow.Packet List Option

def keepCounters (D : List UInt32) (ins : Inst) : Inst := { ins with
  wait := ins.wait.filter fun c => c ∉ D
  succ := ins.succ.filter fun c => c ∉ D }

def withoutCounters (prog : Program) (D : List UInt32) : Program := { prog with
  insts := prog.insts.map (keepCounters D)
  counters := prog.counters.filter fun e => e.id ∉ D }

def Spare (prog : Program) (D : List UInt32) : Prop :=
  ∀ c ∈ D, ∀ (i j : Nat) (a b : Inst), prog.insts[i]? = some a → prog.insts[j]? = some b →
    c ∈ a.succ → c ∈ b.wait → resourceKey a = resourceKey b ∧ i < j

variable {prog : Program} {order : List Nat} {tasks : TaskGraph} {D l : List UInt32} {c : UInt32} {i j : Nat}
  {res : Nat × Nat} {report : VerifyReport} {rank : Nat → Nat}

/-! ### A replay that ends -/

section
variable {N : CounterNet UInt32} {r : Replay} {parents : Nat → List Nat} {rank : Nat → Nat} {fuel : Nat}

def Replay.state (r : Replay) : CounterNet.State UInt32 := ⟨r.done, r.done, r.val⟩

/-- What also holds of the replay after every round: what is done has the one in front of it behind it. -/
structure ReplayBehind (N : CounterNet UInt32) (r : Replay) : Prop extends ReplayOk N r where
  pred : ∀ i ∈ r.done, ∀ p ∈ N.pred i, p ∈ r.done

theorem ReplayBehind.counts (h : ReplayBehind N r) : N.Counts r.state where
  lt i hi := Finset.mem_range.mp (h.sub hi)
  sub := Finset.Subset.refl _
  val := h.val
  pred := h.pred

theorem ReplayBehind.complete (h : ReplayBehind N r) : ReplayBehind N (complete N r (readyOf N r)) where
  toReplayOk := h.toReplayOk.complete
  pred i hi p hp := by
    have hmem : p ∈ r.done := by
      rcases Finset.mem_union.mp hi with hi | hi
      · exact h.pred i hi p hp
      · exact (mem_readyOf.mp (mem_toFinset.mp hi)).2.2.2 p hp
    exact Finset.mem_union_left _ hmem

theorem replay_ends (hB : N.Balanced) (hR : N.Ranked rank)
    (hparents : ∀ r, ReplayBehind N r → ∀ i ∈ readyOf N r, ∀ p ∈ parents i, p ∈ r.done)
    (h : ReplayBehind N r) (hfuel : r.remaining ≤ fuel) :
    ∃ res, replay N parents order fuel r = some (.ok res) := by
  induction fuel generalizing r with
  | zero =>
    unfold replay
    rw [if_pos (Nat.le_zero.mp hfuel)]
    exact ⟨_, rfl⟩
  | succ fuel ih =>
    unfold replay
    split
    · exact ⟨_, rfl⟩
    · next hrem =>
      have hleft : ∃ i < N.size, i ∉ r.done := by
        by_contra hall
        have hsub : Finset.range N.size ⊆ r.done := fun i hi => by
          by_contra hnot
          exact hall ⟨i, Finset.mem_range.mp hi, hnot⟩
        have hcard := Finset.card_le_card hsub
        rw [Finset.card_range] at hcard
        have := h.remaining
        omega
      obtain ⟨i, hi, hnot, hr⟩ := CounterNet.exists_ready hB hR h.sub h.val hleft
      have hmem : i ∈ readyOf N r := mem_readyOf.mpr ⟨hi, hnot, hr⟩
      have hlen : 0 < (readyOf N r).length := length_pos_of_mem hmem
      have hpre : premature parents r.done (readyOf N r) = none := by
        refine findSome?_eq_none_iff.mpr fun i hi => ?_
        rw [map_eq_none_iff, find?_eq_none]
        intro p hp
        simpa using hparents r h i hi p hp
      dsimp only
      rw [if_neg (ne_nil_of_mem hmem), hpre]
      refine ih h.complete ?_
      show r.remaining - (readyOf N r).length ≤ fuel
      omega

end

theorem replayBehind_start (prog : Program) : ReplayBehind (net prog) (.start prog) where
  toReplayOk := replayOk_start prog
  pred i hi := absurd hi (Finset.notMem_empty i)

/-- What is checked statically. -/
structure Static (prog : Program) (order : List Nat) (tasks : TaskGraph) : Prop where
  length : prog.insts.length = order.length
  fits : overflows prog = false
  known : unknownCounter prog = none
  thresholds : badThreshold prog = none
  apart : selfDependent prog order = none
  gated : ungatedEdge prog order tasks.edges = some none

theorem gated_parents {a b : Nat} (h : (a, b) ∈ tasks.edges)
    (hg : ungatedEdge prog order tasks.edges = some none) (hi : instOf order b = some i)
    (hp : instOf order a = some j) : gated prog j i := by
  obtain ⟨ia, ib, hia, hib, hgate⟩ := gated_of_edge hg h
  rw [hi] at hib
  rw [hp] at hia
  cases hia
  cases hib
  exact hgate

theorem Static.accepted (h : Static prog order tasks) (hB : (net prog).Balanced)
    (hR : (net prog).Ranked rank) : ∃ report, verify prog order tasks = some (.ok report) := by
  have hparents : ∀ r, ReplayBehind (net prog) r → ∀ i ∈ readyOf (net prog) r,
      ∀ p ∈ parentsOf order tasks i, p ∈ r.done := by
    intro r hr i hi p hp
    obtain ⟨⟨a, b⟩, he, hab⟩ := mem_filterMap.mp hp
    dsimp only at hab
    split at hab
    · next hb =>
      obtain ⟨hlt, -, hready⟩ := mem_readyOf.mp hi
      exact done_of_gated hB hr.counts hlt hready (gated_parents he h.gated hb hab)
    · cases hab
  have hends : ∃ res, replay (net prog) (parentsOf order tasks) order prog.insts.length
      ⟨∅, fun _ => 0, prog.insts.length, 0, 0⟩ = some (.ok res) :=
    replay_ends hB hR hparents (replayBehind_start prog) le_rfl
  obtain ⟨res, hrun⟩ := hends
  unfold verify
  rw [if_neg (not_not.mpr h.length), h.fits, if_neg Bool.false_ne_true, h.known, h.thresholds, h.apart]
  dsimp only
  rw [h.gated]
  dsimp only
  rw [hrun]
  exact ⟨_, rfl⟩

theorem verify_static (h : verify prog order tasks = some (.ok report)) :
    Static prog order tasks := by
  obtain ⟨res, hc⟩ := verify_ok h
  refine ⟨hc.length, ?_, hc.known, hc.thresholds, hc.apart, hc.gated⟩
  cases ho : overflows prog with
  | false => rfl
  | true =>
    unfold verify at h
    rw [if_neg (not_not.mpr hc.length), ho, if_pos rfl] at h
    cases h

/-! ### What is left without the counters -/

theorem without_length : (withoutCounters prog D).insts.length = prog.insts.length := length_map _

theorem resourcePredsFrom_map {f : Inst → Inst} (hf : ∀ a, resourceKey (f a) = resourceKey a)
    {last : ResourceKey → Option Nat} {k : Nat} {insts : List Inst} :
    resourcePredsFrom last k (insts.map f) = resourcePredsFrom last k insts := by
  induction insts generalizing last k with
  | nil => rfl
  | cons a insts ih =>
    rw [map_cons]
    unfold resourcePredsFrom
    rw [hf, ih]

theorem without_pred : (net (withoutCounters prog D)).pred i = (net prog).pred i := by
  have h : resourcePreds (withoutCounters prog D) = resourcePreds prog :=
    resourcePredsFrom_map (f := keepCounters D) fun _ => rfl
  show ((resourcePreds (withoutCounters prog D))[i]?).getD none = ((resourcePreds prog)[i]?).getD none
  rw [h]

theorem without_key : keyAt (withoutCounters prog D) i = keyAt prog i := by
  unfold keyAt withoutCounters
  rw [getElem?_map, Option.map_map]
  rfl

theorem mem_without_wait : c ∈ (net (withoutCounters prog D)).wait i ↔ c ∈ (net prog).wait i ∧ c ∉ D := by
  show c ∈ (((prog.insts.map (keepCounters D))[i]?).map (·.wait)).getD [] ↔
    c ∈ ((prog.insts[i]?).map (·.wait)).getD [] ∧ c ∉ D
  rw [getElem?_map]
  cases prog.insts[i]? with
  | none => simp
  | some a => simp [keepCounters]

theorem without_succ : (net (withoutCounters prog D)).succ i = ((net prog).succ i).filter fun c => c ∉ D := by
  show (((prog.insts.map (keepCounters D))[i]?).map (·.succ)).getD [] =
    (((prog.insts[i]?).map (·.succ)).getD []).filter fun c => c ∉ D
  rw [getElem?_map]
  cases prog.insts[i]? with
  | none => rfl
  | some a => rfl

theorem count_keep (hc : c ∉ D) : (l.filter fun c => c ∉ D).count c = l.count c :=
  count_filter (decide_eq_true hc)

theorem without_increments (hc : c ∉ D) {is : Finset Nat} :
    (net (withoutCounters prog D)).increments is c = (net prog).increments is c := by
  unfold CounterNet.increments
  refine Finset.sum_congr rfl fun i _ => ?_
  rw [without_succ, count_keep hc]

theorem without_producers (hc : c ∉ D) : producersOf (withoutCounters prog D) c = producersOf prog c := by
  rw [← increments_net, ← increments_net, without_length, without_increments hc]

theorem thresholdOf_isSome : (thresholdOf prog c).isSome ↔ ∃ e ∈ prog.counters, e.id = c := by
  unfold thresholdOf
  rw [isSome_map, find?_isSome]
  constructor
  · rintro ⟨e, he, hid⟩
    exact ⟨e, mem_reverse.mp he, of_decide_eq_true hid⟩
  · rintro ⟨e, he, hid⟩
    exact ⟨e, mem_reverse.mpr he, decide_eq_true hid⟩

theorem without_known (h : unknownCounter prog = none) : unknownCounter (withoutCounters prog D) = none := by
  refine find?_eq_none.mpr fun c hc => ?_
  obtain ⟨b, hb, hcb⟩ := mem_flatMap.mp hc
  obtain ⟨a, ha, rfl⟩ := mem_map.mp hb
  have hmem : c ∈ a.wait ++ a.succ ∧ c ∉ D := by
    rcases mem_append.mp hcb with hcb | hcb
    · obtain ⟨hca, hcD⟩ := mem_filter.mp hcb
      exact ⟨mem_append_left _ hca, of_decide_eq_true hcD⟩
    · obtain ⟨hca, hcD⟩ := mem_filter.mp hcb
      exact ⟨mem_append_right _ hca, of_decide_eq_true hcD⟩
  have hold := find?_eq_none.mp h c (mem_flatMap.mpr ⟨a, ha, hmem.1⟩)
  have hsome : (thresholdOf prog c).isSome := by
    cases ht : thresholdOf prog c with
    | none =>
      rw [ht] at hold
      exact absurd rfl hold
    | some v => rfl
  obtain ⟨e, he, rfl⟩ := thresholdOf_isSome.mp hsome
  have hnew : (thresholdOf (withoutCounters prog D) e.id).isSome :=
    thresholdOf_isSome.mpr ⟨e, mem_filter.mpr ⟨he, decide_eq_true hmem.2⟩, rfl⟩
  rw [isNone_iff_eq_none]
  exact fun hnone => by rw [hnone] at hnew; cases hnew

theorem without_thresholds (h : badThreshold prog = none) : badThreshold (withoutCounters prog D) = none := by
  refine findSome?_eq_none_iff.mpr fun e he => ?_
  obtain ⟨he, hD⟩ := mem_filter.mp he
  rw [without_producers (of_decide_eq_true hD)]
  exact findSome?_eq_none_iff.mp h e he

theorem without_fits (h : overflows prog = false) : overflows (withoutCounters prog D) = false := by
  refine any_eq_false.mpr fun c hc => ?_
  obtain ⟨b, hb, hcb⟩ := mem_flatMap.mp hc
  obtain ⟨a, ha, rfl⟩ := mem_map.mp hb
  obtain ⟨hca, hcD⟩ := mem_filter.mp hcb
  rw [without_producers (of_decide_eq_true hcD)]
  exact any_eq_false.mp h c (mem_flatMap.mpr ⟨a, ha, hca⟩)

theorem without_apart (h : selfDependent prog order = none) :
    selfDependent (withoutCounters prog D) order = none := by
  refine findSome?_eq_none_iff.mpr fun p hp => ?_
  have hzip : (withoutCounters prog D).insts.zip order =
      (prog.insts.zip order).map fun q => (keepCounters D q.1, q.2) := by
    unfold withoutCounters
    rw [zip_map_left]
    rfl
  rw [hzip] at hp
  obtain ⟨⟨a, t⟩, hq, rfl⟩ := mem_map.mp hp
  have hold := findSome?_eq_none_iff.mp h (a, t) hq
  dsimp only at hold ⊢
  rw [map_eq_none_iff, find?_eq_none] at hold ⊢
  intro c hc hcs
  obtain ⟨hca, hcD⟩ := mem_filter.mp hc
  exact hold c hca (decide_eq_true (mem_filter.mp (of_decide_eq_true hcs)).1)

theorem without_gated (hs : Spare prog D) (h : gated prog i j) : gated (withoutCounters prog D) i j := by
  unfold gated at h ⊢
  split at h
  · next a b ha hb =>
    have ha' : (withoutCounters prog D).insts[i]? = some (keepCounters D a) := by
      unfold withoutCounters
      rw [getElem?_map, ha, map_some]
    have hb' : (withoutCounters prog D).insts[j]? = some (keepCounters D b) := by
      unfold withoutCounters
      rw [getElem?_map, hb, map_some]
    rw [ha', hb']
    dsimp only
    rcases Bool.or_eq_true_iff.mp h with h | h
    · obtain ⟨c, hca, hcb⟩ := any_eq_true.mp h
      have hcb : c ∈ b.wait := of_decide_eq_true hcb
      by_cases hcD : c ∈ D
      · obtain ⟨hkey, hlt⟩ := hs c hcD i j a b ha hb hca hcb
        exact Bool.or_eq_true_iff.mpr (.inr (Bool.and_eq_true_iff.mpr ⟨decide_eq_true hkey, decide_eq_true hlt⟩))
      · refine Bool.or_eq_true_iff.mpr (.inl (any_eq_true.mpr ⟨c, ?_, decide_eq_true ?_⟩))
        · exact mem_filter.mpr ⟨hca, decide_eq_true hcD⟩
        · exact mem_filter.mpr ⟨hcb, decide_eq_true hcD⟩
    · exact Bool.or_eq_true_iff.mpr (.inr h)
  · cases h

theorem without_edges (hs : Spare prog D) {es : List (Nat × Nat)} (h : ungatedEdge prog order es = some none) :
    ungatedEdge (withoutCounters prog D) order es = some none := by
  induction es with
  | nil => rfl
  | cons e es ih =>
    unfold ungatedEdge at h ⊢
    split at h
    · next ia ib hia hib =>
      split at h
      · next hg =>
        rw [if_pos (without_gated hs hg)]
        exact ih h
      · cases h
    · cases h

theorem without_static (hs : Spare prog D) (h : Static prog order tasks) :
    Static (withoutCounters prog D) order tasks where
  length := without_length.trans h.length
  fits := without_fits h.fits
  known := without_known h.known
  thresholds := without_thresholds h.thresholds
  apart := without_apart h.apart
  gated := without_edges hs h.gated

theorem without_ranked (h : (net prog).Ranked rank) :
    (net (withoutCounters prog D)).Ranked rank where
  pred i hi p hp := by
    rw [net_size, without_length] at hi ⊢
    rw [without_pred] at hp
    exact h.pred i hi p hp
  wait i hi c hc j hj hcj := by
    rw [net_size, without_length] at hi hj
    rw [without_succ] at hcj
    exact h.wait i hi c (mem_without_wait.mp hc).1 j hj (mem_filter.mp hcj).1

/-! ### The same executions -/

theorem implies_without (hB : (net prog).Balanced) (hB' : (net (withoutCounters prog D)).Balanced) :
    CounterNet.Implies (net prog) (net (withoutCounters prog D)) := by
  intro s s' hc hc' _ hd i hi hr
  have hi' : i < (net (withoutCounters prog D)).size := by
    rw [net_size, without_length]
    exact hi
  refine ⟨fun c hmem => ?_, fun p hp => ?_⟩
  · obtain ⟨hmem', hcD⟩ := mem_without_wait.mp hmem
    have h := hr.1 c hmem'
    rw [hB i hi c hmem', hc.val] at h
    rw [hB' i hi' c hmem, hc'.val, net_size, without_length, without_increments hcD, without_increments hcD, ← hd]
    exact h
  · rw [without_pred] at hp
    rw [← hd]
    exact hr.2 p hp

/-- What the resources order needs no counter. -/
theorem implies_with (hs : Spare prog D) (hB : (net prog).Balanced)
    (hB' : (net (withoutCounters prog D)).Balanced) :
    CounterNet.Implies (net (withoutCounters prog D)) (net prog) := by
  intro s s' hc hc' _ hd i hi hr
  have hi' : i < (net prog).size := by
    rw [net_size, without_length] at hi
    exact hi
  refine ⟨fun c hmem => ?_, fun p hp => ?_⟩
  · rw [hB i hi' c hmem, hc'.val]
    by_cases hcD : c ∈ D
    · -- all its producers are behind
      refine Nat.le_of_eq (Finset.sum_subset (fun j hj => hc'.done_sub hj) fun j hj hjd => ?_).symm
      apply count_eq_zero_of_not_mem
      intro hcj
      obtain ⟨b, hb, hcb⟩ := mem_wait hmem
      have hj := Finset.mem_range.mp hj
      obtain ⟨a, ha⟩ : ∃ a, prog.insts[j]? = some a := ⟨_, getElem?_eq_getElem hj⟩
      have hca : c ∈ a.succ := by
        have h : c ∈ ((prog.insts[j]?).map (·.succ)).getD [] := hcj
        rw [ha] at h
        exact h
      obtain ⟨hkey, hlt⟩ := hs c hcD j i a b ha hb hca hcb
      have hkey' : keyAt (withoutCounters prog D) j = keyAt (withoutCounters prog D) i := by
        rw [without_key, without_key]
        unfold keyAt
        rw [ha, hb, map_some, map_some, hkey]
      exact hjd (hd ▸ done_of_earlier hc hi hr.2 hlt hkey')
    · have hmem' := mem_without_wait.mpr ⟨hmem, hcD⟩
      have h := hr.1 c hmem'
      rw [hB' i hi c hmem', hc.val, net_size, without_length, without_increments hcD, without_increments hcD, hd] at h
      exact h
  · rw [← without_pred (D := D)] at hp
    rw [← hd]
    exact hr.2 p hp

theorem verify_without (h : verify prog order tasks = some (.ok report))
    (hs : Spare prog D) : (∃ report', verify (withoutCounters prog D) order tasks = some (.ok report')) ∧
      ∀ es, (net prog).Execution es ↔ (net (withoutCounters prog D)).Execution es := by
  obtain ⟨res, hc⟩ := verify_ok h
  obtain ⟨rank, hR⟩ := hc.ranked
  have hst := without_static hs (verify_static h)
  have hB' := balanced_of_checks hst.known hst.thresholds
  refine ⟨hst.accepted hB' (without_ranked hR), fun es => ⟨fun he => ?_, fun he => ?_⟩⟩
  · exact he.transfer (by rw [net_size, net_size, without_length]) (implies_without hc.balanced hB')
  · exact he.transfer (by rw [net_size, net_size, without_length]) (implies_with hs hc.balanced hB')

end Plow.Schedule
