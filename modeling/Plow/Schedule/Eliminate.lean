import Plow.Lib.Circles
import Plow.Schedule.DropCounters
import Plow.Schedule.Streams

/-!
# Elimination keeps what is verified

A schedule without its redundant counters emits the stream without these counters
(`eliminate_emits`), and on one stream the place of a task is its place in the issue order, so the
counters are spare there (`eliminated_spare`).  Hence the stream is accepted again, with the same
executions (`eliminate_verified`).  An id is cut to 32 bits when it is emitted: two ids that are then
the same share their counter, and one of them cannot be dropped (`eliminate_shared`).
-/

namespace Plow.Schedule
open Plow.Lib Plow.Packet List

def counterIds (s : Sched) : List Nat :=
  s.counters.map (·.id) ++ (allPackets s).flatMap fun p => p.wait ++ p.successors

/-- Every stream is the issue order of its resource, and the maps have one entry for a key. -/
structure InIssueOrder (s : Sched) : Prop where
  streamKeys : (s.streams.map (·.1)).Nodup
  placementKeys : (s.placement.map (·.1)).Nodup
  streams : ∀ r, streamTasks ((entryAt s.streams r).getD []) =
    (issueOrder s).filter fun t => placedOn s t = some r

/-- What elimination promises: the stream is accepted and has the same executions, an edge that no
counter carries is in order on one resource, and the counters that are left count their producers. -/
structure Preserved (tg : TaskGraph) (prog prog' : Program) (order : List Nat) : Prop where
  accepted : ∃ report, verify prog' order tg = some (.ok report)
  executions : ∀ es, (net prog).Execution es ↔ (net prog').Execution es
  ordered : ∀ e ∈ tg.edges, ∀ ia ib, instOf order e.1 = some ia → instOf order e.2 = some ib →
    (∀ a b, prog'.insts[ia]? = some a → prog'.insts[ib]? = some b → counterGated a b = false) →
    keyAt prog' ia = keyAt prog' ib ∧ ia < ib
  counted : ∀ e ∈ prog'.counters, e ∈ prog.counters ∧ e.threshold.toNat = producersOf prog' e.id

variable {tg : TaskGraph} {s : Sched} {bodies : Nat → Body} {bucketId planGen : UInt16} {prog : Program}
  {t c i j a b : Nat} {ps : List Packet} {p : Packet}

/-! ### The stream without the dropped counters -/

theorem packetOf_map {f : Packet → Packet} (hf : ∀ p, (f p).task = p.task) :
    packetOf (ps.map f) t = (packetOf ps t).map f := by
  unfold packetOf
  rw [← map_reverse, find?_map]
  congr 2
  funext p
  show decide ((f p).task = t) = decide (p.task = t)
  rw [hf]

theorem mem_packetOf (h : packetOf ps t = some p) : p ∈ ps ∧ p.task = t :=
  ⟨mem_reverse.mp (mem_of_find?_eq_some h), by simpa using find?_some h⟩

theorem filter_map_ids {ids dropped : List Nat}
    (hinj : ∀ c ∈ ids, ∀ d ∈ dropped, UInt32.ofNat c = UInt32.ofNat d → c = d) :
    (ids.filter fun c => c ∉ dropped).map UInt32.ofNat =
      (ids.map UInt32.ofNat).filter fun c => c ∉ dropped.map UInt32.ofNat := by
  rw [filter_map]
  congr 1
  refine filter_congr fun c hc => ?_
  have hiff : c ∈ dropped ↔ UInt32.ofNat c ∈ dropped.map UInt32.ofNat := by
    constructor
    · exact fun h => mem_map_of_mem h
    · intro h
      obtain ⟨d, hd, heq⟩ := mem_map.mp h
      rw [hinj c hc d hd heq.symm]
      exact hd
  simp only [Function.comp, hiff]

def Apart (s : Sched) : Prop :=
  ∀ c ∈ counterIds s, ∀ d ∈ counterIds s, UInt32.ofNat c = UInt32.ofNat d → c = d

theorem mem_eliminated (h : c ∈ eliminated s) : c ∈ counterIds s ∧
    isRedundant (producersIn s c) (consumersIn s c) (taskStreamPos s) = true := by
  obtain ⟨hc, hr⟩ := mem_filter.mp h
  exact ⟨mem_append_left _ hc, hr⟩

def strip (dropped : List Nat) (p : Packet) : Packet := { p with
  wait := p.wait.filter fun c => c ∉ dropped
  successors := p.successors.filter fun c => c ∉ dropped }

theorem eliminate_packets :
    allPackets (eliminateRedundantCounters s) = (allPackets s).map (strip (eliminated s)) := by
  unfold allPackets
  rw [map_flatMap]
  show (s.packets.map fun e => (e.1, e.2.map (strip (eliminated s)))).flatMap (·.2) = _
  rw [flatMap_map]

theorem mem_counterIds (hp : p ∈ allPackets s) (hc : c ∈ p.wait ++ p.successors) :
    c ∈ counterIds s := mem_append_right _ (mem_flatMap.mpr ⟨p, hp, hc⟩)

theorem eliminate_ids (h : Apart s) {sel : Packet → List Nat}
    (hstrip : ∀ p, sel (strip (eliminated s) p) = (sel p).filter fun c => c ∉ eliminated s)
    (hmem : ∀ p ∈ allPackets s, ∀ c ∈ sel p, c ∈ counterIds s) :
    (((packetOf (allPackets (eliminateRedundantCounters s)) t).map sel).getD []).map UInt32.ofNat =
      ((((packetOf (allPackets s) t).map sel).getD []).map UInt32.ofNat).filter fun c =>
        c ∉ (eliminated s).map UInt32.ofNat := by
  rw [eliminate_packets, packetOf_map (f := strip (eliminated s)) fun _ => rfl, Option.map_map]
  cases hp : packetOf (allPackets s) t with
  | none => rfl
  | some p =>
    rw [Option.map_some, Option.map_some, Option.getD_some, Option.getD_some, Function.comp, hstrip]
    exact filter_map_ids fun c hc d hd heq => h c (hmem p (mem_packetOf hp).1 c hc) d (mem_eliminated hd).1 heq

theorem eliminate_waitIds (h : Apart s) : waitIds (eliminateRedundantCounters s) t =
    (waitIds s t).filter fun c => c ∉ (eliminated s).map UInt32.ofNat :=
  eliminate_ids h (fun _ => rfl) fun _ hp _ hc => mem_counterIds hp (mem_append_left _ hc)

theorem eliminate_succIds (h : Apart s) : succIds (eliminateRedundantCounters s) t =
    (succIds s t).filter fun c => c ∉ (eliminated s).map UInt32.ofNat :=
  eliminate_ids h (fun _ => rfl) fun _ hp _ hc => mem_counterIds hp (mem_append_right _ hc)

theorem eliminate_inst (h : Apart s) : emitInst bodies (eliminateRedundantCounters s) t =
    keepCounters ((eliminated s).map UInt32.ofNat) (emitInst bodies s t) := by
  unfold emitInst keepCounters
  rw [eliminate_waitIds h, eliminate_succIds h]
  rfl

theorem eliminate_counters (h : Apart s) : (eliminateRedundantCounters s).counters.map emitCounter =
    (s.counters.map emitCounter).filter fun e => e.id ∉ (eliminated s).map UInt32.ofNat := by
  rw [filter_map]
  refine congrArg (List.map emitCounter) (filter_congr fun c hc => ?_)
  have hmem : c.id ∈ counterIds s := mem_append_left _ (mem_map_of_mem hc)
  have hiff : c.id ∈ eliminated s ↔ UInt32.ofNat c.id ∈ (eliminated s).map UInt32.ofNat := by
    constructor
    · exact fun h => mem_map_of_mem h
    · intro hd
      obtain ⟨d, hd, heq⟩ := mem_map.mp hd
      rw [h c.id hmem d (mem_eliminated hd).1 heq.symm]
      exact hd
  exact decide_eq_decide.mpr (not_congr hiff)

theorem emitProgram_some (h : emitProgram bodies tg s bucketId planGen = some prog) : emits tg s = true ∧
    prog = ⟨(issueOrder s).map (emitInst bodies s), s.counters.map emitCounter, bucketId, planGen, 0⟩ := by
  unfold emitProgram at h
  split at h
  · next hg =>
    cases h
    exact ⟨hg, rfl⟩
  · cases h

theorem eliminate_guard (h : Apart s) (hg : emits tg s = true) :
    emits tg (eliminateRedundantCounters s) = true := by
  unfold emits at hg ⊢
  obtain ⟨hg, hlen⟩ := Bool.and_eq_true_iff.mp hg
  obtain ⟨htasks, hplaced⟩ := Bool.and_eq_true_iff.mp hg
  refine Bool.and_eq_true_iff.mpr ⟨Bool.and_eq_true_iff.mpr ⟨?_, hplaced⟩, ?_⟩
  · rw [eliminate_packets, all_map]
    exact htasks
  · refine all_eq_true.mpr fun t ht => ?_
    have hle := all_eq_true.mp hlen t ht
    rw [Bool.and_eq_true_iff, decide_eq_true_iff, decide_eq_true_iff] at hle ⊢
    rw [eliminate_waitIds h, eliminate_succIds h]
    exact ⟨(length_filter_le _ _).trans hle.1, (length_filter_le _ _).trans hle.2⟩

theorem eliminate_emits (h : Apart s) (he : emitProgram bodies tg s bucketId planGen = some prog) :
    emitProgram bodies tg (eliminateRedundantCounters s) bucketId planGen =
      some (withoutCounters prog ((eliminated s).map UInt32.ofNat)) := by
  obtain ⟨hg, rfl⟩ := emitProgram_some he
  have hinsts : (issueOrder s).map (emitInst bodies (eliminateRedundantCounters s)) =
      ((issueOrder s).map (emitInst bodies s)).map (keepCounters ((eliminated s).map UInt32.ofNat)) := by
    rw [map_map]
    exact map_congr_left fun t _ => eliminate_inst h
  unfold emitProgram
  rw [if_pos (eliminate_guard h hg), eliminate_counters h]
  show some (Program.mk ((issueOrder s).map (emitInst bodies (eliminateRedundantCounters s))) _ _ _ _) = _
  rw [hinsts]
  rfl

/-! ### The dropped counters are spare -/

theorem isRedundant_spec {ps cs : List Nat} {pos : Nat → ResourceId × Nat} (h : isRedundant ps cs pos = true)
    (ha : a ∈ ps) (hb : b ∈ cs) : (pos a).1 = (pos b).1 ∧ (pos a).2 < (pos b).2 := by
  unfold isRedundant at h
  split at h
  · cases h
  · dsimp only at h
    split at h
    · next mp mc hmp hmc =>
      obtain ⟨hlen, hlt⟩ := Bool.and_eq_true_iff.mp h
      obtain ⟨r, hr⟩ := length_eq_one_iff.mp (of_decide_eq_true hlen)
      have hone : ∀ t ∈ ps ++ cs, (pos t).1 = r := by
        intro t ht
        have hmem : (pos t).1 ∈ ((ps ++ cs).map fun t => (pos t).1).dedup :=
          mem_dedup.mpr (mem_map_of_mem ht)
        rw [hr] at hmem
        exact mem_singleton.mp hmem
      have hle := (max?_eq_some_iff.mp hmp).2 _ (mem_map_of_mem ha)
      have hge := (min?_eq_some_iff.mp hmc).2 _ (mem_map_of_mem hb)
      have hlt : mp < mc := of_decide_eq_true hlt
      refine ⟨(hone a (mem_append_left _ ha)).trans (hone b (mem_append_right _ hb)).symm, ?_⟩
      exact hle.trans_lt (hlt.trans_le hge)
    · cases h

/-- A placed task is found on the stream of its resource. -/
theorem taskStreamPos_spec (h : InIssueOrder s) {r : ResourceId} (ht : t ∈ issueOrder s)
    (hr : placedOn s t = some r) : (taskStreamPos s t).1 = r ∧
      ((issueOrder s).filter fun t => placedOn s t = some r)[(taskStreamPos s t).2]? = some t := by
  have hall : ∀ x, x ∈ s.streams.flatMap (fun e => (streamTasks e.2).zipIdx.map fun x => (x.1, e.1, x.2)) ↔
      ∃ e ∈ s.streams, x.2.1 = e.1 ∧ (streamTasks e.2)[x.2.2]? = some x.1 := by
    intro x
    rw [mem_flatMap]
    refine exists_congr fun e => and_congr_right fun _ => ?_
    rw [mem_map]
    constructor
    · rintro ⟨y, hy, rfl⟩
      exact ⟨rfl, mem_zipIdx_iff_getElem?.mp hy⟩
    · rintro ⟨hx, hget⟩
      exact ⟨(x.1, x.2.2), mem_zipIdx_iff_getElem?.mpr hget, by rw [← hx]⟩
  have hstream : t ∈ streamTasks ((entryAt s.streams r).getD []) := by
    rw [h.streams]
    exact mem_filter.mpr ⟨ht, decide_eq_true hr⟩
  obtain ⟨x, hx, hxt⟩ := mem_map.mp hstream
  obtain ⟨v, hv, hxv⟩ := mem_entry hx
  obtain ⟨i, hi⟩ := mem_iff_getElem?.mp (mem_map_of_mem (f := (·.1)) hxv : x.1 ∈ streamTasks v)
  have hfound : ((s.streams.flatMap fun e => (streamTasks e.2).zipIdx.map fun x => (x.1, e.1, x.2)).reverse.find?
      fun e => decide (e.1 = t)).isSome := by
    refine find?_isSome.mpr ⟨(t, r, i), mem_reverse.mpr ((hall _).mpr ⟨(r, v), hv, rfl, ?_⟩),
      decide_eq_true rfl⟩
    rw [← hxt]
    exact hi
  obtain ⟨y, hy⟩ := Option.isSome_iff_exists.mp hfound
  have hyt : y.1 = t := by simpa using find?_some hy
  obtain ⟨e, he, hye, hget⟩ := (hall y).mp (mem_reverse.mp (mem_of_find?_eq_some hy))
  have hpos : taskStreamPos s t = y.2 := by
    unfold taskStreamPos
    rw [hy]
    rfl
  -- whatever stream it is found on is the one of its resource
  have hfilter : streamTasks e.2 = (issueOrder s).filter fun t => placedOn s t = some e.1 := by
    rw [← h.streams e.1, entryAt_of_mem h.streamKeys he, Option.getD_some]
  rw [hfilter, hyt] at hget
  have hplaced := of_decide_eq_true (mem_filter.mp (mem_of_getElem? hget)).2
  have her : e.1 = r := Option.some.inj (hplaced.symm.trans hr)
  rw [hpos, hye, her]
  rw [her] at hget
  exact ⟨rfl, hget⟩

theorem mem_issueOrder : t ∈ issueOrder s ↔ ∃ r, placedOn s t = some r := by
  unfold issueOrder placedOn
  rw [mem_insertionSort, mem_map]
  constructor
  · rintro ⟨e, he, rfl⟩
    have hfound : (s.placement.find? fun x => decide (x.1 = e.1)).isSome :=
      find?_isSome.mpr ⟨e, he, decide_eq_true rfl⟩
    obtain ⟨x, hx⟩ := Option.isSome_iff_exists.mp hfound
    exact ⟨x.2, by rw [hx]; rfl⟩
  · rintro ⟨r, hr⟩
    obtain ⟨e, he, -⟩ := Option.map_eq_some_iff.mp hr
    exact ⟨e, mem_of_find?_eq_some he, by simpa using find?_some he⟩

theorem issueOrder_nodup (h : InIssueOrder s) : (issueOrder s).Nodup :=
  (perm_insertionSort _ _).nodup_iff.mpr h.placementKeys

theorem succIds_mem {c : UInt32} (h : c ∈ succIds s t) :
    ∃ p ∈ allPackets s, p.task = t ∧ ∃ d ∈ p.successors, UInt32.ofNat d = c := by
  unfold succIds at h
  cases hp : packetOf (allPackets s) t with
  | none =>
    rw [hp] at h
    cases h
  | some p =>
    rw [hp] at h
    exact ⟨p, (mem_packetOf hp).1, (mem_packetOf hp).2, mem_map.mp h⟩

theorem waitIds_mem {c : UInt32} (h : c ∈ waitIds s t) :
    ∃ p ∈ allPackets s, p.task = t ∧ ∃ d ∈ p.wait, UInt32.ofNat d = c := by
  unfold waitIds at h
  cases hp : packetOf (allPackets s) t with
  | none =>
    rw [hp] at h
    cases h
  | some p =>
    rw [hp] at h
    exact ⟨p, (mem_packetOf hp).1, (mem_packetOf hp).2, mem_map.mp h⟩

theorem emit_get (he : emitProgram bodies tg s bucketId planGen = some prog) {ins : Inst}
    (hi : prog.insts[i]? = some ins) : ∃ t, (issueOrder s)[i]? = some t ∧ ins = emitInst bodies s t := by
  obtain ⟨-, rfl⟩ := emitProgram_some he
  rw [getElem?_map] at hi
  obtain ⟨t, ht, rfl⟩ := Option.map_eq_some_iff.mp hi
  exact ⟨t, ht, rfl⟩

theorem eliminated_spare (h : InIssueOrder s) (hids : Apart s)
    (he : emitProgram bodies tg s bucketId planGen = some prog) :
    Spare prog ((eliminated s).map UInt32.ofNat) := by
  intro c hc i j a b ha hb hca hcb
  obtain ⟨d, hd, rfl⟩ := mem_map.mp hc
  obtain ⟨hmem, hred⟩ := mem_eliminated hd
  obtain ⟨t, ht, rfl⟩ := emit_get he ha
  obtain ⟨u, hu, rfl⟩ := emit_get he hb
  obtain ⟨p, hp, rfl, dp, hdp, hpd⟩ := succIds_mem hca
  obtain ⟨q, hq, rfl, dq, hdq, hqd⟩ := waitIds_mem hcb
  have hdp' : dp = d := hids dp (mem_counterIds hp (mem_append_right _ hdp)) d hmem hpd
  have hdq' : dq = d := hids dq (mem_counterIds hq (mem_append_left _ hdq)) d hmem hqd
  subst hdp' hdq'
  have hprod : p.task ∈ producersIn s dq :=
    mem_map_of_mem (mem_filter.mpr ⟨hp, decide_eq_true hdp⟩)
  have hcons : q.task ∈ consumersIn s dq :=
    mem_map_of_mem (mem_filter.mpr ⟨hq, decide_eq_true hdq⟩)
  obtain ⟨hsame, hlt⟩ := isRedundant_spec hred hprod hcons
  have hmt : p.task ∈ issueOrder s := mem_of_getElem? ht
  have hmu : q.task ∈ issueOrder s := mem_of_getElem? hu
  obtain ⟨r, hr⟩ := mem_issueOrder.mp hmt
  obtain ⟨r', hr'⟩ := mem_issueOrder.mp hmu
  obtain ⟨hpos, hget⟩ := taskStreamPos_spec h hmt hr
  obtain ⟨hpos', hget'⟩ := taskStreamPos_spec h hmu hr'
  have hrr : r = r' := hpos.symm.trans (hsame.trans hpos')
  subst hrr
  constructor
  · unfold emitInst resourceKey
    rw [hr, hr']
  · -- on the stream, and so in the issue order, the producer comes first
    have hbefore := before_filter_iff.mp (before_of_lt hget hget' hlt)
    exact (before_iff_idx (issueOrder_nodup h) ht hu).mp hbefore.1

/-- A schedule whose stream is accepted emits, without its redundant counters, a stream that is accepted and
keeps everything. -/
theorem eliminate_verified (h : InIssueOrder s) (hids : Apart s)
    (he : emitProgram bodies tg s bucketId planGen = some prog) {report : VerifyReport}
    (hv : verify prog (issueOrder s) tg = some (.ok report)) :
    ∃ prog', emitProgram bodies tg (eliminateRedundantCounters s) bucketId planGen = some prog' ∧
      Preserved tg prog prog' (issueOrder (eliminateRedundantCounters s)) := by
  have hs := eliminated_spare h hids he
  obtain ⟨⟨report', hacc⟩, hexec⟩ := verify_without hv hs
  have hst := verify_static hacc
  refine ⟨_, eliminate_emits hids he, ⟨report', hacc⟩, hexec, fun e hmem ia ib hia hib hno => ?_, fun e hmem => ?_⟩
  · have hg := gated_parents hmem hst.gated hib hia
    unfold gated at hg
    split at hg
    · next a b ha hb =>
      rw [hno a b ha hb, Bool.false_or] at hg
      obtain ⟨hkey, hlt⟩ := Bool.and_eq_true_iff.mp hg
      refine ⟨?_, of_decide_eq_true hlt⟩
      unfold keyAt
      rw [ha, hb, Option.map_some, Option.map_some, of_decide_eq_true hkey]
    · cases hg
  · have hbad := findSome?_eq_none_iff.mp hst.thresholds e hmem
    refine ⟨(mem_filter.mp hmem).1, ?_⟩
    split at hbad
    · cases hbad
    · split at hbad
      · cases hbad
      · omega

/-! ### Two schedules -/

theorem InIssueOrder.of_entries (hstreams : (s.streams.map (·.1)).Nodup)
    (hplacement : (s.placement.map (·.1)).Nodup)
    (htasks : ∀ e ∈ s.streams, streamTasks e.2 = (issueOrder s).filter fun t => placedOn s t = some e.1)
    (hplaced : ∀ e ∈ s.placement, e.2 ∈ s.streams.map (·.1)) : InIssueOrder s := by
  refine ⟨hstreams, hplacement, fun r => ?_⟩
  cases hr : entryAt s.streams r with
  | some v => exact htasks (r, v) (mem_of_entryAt hr)
  | none =>
    symm
    refine filter_eq_nil_iff.mpr fun t _ ht => ?_
    obtain ⟨e, he, her⟩ := Option.map_eq_some_iff.mp (of_decide_eq_true ht : placedOn s t = some r)
    obtain ⟨f, hf, hfe⟩ := mem_map.mp (hplaced e (mem_of_find?_eq_some he))
    have hsome := entryAt_of_mem hstreams hf
    rw [show f.1 = r from hfe.trans her, hr] at hsome
    cases hsome

/-- two tiles on an SM, one on another, and a copy that waits for the last by the counter `shared` -/
def tilesAndCopy (shared : Nat) (threshold : UInt32) : Sched where
  streams := [(.sm 0 0, [(0, 0), (1, 1)]), (.sm 0 1, [(2, 0)]), (.dma 0 0, [(3, 1)])]
  packets := [(.sm 0 0, [⟨0, "", .compute, 0, [], [0]⟩, ⟨1, "", .compute, 1, [0], []⟩]),
    (.sm 0 1, [⟨2, "", .compute, 0, [], [shared]⟩]), (.dma 0 0, [⟨3, "", .tmaOut, 1, [shared], []⟩])]
  counters := [⟨0, threshold, .intraSm, 0, 1⟩, ⟨shared, threshold, .intraGpu, 2, 3⟩]
  placement := [(0, .sm 0 0), (1, .sm 0 0), (2, .sm 0 1), (3, .dma 0 0)]
  starts := [0, 1, 0, 1]

def fourTasks : TaskGraph :=
  ⟨List.replicate 4 ⟨0, "", 0, .compute, [], 1, 0, 0, 0, 0, 0, none, false⟩, [(0, 1), (2, 3)], [], []⟩

theorem eliminate_verified_copy :
    ∃ prog prog', emitProgram (fun _ => .host) fourTasks (tilesAndCopy 1 1) 0 0 = some prog ∧
      emitProgram (fun _ => .host) fourTasks (eliminateRedundantCounters (tilesAndCopy 1 1)) 0 0 = some prog' ∧
      Preserved fourTasks prog prog' [0, 2, 1, 3] := by
  have h : InIssueOrder (tilesAndCopy 1 1) := .of_entries (by decide) (by decide) (by decide) (by decide)
  have hids : Apart (tilesAndCopy 1 1) := by
    unfold Apart
    decide
  have hemit : emitProgram (fun _ => .host) fourTasks (tilesAndCopy 1 1) 0 0 =
      some ⟨(issueOrder (tilesAndCopy 1 1)).map (emitInst (fun _ => .host) (tilesAndCopy 1 1)),
        (tilesAndCopy 1 1).counters.map emitCounter, 0, 0, 0⟩ := if_pos (by decide)
  have hv : verify ⟨(issueOrder (tilesAndCopy 1 1)).map (emitInst (fun _ => .host) (tilesAndCopy 1 1)),
      (tilesAndCopy 1 1).counters.map emitCounter, 0, 0, 0⟩ (issueOrder (tilesAndCopy 1 1)) fourTasks =
      some (.ok ⟨4, 2, 2, 2, 2⟩) := by decide +kernel
  obtain ⟨prog', he, hp⟩ := eliminate_verified h hids hemit hv
  exact ⟨_, prog', hemit, he, hp⟩

/-- The ids 0 and 2^32 are one counter of the stream: when the first is dropped, the second waits for an
increment that never comes. -/
theorem eliminate_shared : ¬ ∀ (bodies : Nat → Body) (tg : TaskGraph) (s : Sched) (bucketId planGen : UInt16)
    (prog : Program) (report : VerifyReport), InIssueOrder s →
    emitProgram bodies tg s bucketId planGen = some prog →
    verify prog (issueOrder s) tg = some (.ok report) →
    ∃ prog', emitProgram bodies tg (eliminateRedundantCounters s) bucketId planGen = some prog' ∧
      Preserved tg prog prog' (issueOrder (eliminateRedundantCounters s)) := by
  intro hall
  have h : InIssueOrder (tilesAndCopy (2 ^ 32) 2) :=
    .of_entries (by decide) (by decide) (by decide) (by decide)
  have hemit : emitProgram (fun _ => .host) fourTasks (tilesAndCopy (2 ^ 32) 2) 0 0 =
      some ⟨(issueOrder (tilesAndCopy (2 ^ 32) 2)).map (emitInst (fun _ => .host) (tilesAndCopy (2 ^ 32) 2)),
        (tilesAndCopy (2 ^ 32) 2).counters.map emitCounter, 0, 0, 0⟩ := if_pos (by decide)
  have hv : verify ⟨(issueOrder (tilesAndCopy (2 ^ 32) 2)).map
      (emitInst (fun _ => .host) (tilesAndCopy (2 ^ 32) 2)), (tilesAndCopy (2 ^ 32) 2).counters.map emitCounter,
      0, 0, 0⟩ (issueOrder (tilesAndCopy (2 ^ 32) 2)) fourTasks = some (.ok ⟨4, 2, 2, 2, 2⟩) := by decide +kernel
  obtain ⟨prog', he, hp⟩ := hall _ _ _ _ _ _ _ h hemit hv
  obtain ⟨-, rfl⟩ := emitProgram_some he
  have hkept : (⟨0, 2, 1, List.Vector.replicate 3 0⟩ : Packet.Counter) ∈
      (eliminateRedundantCounters (tilesAndCopy (2 ^ 32) 2)).counters.map emitCounter := by decide
  have hcount := (hp.counted _ hkept).2
  exact absurd hcount (by decide)

end Plow.Schedule
