import Plow.Lib.CounterNet
import Plow.Packet.Model
import Plow.Schedule.Machine

/-!
# Verification of the emitted stream

`verify` checks that every threshold is the number of increments, that a counter or the order on
one resource stands for every edge of the task graph, and replays the stream round by round.
`none` is a panic: an edge with a task that has no instruction, or a count of increments that does
not fit a `u32` (a build without overflow checks would wrap there).

The order in which a `HashSet` gives its members is not modelled: where two counters of an
instruction are both waited for and incremented, the error names the first one waited for.
-/

namespace Plow.Schedule
open Plow.Lib Plow.Packet

structure VerifyReport where
  insts : Nat
  counters : Nat
  edgesChecked : Nat
  rounds : Nat
  maxReady : Nat
  deriving DecidableEq, Repr

inductive VerifyError where
  | lengthMismatch (insts order : Nat)
  | unreachable (id : UInt32) (threshold producers : Nat)
  | looseThreshold (id : UInt32) (threshold producers : Nat)
  | unknownCounter (id : UInt32)
  | selfDependentCounter (task : Nat) (counter : UInt32)
  | unguardedEdge (parent child : Nat)
  | prematureFire (parent child : Nat)
  | deadlock (remaining : Nat)
  deriving DecidableEq, Repr

/-! ### The stream -/

abbrev ResourceKey := UInt8 × UInt8 × UInt16

def resourceKey (ins : Inst) : ResourceKey := (ins.resource.toU8, ins.unit, ins.index)

/-- the walk over the records from index `i` on, with the last record of each resource -/
def resourcePredsFrom (last : ResourceKey → Option Nat) (i : Nat) : List Inst → List (Option Nat)
  | [] => []
  | ins :: rest =>
    last (resourceKey ins) ::
      resourcePredsFrom (fun k => if k = resourceKey ins then some i else last k) (i + 1) rest

def resourcePreds (prog : Program) : List (Option Nat) :=
  resourcePredsFrom (fun _ => none) 0 prog.insts

def thresholdOf (prog : Program) (c : UInt32) : Option Nat :=
  (prog.counters.reverse.find? fun e => e.id = c).map fun e => e.threshold.toNat

def producersOf (prog : Program) (c : UInt32) : Nat :=
  (prog.insts.map fun ins => ins.succ.count c).sum

def instOf (order : List Nat) (t : Nat) : Option Nat :=
  (order.zipIdx.reverse.find? fun e => e.1 = t).map (·.2)

/-! ### The static checks -/

def overflows (prog : Program) : Bool :=
  (prog.insts.flatMap (·.succ)).any fun c => decide (2 ^ 32 ≤ producersOf prog c)

def unknownCounter (prog : Program) : Option UInt32 :=
  (prog.insts.flatMap fun ins => ins.wait ++ ins.succ).find? fun c => (thresholdOf prog c).isNone

/-- a threshold that is not the number of producers -/
def badThreshold (prog : Program) : Option VerifyError :=
  prog.counters.findSome? fun e =>
    if producersOf prog e.id < e.threshold.toNat then
      some (.unreachable e.id e.threshold.toNat (producersOf prog e.id))
    else if e.threshold.toNat < producersOf prog e.id then
      some (.looseThreshold e.id e.threshold.toNat (producersOf prog e.id))
    else none

def selfDependent (prog : Program) (order : List Nat) : Option VerifyError :=
  (prog.insts.zip order).findSome? fun (ins, t) =>
    (ins.wait.find? fun c => decide (c ∈ ins.succ)).map (.selfDependentCounter t)

/-- `a`'s instruction increments a counter that `b`'s waits for -/
def counterGated (a b : Inst) : Bool := a.succ.any fun c => decide (c ∈ b.wait)

def gated (prog : Program) (ia ib : Nat) : Bool :=
  match prog.insts[ia]?, prog.insts[ib]? with
  | some a, some b => counterGated a b || (decide (resourceKey a = resourceKey b) && decide (ia < ib))
  | _, _ => false

/-- the first edge that nothing carries -/
def ungatedEdge (prog : Program) (order : List Nat) : List (Nat × Nat) → Option (Option VerifyError)
  | [] => some none
  | (a, b) :: es =>
    match instOf order a, instOf order b with
    | some ia, some ib =>
      if gated prog ia ib then ungatedEdge prog order es else some (some (.unguardedEdge a b))
    | _, _ => none

/-! ### The replay -/

/-- the protocol that the stream encodes -/
def net (prog : Program) : CounterNet UInt32 where
  size := prog.insts.length
  wait i := ((prog.insts[i]?).map (·.wait)).getD []
  succ i := ((prog.insts[i]?).map (·.succ)).getD []
  pred i := ((resourcePreds prog)[i]?).getD none
  threshold c := (thresholdOf prog c).getD 0

structure Replay where
  done : Finset Nat
  val : UInt32 → Nat
  remaining : Nat
  rounds : Nat
  maxReady : Nat

def readyOf (N : CounterNet UInt32) (r : Replay) : List Nat :=
  (List.range N.size).filter fun i => i ∉ r.done ∧ N.Ready r.done r.val i

def premature (parents : Nat → List Nat) (done : Finset Nat) (ready : List Nat) : Option (Nat × Nat) :=
  ready.findSome? fun i => ((parents i).find? fun p => p ∉ done).map fun p => (p, i)

/-- the batch completes -/
def complete (N : CounterNet UInt32) (r : Replay) (ready : List Nat) : Replay where
  done := r.done ∪ ready.toFinset
  val c := r.val c + (ready.map fun i => (N.succ i).count c).sum
  remaining := r.remaining - ready.length
  rounds := r.rounds + 1
  maxReady := max r.maxReady ready.length

/-- the rounds of the replay: every instruction fires as early as it can -/
def replay (N : CounterNet UInt32) (parents : Nat → List Nat) (order : List Nat) :
    Nat → Replay → Option (Except VerifyError (Nat × Nat))
  | fuel, r =>
    if r.remaining = 0 then some (.ok (r.rounds, r.maxReady)) else
    match fuel with
    | 0 => none
    | fuel + 1 =>
      let ready := readyOf N r
      if ready = [] then some (.error (.deadlock r.remaining)) else
      match premature parents r.done ready with
      | some (p, i) => some (.error (.prematureFire (order.getD p 0) (order.getD i 0)))
      | none => replay N parents order fuel (complete N r ready)

def parentsOf (order : List Nat) (tasks : TaskGraph) (i : Nat) : List Nat :=
  tasks.edges.filterMap fun (a, b) => if instOf order b = some i then instOf order a else none

def verify (prog : Program) (order : List Nat) (tasks : TaskGraph) :
    Option (Except VerifyError VerifyReport) :=
  if prog.insts.length ≠ order.length then
    some (.error (.lengthMismatch prog.insts.length order.length))
  else if overflows prog then none
  else
    match unknownCounter prog, badThreshold prog, selfDependent prog order with
    | some c, _, _ => some (.error (.unknownCounter c))
    | none, some e, _ => some (.error e)
    | none, none, some e => some (.error e)
    | none, none, none =>
      match ungatedEdge prog order tasks.edges with
      | none => none
      | some (some e) => some (.error e)
      | some none =>
        (replay (net prog) (parentsOf order tasks) order prog.insts.length
          ⟨∅, fun _ => 0, prog.insts.length, 0, 0⟩).map fun res =>
            res.map fun (rounds, maxReady) =>
              ⟨prog.insts.length, prog.counters.length, tasks.edges.length, rounds, maxReady⟩

end Plow.Schedule

/-!
# What an accepted stream guarantees

If `verify` accepts a stream then in every execution of its counters no instruction starts before
its data parents have completed, and no execution is stuck before all instructions have
(`verify_sound`).  A threshold that is the number of increments makes a counter wait for all its
producers; the rounds of the replay rank the instructions.
-/

namespace Plow.Schedule
open Plow.Lib Plow.Packet

variable {prog : Program} {order : List Nat} {tasks : TaskGraph} {i j : Nat} {c : UInt32}
  {s : CounterNet.State UInt32}

@[simp] theorem net_size : (net prog).size = prog.insts.length := rfl

/-! ### One resource -/

def keyAt (prog : Program) (i : Nat) : Option ResourceKey := (prog.insts[i]?).map resourceKey

theorem resourcePredsFrom_cases {last : ResourceKey → Option Nat} {base : Nat} {insts : List Inst}
    {k : Nat} {ins : Inst} (h : insts[k]? = some ins) :
    ∃ o, (resourcePredsFrom last base insts)[k]? = some o ∧ ((o = last (resourceKey ins) ∧
          ∀ l < k, (insts[l]?).map resourceKey ≠ some (resourceKey ins)) ∨
        ∃ p < k, o = some (base + p) ∧ (insts[p]?).map resourceKey = some (resourceKey ins) ∧
          ∀ l, p < l → l < k → (insts[l]?).map resourceKey ≠ some (resourceKey ins)) := by
  induction insts generalizing last base k with
  | nil => simp at h
  | cons a insts ih =>
    unfold resourcePredsFrom
    cases k with
    | zero =>
      rw [List.getElem?_cons_zero] at h
      cases h
      exact ⟨_, rfl, Or.inl ⟨rfl, fun l hl => absurd hl (Nat.not_lt_zero l)⟩⟩
    | succ k =>
      rw [List.getElem?_cons_succ] at h
      obtain ⟨o, ho, hcases⟩ := @ih (fun q => if q = resourceKey a then some base else last q)
        (base + 1) k h
      refine ⟨o, by rw [List.getElem?_cons_succ, ho], ?_⟩
      rcases hcases with ⟨hlast, hno⟩ | ⟨p, hp, hop, hkey, hno⟩
      · by_cases hk : resourceKey ins = resourceKey a
        · -- the first record is the last one of the resource
          right
          refine ⟨0, by omega, ?_, ?_, fun l hl1 hl2 => ?_⟩
          · rw [hlast, if_pos hk]
            rfl
          · rw [List.getElem?_cons_zero, hk]
            rfl
          · obtain ⟨l, rfl⟩ : ∃ m, l = m + 1 := ⟨l - 1, by omega⟩
            rw [List.getElem?_cons_succ]
            exact hno l (by omega)
        · left
          refine ⟨by rw [hlast, if_neg hk], fun l hl => ?_⟩
          cases l with
          | zero =>
            rw [List.getElem?_cons_zero]
            intro he
            exact hk (Option.some.inj he).symm
          | succ l =>
            rw [List.getElem?_cons_succ]
            exact hno l (by omega)
      · right
        refine ⟨p + 1, by omega, by rw [hop]; congr 1; omega, by rwa [List.getElem?_cons_succ],
          fun l hl1 hl2 => ?_⟩
        obtain ⟨l, rfl⟩ : ∃ m, l = m + 1 := ⟨l - 1, by omega⟩
        rw [List.getElem?_cons_succ]
        exact hno l (by omega) (by omega)

theorem pred_cases (hi : i < prog.insts.length) :
    ((net prog).pred i = none ∧ ∀ l < i, keyAt prog l ≠ keyAt prog i) ∨
      ∃ p < i, (net prog).pred i = some p ∧ keyAt prog p = keyAt prog i ∧
        ∀ l, p < l → l < i → keyAt prog l ≠ keyAt prog i := by
  have h : prog.insts[i]? = some prog.insts[i] := List.getElem?_eq_getElem hi
  have hkey : keyAt prog i = some (resourceKey prog.insts[i]) := by
    unfold keyAt
    rw [h]
    rfl
  obtain ⟨o, ho, hcases⟩ := @resourcePredsFrom_cases (fun _ => none) 0 prog.insts i _ h
  have hpred : (net prog).pred i = o := by
    show ((resourcePreds prog)[i]?).getD none = o
    unfold resourcePreds
    rw [ho]
    rfl
  rw [hpred, hkey]
  rcases hcases with ⟨h1, h2⟩ | ⟨p, hp, h1, h2, h3⟩
  · exact Or.inl ⟨h1, h2⟩
  · right
    exact ⟨p, hp, by rw [h1, zero_add], h2, h3⟩

theorem done_of_key (h : (net prog).Counts s) (hi : i ∈ s.started)
    (hji : j < i) (hkey : keyAt prog j = keyAt prog i) : j ∈ s.done := by
  induction i using Nat.strong_induction_on with
  | _ i ih =>
    rcases pred_cases (h.lt i hi) with ⟨-, hno⟩ | ⟨p, hp, hpred, hkp, hno⟩
    · exact absurd hkey (hno j hji)
    · have hpd : p ∈ s.done := h.pred i hi p hpred
      rcases lt_trichotomy j p with hjp | rfl | hpj
      · exact ih p hp (h.sub hpd) hjp (hkey.trans hkp.symm)
      · exact hpd
      · exact absurd hkey (hno j hpj hji)

/-! ### The static checks -/

def Replay.start (prog : Program) : Replay := ⟨∅, fun _ => 0, prog.insts.length, 0, 0⟩

/-- What an accepted stream has passed. -/
structure Checked (prog : Program) (order : List Nat) (tasks : TaskGraph) (res : Nat × Nat) : Prop where
  length : prog.insts.length = order.length
  known : unknownCounter prog = none
  thresholds : badThreshold prog = none
  apart : selfDependent prog order = none
  gated : ungatedEdge prog order tasks.edges = some none
  replay : replay (net prog) (parentsOf order tasks) order prog.insts.length (.start prog) =
    some (.ok res)

theorem verify_ok {report : VerifyReport} (h : verify prog order tasks = some (.ok report)) :
    ∃ res, Checked prog order tasks res := by
  unfold verify at h
  split at h
  · cases h
  · next hlen =>
    split at h
    · cases h
    · split at h
      · cases h
      · cases h
      · cases h
      · next hknown hbad hself =>
        split at h
        · cases h
        · cases h
        · next hgate =>
          obtain ⟨res, hres, h⟩ := Option.map_eq_some_iff.mp h
          cases res with
          | error e => cases h
          | ok res => exact ⟨res, not_not.mp hlen, hknown, hbad, hself, hgate, hres⟩

theorem increments_net (prog : Program) (c : UInt32) :
    (net prog).increments (Finset.range prog.insts.length) c = producersOf prog c := by
  have h : ∀ insts : List Inst,
      ∑ i ∈ Finset.range insts.length, (((insts[i]?).map (·.succ)).getD []).count c =
        (insts.map fun ins => ins.succ.count c).sum := by
    intro insts
    induction insts with
    | nil => rfl
    | cons ins insts ih =>
      rw [List.length_cons, Finset.sum_range_succ', List.map_cons, List.sum_cons, ← ih, add_comm]
      rfl
  exact h prog.insts

theorem mem_wait (h : c ∈ (net prog).wait i) : ∃ ins, prog.insts[i]? = some ins ∧ c ∈ ins.wait := by
  unfold net at h
  cases hi : prog.insts[i]? with
  | none =>
    simp only [hi] at h
    cases h
  | some ins =>
    simp only [hi] at h
    exact ⟨ins, rfl, h⟩

theorem thresholdOf_some {v : Nat} (h : thresholdOf prog c = some v) :
    ∃ e ∈ prog.counters, e.id = c ∧ e.threshold.toNat = v := by
  unfold thresholdOf at h
  obtain ⟨e, he, rfl⟩ := Option.map_eq_some_iff.mp h
  have hid := List.find?_some he
  exact ⟨e, List.mem_reverse.mp (List.mem_of_find?_eq_some he), of_decide_eq_true hid, rfl⟩

variable {res : Nat × Nat}

theorem balanced_of_checks (hk : unknownCounter prog = none) (ht : badThreshold prog = none) :
    (net prog).Balanced := by
  intro i hi c hc
  obtain ⟨ins, hins, hc⟩ := mem_wait hc
  have hmem : c ∈ prog.insts.flatMap fun ins => ins.wait ++ ins.succ :=
    List.mem_flatMap.mpr ⟨ins, List.mem_of_getElem? hins, List.mem_append_left _ hc⟩
  have hknown : thresholdOf prog c ≠ none := by
    simpa using List.find?_eq_none.mp hk c hmem
  obtain ⟨v, hv⟩ := Option.ne_none_iff_exists'.mp hknown
  obtain ⟨e, he, rfl, hev⟩ := thresholdOf_some hv
  have hbad := List.findSome?_eq_none_iff.mp ht e he
  rw [net_size, increments_net]
  show (thresholdOf prog e.id).getD 0 = producersOf prog e.id
  rw [hv, Option.getD_some, ← hev]
  split at hbad
  · cases hbad
  · split at hbad
    · cases hbad
    · omega

theorem Checked.balanced (h : Checked prog order tasks res) : (net prog).Balanced :=
  balanced_of_checks h.known h.thresholds

theorem instOf_some {t : Nat} (h : instOf order t = some i) : order[i]? = some t := by
  unfold instOf at h
  obtain ⟨e, he, rfl⟩ := Option.map_eq_some_iff.mp h
  have hid := List.find?_some he
  rw [decide_eq_true_eq] at hid
  have hmem := List.mem_zipIdx_iff_getElem?.mp
    (List.mem_reverse.mp (List.mem_of_find?_eq_some he))
  rw [← hid, hmem]

theorem gated_of_edge {es : List (Nat × Nat)} (h : ungatedEdge prog order es = some none) {a b : Nat}
    (he : (a, b) ∈ es) :
    ∃ ia ib, instOf order a = some ia ∧ instOf order b = some ib ∧ gated prog ia ib := by
  induction es with
  | nil => cases he
  | cons e es ih =>
    unfold ungatedEdge at h
    split at h
    · next ia ib hia hib =>
      split at h
      · next hg =>
        rcases List.mem_cons.mp he with rfl | he
        · exact ⟨ia, ib, hia, hib, hg⟩
        · exact ih h he
      · cases h
    · cases h

theorem done_of_earlier (h : (net prog).Counts s) (hj : j < prog.insts.length)
    (hpred : ∀ p ∈ (net prog).pred j, p ∈ s.done) (hlt : i < j) (hkey : keyAt prog i = keyAt prog j) :
    i ∈ s.done := by
  rcases pred_cases hj with ⟨-, hno⟩ | ⟨p, hp, hpj, hkp, hno⟩
  · exact absurd hkey (hno i hlt)
  · have hpd : p ∈ s.done := hpred p hpj
    rcases lt_trichotomy i p with hip | rfl | hpi
    · exact done_of_key h (h.sub hpd) hip (hkey.trans hkp.symm)
    · exact hpd
    · exact absurd hkey (hno i hpi hlt)

theorem done_of_gated (hB : (net prog).Balanced)
    (h : (net prog).Counts s) (hj : j < prog.insts.length) (hr : (net prog).Ready s.done s.val j)
    (hg : gated prog i j) : i ∈ s.done := by
  unfold gated at hg
  split at hg
  · next a b ha hb =>
    rw [Bool.or_eq_true, Bool.and_eq_true] at hg
    rcases hg with hg | ⟨hkey, hlt⟩
    · obtain ⟨c, hca, hcb⟩ := List.any_eq_true.mp hg
      have hcb : c ∈ b.wait := of_decide_eq_true hcb
      have hwait : c ∈ (net prog).wait j := by
        show c ∈ ((prog.insts[j]?).map (·.wait)).getD []
        rw [hb]
        exact hcb
      have hsucc : c ∈ (net prog).succ i := by
        show c ∈ ((prog.insts[i]?).map (·.succ)).getD []
        rw [ha]
        exact hca
      have hi : i < prog.insts.length := (List.getElem?_eq_some_iff.mp ha).1
      exact CounterNet.done_of_ready hB h.done_sub h.val hj hr hwait hi hsucc
    · have hkey : keyAt prog i = keyAt prog j := by
        unfold keyAt
        rw [ha, hb]
        exact congrArg some (of_decide_eq_true hkey)
      exact done_of_earlier h hj hr.2 (of_decide_eq_true hlt) hkey
  · cases hg

/-! ### The replay -/

section
variable {N : CounterNet UInt32} {r : Replay} {parents : Nat → List Nat} {fuel : Nat}

/-- What holds of the replay after every round. -/
structure ReplayOk (N : CounterNet UInt32) (r : Replay) : Prop where
  sub : r.done ⊆ Finset.range N.size
  val : r.val = N.increments r.done
  remaining : r.remaining + r.done.card = N.size

theorem ReplayOk.all_done (h : ReplayOk N r) (h0 : r.remaining = 0) : ∀ i < N.size, i ∈ r.done := by
  have hall : r.done = Finset.range N.size := by
    apply Finset.eq_of_subset_of_card_le h.sub
    rw [Finset.card_range]
    have := h.remaining
    omega
  intro i hi
  rw [hall]
  exact Finset.mem_range.mpr hi

theorem mem_readyOf : i ∈ readyOf N r ↔ i < N.size ∧ i ∉ r.done ∧ N.Ready r.done r.val i := by
  unfold readyOf
  rw [List.mem_filter, List.mem_range, decide_eq_true_eq]

theorem nodup_readyOf : (readyOf N r).Nodup := List.nodup_range.filter _

theorem ReplayOk.complete (h : ReplayOk N r) : ReplayOk N (complete N r (readyOf N r)) := by
  have hdisj : Disjoint r.done (readyOf N r).toFinset := by
    rw [Finset.disjoint_left]
    intro i hi hr
    exact (mem_readyOf.mp (List.mem_toFinset.mp hr)).2.1 hi
  have hsub : r.done ∪ (readyOf N r).toFinset ⊆ Finset.range N.size := by
    apply Finset.union_subset h.sub
    intro i hi
    exact Finset.mem_range.mpr (mem_readyOf.mp (List.mem_toFinset.mp hi)).1
  have hcard : (r.done ∪ (readyOf N r).toFinset).card = r.done.card + (readyOf N r).length := by
    rw [Finset.card_union_of_disjoint hdisj, List.toFinset_card_of_nodup nodup_readyOf]
  refine ⟨hsub, ?_, ?_⟩
  · funext c
    show r.val c + _ = N.increments (r.done ∪ _) c
    unfold CounterNet.increments
    rw [Finset.sum_union hdisj, List.sum_toFinset _ nodup_readyOf, h.val]
    rfl
  · have hle := Finset.card_le_card hsub
    rw [Finset.card_range, hcard] at hle
    have hrem := h.remaining
    show r.remaining - (readyOf N r).length + (r.done ∪ (readyOf N r).toFinset).card = N.size
    rw [hcard]
    omega

/-- The rounds of a replay that comes to its end rank the instructions that were not done. -/
theorem ranks_of_replay (hB : N.Balanced) (h : ReplayOk N r)
    (hr : replay N parents order fuel r = some (.ok res)) :
    ∃ rank : Nat → Nat, ∀ i < N.size, i ∉ r.done → (∀ p ∈ N.pred i, p ∈ r.done ∨ rank p < rank i) ∧
      ∀ c ∈ N.wait i, ∀ j < N.size, c ∈ N.succ j → j ∈ r.done ∨ rank j < rank i := by
  induction fuel generalizing r with
  | zero =>
    unfold replay at hr
    split at hr
    · next h0 => exact ⟨fun _ => 0, fun i hi hnot => absurd (h.all_done h0 i hi) hnot⟩
    · cases hr
  | succ fuel ih =>
    unfold replay at hr
    split at hr
    · next h0 => exact ⟨fun _ => 0, fun i hi hnot => absurd (h.all_done h0 i hi) hnot⟩
    · dsimp only at hr
      split at hr
      · cases hr
      · split at hr
        · cases hr
        · obtain ⟨rank, hrank⟩ := ih h.complete hr
          have hdone : ∀ j, j ∈ (complete N r (readyOf N r)).done ↔ j ∈ r.done ∨ j ∈ readyOf N r := by
            intro j
            show j ∈ r.done ∪ (readyOf N r).toFinset ↔ _
            rw [Finset.mem_union, List.mem_toFinset]
          -- this round comes before all the later ones
          let rank' : Nat → Nat := fun i =>
            if i ∈ (complete N r (readyOf N r)).done then 0 else rank i + 1
          have hlow : ∀ i j, i ∉ (complete N r (readyOf N r)).done →
              (j ∈ (complete N r (readyOf N r)).done ∨ rank j < rank i) → rank' j < rank' i := by
            intro i j hi hj
            show (if j ∈ _ then 0 else rank j + 1) < (if i ∈ _ then 0 else rank i + 1)
            rw [if_neg hi]
            split
            · exact Nat.succ_pos _
            · next hjn => exact Nat.succ_lt_succ (hj.resolve_left hjn)
          refine ⟨rank', fun i hi hnot => ?_⟩
          by_cases hin : i ∈ readyOf N r
          · have hready := (mem_readyOf.mp hin).2.2
            refine ⟨fun p hp => Or.inl (hready.2 p hp), fun c hc j hj hjc => Or.inl ?_⟩
            exact CounterNet.done_of_ready hB h.sub h.val hi hready hc hj hjc
          · have hnot' : i ∉ (complete N r (readyOf N r)).done := by
              rw [hdone]
              exact fun h => h.elim hnot hin
            obtain ⟨h1, h2⟩ := hrank i hi hnot'
            exact ⟨fun p hp => Or.inr (hlow i p hnot' (h1 p hp)),
              fun c hc j hj hjc => Or.inr (hlow i j hnot' (h2 c hc j hj hjc))⟩

theorem replayOk_start (prog : Program) : ReplayOk (net prog) (.start prog) where
  sub := Finset.empty_subset _
  val := by
    funext c
    rfl
  remaining := rfl

theorem Checked.ranked (h : Checked prog order tasks res) : ∃ rank, (net prog).Ranked rank := by
  obtain ⟨rank, hrank⟩ := ranks_of_replay h.balanced (replayOk_start prog) h.replay
  have hnone : ∀ i, i ∉ (Replay.start prog).done := fun i => Finset.notMem_empty i
  refine ⟨rank, fun i hi p hp => ⟨?_, ?_⟩, fun i hi c hc j hj hjc => ?_⟩
  · rcases pred_cases hi with ⟨hpred, -⟩ | ⟨q, hq, hpred, -⟩
    · rw [hpred] at hp
      cases hp
    · rw [hpred] at hp
      cases hp
      exact lt_trans hq hi
  · exact ((hrank i hi (hnone i)).1 p hp).resolve_left (hnone p)
  · exact ((hrank i hi (hnone i)).2 c hc j hj hjc).resolve_left (hnone j)

end

/-! ### Soundness -/

/-- In every execution of an accepted stream no instruction starts before its data parents have
completed, and no state with unfinished instructions is stuck. -/
theorem verify_sound {report : VerifyReport} {s : CounterNet.State UInt32}
    (h : verify prog order tasks = some (.ok report)) (hd : order.Nodup)
    (hs : (net prog).Reachable s) :
    (∀ s' i a b, (net prog).Step s s' → i ∈ s'.started → i ∉ s.started → (a, b) ∈ tasks.edges →
      order[i]? = some b → ∃ j, order[j]? = some a ∧ j ∈ s.done) ∧
    ((∃ i < prog.insts.length, i ∉ s.done) → ∃ s', (net prog).Step s s') := by
  obtain ⟨res, hc⟩ := verify_ok h
  obtain ⟨rank, hR⟩ := hc.ranked
  have hcounts := hs.counts
  refine ⟨fun s' i a b hstep hin hout hedge hb => ?_, CounterNet.progress hc.balanced hR hcounts⟩
  obtain ⟨ia, ib, hia, hib, hg⟩ := gated_of_edge hc.gated hedge
  have hi : ib = i := by
    have hlt : i < order.length := (List.getElem?_eq_some_iff.mp hb).1
    exact ((List.getElem?_inj hlt hd).mp (hb.trans (instOf_some hib).symm)).symm
  subst hi
  refine ⟨ia, instOf_some hia, ?_⟩
  cases hstep with
  | @start k lt idle ready =>
    rcases Finset.mem_insert.mp hin with rfl | hin
    · exact done_of_gated hc.balanced hcounts lt ready hg
    · exact absurd hin hout
  | finish started running => exact absurd hin hout

def handOver : Program where
  insts := [⟨.sm, 0, 0, .host, [], [0]⟩, ⟨.dma, 0, 0, .host, [0], []⟩]
  counters := [⟨0, 1, 1, List.Vector.replicate 3 0⟩]
  bucketId := 0
  planGen := 0
  flags := 0

/-- the consumer has not started, and the producer can -/
theorem verify_sound_handOver : verify handOver [7, 4] ⟨[], [(7, 4)], [], []⟩ =
      some (.ok ⟨2, 1, 1, 2, 1⟩) ∧
    ((∃ i < handOver.insts.length, i ∉ (CounterNet.init : CounterNet.State UInt32).done) →
      ∃ s', (net handOver).Step CounterNet.init s') := by
  have h : verify handOver [7, 4] ⟨[], [(7, 4)], [], []⟩ = some (.ok ⟨2, 1, 1, 2, 1⟩) := by
    decide +kernel
  exact ⟨h, (verify_sound h (by decide) .refl).2⟩

end Plow.Schedule
