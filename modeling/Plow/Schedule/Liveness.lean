import Plow.Schedule.Allocate

/-!
# When the plan reuses bytes

`planFromSchedule` gives a written tensor the bytes of its storage from its first write's start to
one cycle behind its last read's start.  What two unrelated tensors with common bytes then do is
`Separated` if the tasks are `Timed`: wherever these intervals let one storage take the bytes of
another, the accesses of the one have ended (`plan_safe`).  A read that takes longer than a cycle,
a write behind the first one, and a tensor that is only read inside a storage that is written all
break this (`plan_overwrites`).
-/

namespace Plow.Schedule
open Plow.Lib Plow.Rewrite List Relation

variable {tg : TaskGraph} {starts : List Nat} {cons : ConstraintSet} {a b name : String} {t u i j : Nat}
  {r q : BufReq} {acc : Acc} {e : Task × Nat} {es : List (Task × Nat)} {task : Task}

/-! ### Accesses -/

/-- task `t` writes the tensor -/
def Writes (tg : TaskGraph) (name : String) (t : Nat) : Prop :=
  ∃ task, tg.tasks[t]? = some task ∧ task.tensor = some name ∧
    (task.kind = .compute ∨ task.kind = .dmaOut)

/-- task `t` reads the tensor -/
def Reads (tg : TaskGraph) (name : String) (t : Nat) : Prop :=
  ∃ task, tg.tasks[t]? = some task ∧ task.tensor = some name ∧ task.kind = .dmaIn

def Accesses (tg : TaskGraph) (name : String) (t : Nat) : Prop := Writes tg name t ∨ Reads tg name t

def Written (tg : TaskGraph) (name : String) : Prop := ∃ t, Writes tg name t

def IsLeaf (tg : TaskGraph) (name : String) : Prop := ¬ Written tg name

def finish (tg : TaskGraph) (starts : List Nat) (t : Nat) : Nat :=
  startOf starts t + ((tg.tasks[t]?).map (·.dur)).getD 0

/-- every access of `a` has ended when an access of `b` starts -/
def Before (tg : TaskGraph) (starts : List Nat) (a b : String) : Prop :=
  ∀ t u, Accesses tg a t → Accesses tg b u → finish tg starts t ≤ startOf starts u

def Separated (tg : TaskGraph) (starts : List Nat) (a b : String) : Prop :=
  ¬ IsLeaf tg a ∧ ¬ IsLeaf tg b ∧ (Before tg starts a b ∨ Before tg starts b a)

theorem Separated.symm (h : Separated tg starts a b) : Separated tg starts b a :=
  ⟨h.2.1, h.1, h.2.2.symm⟩

/-- a reshape's output and its first input, or two tensors of a concat -/
inductive Tied (tg : TaskGraph) (cons : ConstraintSet) : String → String → Prop where
  | reshape {task : Task} {s : LayoutSpec} {input output : String} {inputs : List String} {x y : Nat}
      (mem : task ∈ tg.tasks) (kind : task.kind = .compute)
      (op : cons.opIo task.node = some ⟨.layout s, input :: inputs, output, x, y⟩)
      (zeroCopy : s.«alias» = true) : Tied tg cons output input
  | concat {grp : ConcatGroup} {a b : String} (mem : grp ∈ cons.concatGroups)
      (left : a ∈ grp.output :: grp.parts) (right : b ∈ grp.output :: grp.parts) : Tied tg cons a b

def Related (tg : TaskGraph) (cons : ConstraintSet) : String → String → Prop :=
  Relation.EqvGen (Tied tg cons)

def Overlap (e f : AddrEntry) : Prop :=
  ∃ x, (e.offset ≤ x ∧ x < e.offset + e.reserved) ∧ f.offset ≤ x ∧ x < f.offset + f.reserved

/-- Unrelated tensors with common bytes are not in use at the same time. -/
def Safe (tg : TaskGraph) (starts : List Nat) (cons : ConstraintSet) (map : AddressMap) : Prop :=
  ∀ e ∈ map.entries, ∀ f ∈ map.entries, ¬ Related tg cons e.name f.name → Overlap e f →
    Separated tg starts e.name f.name

/-! ### What the planner gathers -/

/-- What the planner knows of the tasks `es` that name the tensor. -/
structure AccOk (es : List (Task × Nat)) (starts : List Nat) (name : String) (acc : Acc) : Prop where
  writer : ∀ task t, (task, t) ∈ es → task.tensor = some name →
    (task.kind = .compute ∨ task.kind = .dmaOut) → acc.hasWriter = true ∧ acc.firstWrite ≤ startOf starts t
  written : acc.hasWriter = true → ∃ task t, (task, t) ∈ es ∧ task.tensor = some name ∧
    (task.kind = .compute ∨ task.kind = .dmaOut)
  first : acc.firstWrite = cycleMax ∨ ∃ task t, (task, t) ∈ es ∧ task.tensor = some name ∧
    (task.kind = .compute ∨ task.kind = .dmaOut) ∧ startOf starts t = acc.firstWrite
  read : ∀ task t, (task, t) ∈ es → task.tensor = some name → task.kind = .dmaIn →
    startOf starts t < acc.lastRead

theorem AccOk.skip (A : AccOk es starts name acc)
    (h : e.1.tensor ≠ some name) : AccOk (es ++ [e]) starts name acc := by
  have hold : ∀ task t, (task, t) ∈ es ++ [e] → task.tensor = some name → (task, t) ∈ es := by
    intro task t hm ht
    rcases mem_append.mp hm with hm | hm
    · exact hm
    · cases mem_singleton.mp hm
      exact absurd ht h
  refine ⟨fun task t hm ht => A.writer task t (hold task t hm ht) ht, fun hw => ?_, ?_,
    fun task t hm ht => A.read task t (hold task t hm ht) ht⟩
  · obtain ⟨task, t, hm, h⟩ := A.written hw
    exact ⟨task, t, mem_append_left _ hm, h⟩
  · rcases A.first with h | ⟨task, t, hm, h⟩
    · exact .inl h
    · exact .inr ⟨task, t, mem_append_left _ hm, h⟩

/-- a task that names the tensor -/
theorem AccOk.touch (A : AccOk es starts name acc) (ht : task.tensor = some name) :
    AccOk (es ++ [(task, t)]) starts name (acc.touch task (startOf starts t)) := by
  have hsplit : ∀ task' t', (task', t') ∈ es ++ [(task, t)] →
      (task', t') ∈ es ∨ task' = task ∧ t' = t := by
    intro task' t' hm
    rcases mem_append.mp hm with hm | hm
    · exact .inl hm
    · cases mem_singleton.mp hm
      exact .inr ⟨rfl, rfl⟩
  have hself : (task, t) ∈ es ++ [(task, t)] := mem_append_right _ (mem_singleton_self _)
  by_cases hw : task.kind = .compute ∨ task.kind = .dmaOut
  · have he : acc.touch task (startOf starts t) = { acc with
        size := max acc.size (max task.bytes task.tensorBytes)
        hasWriter := true
        firstWrite := min acc.firstWrite (startOf starts t)
        device := task.unit % 256 } := by
      unfold Acc.touch
      rcases hw with h | h <;> rw [h]
    rw [he]
    refine ⟨fun task' t' hm hn hk => ⟨rfl, ?_⟩, fun _ => ⟨task, t, hself, ht, hw⟩, ?_,
      fun task' t' hm hn hk => ?_⟩
    · rcases hsplit task' t' hm with hm | ⟨-, rfl⟩
      · exact le_trans (min_le_left _ _) (A.writer task' t' hm hn hk).2
      · exact min_le_right _ _
    · dsimp only
      rcases le_total (startOf starts t) acc.firstWrite with h | h
      · exact .inr ⟨task, t, hself, ht, hw, (min_eq_right h).symm⟩
      · rw [min_eq_left h]
        rcases A.first with h' | ⟨task', t', hm, h'⟩
        · exact .inl h'
        · exact .inr ⟨task', t', mem_append_left _ hm, h'⟩
    · rcases hsplit task' t' hm with hm | ⟨rfl, -⟩
      · exact A.read task' t' hm hn hk
      · rcases hw with h | h <;> rw [h] at hk <;> cases hk
  · -- the writes stay as they are
    have he : (acc.touch task (startOf starts t)).hasWriter = acc.hasWriter ∧
        (acc.touch task (startOf starts t)).firstWrite = acc.firstWrite ∧
        acc.lastRead ≤ (acc.touch task (startOf starts t)).lastRead ∧
        (task.kind = .dmaIn → startOf starts t < (acc.touch task (startOf starts t)).lastRead) := by
      unfold Acc.touch
      cases hk : task.kind with
      | compute => exact absurd (.inl hk) hw
      | dmaOut => exact absurd (.inr hk) hw
      | dmaIn => exact ⟨rfl, rfl, Nat.le_max_left _ _, fun _ => Nat.le_max_right _ _⟩
      | host => exact ⟨rfl, rfl, le_refl _, fun h => nomatch h⟩
    obtain ⟨h1, h2, h3, h4⟩ := he
    refine ⟨fun task' t' hm hn hk => ?_, fun h => ?_, ?_, fun task' t' hm hn hk => ?_⟩
    · rw [h1, h2]
      rcases hsplit task' t' hm with hm | ⟨rfl, -⟩
      · exact A.writer task' t' hm hn hk
      · exact absurd hk hw
    · obtain ⟨task', t', hm, h'⟩ := A.written (h1 ▸ h)
      exact ⟨task', t', mem_append_left _ hm, h'⟩
    · rw [h2]
      rcases A.first with h' | ⟨task', t', hm, h'⟩
      · exact .inl h'
      · exact .inr ⟨task', t', mem_append_left _ hm, h'⟩
    · rcases hsplit task' t' hm with hm | ⟨rfl, rfl⟩
      · exact lt_of_lt_of_le (A.read task' t' hm hn hk) h3
      · exact h4 hk

theorem accOne_self {acc : Option Acc} (h : e.1.tensor = some name) :
    accOne starts name acc e = some ((acc.getD (.init e.1)).touch e.1 (startOf starts e.2)) := if_pos h

theorem accOne_other {acc : Option Acc} (h : e.1.tensor ≠ some name) :
    accOne starts name acc e = acc := if_neg h

theorem accOk_foldl (es : List (Task × Nat)) :
    (es.foldl (accOne starts name) none = none ∧ ∀ e ∈ es, e.1.tensor ≠ some name) ∨
      ∃ acc, es.foldl (accOne starts name) none = some acc ∧ AccOk es starts name acc := by
  induction es using List.reverseRecOn with
  | nil => exact .inl ⟨rfl, fun e he => nomatch he⟩
  | append_singleton es e ih =>
    rw [foldl_append, foldl_cons, foldl_nil]
    by_cases he : e.1.tensor = some name
    · right
      rcases ih with ⟨h0, hno⟩ | ⟨acc, h0, A⟩
      · -- no task of `es` names the tensor
        refine ⟨_, by rw [h0, accOne_self he, Option.getD_none], AccOk.touch ?_ he⟩
        exact ⟨fun task t hm ht => absurd ht (hno _ hm), (fun h => nomatch h), .inl rfl,
          fun task t hm ht => absurd ht (hno _ hm)⟩
      · exact ⟨_, by rw [h0, accOne_self he, Option.getD_some], A.touch he⟩
    · rcases ih with ⟨h0, hno⟩ | ⟨acc, h0, A⟩
      · refine .inl ⟨by rw [h0, accOne_other he], fun e' he' => ?_⟩
        rcases mem_append.mp he' with h | h
        · exact hno e' h
        · rw [mem_singleton.mp h]
          exact he
      · exact .inr ⟨acc, by rw [h0, accOne_other he], A.skip he⟩

theorem accOk_of (h : accOf tg starts name = some acc) : AccOk tg.tasks.zipIdx starts name acc := by
  unfold accOf at h
  rcases accOk_foldl tg.tasks.zipIdx with ⟨h0, -⟩ | ⟨acc', h0, A⟩
  · rw [h] at h0
    cases h0
  · rw [h] at h0
    cases h0
    exact A

section

variable (A : AccOk tg.tasks.zipIdx starts name acc)
include A

theorem AccOk.write (h : Writes tg name t) :
    acc.hasWriter = true ∧ acc.firstWrite ≤ startOf starts t := by
  obtain ⟨task, hm, ht, hk⟩ := h
  exact A.writer task t (mem_zipIdx_iff_getElem?.mpr hm) ht hk

theorem AccOk.written_of (h : acc.hasWriter = true) :
    Written tg name := by
  obtain ⟨task, t, hm, ht, hk⟩ := A.written h
  exact ⟨t, task, mem_zipIdx_iff_getElem?.mp hm, ht, hk⟩

theorem AccOk.first_write :
    acc.firstWrite = cycleMax ∨ ∃ t, Writes tg name t ∧ startOf starts t = acc.firstWrite := by
  rcases A.first with h | ⟨task, t, hm, ht, hk, hs⟩
  · exact .inl h
  · exact .inr ⟨t, ⟨task, mem_zipIdx_iff_getElem?.mp hm, ht, hk⟩, hs⟩

theorem AccOk.reads (h : Reads tg name t) :
    startOf starts t < acc.lastRead := by
  obtain ⟨task, hm, ht, hk⟩ := h
  exact A.read task t (mem_zipIdx_iff_getElem?.mpr hm) ht hk

end

/-! ### The planned buffers -/

variable {aliases : Aliases} {off : Nat} {target root : String} {accs : String → Option Acc}
  {grp : ConcatGroup}

def AliasesOk (tg : TaskGraph) (cons : ConstraintSet) (aliases : Aliases) : Prop :=
  ∀ name target off, aliases name = some (target, off) → Tied tg cons name target

theorem AliasesOk.insert (A : AliasesOk tg cons aliases) (h : Tied tg cons name target) :
    AliasesOk tg cons (aliases.insert name target off) := by
  intro name' target' off' h'
  unfold Aliases.insert at h'
  split at h'
  · next he =>
    cases h'
    rw [he]
    exact h
  · exact A name' target' off' h'

theorem AliasesOk.reshape (A : AliasesOk tg cons aliases) (hm : task ∈ tg.tasks) :
    AliasesOk tg cons (reshapeAlias cons aliases task) := by
  unfold reshapeAlias
  split
  · next hk =>
    split
    · next s in0 inputs output x y hop =>
      split
      · next hs => exact A.insert (.reshape hm hk hop hs)
      · exact A
    · exact A
  · exact A

theorem aliasesOk_concatParts {parts : List String}
    (hgrp : grp ∈ cons.concatGroups) (hroot : root ∈ grp.parts)
    (hparts : ∀ p ∈ parts, p ∈ grp.parts) (A : AliasesOk tg cons aliases) :
    AliasesOk tg cons (concatParts accs root parts (aliases, off)).1 := by
  induction parts generalizing aliases off with
  | nil => exact A
  | cons p ps ih =>
    obtain ⟨hp, hps⟩ := forall_mem_cons.mp hparts
    refine ih hps ?_
    split
    · exact A.insert (.concat hgrp (mem_cons_of_mem _ hp) (mem_cons_of_mem _ hroot))
    · exact A

theorem AliasesOk.concat (A : AliasesOk tg cons aliases) (hgrp : grp ∈ cons.concatGroups) :
    AliasesOk tg cons (concatAlias accs aliases grp) := by
  unfold concatAlias
  split
  · next root p ps hparts =>
    have hroot : root ∈ grp.parts := by
      rw [hparts]
      exact mem_cons_self
    have hps : ∀ x ∈ p :: ps, x ∈ grp.parts := by
      intro x hx
      rw [hparts]
      exact mem_cons_of_mem _ hx
    split
    · next a ha =>
      have B : AliasesOk tg cons (concatParts accs root (p :: ps) (aliases, a.size)).1 :=
        aliasesOk_concatParts hgrp hroot hps A
      dsimp only
      split
      · exact B.insert (.concat hgrp mem_cons_self (mem_cons_of_mem _ hroot))
      · exact B
    · exact A
  · exact A

theorem aliasesOk_aliasesOf (tg : TaskGraph) (starts : List Nat) (cons : ConstraintSet) :
    AliasesOk tg cons (aliasesOf tg starts cons) := by
  have h1 : ∀ ts : List Task, (∀ t ∈ ts, t ∈ tg.tasks) → ∀ aliases, AliasesOk tg cons aliases →
      AliasesOk tg cons (ts.foldl (reshapeAlias cons) aliases) := by
    intro ts
    induction ts with
    | nil => exact fun _ _ A => A
    | cons t ts ih =>
      intro hts aliases A
      obtain ⟨ht, hts⟩ := forall_mem_cons.mp hts
      exact ih hts _ (A.reshape ht)
  have h2 : ∀ gs : List ConcatGroup, (∀ g ∈ gs, g ∈ cons.concatGroups) → ∀ aliases,
      AliasesOk tg cons aliases →
      AliasesOk tg cons (gs.foldl (concatAlias (accOf tg starts)) aliases) := by
    intro gs
    induction gs with
    | nil => exact fun _ _ A => A
    | cons g gs ih =>
      intro hgs aliases A
      obtain ⟨hg, hgs⟩ := forall_mem_cons.mp hgs
      exact ih hgs _ (A.concat hg)
  exact h2 _ (fun _ h => h) _ (h1 _ (fun _ h => h) _ fun _ _ _ h => nomatch h)

/-- A tensor's buffer. -/
structure PlannedReq (tg : TaskGraph) (starts : List Nat) (cons : ConstraintSet) (r : BufReq)
    (acc : Acc) : Prop where
  gathered : AccOk tg.tasks.zipIdx starts r.name acc
  cls : r.cls = if acc.hasWriter then .scratch else .persistent
  live : r.live = if acc.hasWriter then some acc.interval else none
  replicas : r.replicas = []
  tied : ∀ target, r.aliasOf = some target → Tied tg cons r.name target

theorem plannedReq (h : r ∈ planReqs tg starts cons) : ∃ acc, PlannedReq tg starts cons r acc := by
  unfold planReqs at h
  obtain ⟨name, -, h⟩ := mem_filterMap.mp h
  obtain ⟨acc, hacc, rfl⟩ := Option.map_eq_some_iff.mp h
  refine ⟨acc, ?_⟩
  have hreq : (acc.req name).name = name ∧ (acc.req name).aliasOf = none ∧
      (acc.req name).cls = (if acc.hasWriter then .scratch else .persistent) ∧
      (acc.req name).live = (if acc.hasWriter then some acc.interval else none) ∧
      (acc.req name).replicas = [] := by
    unfold Acc.req
    cases acc.hasWriter <;> exact ⟨rfl, rfl, rfl, rfl, rfl⟩
  obtain ⟨h1, h2, h3, h4, h5⟩ := hreq
  -- the buffer is `acc.req`, with an alias or without
  have hcases : tensorReq (accOf tg starts) (aliasesOf tg starts cons) name acc = acc.req name ∨
      ∃ target off, aliasesOf tg starts cons name = some (target, off) ∧
        tensorReq (accOf tg starts) (aliasesOf tg starts cons) name acc =
          (acc.req name).aliasAt target off := by
    unfold tensorReq
    split
    · next target off ha =>
      split
      · exact .inr ⟨target, off, ha, rfl⟩
      · exact .inl rfl
    · exact .inl rfl
  rcases hcases with he | ⟨target, off, ha, he⟩
  · rw [he]
    refine ⟨by rw [h1]; exact accOk_of hacc, h3, h4, h5, fun target ht => ?_⟩
    rw [h2] at ht
    cases ht
  · rw [he]
    refine ⟨?_, h3, h4, h5, fun target' ht => ?_⟩
    · show AccOk _ _ (acc.req name).name _
      rw [h1]
      exact accOk_of hacc
    · cases ht
      show Tied tg cons (acc.req name).name target
      rw [h1]
      exact aliasesOk_aliasesOf tg starts cons name target off ha

theorem PlannedReq.written (R : PlannedReq tg starts cons r acc) (h : r.cls = .scratch) :
    acc.hasWriter = true ∧ Written tg r.name := by
  have hw : acc.hasWriter = true := by
    rw [R.cls] at h
    split at h
    · assumption
    · cases h
  exact ⟨hw, R.gathered.written_of hw⟩

theorem PlannedReq.span (R : PlannedReq tg starts cons r acc) : r.span = r.size := by
  unfold BufReq.span
  rw [if_neg]
  rw [R.cls]
  split <;> decide

theorem PlannedReq.live_of (R : PlannedReq tg starts cons r acc) (h : Written tg r.name) :
    r.live = some acc.interval := by
  obtain ⟨t, h⟩ := h
  rw [R.live, if_pos (R.gathered.write h).1]

theorem expandReplicas_eq {reqs : List BufReq} (h : ∀ r ∈ reqs, r.replicas = []) :
    expandReplicas reqs = reqs := by
  unfold expandReplicas
  induction reqs with
  | nil => rfl
  | cons r reqs ih =>
    obtain ⟨hr, h⟩ := forall_mem_cons.mp h
    rw [flatMap_cons, ih h, if_pos hr]
    rfl

theorem expandReplicas_planReqs (tg : TaskGraph) (starts : List Nat) (cons : ConstraintSet) :
    expandReplicas (planReqs tg starts cons) = planReqs tg starts cons :=
  expandReplicas_eq fun _ hr => (plannedReq hr).choose_spec.replicas

theorem related_root (hr : (planReqs tg starts cons)[i]? = some r) :
    ∃ q, (planReqs tg starts cons)[(rootAndOff (planReqs tg starts cons) i).1]? = some q ∧
      Related tg cons r.name q.name := by
  unfold rootAndOff
  apply followAlias_inv (P := fun k => ∃ q, (planReqs tg starts cons)[k]? = some q ∧
    Related tg cons r.name q.name)
  · exact ⟨r, hr, EqvGen.refl _⟩
  · intro k l ⟨q, hq, hrel⟩ hkl
    obtain ⟨-, q', s, target, hq', hs, halias, hname, -⟩ := aliasTarget_some hkl
    rw [hq] at hq'
    cases hq'
    obtain ⟨acc, R⟩ := plannedReq (mem_of_getElem? hq)
    have htied : Tied tg cons q.name s.name := by
      rw [hname]
      exact R.tied target halias
    exact ⟨s, hs, hrel.trans _ _ _ (.rel _ _ htied)⟩

/-! ### The condition -/

/-- the buffer's bytes are in the storage of `root` -/
def Member (tg : TaskGraph) (starts : List Nat) (cons : ConstraintSet) (root : Nat) (name : String) :
    Prop :=
  ∃ i r, (planReqs tg starts cons)[i]? = some r ∧ r.name = name ∧
    (rootAndOff (planReqs tg starts cons) i).1 = root

/-- Every read and some write of `a` start before every write of `b`; a write at `cycleMax`
counts as one at 0. -/
def Precedes (tg : TaskGraph) (starts : List Nat) (a b : String) : Prop :=
  (∃ t, Writes tg a t ∧
    (cycleMax ≤ startOf starts t ∨ ∀ u, Writes tg b u → startOf starts t < startOf starts u)) ∧
  ∀ t u, Reads tg a t → Writes tg b u → startOf starts t < startOf starts u

/-- Wherever the written tensors of one storage precede those of another one on the same device,
unrelated tensors of the two are not in use at the same time. -/
def Timed (tg : TaskGraph) (starts : List Nat) (cons : ConstraintSet) : Prop :=
  ∀ i j r q a b, (planReqs tg starts cons)[i]? = some r → (planReqs tg starts cons)[j]? = some q →
    Written tg r.name → Written tg q.name → r.device = q.device →
    Member tg starts cons i a → Member tg starts cons j b → ¬ Related tg cons a b →
    (∀ x y, Member tg starts cons i x → Member tg starts cons j y → Written tg x → Written tg y →
      Precedes tg starts x y) →
    Separated tg starts a b

theorem precedes_of (hx : AccOk tg.tasks.zipIdx starts a acc) {acc' : Acc}
    (hy : AccOk tg.tasks.zipIdx starts b acc') (hw : Written tg a)
    (h : acc.interval.2 ≤ acc'.interval.1) : Precedes tg starts a b := by
  have hstop : acc.lastRead ≤ acc.interval.2 ∧ acc.interval.1 < acc.interval.2 :=
    ⟨Nat.le_max_left _ _, Nat.le_max_right _ _⟩
  -- the second interval does not start at 0
  have hfirst : acc'.interval.1 = acc'.firstWrite := by
    unfold Acc.interval at h hstop ⊢
    dsimp only at h hstop ⊢
    split
    · next he =>
      rw [if_pos he] at h
      omega
    · rfl
  have hlate : ∀ u, Writes tg b u → acc.interval.2 ≤ startOf starts u := by
    intro u hu
    have := (hy.write hu).2
    omega
  refine ⟨?_, fun t u ht hu => ?_⟩
  · rcases hx.first_write with hmax | ⟨t, ht, hs⟩
    · obtain ⟨t, ht⟩ := hw
      refine ⟨t, ht, .inl ?_⟩
      rw [← hmax]
      exact (hx.write ht).2
    · by_cases hmax : acc.firstWrite = cycleMax
      · exact ⟨t, ht, .inl (by omega)⟩
      · refine ⟨t, ht, .inr fun u hu => ?_⟩
        have hu := hlate u hu
        have hone : acc.interval.1 = acc.firstWrite := if_neg hmax
        omega
  · have hr := hx.reads ht
    have hu := hlate u hu
    omega

theorem precedes_of_windows {m n : BufReq}
    (hm : IsStorage (planReqs tg starts cons) i m) (hn : IsStorage (planReqs tg starts cons) j n)
    (h : m.window.2 ≤ n.window.1) :
    ∀ x y, Member tg starts cons i x → Member tg starts cons j y → Written tg x → Written tg y →
      Precedes tg starts x y := by
  intro x y ⟨k, r, hr, hrx, hri⟩ ⟨l, q, hq, hqy, hqj⟩ hx hy
  subst hrx hri hqy hqj
  obtain ⟨accx, X⟩ := plannedReq (mem_of_getElem? hr)
  obtain ⟨accy, Y⟩ := plannedReq (mem_of_getElem? hq)
  obtain ⟨w, hw, hw1, hw2⟩ := (hm.member hr).2 _ (X.live_of hx)
  obtain ⟨v, hv, hv1, hv2⟩ := (hn.member hq).2 _ (Y.live_of hy)
  refine precedes_of X.gathered Y.gathered hx ?_
  unfold BufReq.window at h
  rw [hw, hv] at h
  exact le_trans hw2 (le_trans h hv1)

/-- Tensors whose entries overlap, and that no alias or concat relates, are not in use at the same
time if the tasks are timed. -/
theorem plan_safe {map : AddressMap} (hT : Timed tg starts cons)
    (h : planFromSchedule tg starts cons = some map) : Safe tg starts cons map := by
  intro e he f hf hrel hover
  obtain ⟨r, q, m, n, hr, hq, ⟨hre, hrs⟩, ⟨hqf, hqs⟩, hm, hn, hapart⟩ := allocate_apart h he hf
  rw [expandReplicas_planReqs] at hr hq hm hn hapart
  obtain ⟨s, hs, hrels⟩ := related_root hr
  obtain ⟨s', hs', hrels'⟩ := related_root hq
  rw [hre, hqf] at hrel ⊢
  have hroot : (rootAndOff (planReqs tg starts cons) e.slot).1 ≠
      (rootAndOff (planReqs tg starts cons) f.slot).1 := by
    intro heq
    rw [heq, hs'] at hs
    cases hs
    exact hrel (hrels.trans _ _ _ hrels'.symm)
  rcases hapart hroot with ⟨hmc, hnc, hdev, hmeet⟩ | hclear
  · -- the windows of the two storages do not meet
    obtain ⟨s1, hs1, g⟩ := hm.root
    obtain ⟨s1', hs1', g'⟩ := hn.root
    rw [hs] at hs1
    rw [hs'] at hs1'
    cases hs1
    cases hs1'
    obtain ⟨acc, S⟩ := plannedReq (mem_of_getElem? hs)
    obtain ⟨acc', S'⟩ := plannedReq (mem_of_getElem? hs')
    have hw := (S.written (g.cls.symm.trans hmc)).2
    have hw' := (S'.written (g'.cls.symm.trans hnc)).2
    have hd : s.device = s'.device := by rw [← g.device, ← g'.device, hdev]
    have hmr : Member tg starts cons _ r.name := ⟨_, r, hr, rfl, rfl⟩
    have hmq : Member tg starts cons _ q.name := ⟨_, q, hq, rfl, rfl⟩
    by_cases hord : m.window.2 ≤ n.window.1
    · exact hT _ _ s s' _ _ hs hs' hw hw' hd hmr hmq hrel (precedes_of_windows hm hn hord)
    · have hord' : n.window.2 ≤ m.window.1 := by
        by_contra hlt
        exact hmeet ⟨by omega, by omega⟩
      exact (hT _ _ s' s _ _ hs' hs hw' hw hd.symm hmq hmr (fun h => hrel h.symm)
        (precedes_of_windows hn hm hord')).symm
  · exfalso
    obtain ⟨acc, R⟩ := plannedReq (mem_of_getElem? hr)
    obtain ⟨acc', Q⟩ := plannedReq (mem_of_getElem? hq)
    obtain ⟨x, ⟨h1, h2⟩, h3, h4⟩ := hover
    rw [hrs, R.span] at h2
    rw [hqs, Q.span] at h4
    unfold Clear at hclear
    omega

/-! ### A long read -/

/-- a write of `a`, a read of `a` and a write of `b`, on one device -/
def longRead : TaskGraph where
  tasks := [⟨0, "store", 0, .dmaOut, [], 10, 64, 64, 0, 0, 0, some "a", false⟩,
    ⟨1, "load", 0, .dmaIn, [], 100, 64, 64, 0, 0, 0, some "a", false⟩,
    ⟨2, "store", 0, .dmaOut, [], 10, 64, 64, 0, 0, 0, some "b", false⟩]
  edges := [(0, 1)]
  pagesPerSm := []
  tmemColsPerSm := []

theorem writes_longRead (h : Writes longRead name t) : name = "a" ∧ t = 0 ∨ name = "b" ∧ t = 2 := by
  obtain ⟨task, ht, hn, hk⟩ := h
  have hlt : t < 3 := (List.getElem?_eq_some_iff.mp ht).1
  interval_cases t <;> cases ht <;> cases hn <;> simp at hk ⊢

theorem accesses_longRead (h : Accesses longRead name t) :
    name = "a" ∧ t < 2 ∨ name = "b" ∧ t = 2 := by
  rcases h with h | ⟨task, ht, hn, hk⟩
  · rcases writes_longRead h with ⟨h1, h2⟩ | h
    · exact .inl ⟨h1, by omega⟩
    · exact .inr h
  · have hlt : t < 3 := (List.getElem?_eq_some_iff.mp ht).1
    interval_cases t <;> cases ht <;> cases hn <;> simp at hk ⊢

theorem written_longRead : Written longRead "a" ∧ Written longRead "b" :=
  ⟨⟨0, _, rfl, rfl, .inr rfl⟩, ⟨2, _, rfl, rfl, .inr rfl⟩⟩

theorem member_longRead (h : Member longRead [0, 10, 110] .empty i name) :
    i = 0 ∧ name = "a" ∨ i = 1 ∧ name = "b" := by
  obtain ⟨k, r, hr, rfl, rfl⟩ := h
  have hreqs : planReqs longRead [0, 10, 110] .empty =
      [(BufReq.new "a" 64 .scratch).withLive 0 11, (BufReq.new "b" 64 .scratch).withLive 110 111] := by
    decide +kernel
  rw [hreqs] at hr ⊢
  have hlt : k < 2 := (List.getElem?_eq_some_iff.mp hr).1
  interval_cases k <;> cases hr <;> decide

/-- the write of `b` behind the read of `a` -/
theorem plan_safe_longRead : ∃ map,
    planFromSchedule longRead [0, 10, 110] .empty = some map ∧ Safe longRead [0, 10, 110] .empty map := by
  have hsep : Separated longRead [0, 10, 110] "a" "b" := by
    refine ⟨fun h => h written_longRead.1, fun h => h written_longRead.2, .inl ?_⟩
    intro t u ht hu
    have ht : t < 2 := by
      rcases accesses_longRead ht with ⟨-, h⟩ | ⟨h, -⟩
      · exact h
      · simp at h
    have hu : u = 2 := by
      rcases accesses_longRead hu with ⟨h, -⟩ | ⟨-, h⟩
      · simp at h
      · exact h
    subst hu
    interval_cases t <;> decide
  have hT : Timed longRead [0, 10, 110] .empty := by
    intro i j r q x y _ _ _ _ _ hx hy hrel _
    rcases member_longRead hx with ⟨rfl, rfl⟩ | ⟨rfl, rfl⟩ <;>
      rcases member_longRead hy with ⟨rfl, rfl⟩ | ⟨rfl, rfl⟩
    · exact absurd (EqvGen.refl _) hrel
    · exact hsep
    · exact hsep.symm
    · exact absurd (EqvGen.refl _) hrel
  obtain ⟨map, h⟩ := allocate_some (planReqs longRead [0, 10, 110] .empty)
  exact ⟨map, h, plan_safe hT h⟩

def RespectsEdges (tg : TaskGraph) (starts : List Nat) : Prop :=
  ∀ e ∈ tg.edges, finish tg starts e.1 ≤ startOf starts e.2

instance (tg : TaskGraph) (starts : List Nat) : Decidable (RespectsEdges tg starts) :=
  List.decidableBAll ..

/-- `b` is written into the bytes of `a` while `a` is read. -/
theorem plan_overwrites : ¬ ∀ tg starts cons map, RespectsEdges tg starts →
    planFromSchedule tg starts cons = some map → Safe tg starts cons map := by
  intro h
  have hplan : planFromSchedule longRead [0, 10, 11] .empty = some
      ⟨[⟨0, "a", .scratch, 0, 64, false, 0⟩, ⟨1, "b", .scratch, 0, 64, false, 0⟩], 256, 256,
        [⟨0, 0, 256, 256⟩]⟩ := by decide +kernel
  have hedges : RespectsEdges longRead [0, 10, 11] := by decide +kernel
  have hrel : ¬ Related longRead .empty "a" "b" := by
    intro hrel
    have heq : ∀ x y, Related longRead .empty x y → x = y := by
      intro x y hxy
      induction hxy with
      | rel x y h =>
        rcases h with ⟨-, -, op, -⟩ | ⟨mem, -, -⟩
        · cases op
        · cases mem
      | refl x => rfl
      | symm x y _ ih => exact ih.symm
      | trans x y z _ _ ih1 ih2 => exact ih1.trans ih2
    exact absurd (heq _ _ hrel) (by decide)
  have hover := h longRead [0, 10, 11] .empty _ hedges hplan _ mem_cons_self _
    (mem_cons_of_mem _ mem_cons_self) hrel ⟨0, by decide, by decide⟩
  -- the read of `a` and the write of `b`
  have hread : Accesses longRead "a" 1 := .inr ⟨_, rfl, rfl, rfl⟩
  have hwrite : Accesses longRead "b" 2 := .inl ⟨_, rfl, rfl, .inr rfl⟩
  rcases hover.2.2 with h | h
  · exact absurd (h 1 2 hread hwrite) (by decide)
  · exact absurd (h 2 1 hwrite hread) (by decide)

end Plow.Schedule
