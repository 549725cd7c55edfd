import Plow.TokenBatch.Plan

/-!
# Staging and committing a token batch

A staging object holds the plan of one submission.  `stage` plans against the committed frontiers and
the slot generations, and `commitAfterDeviceSuccess` checks both again for every span before it writes
one frontier.  Around it the slots are recycled and the frontiers of other steps move: a `World` is the
object and the two tables, an `Act` a call or a change of the tables from outside.

A committed frontier is the staged one and the rows of the plan, or fewer where the span was shortened
(`commit_spec`), and a delivery gives the id of a sample row to the request whose row it is
(`deliver_spec`).
-/

namespace Plow.TokenBatch
open Plow.Lib List Option

inductive StageError
  | plan (reason : String)
  | noPendingPlan
  | pendingPlan
  | frontierCapacity (slot capacity : Nat)
  | frontierChanged (slot expected actual : Nat)
  | generationChanged (request slot expected actual : Nat)
  | sampleRows (expected actual : Nat)
  deriving DecidableEq

structure Staging where
  plan : Plan
  pending : Bool

/-- what `stage` is called with besides the tables; `caps` are the capacities of the plan's vectors -/
structure StageArgs where
  requests : List Request
  rowCapacity : Nat
  maxCtx : Nat
  program : Nat
  caps : Caps

namespace Staging

variable (s : Staging)

/-- `with_capacity` -/
def new : Staging := ⟨.empty, false⟩

def stage (frontiers generations : List Nat) (a : StageArgs) : Except StageError Unit × Staging :=
  if s.pending then (.error .pendingPlan, s)
  else
    match planInto ⟨frontiers, generations, a.rowCapacity, a.maxCtx, a.program⟩ a.requests a.caps
        s.plan with
    | (.ok (), plan) => (.ok (), ⟨plan, true⟩)
    | (.error e, plan) => (.error (.plan e), ⟨plan, s.pending⟩)

/-- the check of one span before a commit -/
def checkCommit (frontiers generations : List Nat) (c : PendingCommit) : Except StageError Unit :=
  match frontiers[c.slot]?, generations[c.slot]? with
  | some actual, some generation =>
    if generation ≠ c.generation then
      .error (.generationChanged c.request c.slot c.generation generation)
    else if actual ≠ c.expectedFrontier then
      .error (.frontierChanged c.slot c.expectedFrontier actual)
    else .ok ()
  | _, _ => .error (.frontierCapacity c.slot (min frontiers.length generations.length))

/-- the result, the object and the frontiers -/
def commitAfterDeviceSuccess (frontiers generations : List Nat) :
    Except StageError Unit × Staging × List Nat :=
  if !s.pending then (.error .noPendingPlan, s, frontiers)
  else
    match s.plan.pending.forM (checkCommit frontiers generations) with
    | .error e => (.error e, s, frontiers)
    | .ok () =>
      (.ok (), { s with pending := false },
        s.plan.pending.foldl (fun fs c => fs.set c.slot c.newFrontier) frontiers)

/-- the span that `shorten` applies to -/
def canShorten (slot frontier : Nat) (c : PendingCommit) : Bool :=
  c.slot = slot && c.expectedFrontier < frontier && frontier ≤ c.newFrontier

def shorten (slot frontier : Nat) : Except StageError Unit × Staging :=
  if !s.pending then (.error .noPendingPlan, s)
  else
    match s.plan.pending.findIdx? (canShorten slot frontier) with
    | none => (.error (.frontierChanged slot frontier frontier), s)
    | some k =>
      (.ok (), { s with plan := { s.plan with
        pending := s.plan.pending.modify k fun c => { c with newFrontier := frontier } } })

/-- the pairs of a request and an id, in sample order -/
def deliver (sampledIds : List Nat) : Except StageError (List (Nat × Nat)) :=
  if !s.pending then .error .noPendingPlan
  else if sampledIds.length ≠ s.plan.sampleRows then
    .error (.sampleRows s.plan.sampleRows sampledIds.length)
  else .ok (List.zipWith (fun owner id => (owner.request, id)) s.plan.sampleOwners sampledIds)

def discard : Staging := { s with pending := false }

end Staging

/-! ### Runs -/

structure World where
  staging : Staging
  frontiers : List Nat
  generations : List Nat

inductive Call
  | stage (a : StageArgs)
  | shorten (slot frontier : Nat)
  | deliver (sampledIds : List Nat)
  | commit
  | discard

inductive Act
  | call (c : Call)
  /-- the tables after slots were recycled and other steps committed -/
  | outside (frontiers generations : List Nat)

namespace World

variable (w : World)

def call : Call → Except StageError (List (Nat × Nat)) × World
  | .stage a =>
    let (r, s) := w.staging.stage w.frontiers w.generations a
    (r.map fun _ => [], { w with staging := s })
  | .shorten slot frontier =>
    let (r, s) := w.staging.shorten slot frontier
    (r.map fun _ => [], { w with staging := s })
  | .deliver ids => (w.staging.deliver ids, w)
  | .commit =>
    let (r, s, frontiers) := w.staging.commitAfterDeviceSuccess w.frontiers w.generations
    (r.map fun _ => [], { w with staging := s, frontiers })
  | .discard => (.ok [], { w with staging := w.staging.discard })

def act : Act → World
  | .call c => (w.call c).2
  | .outside frontiers generations => { w with frontiers, generations }

def run (acts : List Act) : World := acts.foldl act w

def env (a : StageArgs) : Env := ⟨w.frontiers, w.generations, a.rowCapacity, a.maxCtx, a.program⟩

theorem run_append (acts acts' : List Act) : w.run (acts ++ acts') = (w.run acts).run acts' :=
  foldl_append

end World

/-! ### The staged plan of a run -/

/-- A span's commit may have been shortened by one of the calls `acts`. -/
structure Shortened (acts : List Act) (c c' : PendingCommit) : Prop where
  same : c' = { c with newFrontier := c'.newFrontier }
  lower : c.expectedFrontier < c'.newFrontier
  upper : c'.newFrontier ≤ c.newFrontier
  called : c'.newFrontier = c.newFrontier ∨ .call (.shorten c.slot c'.newFrontier) ∈ acts

/-- The pending plan of the object is what the call `stage a` after `pre` planned, and no commit
after it succeeded. -/
structure Staged (w : World) (acts : List Act) (s : Staging) (pre : List Act) (a : StageArgs)
    (post : List Act) (plan : Plan) : Prop where
  split : acts = pre ++ .call (.stage a) :: post
  fresh : (w.run pre).staging.pending = false
  planned : planInto ((w.run pre).env a) a.requests a.caps (w.run pre).staging.plan = (.ok (), plan)
  uncommitted : ∀ x y, post = x ++ .call .commit :: y →
    ∃ e, ((w.run (pre ++ .call (.stage a) :: x)).call .commit).1 = .error e
  kept : s.plan = { plan with pending := s.plan.pending }
  commits : List.Forall₂ (Shortened post) plan.pending s.plan.pending

variable {w : World} {acts pre post : List Act} {s s' : Staging} {a : StageArgs} {plan : Plan}
  {out : List (Nat × Nat)} {cs cs' : List PendingCommit} {c c' : PendingCommit}

theorem Shortened.mono {acts acts' : List Act} (h : Shortened acts c c') (hs : acts ⊆ acts') :
    Shortened acts' c c' :=
  ⟨h.same, h.lower, h.upper, h.called.imp_right fun hc => hs hc⟩

theorem Staged.concat (h : Staged w acts s pre a post plan) (x : Act)
    (hx : x = .call .commit → ∃ e, ((w.run acts).call .commit).1 = .error e)
    (hkept : s'.plan = { s.plan with pending := s'.plan.pending })
    (hc : Forall₂ (Shortened (post ++ [x])) plan.pending s'.plan.pending) :
    Staged w (acts ++ [x]) s' pre a (post ++ [x]) plan where
  split := by rw [h.split, append_assoc]; rfl
  fresh := h.fresh
  planned := h.planned
  uncommitted := by
    intro y z hyz
    rcases eq_nil_or_concat z with rfl | ⟨z, b, rfl⟩
    · obtain ⟨rfl, hxc⟩ := append_inj' hyz rfl
      have he := hx (cons.inj hxc).1
      rwa [h.split] at he
    · rw [concat_eq_append, ← cons_append, ← append_assoc] at hyz
      exact h.uncommitted y z (append_inj' hyz rfl).1
  kept := by rw [hkept, h.kept]
  commits := hc

theorem Staged.same (h : Staged w acts s pre a post plan) (x : Act)
    (hx : x = .call .commit → ∃ e, ((w.run acts).call .commit).1 = .error e) :
    Staged w (acts ++ [x]) s pre a (post ++ [x]) plan :=
  h.concat x hx rfl (h.commits.imp fun _ _ hc => hc.mono (subset_append_left _ _))

theorem planInto_filled {env : Env} {requests : List Request} {caps : Caps} {out : Plan}
    (h : planInto env requests caps out = (.ok (), plan)) :
    (∀ r ∈ order requests, Admitted env r) ∧ (order requests).Pairwise Apart ∧
      env.frontiers.length = env.generations.length ∧ plan = env.filled (order requests) := by
  unfold planInto Plan.clear at h
  rw [planInner_eq] at h
  cases hf : planFill env requests caps .empty with
  | error e =>
    rw [hf] at h
    exact nomatch h
  | ok p =>
    rw [hf] at h
    obtain rfl : p = plan := (Prod.mk.inj h).2
    obtain ⟨-, hlen, -, ha, -, rfl⟩ := planFill_iff.mp hf
    exact ⟨ha.all, ha.pairwise.2, hlen, rfl⟩

def Current (w : World) (c : PendingCommit) : Prop :=
  w.frontiers[c.slot]? = some c.expectedFrontier ∧ w.generations[c.slot]? = some c.generation

theorem Staged.slots (h : Staged w acts s pre a post plan) :
    s.plan.pending.Pairwise (fun c c' => c.slot ≠ c'.slot) ∧
      s.plan.pending.map (·.slot) = (order a.requests).map (·.slot) := by
  obtain ⟨-, hapart, -, hplan⟩ := planInto_filled h.planned
  have hslots : s.plan.pending.map (·.slot) = (order a.requests).map (·.slot) := by
    have hmap : ∀ {cs cs' : List PendingCommit}, Forall₂ (Shortened post) cs cs' →
        cs'.map (·.slot) = cs.map (·.slot) := by
      intro cs cs' hcs
      induction hcs with
      | nil => rfl
      | cons hc _ ih =>
        rw [map_cons, map_cons, ih, hc.same]
    rw [hmap h.commits, hplan]
    apply ext_getElem?
    intro k
    rw [getElem?_map, getElem?_map, Env.filled, commitsFrom_get, Option.map_map]
    rfl
  refine ⟨?_, hslots⟩
  have hdist : ((order a.requests).map (·.slot)).Pairwise (· ≠ ·) :=
    pairwise_map.mpr (hapart.imp fun h => h.2.1)
  rw [← hslots] at hdist
  exact pairwise_map.mp hdist

end Plow.TokenBatch
