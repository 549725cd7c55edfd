import Plow.Dp.Sessions
import Plow.Lib.Runs

/-!
# Threads that route

`World` is one `DpSet` with the threads that route on it.  A thread's steps are those of
`DpSet::route` (`Pc`): it reads the ranks one at a time, takes the session's entry, reads the counts
one at a time, chooses, reserves by compare-exchange, stores the session and picks the rank.  `Env`
is what a step sees from outside the table: the request, a rank's metrics, the clock, what the
prompt's tail and the prefix caches say, and whether a weak exchange fails.

Left out: the table of prompt tails (what it answers is part of `Env`) and the router's counters.
-/

namespace Plow.Dp
open Lib

/-- `session` is the id's hash, `promptRows` the prompt's length -/
structure Request (F : Type) where
  cfg : RouteCfg F
  session : Option UInt64 := none
  promptRows : Option Nat := none
  exclude : UInt32 := 0

structure Metric where
  up : Bool := true
  queued : UInt32 := 0
  active : UInt32 := 0
  capacity : UInt32 := 0
  kvMilli : UInt32 := 0

structure Env (F : Type) where
  request : Request F
  metric : Metric := {}
  now : UInt32 := 0
  /-- prompt rows found for each rank -/
  cached : List UInt32 := []
  rr : Nat := 0
  weak : Bool := false

/-- `DpRank::cand` for rank `i`, with the request's mask -/
def cand (m : Metric) (picked : UInt32) (exclude : UInt32) (i : Nat) : Cand where
  up := m.up && !exclude.toNat.testBit i
  pending := m.queued + picked
  active := m.active
  capacity := m.capacity
  kvMilli := m.kvMilli

def tailRows : Nat := 128

structure Route (F : Type) where
  req : Request F
  cands : List Cand := []
  session : Option (UInt64 × UInt32) := none
  stored : Option (Nat × UInt32) := none

/-- where a thread is in `route` -/
inductive Pc (F : Type) where
  | idle
  | cands (r : Route F)
  | get (r : Route F) (h : UInt64) (now : UInt32)
  | counts (r : Route F) (i : Nat)
  | choose (r : Route F)
  | reserve (r : Route F) (rank : Nat) (reason : Reason) (i : Nat) (best : Option (Nat × UInt32 × F))
  | claim (r : Route F) (rank : Nat) (reason : Reason) (i : Nat) (s : UInt32)
  | put (h : UInt64) (rank : Nat) (now : UInt32) (reserved : Bool) (reason : Reason)
  | pick (rank : Nat) (reason : Reason)

section
variable {F : Type} [NatCast F] [Add F] [Sub F] [Mul F] [Div F] [Max F] [LT F] [LE F]
  [DecidableLT F] [DecidableLE F]

namespace Route

def retry (r : Route F) : Bool := r.req.exclude ≠ 0

def sticky (r : Route F) (n : Nat) : Option Nat := (r.stored.map Prod.fst).filter (· < n)

def stickyOk (r : Route F) (n : Nat) : Bool :=
  match (r.sticky n).bind (r.cands[·]?) with
  | none => false
  | some c => c.up && decide (c.pending ≤ spill r.req.cfg c)

/-- the tail walk, the probes and `choose` -/
def choice (r : Route F) (n : Nat) (cached : List UInt32) (rr : Nat) : Option (Nat × Reason) :=
  let rows := r.req.promptRows.getD 0
  if r.req.cfg.usePrefix ∧ 1 < n ∧ !r.retry ∧ !r.stickyOk n ∧ r.req.promptRows.isSome then
    let cands := r.cands.mapIdx fun i c => { c with cached := cached.getD i 0 }
    let blockRows := if tailRows ≤ rows then UInt32.ofNat tailRows else 0
    Dp.choose cands (r.sticky n) rows blockRows r.req.cfg rr
  else Dp.choose r.cands (r.sticky n) rows 0 r.req.cfg rr

/-- `reserve`: some rank is up with its cache not near full -/
def roomy (r : Route F) : Bool := r.cands.any fun c => c.up && decide (c.kvMilli < kvFullMilli)

/-- `reserve` considers the rank -/
def eligible (r : Route F) (c : Cand) : Bool :=
  c.up && !(r.roomy && decide (kvFullMilli ≤ c.kvMilli))

/-- fewest sessions, ties to the lower load -/
def better (best : Option (Nat × UInt32 × F)) (i : Nat) (s : UInt32) (l : F) :
    Option (Nat × UInt32 × F) :=
  match best with
  | none => some (i, s, l)
  | some (b, bs, bl) => if s < bs ∨ (s = bs ∧ l < bl) then some (i, s, l) else some (b, bs, bl)

def told (r : Route F) (reason : Reason) : Reason := if r.retry then .retry else reason

def fresh (r : Route F) (rank : Nat) (now : UInt32) : Bool :=
  r.stored.any fun (s, t) => s = rank && decide (now - t < sessionRefreshS)

/-- the end of `route`: the session is stored, unless its entry is fresh -/
def settle (r : Route F) (rank : Nat) (reason : Reason) (reserved : Bool) : Pc F :=
  match r.session with
  | none => .pick rank (r.told reason)
  | some (h, now) =>
    if r.fresh rank now then .pick rank (r.told reason)
    else .put h rank now reserved (r.told reason)

end Route

/-- One step of a thread, with the ranks' picks as it sees them.  `pick` itself is `World.turn`'s. -/
def Pc.step (n : Nat) (picked : Counts) (t : Sessions) (e : Env F) : Pc F → Pc F × Sessions
  | .idle => (.cands { req := e.request }, t)
  | .cands r =>
    let i := r.cands.length
    if i < n then
      (.cands { r with cands := r.cands ++ [cand e.metric (picked i) r.req.exclude i] }, t)
    else
      match r.req.session with
      | none => (.choose r, t)
      | some h => (.get { r with session := some (h, e.now) } h e.now, t)
  | .get r h now =>
    let r := { r with stored := (t.get h now).2 }
    (if r.stickyOk n then .choose r else .counts r 0, (t.get h now).1)
  | .counts r i =>
    if i < n then
      (.counts { r with cands := r.cands.modify i ({ · with sessions := t.counts i }) } (i + 1), t)
    else (.choose r, t)
  | .choose r =>
    match r.choice n e.cached e.rr with
    | none => (.idle, t)
    | some (rank, reason) =>
      if r.session.isSome ∧ r.sticky n = none ∧ reason = .leastLoaded then
        (.reserve r rank reason 0 none, t)
      else (r.settle rank reason false, t)
  | .reserve r rank reason i best =>
    match r.cands[i]? with
    | some c =>
      if !r.eligible c then (.reserve r rank reason (i + 1) best, t)
      else (.reserve r rank reason (i + 1) (Route.better best i (t.counts i) (load c)), t)
    | none =>
      match best with
      | none => (r.settle rank reason false, t)
      | some (b, s, _) => (.claim r rank reason b s, t)
  | .claim r rank reason i s =>
    if t.counts i = s ∧ !e.weak then
      (r.settle i reason true, { t with counts := t.counts.add i })
    else (.reserve r rank reason 0 none, t)
  | .put h rank now reserved reason => (.pick rank reason, t.put h rank now reserved)
  | .pick _ _ => (.idle, t)

/-- `routed` are the ranks of the live `Routed` values -/
structure World (F : Type) where
  n : Nat
  sessions : Sessions
  picked : Counts
  routed : List Nat
  threads : List (Pc F)

inductive Event (F : Type) where
  /-- a thread takes its next step -/
  | turn (thread : Nat) (env : Env F)
  /-- a `Routed` is dropped -/
  | drop (routed : Nat)

namespace World

/-- `n` ranks and `k` threads -/
def new (n k : Nat) : World F := ⟨n, Sessions.new, fun _ => 0, [], List.replicate k .idle⟩

def turn (w : World F) (i : Nat) (e : Env F) : Option (World F) :=
  match w.threads[i]? with
  | none => none
  | some (.pick rank _) =>
    some { w with
      threads := w.threads.set i .idle
      picked := w.picked.add rank
      routed := w.routed ++ [rank] }
  | some pc =>
    let (pc, t) := pc.step w.n w.picked w.sessions e
    some { w with threads := w.threads.set i pc, sessions := t }

def step (w : World F) : Event F → Option (World F)
  | .turn i e => w.turn i e
  | .drop k =>
    match w.routed[k]? with
    | none => none
    | some rank => some { w with routed := w.routed.eraseIdx k, picked := w.picked.sub rank }

end World

end

end Plow.Dp

/-!
# The counts are the entries and the reservations

`World.Ok` is kept by every step: each rank's count is the number of its entries plus that of the
threads which hold a reservation for it, as 32-bit words, and each rank's pick count is the number
of its live `Routed` values.
-/

set_option linter.unusedSectionVars false

namespace Plow.Dp
open Lib

section
variable {F : Type} [NatCast F] [Add F] [Sub F] [Mul F] [Div F] [Max F] [LT F] [LE F]
  [DecidableLT F] [DecidableLE F]

def Pc.holds (r : Nat) : Pc F → Bool
  | .put _ rank _ reserved _ => reserved && rank = r
  | _ => false

/-- A route that may reserve: its session has no rank, so `settle` will store it. -/
structure Route.New (r : Route F) (n : Nat) : Prop where
  cands : r.cands.length = n
  session : r.session.isSome
  sticky : r.sticky n = none

/-- what a thread relies on -/
def Pc.Ok (n : Nat) : Pc F → Prop
  | .idle => True
  | .cands r => r.cands.length ≤ n
  | .get r _ _ => r.cands.length = n ∧ r.session.isSome
  | .counts r _ => r.cands.length = n
  | .choose r => r.cands.length = n
  | .reserve r rank _ _ best => r.New n ∧ rank < n ∧ ∀ b, best = some b → b.1 < n
  | .claim r rank _ i _ => r.New n ∧ rank < n ∧ i < n
  | .put _ rank _ _ _ => rank < n
  | .pick rank _ => rank < n

namespace Route
variable {r : Route F} {n rank i : Nat}

theorem settle_ok (r : Route F) (h : rank < n) (reason : Reason) (reserved : Bool) :
    (r.settle rank reason reserved).Ok n := by
  unfold settle
  split
  · exact h
  · split <;> exact h

theorem settle_holds (r : Route F) (rank : Nat) (reason : Reason) (k : Nat) :
    (r.settle rank reason false).holds k = false := by
  unfold settle
  split
  · rfl
  · split <;> rfl

theorem New.settle (h : r.New n) (hr : rank < n) (reason : Reason) :
    ∃ key now, r.session = some (key, now) ∧
      r.settle rank reason true = .put key rank now true (r.told reason) := by
  obtain ⟨⟨key, now⟩, hs⟩ := Option.isSome_iff_exists.mp h.session
  have hfresh : r.fresh rank now = false := by
    have hsticky : (r.stored.map Prod.fst).filter (· < n) = none := h.sticky
    unfold fresh
    match hst : r.stored with
    | none => rfl
    | some (s, t) =>
      rw [hst] at hsticky
      have hne : s ≠ rank := fun heq =>
        Option.filter_eq_none_iff.mp hsticky s rfl (decide_eq_true (heq ▸ hr))
      simp [hne]
  refine ⟨key, now, hs, ?_⟩
  unfold Route.settle
  rw [hs]
  simp only [hfresh]
  rfl

theorem better_cases {best : Option (Nat × UInt32 × F)} {s : UInt32} {l : F}
    {b : Nat × UInt32 × F} (h : better best i s l = some b) : b = (i, s, l) ∨ best = some b := by
  unfold better at h
  split at h
  · exact .inl (Option.some.inj h).symm
  · split at h
    · exact .inl (Option.some.inj h).symm
    · exact .inr h

theorem choice_spec {cached : List UInt32} {rr : Nat} {reason : Reason}
    (h : r.choice n cached rr = some (i, reason)) :
    i < r.cands.length ∧ ∃ c ∈ r.cands, c.up = true := by
  unfold choice at h
  simp only at h
  split at h
  · obtain ⟨hlt, c, hc, hup⟩ := choose_spec h
    rw [List.length_mapIdx] at hlt
    obtain ⟨j, hj, rfl⟩ := List.mem_mapIdx.mp hc
    exact ⟨hlt, _, List.getElem_mem hj, hup⟩
  · exact choose_spec h

end Route

/-! ### One step of a thread -/

section
variable {n : Nat} {picked : Counts} {t : Sessions} {pc : Pc F} {r : Route F}

theorem Pc.step_ok (hn : n ≤ maxDp) (ht : t.Ok) (hpc : pc.Ok n) (e : Env F) :
    (pc.step n picked t e).1.Ok n ∧ (pc.step n picked t e).2.Ok := by
  cases pc with
  | idle => exact ⟨Nat.zero_le _, ht⟩
  | cands r =>
    unfold Pc.step
    simp only
    split
    · next hlt =>
      refine ⟨?_, ht⟩
      show (r.cands ++ [_]).length ≤ n
      rw [List.length_append]
      exact hlt
    · next hge =>
      have hlen : r.cands.length = n := le_antisymm hpc (Nat.not_lt.mp hge)
      split
      · exact ⟨hlen, ht⟩
      · exact ⟨⟨hlen, rfl⟩, ht⟩
  | get r h now =>
    refine ⟨?_, (Sessions.get_spec ht h now).1⟩
    unfold Pc.step
    simp only
    split <;> exact hpc.1
  | counts r i =>
    unfold Pc.step
    simp only
    split
    · refine ⟨?_, ht⟩
      show (r.cands.modify i _).length = n
      rw [List.length_modify]
      exact hpc
    · exact ⟨hpc, ht⟩
  | choose r =>
    unfold Pc.step
    simp only
    split
    · exact ⟨trivial, ht⟩
    · next rank reason hc =>
      have hlt : rank < n := Nat.lt_of_lt_of_eq (Route.choice_spec hc).1 hpc
      split
      · next hnew => exact ⟨⟨⟨hpc, hnew.1, hnew.2.1⟩, hlt, nofun⟩, ht⟩
      · exact ⟨r.settle_ok hlt reason false, ht⟩
  | reserve r rank reason i best =>
    obtain ⟨hnew, hrank, hbest⟩ := hpc
    unfold Pc.step
    simp only
    split
    · next c hc =>
      have hi := hnew.cands ▸ (List.getElem?_eq_some_iff.mp hc).1
      split
      · exact ⟨⟨hnew, hrank, hbest⟩, ht⟩
      · refine ⟨⟨hnew, hrank, fun b hb => ?_⟩, ht⟩
        rcases Route.better_cases hb with rfl | hb
        · exact hi
        · exact hbest b hb
    · split
      · exact ⟨r.settle_ok hrank reason false, ht⟩
      · exact ⟨⟨hnew, hrank, hbest _ rfl⟩, ht⟩
  | claim r rank reason i s =>
    obtain ⟨hnew, hrank, hi⟩ := hpc
    unfold Pc.step
    simp only
    split
    · exact ⟨r.settle_ok hi reason true, ht⟩
    · exact ⟨⟨hnew, hrank, nofun⟩, ht⟩
  | put h rank now reserved reason =>
    exact ⟨hpc, (Sessions.put_spec ht h (lt_of_lt_of_le hpc hn) now reserved).1⟩
  | pick rank reason => exact ⟨trivial, ht⟩

theorem Pc.holds_ite {p : Prop} [Decidable p] {a b : Pc F} {k : Nat} (ha : a.holds k = false)
    (hb : b.holds k = false) : (if p then a else b).holds k = false := by
  split
  · exact ha
  · exact hb

/-- the steps that leave the table and hold nothing -/
theorem Pc.step_quiet (pc : Pc F) (e : Env F) :
    (∃ r h now, pc = .get r h now) ∨ (∃ r rank reason i s, pc = .claim r rank reason i s) ∨
    (∃ h rank now reserved reason, pc = .put h rank now reserved reason) ∨
    ((pc.step n picked t e).2 = t ∧ ∀ k, pc.holds k = false ∧
      (pc.step n picked t e).1.holds k = false) := by
  cases pc with
  | idle => exact .inr (.inr (.inr ⟨rfl, fun _ => ⟨rfl, rfl⟩⟩))
  | cands r =>
    refine .inr (.inr (.inr ?_))
    unfold Pc.step
    simp only
    split
    · exact ⟨rfl, fun _ => ⟨rfl, rfl⟩⟩
    · split <;> exact ⟨rfl, fun _ => ⟨rfl, rfl⟩⟩
  | get r h now => exact .inl ⟨r, h, now, rfl⟩
  | counts r i =>
    refine .inr (.inr (.inr ?_))
    unfold Pc.step
    simp only
    split <;> exact ⟨rfl, fun _ => ⟨rfl, rfl⟩⟩
  | choose r =>
    refine .inr (.inr (.inr ?_))
    unfold Pc.step
    simp only
    split
    · exact ⟨rfl, fun _ => ⟨rfl, rfl⟩⟩
    · split
      · exact ⟨rfl, fun _ => ⟨rfl, rfl⟩⟩
      · exact ⟨rfl, fun k => ⟨rfl, r.settle_holds _ _ k⟩⟩
  | reserve r rank reason i best =>
    refine .inr (.inr (.inr ?_))
    unfold Pc.step
    simp only
    split
    · split <;> exact ⟨rfl, fun _ => ⟨rfl, rfl⟩⟩
    · split
      · exact ⟨rfl, fun k => ⟨rfl, r.settle_holds _ _ k⟩⟩
      · exact ⟨rfl, fun _ => ⟨rfl, rfl⟩⟩
  | claim r rank reason i s => exact .inr (.inl ⟨r, rank, reason, i, s, rfl⟩)
  | put h rank now reserved reason =>
    exact .inr (.inr (.inl ⟨h, rank, now, reserved, reason, rfl⟩))
  | pick rank reason => exact .inr (.inr (.inr ⟨rfl, fun _ => ⟨rfl, rfl⟩⟩))

/-- What a step adds to a rank's count it adds to the entries or to what the thread holds. -/
theorem Pc.step_count (hn : n ≤ maxDp) (ht : t.Ok) (hpc : pc.Ok n) (e : Env F) (k : Nat) :
    (pc.step n picked t e).2.counts k + UInt32.ofNat (t.entries k) +
        UInt32.ofNat (pc.holds k).toNat =
      t.counts k + UInt32.ofNat ((pc.step n picked t e).2.entries k) +
        UInt32.ofNat ((pc.step n picked t e).1.holds k).toNat := by
  rcases pc.step_quiet (n := n) (t := t) e with ⟨r, h, now, rfl⟩ | ⟨r, rank, reason, i, s, rfl⟩ |
    ⟨h, rank, now, reserved, reason, rfl⟩ | ⟨hsame, hq⟩
  · have hcount := (Sessions.get_spec ht h now).2.1 k
    have hnew : ((Pc.get r h now).step n picked t e).1.holds k = false :=
      Pc.holds_ite rfl rfl
    rw [hnew]
    exact congrArg (· + UInt32.ofNat 0) hcount
  · obtain ⟨hnew, hrank, hi⟩ := hpc
    unfold Pc.step
    simp only
    split
    · obtain ⟨key, now, -, hput⟩ := hnew.settle hi reason
      rw [hput]
      show t.counts.add i k + UInt32.ofNat (t.entries k) + UInt32.ofNat 0 =
        t.counts k + UInt32.ofNat (t.entries k) + UInt32.ofNat (true && decide (i = k)).toNat
      have hone : (true && decide (i = k)).toNat = if i = k then 1 else 0 := by
        by_cases h : i = k <;> simp [h]
      rw [Counts.add_apply, hone]
      grind
    · rfl
  · have hcount := (Sessions.put_spec ht h (lt_of_lt_of_le hpc hn) now reserved).2 k
    have hone : ((Pc.put h rank now reserved reason : Pc F).holds k).toNat =
        if reserved = true ∧ rank = k then 1 else 0 := by
      show (reserved && decide (rank = k)).toNat = _
      cases reserved <;> by_cases h : rank = k <;> simp [h]
    rw [hone]
    exact hcount.trans (UInt32.add_zero _).symm
  · obtain ⟨h1, h2⟩ := hq k
    rw [hsame, h1, h2]

end

/-! ### Every step of the world -/

variable {i : Nat}

theorem countP_set {α : Type} {p : α → Bool} {l : List α} {a : α} (h : l[i]? = some a)
    (b : α) : (l.set i b).countP p + (p a).toNat = l.countP p + (p b).toNat := by
  have hone : ∀ x, (if p x = true then 1 else 0) = (p x).toNat := fun x => by cases p x <;> rfl
  induction l generalizing i with
  | nil => cases h
  | cons x l ih =>
    cases i with
    | zero =>
      cases h
      rw [List.set_cons_zero, List.countP_cons, List.countP_cons, hone, hone]
      omega
    | succ i =>
      have := ih h
      rw [List.set_cons_succ, List.countP_cons, List.countP_cons]
      omega

namespace World

/-- the reservations for a rank that no `put` has settled yet -/
def reserved (w : World F) (k : Nat) : Nat := w.threads.countP (·.holds k)

structure Ok (w : World F) : Prop where
  n_le : w.n ≤ maxDp
  table : w.sessions.Ok
  threads : ∀ pc ∈ w.threads, pc.Ok w.n
  count : ∀ k, w.sessions.counts k = UInt32.ofNat (w.sessions.entries k + w.reserved k)
  picks : ∀ k, w.picked k = UInt32.ofNat (w.routed.count k)

variable {w w' : World F} {e : Event F}

theorem Ok.new {n : Nat} (hn : n ≤ maxDp) (k : Nat) : Ok (World.new n k : World F) where
  n_le := hn
  table _ := Shard.Ok.nil _
  threads pc hpc := by
    rw [List.eq_of_mem_replicate hpc]
    exact trivial
  count r := by
    have h1 : (World.new n k : World F).sessions.entries r = 0 := Finset.sum_const_zero
    have h2 : (World.new n k : World F).reserved r = 0 := by
      refine List.countP_eq_zero.mpr fun pc hpc => ?_
      rw [List.eq_of_mem_replicate hpc]
      exact Bool.false_ne_true
    rw [h1, h2]
    rfl
  picks _ := rfl

theorem Ok.thread (h : w.Ok) {pc pc' : Pc F} (hpc : w.threads[i]? = some pc)
    {t : Sessions} (ht : t.Ok) (hok : pc'.Ok w.n)
    (hcount : ∀ k, t.counts k + UInt32.ofNat (w.sessions.entries k) + UInt32.ofNat (pc.holds k).toNat =
      w.sessions.counts k + UInt32.ofNat (t.entries k) + UInt32.ofNat (pc'.holds k).toNat) :
    Ok { w with threads := w.threads.set i pc', sessions := t } where
  n_le := h.n_le
  table := ht
  threads q hq := by
    rcases List.mem_or_eq_of_mem_set hq with hq | rfl
    · exact h.threads q hq
    · exact hok
  count k := by
    have h1 := h.count k
    have h2 := hcount k
    have h3 := congrArg UInt32.ofNat (countP_set (p := (·.holds k)) hpc pc')
    rw [UInt32.ofNat_add, UInt32.ofNat_add] at h3
    rw [UInt32.ofNat_add] at h1 ⊢
    unfold reserved at *
    grind
  picks := h.picks

theorem Ok.turn (h : w.Ok) {e : Env F} (hs : w.turn i e = some w') : w'.Ok := by
  unfold World.turn at hs
  split at hs
  · cases hs
  · next rank reason hpc =>
    cases hs
    have hidle : Ok { w with threads := w.threads.set i .idle, sessions := w.sessions } :=
      h.thread hpc h.table trivial fun k => rfl
    refine ⟨hidle.n_le, hidle.table, hidle.threads, hidle.count, fun k => ?_⟩
    show w.picked.add rank k = UInt32.ofNat ((w.routed ++ [rank]).count k)
    rw [Counts.add_apply, h.picks k, ← UInt32.ofNat_add, List.count_append, List.count_singleton]
    simp only [beq_iff_eq]
  · next pc _ hpc =>
    cases hs
    have hok := h.threads pc (List.mem_of_getElem? hpc)
    obtain ⟨h1, h2⟩ : (pc.step w.n w.picked w.sessions e).1.Ok w.n ∧ _ :=
      Pc.step_ok h.n_le h.table hok e
    exact h.thread hpc h2 h1 (Pc.step_count h.n_le h.table hok e)

theorem Ok.step (h : w.Ok) (hs : w.step e = some w') : w'.Ok := by
  cases e with
  | turn i e => exact h.turn hs
  | drop k =>
    unfold World.step at hs
    simp only at hs
    split at hs
    · cases hs
    · next rank hr =>
      cases hs
      refine ⟨h.n_le, h.table, h.threads, h.count, fun j => ?_⟩
      have h1 := w.picked.sub_apply rank j
      obtain ⟨hk, rfl⟩ := List.getElem?_eq_some_iff.mp hr
      have h2 := (List.getElem_cons_eraseIdx_perm hk).count_eq j
      rw [List.count_cons] at h2
      have h3 := h.picks j
      rw [← h2, UInt32.ofNat_add] at h3
      simp only [beq_iff_eq] at h3
      show w.picked.sub _ j = UInt32.ofNat ((w.routed.eraseIdx k).count j)
      grind

theorem step_threads (hs : w.step e = some w') : w'.threads.length = w.threads.length := by
  cases e with
  | turn i e =>
    change w.turn i e = some w' at hs
    unfold World.turn at hs
    split at hs
    · cases hs
    · cases hs
      exact List.length_set
    · cases hs
      exact List.length_set
  | drop k =>
    unfold World.step at hs
    simp only at hs
    split at hs
    · cases hs
    · cases hs
      rfl

theorem entries_le (h : w.Ok) (k : Nat) : w.sessions.entries k ≤ shardCount * shardCap := by
  unfold Sessions.entries
  refine (Finset.sum_le_card_nsmul _ _ shardCap fun j _ => ?_).trans ?_
  · exact le_trans List.countP_le_length (h.table j).cap
  · rw [Finset.card_range]
    exact le_refl _

theorem Ok.count_toNat (h : w.Ok) (hk : w.threads.length + shardCount * shardCap < 2 ^ 32)
    (k : Nat) : (w.sessions.counts k).toNat = w.sessions.entries k + w.reserved k := by
  have h1 := entries_le h k
  have h2 : w.reserved k ≤ w.threads.length := List.countP_le_length
  rw [h.count k, UInt32.toNat_ofNat']
  exact Nat.mod_eq_of_lt (by omega)

end World

end

end Plow.Dp
