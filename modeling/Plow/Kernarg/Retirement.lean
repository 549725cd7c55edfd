import Plow.Lib.Results

/-!
# Kernarg retirement

The kernel arguments of a dispatch live in a ring beside the packet queue.  Three counters say how
many packets were issued, published and retired.  A batch is reserved, published as a whole, and
retired by a zero completion signal; `published = u64Max` is the poison of a cancelled batch.

A call is one step: the queue has a single host producer.  `preflight` calls back into the host to
read the signal, so it is also given as its two halves `observe` and `grant`.
-/

namespace Plow.Kernarg

def u64Max : Nat := 2 ^ 64 - 1

inductive Error
  | pending
  | capacity
  | exhausted
  | stale
  | incomplete (signal : Int)
  deriving DecidableEq, Repr

/-- an optimistic ticket: the counters it was taken at -/
structure Admission where
  queue : Nat
  issued : Nat
  retired : Nat
  count : Nat
  capacity : Nat
  completed : Bool
  deriving DecidableEq, Repr

/-- a ticket for the part of a reservation that was already emitted -/
structure Prefix where
  queue : Nat
  base : Nat
  next : Nat
  stop : Nat
  deriving DecidableEq, Repr

structure Retirement where
  queue : Nat
  issued : Nat
  published : Nat
  retired : Nat
  deriving DecidableEq, Repr

namespace Retirement

/-- `queue` is the next value of the process-wide counter -/
def new (queue : Nat) : Retirement := ⟨queue, 0, 0, 0⟩

def completionTicket (r : Retirement) : Except Error Nat :=
  if r.published ≠ r.issued then .error .pending else .ok r.published

/-- `issued - retired` does not underflow: see `Inv.retired_le` -/
def available (r : Retirement) (count capacity : Nat) : Except Error Bool :=
  if r.issued ≠ r.published then .error .pending
  else if count = 0 ∨ count > capacity then .error .capacity
  -- the chain implementation reserves the final two values
  else if ¬ (r.issued + count ≤ u64Max ∧ r.issued + count < u64Max - 1) then .error .exhausted
  else .ok (r.issued - r.retired ≤ capacity - count)

def validate (r : Retirement) (ticket : Admission) : Except Error Unit :=
  if ticket.queue ≠ r.queue then .error .stale
  else
    match r.completionTicket with
    | .error e => .error e
    | .ok issued =>
      if ticket.issued ≠ issued ∨ ticket.retired ≠ r.retired then .error .stale else .ok ()

/-- `preflight` up to the completion signal -/
def observe (r : Retirement) (count capacity : Nat) : Except Error Admission :=
  match r.completionTicket with
  | .error e => .error e
  | .ok issued =>
    match r.available count capacity with
    | .error e => .error e
    | .ok free => .ok ⟨r.queue, issued, r.retired, count, capacity, !free⟩

/-- `preflight` from the completion signal on -/
def grant (r : Retirement) (ticket : Admission) (signal : Int) : Except Error Admission :=
  if ticket.completed ∧ signal ≠ 0 then .error (.incomplete signal)
  else
    match r.validate ticket with
    | .error e => .error e
    | .ok () => .ok ticket

/-- The signal is read only when the ring has no room; reading it may run other calls. -/
def preflight (r : Retirement) (count capacity : Nat) (completion : Retirement → Retirement × Int) :
    Retirement × Except Error Admission :=
  match r.observe count capacity with
  | .error e => (r, .error e)
  | .ok ticket =>
    if ticket.completed then ((completion r).1, (completion r).1.grant ticket (completion r).2)
    else (r, r.grant ticket 0)

def reserve (r : Retirement) (count capacity : Nat) : Retirement × Except Error Nat :=
  match r.available count capacity with
  | .error e => (r, .error e)
  | .ok false => (r, .error .capacity)
  | .ok true => ({ r with issued := r.issued + count }, .ok r.issued)

def publish (r : Retirement) (stop : Nat) : Retirement × Except Error Unit :=
  if stop ≠ r.issued ∨ stop ≤ r.published then (r, .error .stale)
  else ({ r with published := stop }, .ok ())

def cancel (r : Retirement) : Retirement := { r with published := u64Max }

def complete (r : Retirement) (ticket : Nat) (signal : Int) : Retirement × Except Error Unit :=
  match r.completionTicket with
  | .error e => (r, .error e)
  | .ok published =>
    if ticket ≠ published then (r, .error .stale)
    else if signal ≠ 0 then
      (if signal < 0 then r.cancel else r, .error (.incomplete signal))
    else ({ r with retired := ticket }, .ok ())

def reserveAdmitted (r : Retirement) (ticket : Admission) : Retirement × Except Error Nat :=
  match r.validate ticket with
  | .error e => (r, .error e)
  | .ok () =>
    if ticket.completed then
      match r.complete ticket.issued 0 with
      | (r', .error e) => (r', .error e)
      | (r', .ok ()) => r'.reserve ticket.count ticket.capacity
    else r.reserve ticket.count ticket.capacity

def quiescent (r : Retirement) : Except Error Unit :=
  match r.completionTicket with
  | .error e => .error e
  | .ok ticket => if ticket ≠ r.retired then .error .pending else .ok ()

/-- `prefix` -/
def prefixTicket (r : Retirement) (base next stop : Nat) (immediate : Bool) : Except Error Prefix :=
  if ¬ immediate ∨ base > next ∨ next > stop ∨ base = stop ∨ r.published ≠ base ∨ r.issued ≠ stop then
    .error .pending
  else .ok ⟨r.queue, base, next, stop⟩

/-- a timed prefix never retires any part of the reservation -/
def completePrefix (r : Retirement) (ticket : Prefix) (next : Nat) (signal : Int) :
    Retirement × Except Error Unit :=
  if ticket.queue ≠ r.queue ∨ ticket.next ≠ next then (r, .error .stale)
  else
    match r.prefixTicket ticket.base next ticket.stop true with
    | .error e => (r, .error e)
    | .ok _ =>
      if signal ≠ 0 then (if signal < 0 then r.cancel else r, .error (.incomplete signal))
      else (r, .ok ())

/-! ### What the calls that succeed say -/

variable {r r' : Retirement} {count capacity base stop ticket next : Nat} {signal : Int}
  {t : Admission} {p : Prefix}

theorem completionTicket_ok {n : Nat} :
    r.completionTicket = .ok n ↔ r.published = r.issued ∧ n = r.issued := by
  unfold completionTicket
  split
  · next h => simp [h]
  · next h =>
    have e : r.published = r.issued := by
      by_contra hne
      exact h hne
    simp [e, eq_comm]

theorem available_ok {b : Bool} :
    r.available count capacity = .ok b ↔ r.published = r.issued ∧ 0 < count ∧ count ≤ capacity ∧
      r.issued + count < u64Max - 1 ∧ b = decide (r.issued - r.retired ≤ capacity - count) := by
  unfold available
  by_cases h1 : r.issued = r.published
  · by_cases h2 : count = 0 ∨ count > capacity
    · simp only [h1, ne_eq, not_true, if_false, h2, if_true]
      constructor
      · intro h
        cases h
      · rintro ⟨-, h3, h4, -⟩
        omega
    · by_cases h3 : r.issued + count ≤ u64Max ∧ r.issued + count < u64Max - 1
      · have h4 : 0 < count ∧ count ≤ capacity := by omega
        simp [← h1, h2, h3, h4, eq_comm]
      · have h4 : ¬ r.issued + count < u64Max - 1 := fun h => h3 ⟨by omega, h⟩
        rw [if_neg (by simpa using h1), if_neg h2, if_pos h3]
        simp [h4]
  · simp [h1, Ne.symm h1]

theorem validate_ok :
    r.validate t = .ok () ↔ t.queue = r.queue ∧ r.published = r.issued ∧ t.issued = r.issued ∧
      t.retired = r.retired := by
  unfold validate
  by_cases h1 : t.queue = r.queue
  · rw [if_neg (by simpa using h1)]
    split
    · next e he =>
      have : ¬ r.published = r.issued := fun h => by
        rw [completionTicket_ok.mpr ⟨h, rfl⟩] at he
        cases he
      simp [this]
    · next n hn =>
      obtain ⟨h2, rfl⟩ := completionTicket_ok.mp hn
      by_cases h3 : t.issued = r.issued ∧ t.retired = r.retired
      · simp [h1, h2, h3]
      · have h4 : t.issued ≠ r.issued ∨ t.retired ≠ r.retired := by
          by_contra hc
          exact h3 ⟨by_contra fun h => hc (Or.inl h), by_contra fun h => hc (Or.inr h)⟩
        rw [if_pos h4]
        simp [h1, h2, h3]
  · simp [h1]

theorem observe_ok (h : r.observe count capacity = .ok t) :
    t.queue = r.queue ∧ t.issued = r.issued ∧ t.retired = r.retired ∧ t.capacity = capacity := by
  unfold observe at h
  split at h
  · cases h
  · next n hn =>
    obtain ⟨-, rfl⟩ := completionTicket_ok.mp hn
    split at h
    · cases h
    · obtain rfl := Except.ok.inj h
      exact ⟨rfl, rfl, rfl, rfl⟩

theorem grant_ok {t' : Admission} (h : r.grant t signal = .ok t') :
    t' = t ∧ (t.completed → signal = 0) ∧ r.validate t = .ok () := by
  unfold grant at h
  split at h
  · cases h
  · next hc =>
    split at h
    · cases h
    · next hv => exact ⟨(Except.ok.inj h).symm, fun h' => by_contra fun hs => hc ⟨h', hs⟩, hv⟩

theorem reserve_cases (r : Retirement) (count capacity : Nat) :
    (∃ e, r.reserve count capacity = (r, .error e)) ∨
      (r.reserve count capacity = ({ r with issued := r.issued + count }, .ok r.issued) ∧
        r.published = r.issued ∧ 0 < count ∧ count ≤ capacity ∧ r.issued + count < u64Max - 1 ∧
        r.issued - r.retired ≤ capacity - count) := by
  unfold reserve
  split
  · exact .inl ⟨_, rfl⟩
  · exact .inl ⟨_, rfl⟩
  · next h =>
    obtain ⟨h1, h2, h3, h4, h5⟩ := available_ok.mp h
    exact .inr ⟨rfl, h1, h2, h3, h4, of_decide_eq_true h5.symm⟩

theorem publish_cases (r : Retirement) (stop : Nat) :
    r.publish stop = (r, .error .stale) ∨
      (r.publish stop = ({ r with published := stop }, .ok ()) ∧ stop = r.issued ∧
        r.published < stop) := by
  unfold publish
  split
  · exact .inl rfl
  · next h => exact .inr ⟨rfl, by omega, by omega⟩

theorem complete_cases (r : Retirement) (ticket : Nat) (signal : Int) :
    (∃ e, r.complete ticket signal = (r, .error e) ∧ (∀ s, e = .incomplete s → 0 ≤ s)) ∨
      (r.complete ticket signal = (r.cancel, .error (.incomplete signal)) ∧ signal < 0) ∨
      (r.complete ticket signal = ({ r with retired := ticket }, .ok ()) ∧ signal = 0 ∧
        r.published = r.issued ∧ ticket = r.issued) := by
  unfold complete
  split
  · next e he =>
    refine .inl ⟨e, rfl, fun s hs => ?_⟩
    unfold completionTicket at he
    split at he
    · cases he
      cases hs
    · cases he
  · next n hn =>
    obtain ⟨h1, rfl⟩ := completionTicket_ok.mp hn
    split
    · exact .inl ⟨_, rfl, fun s hs => by cases hs⟩
    · next ht =>
      split
      · next hs =>
        split
        · next hneg => exact .inr (.inl ⟨rfl, hneg⟩)
        · next hneg =>
          refine .inl ⟨_, rfl, fun s h => ?_⟩
          cases h
          omega
      · next hs => exact .inr (.inr ⟨rfl, by omega, h1, by omega⟩)

theorem prefixTicket_ok {imm : Bool} :
    r.prefixTicket base next stop imm = .ok p ↔ imm = true ∧ base ≤ next ∧ next ≤ stop ∧
      base ≠ stop ∧ r.published = base ∧ r.issued = stop ∧ p = ⟨r.queue, base, next, stop⟩ := by
  unfold prefixTicket
  by_cases h : ¬ imm ∨ base > next ∨ next > stop ∨ base = stop ∨ r.published ≠ base ∨ r.issued ≠ stop
  · rw [if_pos h]
    constructor
    · intro h'
      cases h'
    · rintro ⟨h1, h2, h3, h4, h5, h6, -⟩
      rcases h with h | h | h | h | h | h
      · exact absurd h1 h
      · omega
      · omega
      · exact absurd h h4
      · exact absurd h5 h
      · exact absurd h6 h
  · rw [if_neg h]
    simp only [not_or, not_not, Nat.not_lt, gt_iff_lt, ne_eq] at h
    obtain ⟨h1, h2, h3, h4, h5, h6⟩ := h
    simp [h1, h2, h3, h4, h5, h6, eq_comm]

theorem completePrefix_cases (r : Retirement) (p : Prefix) (next : Nat) (signal : Int) :
    (∃ e, r.completePrefix p next signal = (r, e) ∧ (∀ s, e = .error (.incomplete s) → 0 ≤ s)) ∨
      (r.completePrefix p next signal = (r.cancel, .error (.incomplete signal)) ∧ signal < 0) := by
  unfold completePrefix
  split
  · exact .inl ⟨_, rfl, fun s hs => by cases hs⟩
  · split
    · next e he =>
      refine .inl ⟨_, rfl, fun s hs => ?_⟩
      unfold prefixTicket at he
      split at he
      · cases he
        cases hs
      · cases he
    · split
      · split
        · next hneg => exact .inr ⟨rfl, hneg⟩
        · next hneg =>
          refine .inl ⟨_, rfl, fun s hs => ?_⟩
          cases hs
          omega
      · exact .inl ⟨_, rfl, fun s hs => by cases hs⟩

theorem reserveAdmitted_cases (r : Retirement) (t : Admission) :
    (∃ e, r.reserveAdmitted t = (r, .error e)) ∨
      (r.validate t = .ok () ∧ t.completed = true ∧
        r.reserveAdmitted t = { r with retired := r.issued }.reserve t.count t.capacity) ∨
      (r.validate t = .ok () ∧ t.completed = false ∧
        r.reserveAdmitted t = r.reserve t.count t.capacity) := by
  unfold reserveAdmitted
  split
  · exact .inl ⟨_, rfl⟩
  · next hv =>
    obtain ⟨-, h2, h3, -⟩ := validate_ok.mp hv
    cases hc : t.completed with
    | false => exact .inr (.inr ⟨hv, rfl, rfl⟩)
    | true =>
      refine .inr (.inl ⟨hv, rfl, ?_⟩)
      rcases r.complete_cases t.issued 0 with ⟨e, he, -⟩ | ⟨-, h⟩ | ⟨he, -⟩
      · unfold complete at he
        rw [completionTicket_ok.mpr ⟨h2, rfl⟩] at he
        simp [h3] at he
      · exact absurd h (by decide)
      · simp only [if_true, he]
        rw [h3]

end Retirement

end Plow.Kernarg
