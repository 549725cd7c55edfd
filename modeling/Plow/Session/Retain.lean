import Plow.Lib.SwapRemove

/-!
# Row keys

A row of a sequence's cache is determined by the token embedded there and by the overlay rows that
replace the embedding (`Row`); `Row.key` is its content key.  `rowKeys` computes the keys of a
prompt from the token ids and the overlays, `rowContents` the rows themselves, and
`rowKeys_eq` says that the keys are those of the rows.  A float is its 32 bits.
-/

namespace Plow.Session

open List

def halves (m : Nat) : UInt64 := UInt64.ofNat m ^^^ UInt64.ofNat (m / 2 ^ 64)

def mix (x : UInt64) : UInt64 := halves ((x ^^^ 0x9e3779b97f4a7c15).toNat * 0xbf58476d1ce4e5b9)

def fold (h w : UInt64) : UInt64 := halves ((h ^^^ w).toNat * 0x94d049bb133111eb)

def tokenKey (id : UInt32) : UInt64 := mix (id.toUInt64 ||| ((1 : UInt64) <<< 40))

def rowHashLoop : UInt64 → List UInt32 → UInt64
  | h, a :: b :: rest => rowHashLoop (fold h (a.toUInt64 ||| (b.toUInt64 <<< 32))) rest
  | h, [last] => fold h last.toUInt64
  | h, [] => h

def rowHash (row : List UInt32) : UInt64 := mix (rowHashLoop (UInt64.ofNat row.length) row)

/-- the rows of an overlay, `hidden` words each -/
def overlayRows (rows hidden : Nat) (overlay : List UInt32) : List (List UInt32) :=
  (List.range rows).map fun r => (overlay.drop (r * hidden)).take hidden

section
variable {α β : Type}

/-- one overlay; `none` is the panic of `chunks_exact(0)` -/
def overlayOne (put : α → List UInt32 → α) (pos : List UInt32) (keys : List α)
    (overlay : List UInt32) : Option (List α) :=
  let rows := pos.length
  if rows = 0 ∨ overlay.length % rows ≠ 0 then some keys
  else
    let hidden := overlay.length / rows
    if hidden = 0 then none
    else some ((pos.zip (overlayRows rows hidden overlay)).foldl
      (fun keys pr => keys.modify pr.1.toNat (put · pr.2)) keys)

def overlaid (put : α → List UInt32 → α) (pos : List UInt32) (overlays : List (List UInt32))
    (keys : List α) : Option (List α) :=
  overlays.foldlM (overlayOne put pos) keys

/-- a function that commutes with one overlay row commutes with the loops -/
theorem overlaid_map (put : α → List UInt32 → α) (put' : β → List UInt32 → β) (f : α → β)
    (h : ∀ a row, f (put a row) = put' (f a) row) (pos : List UInt32)
    (overlays : List (List UInt32)) (keys : List α) :
    overlaid put' pos overlays (keys.map f) = (overlaid put pos overlays keys).map (map f) := by
  have hrows : ∀ (prs : List (UInt32 × List UInt32)) (keys : List α),
      prs.foldl (fun keys pr => keys.modify pr.1.toNat (put' · pr.2)) (keys.map f) =
        (prs.foldl (fun keys pr => keys.modify pr.1.toNat (put · pr.2)) keys).map f := by
    intro prs
    induction prs with
    | nil => exact fun _ => rfl
    | cons pr prs ih =>
      intro keys
      rw [foldl_cons, foldl_cons, ← ih]
      congr 1
      apply ext_getElem?
      intro i
      rw [getElem?_modify, getElem?_map, getElem?_map, getElem?_modify]
      by_cases hi : pr.1.toNat = i
      · cases keys[i]? <;> simp [hi, h]
      · cases keys[i]? <;> simp [hi]
  have hone : ∀ (overlay : List UInt32) (keys : List α), overlayOne put' pos (keys.map f) overlay =
      (overlayOne put pos keys overlay).map (map f) := by
    intro overlay keys
    unfold overlayOne
    simp only
    split
    · rfl
    · split
      · rfl
      · rw [hrows]
        rfl
  unfold overlaid
  induction overlays generalizing keys with
  | nil => rfl
  | cons overlay overlays ih =>
    rw [foldlM_cons, foldlM_cons, hone]
    cases overlayOne put pos keys overlay with
    | none => rfl
    | some keys' => exact ih keys'

end

def rowKeys (promptIds pos : List UInt32) (overlays : List (List UInt32)) : Option (List UInt64) :=
  overlaid (fun key row => fold key (rowHash row)) pos overlays (promptIds.map tokenKey)

/-- What a cache row is computed from. -/
structure Row where
  id : UInt32
  overlays : List (List UInt32)
  deriving DecidableEq

namespace Row

def token (id : UInt32) : Row := ⟨id, []⟩

def key (r : Row) : UInt64 := r.overlays.foldl (fun key row => fold key (rowHash row)) (tokenKey r.id)

end Row

def rowContents (promptIds pos : List UInt32) (overlays : List (List UInt32)) : Option (List Row) :=
  overlaid (fun r row => { r with overlays := r.overlays ++ [row] }) pos overlays
    (promptIds.map Row.token)

theorem rowKeys_eq (promptIds pos : List UInt32) (overlays : List (List UInt32)) :
    rowKeys promptIds pos overlays = (rowContents promptIds pos overlays).map (map Row.key) := by
  unfold rowContents
  rw [← overlaid_map _ (fun key row => fold key (rowHash row)) Row.key, map_map]
  · rfl
  · intro r row
    unfold Row.key
    rw [foldl_append]
    rfl

end Plow.Session

/-!
# Retained sequences

A finished session request leaves its cache rows in its slot; the dispatcher's table remembers them
until the session's next request resumes there.  `Seat` is a live request's seat, `Retired` what it
leaves behind and `RetainTable` the table.  Times are natural numbers and a difference of times is
cut off at zero.

Left out: the record of evicted sessions and the counters, which only reports read, and the seats
whose rows the prefix cache keeps.
-/

namespace Plow.Session
open Lib
variable {σ : Type} [DecidableEq σ]

def slotsOf (slot : Nat) (pair : Bool) : List Nat := if pair then [slot, slot + 1] else [slot]

structure Retired (σ : Type) where
  session : σ
  slot : Nat
  pair : Bool
  keys : List UInt64

/-! ### Seats -/

structure Seat (σ : Type) where
  session : σ
  keys : List UInt64
  slot : Nat
  pair : Bool
  speech : Bool
  promptRows : Nat
  /-- rows known written: 0 until the first token -/
  valid : Nat
  last : Option UInt32

namespace Seat

def new (session : σ) (keys : List UInt64) (slot : Nat) (pair speech : Bool) : Seat σ :=
  ⟨session, keys, slot, pair, speech, keys.length, 0, none⟩

/-- A token was produced: every row before it is in the cache. -/
def onToken (s : Seat σ) (token : UInt32) : Seat σ :=
  if s.speech then { s with valid := s.promptRows - 1 }
  else
    let keys := match s.last with
      | some prev => s.keys ++ [tokenKey prev]
      | none => s.keys
    { s with last := some token, keys := keys, valid := keys.length }

def drop (s : Seat σ) : List (Retired σ) :=
  if s.valid = 0 then [] else [⟨s.session, s.slot, s.pair, s.keys.take s.valid⟩]

end Seat

/-! ### The table -/

structure Entry (σ : Type) where
  session : σ
  slot : Nat
  pair : Bool
  keys : List UInt64
  used : Nat

def Entry.holds (e : Entry σ) (slot : Nat) : Bool := slot = e.slot || (e.pair && slot = e.slot + 1)

structure Resume where
  slot : Nat
  rows : Nat
  deriving DecidableEq, Repr

structure RetainTable (σ : Type) where
  entries : List (Entry σ)
  ttl : Nat
  max : Nat

namespace RetainTable

def new (ttl max : Nat) : RetainTable σ := ⟨[], ttl, max⟩

def enabled (t : RetainTable σ) : Bool := 0 < t.ttl

def holds (t : RetainTable σ) (slot : Nat) : Bool := t.entries.any (·.holds slot)

def clear (t : RetainTable σ) : RetainTable σ := { t with entries := [] }

/-- the loop of `sweep`; the first argument bounds the turns left -/
def sweepLoop (ttl now : Nat) : Nat → List (Entry σ) → Nat → List (Entry σ)
  | 0, entries, _ => entries
  | fuel + 1, entries, i =>
    match entries[i]? with
    | none => entries
    | some e =>
      if now - e.used ≥ ttl then sweepLoop ttl now fuel (swapRemove entries i) i
      else sweepLoop ttl now fuel entries (i + 1)

def sweep (t : RetainTable σ) (now : Nat) : RetainTable σ :=
  { t with entries := sweepLoop t.ttl now t.entries.length t.entries 0 }

/-- `min_by_key` over the candidates, the first of the least -/
def leastUsed : List (Entry σ × Nat) → Option (Entry σ × Nat)
  | [] => none
  | c :: cs =>
    match leastUsed cs with
    | none => some c
    | some d => if d.1.used < c.1.used then some d else some c

/-- evict the least recently used entry with a slot below `limit`, other than `keep`'s -/
def evictLru (t : RetainTable σ) (limit : Nat) (keep : Option σ) : RetainTable σ × Bool :=
  let candidates := t.entries.zipIdx.filter fun (e, _) => e.slot < limit ∧ some e.session ≠ keep
  match leastUsed candidates with
  | some (_, i) => ({ t with entries := swapRemove t.entries i }, true)
  | none => (t, false)

/-- `usize::MAX` -/
def usizeMax : Nat := 2 ^ 64 - 1

/-- the loop of `insert` -/
def evictOver : Nat → RetainTable σ → RetainTable σ
  | 0, t => t
  | fuel + 1, t =>
    if 0 < t.max ∧ t.max < t.entries.length then evictOver fuel (t.evictLru usizeMax none).1 else t

def others (t : RetainTable σ) (r : Retired σ) : List (Entry σ) :=
  t.entries.filter fun e =>
    e.session ≠ r.session ∧ !e.holds r.slot ∧ !(r.pair && e.holds (r.slot + 1))

/-- retain a finished request's rows -/
def insert (t : RetainTable σ) (r : Retired σ) (now : Nat) : RetainTable σ :=
  if !t.enabled || r.keys.isEmpty then t
  else
    let entries := t.others r ++ [⟨r.session, r.slot, r.pair, r.keys, now⟩]
    evictOver entries.length { t with entries := entries }

def sharedRows : List UInt64 → List UInt64 → Nat
  | a :: as, b :: bs => if a = b then sharedRows as bs + 1 else 0
  | _, _ => 0

/-- where a session's request resumes -/
def lookup (t : RetainTable σ) (session : σ) (keys : List UInt64) (pair : Bool) (limit now : Nat) :
    Option Resume :=
  match t.entries.find? fun e => e.session = session with
  | none => none
  | some e =>
    if now - e.used ≥ t.ttl ∨ e.pair ≠ pair ∨ e.slot + pair.toNat ≥ limit then none
    else
      let rows := min (sharedRows e.keys keys) (keys.length - 1)
      if 0 < rows then some ⟨e.slot, rows⟩ else none

def forget (t : RetainTable σ) (session : σ) : RetainTable σ :=
  { t with entries := t.entries.filter fun e => e.session ≠ session }

end RetainTable

/-- `Retention::collect` -/
def collect (t : RetainTable σ) (inbox : List (Retired σ)) (now : Nat) :
    RetainTable σ × List (Retired σ) :=
  if !t.enabled then (t, inbox)
  else ((inbox.foldl (fun t r => t.insert r now) t).sweep now, [])

/-! ### What the operations keep -/

def Entry.slots (e : Entry σ) : List Nat := slotsOf e.slot e.pair
def Retired.slots (r : Retired σ) : List Nat := slotsOf r.slot r.pair
def Seat.slots (s : Seat σ) : List Nat := slotsOf s.slot s.pair

variable {t : RetainTable σ} {e : Entry σ} {slot i : Nat} {now limit : Nat} {keep : Option σ}

theorem Entry.holds_iff : e.holds slot = true ↔ slot ∈ e.slots := by
  unfold Entry.holds Entry.slots slotsOf
  cases e.pair <;> simp

theorem sweepLoop_subperm (ttl now fuel : Nat) (entries : List (Entry σ)) (i : Nat) :
    (RetainTable.sweepLoop ttl now fuel entries i).Subperm entries := by
  induction fuel generalizing entries i with
  | zero => exact List.Subperm.refl _
  | succ fuel ih =>
    unfold RetainTable.sweepLoop
    split
    · exact List.Subperm.refl _
    · split
      · exact (ih _ _).trans (swapRemove_subperm _ _)
      · exact ih _ _

theorem sweep_subperm : (t.sweep now).entries.Subperm t.entries := sweepLoop_subperm ..

theorem evictLru_subperm : (t.evictLru limit keep).1.entries.Subperm t.entries := by
  unfold RetainTable.evictLru
  simp only
  split
  · exact swapRemove_subperm _ _
  · exact List.Subperm.refl _

theorem evictOver_subperm (fuel : Nat) (t : RetainTable σ) :
    (RetainTable.evictOver fuel t).entries.Subperm t.entries := by
  induction fuel generalizing t with
  | zero => exact List.Subperm.refl _
  | succ fuel ih =>
    unfold RetainTable.evictOver
    split
    · exact (ih _).trans evictLru_subperm
    · exact List.Subperm.refl _

def Retired.entry (r : Retired σ) (now : Nat) : Entry σ := ⟨r.session, r.slot, r.pair, r.keys, now⟩

theorem insert_cases (r : Retired σ) (now : Nat) : t.insert r now = t ∨
    (t.insert r now).entries.Subperm (t.others r ++ [r.entry now]) := by
  unfold RetainTable.insert
  split
  · exact Or.inl rfl
  · exact Or.inr (evictOver_subperm _ _)

theorem forget_sublist (session : σ) : (t.forget session).entries.Sublist t.entries :=
  List.filter_sublist

theorem others_session {r : Retired σ} (h : e ∈ t.others r) :
    e ∈ t.entries ∧ e.session ≠ r.session := by
  obtain ⟨h1, h2⟩ := List.mem_filter.mp h
  exact ⟨h1, (of_decide_eq_true h2).1⟩

theorem sharedRows_le (as bs : List UInt64) : RetainTable.sharedRows as bs ≤ as.length ∧
    RetainTable.sharedRows as bs ≤ bs.length := by
  induction as, bs using RetainTable.sharedRows.induct with
  | case1 a as bs ih =>
    rw [RetainTable.sharedRows, if_pos rfl]
    exact ⟨Nat.succ_le_succ ih.1, Nat.succ_le_succ ih.2⟩
  | case2 a as b bs hne =>
    rw [RetainTable.sharedRows, if_neg hne]
    exact ⟨Nat.zero_le _, Nat.zero_le _⟩
  | case3 as bs h =>
    rw [RetainTable.sharedRows]
    · exact ⟨Nat.zero_le _, Nat.zero_le _⟩
    · exact h

theorem sharedRows_eq (as bs : List UInt64) (i : Nat) (hi : i < RetainTable.sharedRows as bs) :
    as[i]? = bs[i]? := by
  induction as, bs using RetainTable.sharedRows.induct generalizing i with
  | case1 a as bs ih =>
    rw [RetainTable.sharedRows, if_pos rfl] at hi
    cases i with
    | zero => rfl
    | succ i => exact ih i (Nat.lt_of_succ_lt_succ hi)
  | case2 a as b bs hne =>
    rw [RetainTable.sharedRows, if_neg hne] at hi
    exact absurd hi (Nat.not_lt_zero i)
  | case3 as bs h =>
    rw [RetainTable.sharedRows] at hi
    · exact absurd hi (Nat.not_lt_zero i)
    · exact h

/-- What a resumed request gets: its session's entry, live, of the same shape and below the limit,
which begins with as many of its keys, and not all of them. -/
theorem lookup_some {session : σ} {keys : List UInt64} {pair : Bool} {r : Resume}
    (h : t.lookup session keys pair limit now = some r) :
    ∃ e ∈ t.entries, e.session = session ∧ e.slot = r.slot ∧ now - e.used < t.ttl ∧ e.pair = pair ∧
      r.slot + pair.toNat < limit ∧ 0 < r.rows ∧ r.rows < keys.length ∧
      r.rows ≤ e.keys.length ∧ ∀ i < r.rows, e.keys[i]? = keys[i]? := by
  unfold RetainTable.lookup at h
  split at h
  · cases h
  · next e hfind =>
    split at h
    · cases h
    · next hlive =>
      simp only at h
      split at h
      · next hpos =>
        cases h
        have hmem := List.mem_of_find?_eq_some hfind
        have hses := List.find?_some hfind
        have hses := of_decide_eq_true hses
        obtain ⟨h1, h2⟩ := not_or.mp hlive
        obtain ⟨h2, h3⟩ := not_or.mp h2
        have hle := sharedRows_le e.keys keys
        refine ⟨e, hmem, hses, rfl, Nat.not_le.mp h1, not_not.mp h2, Nat.not_le.mp h3, hpos, ?_, ?_,
          fun i hi => sharedRows_eq _ _ i (Nat.lt_of_lt_of_le hi (Nat.min_le_left _ _))⟩
        · show min (RetainTable.sharedRows e.keys keys) (keys.length - 1) < keys.length
          have := Nat.lt_of_lt_of_le hpos (Nat.min_le_right _ _)
          omega
        · exact Nat.le_trans (Nat.min_le_left _ _) hle.1
      · cases h

end Plow.Session
