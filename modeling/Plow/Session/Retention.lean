import Plow.Session.Retain
import Plow.Lib.Runs

/-!
# What a resumed request finds in its slot

`World` is a dispatcher's retention together with the caches it retains: the table, the inbox, the
live session requests and the row each slot holds at each position.  An `Event` is one step of the
dispatcher or of the engine.  A request takes a slot only when no other request, no retired request
and no entry of another session has it; the engine writes the prompt's rows in order, then one row
for every token but the last, and may write anything behind the rows that a seat counts.

The invariant `Ok` says that the slot lists of the entries, of the inbox and of the live requests
are disjoint and that each record's keys are those of the rows its slots hold.
-/

set_option linter.unusedSectionVars false

namespace Plow.Session
open Lib List
variable {σ : Type} [DecidableEq σ]

structure Prompt where
  ids : List UInt32
  pos : List UInt32
  overlays : List (List UInt32)

namespace Prompt

def keys (p : Prompt) : Option (List UInt64) := rowKeys p.ids p.pos p.overlays
def rows (p : Prompt) : Option (List Row) := rowContents p.ids p.pos p.overlays

end Prompt

/-- A live session request: its seat, its prompt's rows and how many of them are written. -/
structure Live (σ : Type) where
  seat : Seat σ
  prompt : List Row
  filled : Nat

def Live.kept (l : Live σ) : Nat := if l.seat.speech then l.prompt.length - 1 else l.prompt.length

def Live.counted (l : Live σ) : Nat :=
  if l.seat.speech then l.prompt.length - 1 else l.seat.keys.length

abbrev Cache := Nat → Nat → Option Row

def Cache.write (mem : Cache) (slots : List Nat) (row : Nat) (r : Row) : Cache :=
  fun slot i => if slot ∈ slots ∧ i = row then some r else mem slot i

structure World (σ : Type) where
  table : RetainTable σ
  inbox : List (Retired σ)
  live : List (Live σ)
  mem : Cache

inductive Event (σ : Type) where
  /-- a session request is seated, after `lookup` when it resumes rows -/
  | seat (session : σ) (prompt : Prompt) (slot : Nat) (pair speech : Bool) (resumed limit now : Nat)
  /-- the next prompt row of a live request is written -/
  | fill (live : Nat)
  /-- a row behind the counted ones is written -/
  | stray (live row : Nat) (content : Row)
  /-- a slot that nothing holds is written -/
  | foreign (slot row : Nat) (content : Row)
  /-- the row of the token before is written and a token produced -/
  | token (live : Nat) (id : UInt32)
  | drop (live : Nat)
  | collect (now : Nat)
  | sweep (now : Nat)
  | evict (limit : Nat) (keep : Option σ)
  | clear

def Event.rows : Event σ → List Row
  | .seat _ prompt .. => prompt.rows.getD []
  | .token _ id => [Row.token id]
  | _ => []

namespace World

def new (ttl max : Nat) : World σ := ⟨RetainTable.new ttl max, [], [], fun _ _ => none⟩

/-- nothing but an entry of `session` has the slot -/
def Offered (w : World σ) (session : σ) (slot : Nat) : Prop :=
  (∀ e ∈ w.table.entries, e.session ≠ session → slot ∉ e.slots) ∧
    (∀ r ∈ w.inbox, slot ∉ r.slots) ∧ ∀ l ∈ w.live, slot ∉ l.seat.slots

instance (w : World σ) (session : σ) (slot : Nat) : Decidable (w.Offered session slot) :=
  inferInstanceAs (Decidable (_ ∧ _ ∧ _))

def Free (w : World σ) (slot : Nat) : Prop :=
  (∀ e ∈ w.table.entries, slot ∉ e.slots) ∧
    (∀ r ∈ w.inbox, slot ∉ r.slots) ∧ ∀ l ∈ w.live, slot ∉ l.seat.slots

instance (w : World σ) (slot : Nat) : Decidable (w.Free slot) :=
  inferInstanceAs (Decidable (_ ∧ _ ∧ _))

def seat (w : World σ) (session : σ) (prompt : Prompt) (slot : Nat) (pair speech : Bool)
    (resumed limit now : Nat) : Option (World σ) :=
  match prompt.keys, prompt.rows with
  | some keys, some rows =>
    if w.table.enabled ∧ (∀ s ∈ slotsOf slot pair, w.Offered session s) ∧
        (resumed = 0 ∨ w.table.lookup session keys pair limit now = some ⟨slot, resumed⟩) then
      some { w with
        table := w.table.forget session
        live := w.live ++ [⟨Seat.new session keys slot pair speech, rows, resumed⟩] }
    else none
  | _, _ => none

def fill (w : World σ) (i : Nat) : Option (World σ) := do
  let l ← w.live[i]?
  let r ← l.prompt[l.filled]?
  if l.filled < l.kept then
    some { w with
      live := w.live.set i { l with filled := l.filled + 1 }
      mem := w.mem.write l.seat.slots l.filled r }
  else none

def stray (w : World σ) (i row : Nat) (r : Row) : Option (World σ) := do
  let l ← w.live[i]?
  if l.counted ≤ row then some { w with mem := w.mem.write l.seat.slots row r } else none

def decoded (mem : Cache) (s : Seat σ) : Cache :=
  match s.speech, s.last with
  | false, some prev => mem.write s.slots s.keys.length (Row.token prev)
  | _, _ => mem

def token (w : World σ) (i : Nat) (id : UInt32) : Option (World σ) := do
  let l ← w.live[i]?
  if l.filled = l.kept then
    some { w with
      live := w.live.set i { l with seat := l.seat.onToken id }
      mem := decoded w.mem l.seat }
  else none

def drop (w : World σ) (i : Nat) : Option (World σ) := do
  let l ← w.live[i]?
  some { w with live := w.live.eraseIdx i, inbox := w.inbox ++ l.seat.drop }

def step (w : World σ) : Event σ → Option (World σ)
  | .seat session prompt slot pair speech resumed limit now =>
    w.seat session prompt slot pair speech resumed limit now
  | .fill i => w.fill i
  | .stray i row r => w.stray i row r
  | .foreign slot row r =>
    if w.Free slot then some { w with mem := w.mem.write [slot] row r } else none
  | .token i id => w.token i id
  | .drop i => w.drop i
  | .collect now =>
    let (table, inbox) := collect w.table w.inbox now
    some { w with table := table, inbox := inbox }
  | .sweep now => some { w with table := w.table.sweep now }
  | .evict limit keep => some { w with table := (w.table.evictLru limit keep).1 }
  | .clear => some { w with table := w.table.clear }

end World

/-! ### The invariant -/

def Stored (S : Set Row) (mem : Cache) (slots : List Nat) (keys : List UInt64) : Prop :=
  ∀ slot ∈ slots, ∀ i k, keys[i]? = some k → ∃ r ∈ S, mem slot i = some r ∧ r.key = k

def records (entries : List (Entry σ)) (inbox : List (Retired σ)) : List (List Nat × List UInt64) :=
  entries.map (fun e => (e.slots, e.keys)) ++ inbox.map (fun r => (r.slots, r.keys))

structure LiveOk (S : Set Row) (mem : Cache) (l : Live σ) : Prop where
  prompt : ∀ r ∈ l.prompt, r ∈ S
  rows : l.seat.promptRows = l.prompt.length
  filled_le : l.filled ≤ l.kept
  filled : ∀ slot ∈ l.seat.slots, ∀ i < l.filled, mem slot i = l.prompt[i]?
  stored : Stored S mem l.seat.slots (l.seat.keys.take l.seat.valid)
  speech : l.seat.speech → l.seat.keys = l.prompt.map Row.key ∧ l.seat.valid ≤ l.filled
  fresh : l.seat.speech = false → l.seat.last = none →
    l.seat.keys = l.prompt.map Row.key ∧ l.seat.valid = 0
  started : l.seat.speech = false → ∀ prev, l.seat.last = some prev →
    l.seat.valid = l.seat.keys.length ∧ l.filled = l.kept ∧ l.kept ≤ l.seat.keys.length ∧
      Row.token prev ∈ S

structure World.Ok (S : Set Row) (w : World σ) : Prop where
  sessions : (w.table.entries.map Entry.session).Nodup
  disjoint : ((records w.table.entries w.inbox).map Prod.fst ++
    w.live.map (·.seat.slots)).Pairwise List.Disjoint
  stored : ∀ p ∈ records w.table.entries w.inbox, Stored S w.mem p.1 p.2
  live : ∀ l ∈ w.live, LiveOk S w.mem l

variable {S : Set Row} {mem mem' : Cache} {slots slots' : List Nat} {keys : List UInt64} {r : Row}
  {row slot i : Nat}

theorem Stored.congr (h : Stored S mem slots keys) (hm : ∀ slot ∈ slots, mem' slot = mem slot) :
    Stored S mem' slots keys := by
  intro slot hs i k hi
  rw [hm slot hs]
  exact h slot hs i k hi

theorem Stored.nil : Stored S mem slots [] := fun _ _ _ _ h => nomatch h

theorem Cache.write_other (h : slot ∉ slots) :
    mem.write slots row r slot i = mem slot i := if_neg fun hw => h hw.1

theorem Cache.write_row (h : i ≠ row) :
    mem.write slots row r slot i = mem slot i := if_neg fun hw => h hw.2

theorem Cache.write_self (h : slot ∈ slots) :
    mem.write slots row r slot row = some r := if_pos ⟨h, rfl⟩

theorem Stored.write (h : Stored S mem slots keys) (hr : keys.length ≤ row) :
    Stored S (mem.write slots' row r) slots keys := by
  intro slot hs i k hi
  have hlt := (List.getElem?_eq_some_iff.mp hi).1
  rw [Cache.write_row (ne_of_lt (lt_of_lt_of_le hlt hr))]
  exact h slot hs i k hi

theorem stored_rows {rows : List Row} (hS : ∀ r ∈ rows, r ∈ S)
    (h : ∀ slot ∈ slots, ∀ i < rows.length, mem slot i = rows[i]?) :
    Stored S mem slots (rows.map Row.key) := by
  intro slot hs i k hi
  rw [getElem?_map] at hi
  obtain ⟨r, hr, hk⟩ := Option.map_eq_some_iff.mp hi
  have hlt := (List.getElem?_eq_some_iff.mp hr).1
  exact ⟨r, hS r (mem_of_getElem? hr), (h slot hs i hlt).trans hr, hk⟩

/-! ### One live request -/

section live
variable {l : Live σ} {id prev : UInt32}

section

variable (h : LiveOk S mem l)
include h

theorem LiveOk.congr (hm : ∀ slot ∈ l.seat.slots, mem' slot = mem slot) :
    LiveOk S mem' l where
  prompt := h.prompt
  rows := h.rows
  filled_le := h.filled_le
  filled slot hs i hi := by
    rw [hm slot hs]
    exact h.filled slot hs i hi
  stored := h.stored.congr hm
  speech := h.speech
  fresh := h.fresh
  started := h.started

theorem LiveOk.filled_counted : l.filled ≤ l.counted := by
  have hle := h.filled_le
  unfold Live.counted
  unfold Live.kept at hle
  cases hsp : l.seat.speech with
  | true =>
    rw [hsp] at hle
    exact hle
  | false =>
    rw [hsp] at hle
    show l.filled ≤ l.seat.keys.length
    cases hlast : l.seat.last with
    | none =>
      rw [(h.fresh hsp hlast).1, length_map]
      exact hle
    | some prev =>
      obtain ⟨-, hfull, hkept, -⟩ := h.started hsp prev hlast
      exact hfull ▸ hkept

theorem LiveOk.valid_counted :
    (l.seat.keys.take l.seat.valid).length ≤ l.counted := by
  cases hsp : l.seat.speech with
  | true =>
    exact le_trans (length_take_le _ _)
      (le_trans (h.speech hsp).2 h.filled_counted)
  | false =>
    unfold Live.counted
    rw [hsp]
    exact length_take_le' _ _

theorem LiveOk.stray (hr : l.counted ≤ row) :
    LiveOk S (mem.write l.seat.slots row r) l where
  prompt := h.prompt
  rows := h.rows
  filled_le := h.filled_le
  filled slot hs i hi := by
    have := h.filled_counted
    rw [Cache.write_row (by omega)]
    exact h.filled slot hs i hi
  stored := h.stored.write (le_trans h.valid_counted hr)
  speech := h.speech
  fresh := h.fresh
  started := h.started

theorem LiveOk.fill (hr : l.prompt[l.filled]? = some r)
    (hlt : l.filled < l.kept) :
    LiveOk S (mem.write l.seat.slots l.filled r) { l with filled := l.filled + 1 } where
  prompt := h.prompt
  rows := h.rows
  filled_le := hlt
  filled slot hs i hi := by
    rcases lt_or_eq_of_le (Nat.le_of_lt_succ hi) with hi | rfl
    · rw [Cache.write_row (ne_of_lt hi)]
      exact h.filled slot hs i hi
    · rw [Cache.write_self hs]
      exact hr.symm
  stored := by
    refine h.stored.write (le_trans (length_take_le _ _) ?_)
    cases hsp : l.seat.speech with
    | true => exact (h.speech hsp).2
    | false =>
      cases hlast : l.seat.last with
      | none => exact (h.fresh hsp hlast).2 ▸ Nat.zero_le _
      | some prev => exact absurd (h.started hsp prev hlast).2.1 (ne_of_lt hlt)
  speech hsp := ⟨(h.speech hsp).1, Nat.le_succ_of_le (h.speech hsp).2⟩
  fresh := h.fresh
  started hsp prev hlast := absurd (h.started hsp prev hlast).2.1 (ne_of_lt hlt)

theorem LiveOk.filled_stored (hk : l.seat.keys = l.prompt.map Row.key) :
    Stored S mem l.seat.slots (l.seat.keys.take l.filled) := by
  rw [hk, ← map_take]
  refine stored_rows (fun r hr => h.prompt r (mem_of_mem_take hr)) fun slot hs i hi => ?_
  have hlt := lt_of_lt_of_le hi (length_take_le _ _)
  rw [getElem?_take, if_pos hlt]
  exact h.filled slot hs i hlt

theorem LiveOk.token_speech (hfull : l.filled = l.kept)
    (hsp : l.seat.speech = true) :
    LiveOk S mem { l with seat := { l.seat with valid := l.seat.promptRows - 1 } } := by
  obtain ⟨hk, -⟩ := h.speech hsp
  have hv : l.seat.promptRows - 1 = l.filled := by
    rw [hfull, h.rows, Live.kept, hsp]
    rfl
  rw [hv]
  exact ⟨h.prompt, h.rows, h.filled_le, h.filled, h.filled_stored hk,
    fun _ => ⟨hk, le_rfl⟩,
    fun hn => absurd (hsp.symm.trans hn) nofun, fun hn => absurd (hsp.symm.trans hn) nofun⟩

theorem LiveOk.token_first (hfull : l.filled = l.kept)
    (hsp : l.seat.speech = false) (hlast : l.seat.last = none)
    (hid : Row.token id ∈ S) :
    LiveOk S mem { l with seat := { l.seat with last := some id, valid := l.seat.keys.length } } := by
  obtain ⟨hk, -⟩ := h.fresh hsp hlast
  have hlen : l.kept = l.seat.keys.length := by
    rw [Live.kept, hsp, hk, length_map]
    rfl
  have hst := h.filled_stored hk
  rw [hfull, hlen] at hst
  refine ⟨h.prompt, h.rows, h.filled_le, h.filled, hst, fun hn => absurd (hsp.symm.trans hn) nofun,
    nofun, fun _ prev hp => ⟨rfl, hfull, le_of_eq hlen, ?_⟩⟩
  cases hp
  exact hid

/-- a later text token counts the row of the token before it -/
theorem LiveOk.token_next (hsp : l.seat.speech = false)
    (hlast : l.seat.last = some prev) (hid : Row.token id ∈ S) :
    LiveOk S (mem.write l.seat.slots l.seat.keys.length (Row.token prev)) { l with
      seat := { l.seat with
        last := some id
        keys := l.seat.keys ++ [tokenKey prev]
        valid := (l.seat.keys ++ [tokenKey prev]).length } } := by
  obtain ⟨hv, hfull, hle, hprev⟩ := h.started hsp prev hlast
  have hcount : l.counted = l.seat.keys.length := by
    rw [Live.counted, hsp]
    rfl
  have hs := h.stray (r := Row.token prev) (le_of_eq hcount)
  refine ⟨h.prompt, h.rows, h.filled_le, hs.filled, ?_, fun hn => absurd (hsp.symm.trans hn) nofun,
    nofun, fun _ p hp => ⟨rfl, hfull, ?_, ?_⟩⟩
  · show Stored S _ _ ((l.seat.keys ++ [tokenKey prev]).take (l.seat.keys ++ [tokenKey prev]).length)
    rw [take_length]
    intro slot hslot i k hi
    rcases lt_or_ge i l.seat.keys.length with hlt | hge
    · rw [getElem?_append_left hlt] at hi
      have hst := hs.stored
      rw [hv, take_length] at hst
      exact hst slot hslot i k hi
    · obtain ⟨hlt, hk⟩ := List.getElem?_eq_some_iff.mp hi
      rw [length_append] at hlt
      obtain rfl : i = l.seat.keys.length := le_antisymm (Nat.le_of_lt_succ hlt) hge
      refine ⟨Row.token prev, hprev, Cache.write_self hslot, ?_⟩
      rw [← hk, getElem_append_right le_rfl]
      simp only [Nat.sub_self, getElem_cons_zero]
      rfl
  · rw [length_append]
    exact Nat.le_succ_of_le hle
  · cases hp
    exact hid

theorem LiveOk.token (hfull : l.filled = l.kept)
    (hid : Row.token id ∈ S) :
    LiveOk S (World.decoded mem l.seat) { l with seat := l.seat.onToken id } := by
  obtain ⟨⟨session, keys, slot, pair, speech, rows, valid, last⟩, prompt, filled⟩ := l
  cases speech with
  | true => exact h.token_speech hfull rfl
  | false =>
    cases last with
    | none => exact h.token_first hfull rfl rfl hid
    | some prev => exact h.token_next rfl rfl hid

end

theorem Seat.onToken_slots (s : Seat σ) (id : UInt32) : (s.onToken id).slots = s.slots := by
  unfold Seat.onToken
  split <;> rfl

end live

end Plow.Session
