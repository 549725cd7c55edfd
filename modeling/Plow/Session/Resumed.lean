import Plow.Session.Retention
import Plow.Lib.Results

/-!
# Every step keeps the records

`Ok` is kept by each event, so it holds after any run that begins with an empty table
(`World.Ok.exec`), and `retention_sound` reads off what it says about the table and about `lookup`.
-/

set_option linter.unusedSectionVars false

namespace Plow.Session
open Lib List
variable {σ α β : Type} [DecidableEq σ] {S : Set Row} {w : World σ} {rows : List Row} {slot resumed : Nat}
  {session : σ} {mem : Cache} {p : Prompt}

theorem disjoint_of_subperm {ls ls' : List (List Nat)} (h : ls.Pairwise Disjoint)
    (hs : Subperm ls' ls) : ls'.Pairwise Disjoint := by
  obtain ⟨m, hperm, hsub⟩ := hs
  exact (hperm.pairwise_iff (fun h => h.symm)).mp (h.sublist hsub)

theorem nodup_of_subperm {l l' : List α} (h : l.Nodup) (hs : Subperm l' l) : l'.Nodup := by
  obtain ⟨m, hperm, hsub⟩ := hs
  exact hperm.nodup_iff.mp (h.sublist hsub)

theorem filter_length_le_one {R : α → α → Prop} {l : List α} (h : l.Pairwise R)
    {p : α → Bool} (hp : ∀ a b, p a = true → p b = true → ¬ R a b) : (l.filter p).length ≤ 1 := by
  have hsub := h.sublist (filter_sublist (p := p))
  have hmem : ∀ a ∈ l.filter p, p a = true := fun a ha => (mem_filter.mp ha).2
  generalize l.filter p = m at hsub hmem ⊢
  match m with
  | [] => exact Nat.zero_le _
  | [_] => exact le_rfl
  | a :: b :: rest =>
    have hab := (pairwise_cons.mp hsub).1 b mem_cons_self
    exact absurd hab (hp a b (hmem a mem_cons_self)
      (hmem b (mem_cons_of_mem _ mem_cons_self)))

theorem map_subperm (f : α → β) {l l' : List α} (hs : Subperm l' l) :
    (l'.map f).Subperm (l.map f) := by
  obtain ⟨m, hperm, hsub⟩ := hs
  exact ⟨m.map f, hperm.map f, hsub.map f⟩

/-! ### The table and the inbox change -/

theorem records_subperm {entries entries' : List (Entry σ)} (h : entries'.Subperm entries)
    (inbox : List (Retired σ)) : (records entries' inbox).Subperm (records entries inbox) :=
  (map_subperm _ h).append (Subperm.refl _)

namespace World.Ok

variable {table : RetainTable σ}

theorem shrink (h : w.Ok S) {inbox : List (Retired σ)}
    (hrec : (records table.entries inbox).Subperm (records w.table.entries w.inbox))
    (hses : (table.entries.map Entry.session).Nodup) :
    Ok S { w with table := table, inbox := inbox } where
  sessions := hses
  disjoint := disjoint_of_subperm h.disjoint ((map_subperm _ hrec).append (Subperm.refl _))
  stored p hp := h.stored p (hrec.subset hp)
  live := h.live

theorem fewer (h : w.Ok S)
    (hsub : table.entries.Subperm w.table.entries) : Ok S { w with table := table } :=
  h.shrink (records_subperm hsub _) (nodup_of_subperm h.sessions (map_subperm _ hsub))

end World.Ok

theorem insert_records (t : RetainTable σ) (r : Retired σ) (rest : List (Retired σ)) (now : Nat) :
    (records (t.insert r now).entries rest).Subperm (records t.entries (r :: rest)) := by
  rcases insert_cases (t := t) r now with heq | hsub
  · rw [heq]
    exact ((sublist_cons_self _ _).append_left _).subperm
  · refine (records_subperm hsub rest).trans ?_
    unfold records
    rw [map_append, append_assoc]
    exact ((filter_sublist.map _).append_right _).subperm

theorem insert_sessions (t : RetainTable σ) (r : Retired σ) (now : Nat)
    (h : (t.entries.map Entry.session).Nodup) :
    ((t.insert r now).entries.map Entry.session).Nodup := by
  rcases insert_cases (t := t) r now with heq | hsub
  · rw [heq]
    exact h
  · refine nodup_of_subperm ?_ (map_subperm _ hsub)
    rw [map_append]
    refine Nodup.append (h.sublist (filter_sublist.map _)) (nodup_singleton _) ?_
    intro s hs hr
    obtain ⟨e, he, rfl⟩ := mem_map.mp hs
    exact (others_session he).2 (mem_singleton.mp hr)

theorem inserts_ok (inbox : List (Retired σ)) (now : Nat) (t : RetainTable σ)
    (h : (t.entries.map Entry.session).Nodup) :
    (records (inbox.foldl (fun t r => t.insert r now) t).entries []).Subperm
        (records t.entries inbox) ∧
      ((inbox.foldl (fun t r => t.insert r now) t).entries.map Entry.session).Nodup := by
  induction inbox generalizing t with
  | nil => exact ⟨Subperm.refl _, h⟩
  | cons r rest ih =>
    obtain ⟨hrec, hses⟩ := ih (t.insert r now) (insert_sessions t r now h)
    exact ⟨hrec.trans (insert_records t r rest now), hses⟩

theorem World.Ok.collect (h : w.Ok S) (now : Nat) :
    Ok S { w with
      table := (Session.collect w.table w.inbox now).1
      inbox := (Session.collect w.table w.inbox now).2 } := by
  unfold Session.collect
  split
  · exact h
  · obtain ⟨hrec, hses⟩ := inserts_ok w.inbox now w.table h.sessions
    exact h.shrink ((records_subperm sweep_subperm []).trans hrec)
      (nodup_of_subperm hses (map_subperm _ sweep_subperm))

/-! ### A live request changes -/

section apart
variable {i j : Nat} {l l' : Live σ}

theorem World.Ok.apart_record (h : w.Ok S) (hl : l ∈ w.live) {p : List Nat × List UInt64}
    (hp : p ∈ records w.table.entries w.inbox) : Disjoint p.1 l.seat.slots :=
  (pairwise_append.mp h.disjoint).2.2 _ (mem_map_of_mem hp) _ (mem_map_of_mem hl)

theorem World.Ok.apart_live (h : w.Ok S) (hl : w.live[i]? = some l) (hl' : w.live[j]? = some l')
    (hne : j ≠ i) : Disjoint l'.seat.slots l.seat.slots := by
  have hpair := pairwise_map.mp (pairwise_append.mp h.disjoint).2.1
  obtain ⟨hi, rfl⟩ := List.getElem?_eq_some_iff.mp hl
  obtain ⟨hj, rfl⟩ := List.getElem?_eq_some_iff.mp hl'
  rcases Nat.lt_or_gt_of_ne hne with hlt | hgt
  · exact pairwise_iff_getElem.mp hpair j i hj hi hlt
  · exact (pairwise_iff_getElem.mp hpair i j hi hj hgt).symm

/-- One request changes, and writes to its own slots only. -/
theorem World.Ok.rewrite (h : w.Ok S) (hl : w.live[i]? = some l)
    (hslots : l'.seat.slots = l.seat.slots)
    (hmem : ∀ slot, slot ∉ l.seat.slots → mem slot = w.mem slot) (hl' : LiveOk S mem l') :
    Ok S { w with live := w.live.set i l', mem := mem } where
  sessions := h.sessions
  disjoint := by
    show ((records w.table.entries w.inbox).map Prod.fst ++
      (w.live.set i l').map (·.seat.slots)).Pairwise Disjoint
    have hsame : (w.live.set i l').map (·.seat.slots) = w.live.map (·.seat.slots) := by
      obtain ⟨hi, rfl⟩ := List.getElem?_eq_some_iff.mp hl
      rw [map_set, hslots, ← getElem_map (fun l : Live σ => l.seat.slots) (h := by simpa),
        set_getElem_self]
    rw [hsame]
    exact h.disjoint
  stored p hp := (h.stored p hp).congr fun slot hs =>
    hmem slot (h.apart_record (mem_of_getElem? hl) hp hs)
  live k hk := by
    obtain ⟨j, hj⟩ := mem_iff_getElem?.mp hk
    change (w.live.set i l')[j]? = some k at hj
    rw [getElem?_set] at hj
    split at hj
    · next heq =>
      split at hj
      · cases hj
        exact hl'
      · cases hj
    · next hne =>
      exact (h.live k (mem_of_getElem? hj)).congr fun slot hs =>
        hmem slot (h.apart_live hl hj (Ne.symm hne) hs)

end apart

theorem World.decoded_other {s : Seat σ} (h : slot ∉ s.slots) : decoded mem s slot = mem slot := by
  obtain ⟨session, keys, slot, pair, speech, rows, valid, last⟩ := s
  cases speech with
  | true => rfl
  | false =>
    cases last with
    | none => rfl
    | some prev => exact funext fun _ => Cache.write_other h

namespace World.Ok
variable {i : Nat} {w' : World σ}

theorem fill (h : w.Ok S) (hs : w.fill i = some w') : w'.Ok S := by
  obtain ⟨l, hl, hs⟩ := Option.bind_eq_some_iff.mp hs
  obtain ⟨r, hr, hs⟩ := Option.bind_eq_some_iff.mp hs
  split at hs
  · next hlt =>
    cases hs
    exact h.rewrite hl rfl (fun slot hn => funext fun _ => Cache.write_other hn)
      ((h.live l (mem_of_getElem? hl)).fill hr hlt)
  · cases hs

theorem stray (h : w.Ok S) {row : Nat} {r : Row} (hs : w.stray i row r = some w') : w'.Ok S := by
  obtain ⟨l, hl, hs⟩ := Option.bind_eq_some_iff.mp hs
  split at hs
  · next hle =>
    cases hs
    have hok := h.rewrite hl rfl
      (fun slot hn => funext fun i => (Cache.write_other hn : w.mem.write _ row r slot i = _))
      ((h.live l (mem_of_getElem? hl)).stray hle)
    obtain ⟨hi, rfl⟩ := List.getElem?_eq_some_iff.mp hl
    rw [set_getElem_self] at hok
    exact hok
  · cases hs

theorem token (h : w.Ok S) {id : UInt32} (hid : Row.token id ∈ S) (hs : w.token i id = some w') :
    w'.Ok S := by
  obtain ⟨l, hl, hs⟩ := Option.bind_eq_some_iff.mp hs
  split at hs
  · next hfull =>
    cases hs
    exact h.rewrite hl (l.seat.onToken_slots id) (fun slot hn => decoded_other hn)
      ((h.live l (mem_of_getElem? hl)).token hfull hid)
  · cases hs

/-- A dropped request leaves its slots to the inbox, or to nobody. -/
theorem drop (h : w.Ok S) (hs : w.drop i = some w') : w'.Ok S := by
  obtain ⟨l, hl, hs⟩ := Option.bind_eq_some_iff.mp hs
  cases hs
  have hlive := h.live l (mem_of_getElem? hl)
  have hrest : ∀ k ∈ w.live.eraseIdx i, LiveOk S w.mem k :=
    fun k hk => h.live k (mem_of_mem_eraseIdx hk)
  unfold Seat.drop
  split
  · refine ⟨h.sessions, ?_, ?_, hrest⟩
    · rw [append_nil]
      exact h.disjoint.sublist (((eraseIdx_sublist _ _).map _).append_left _)
    · rw [append_nil]
      exact h.stored
  · have hrec : ∀ r : Retired σ, records w.table.entries (w.inbox ++ [r]) =
        records w.table.entries w.inbox ++ [(r.slots, r.keys)] := fun r => by
      rw [records, map_append, ← append_assoc]
      rfl
    refine ⟨h.sessions, ?_, fun p hp => ?_, hrest⟩
    · show (map Prod.fst (records w.table.entries (w.inbox ++ [_])) ++ _).Pairwise _
      rw [hrec, map_append, append_assoc]
      refine disjoint_of_subperm h.disjoint ((Perm.append_left _ ?_).subperm)
      obtain ⟨hi, rfl⟩ := List.getElem?_eq_some_iff.mp hl
      show ((w.live[i] :: w.live.eraseIdx i).map (·.seat.slots)).Perm (w.live.map (·.seat.slots))
      exact (getElem_cons_eraseIdx_perm hi).map _
    · change p ∈ records w.table.entries (w.inbox ++ [_]) at hp
      rw [hrec] at hp
      rcases mem_append.mp hp with hp | hp
      · exact h.stored p hp
      · rw [mem_singleton.mp hp]
        exact hlive.stored

end World.Ok

/-! ### A request resumes -/

theorem World.Ok.lookup (h : w.Ok S) (hinj : Set.InjOn Row.key S)
    (hS : ∀ x ∈ rows, x ∈ S) {pair : Bool} {limit now : Nat} {r : Resume}
    (hl : w.table.lookup session (rows.map Row.key) pair limit now = some r) :
    ∀ slot ∈ slotsOf r.slot pair, ∀ i < r.rows, w.mem slot i = rows[i]? := by
  obtain ⟨e, he, -, hslot, -, hpair, -, -, hlt, hle, hkeys⟩ := lookup_some hl
  intro slot hs i hi
  have hst : Stored S w.mem e.slots e.keys :=
    h.stored (e.slots, e.keys) (mem_append_left _ (mem_map_of_mem he))
  have hmem : slot ∈ e.slots := by
    rw [Entry.slots, hslot, hpair]
    exact hs
  rw [length_map] at hlt
  have hget : rows[i]? = some rows[i] := getElem?_eq_getElem _
  have hk : e.keys[i]? = some rows[i].key := by
    rw [hkeys i hi, getElem?_map, hget]
    rfl
  obtain ⟨x, hx, hrow, hxk⟩ := hst slot hmem i _ hk
  rw [hrow, hget, hinj hx (hS _ (getElem_mem _)) hxk]

theorem Prompt.keys_rows {keys : List UInt64}
    (hk : p.keys = some keys) (hr : p.rows = some rows) : keys = rows.map Row.key := by
  have h := rowKeys_eq p.ids p.pos p.overlays
  change p.keys = p.rows.map _ at h
  rw [hk, hr] at h
  exact Option.some.inj h

theorem LiveOk.seated (hS : ∀ x ∈ rows, x ∈ S) (session : σ)
    (slot : Nat) (pair speech : Bool) (hle : resumed ≤ rows.length - 1)
    (hmem : ∀ s ∈ slotsOf slot pair, ∀ i < resumed, mem s i = rows[i]?) :
    LiveOk S mem ⟨Seat.new session (rows.map Row.key) slot pair speech, rows, resumed⟩ where
  prompt := hS
  rows := length_map _
  filled_le := by
    unfold Live.kept
    split
    · exact hle
    · exact Nat.le_trans hle (Nat.sub_le _ _)
  filled := hmem
  stored := Stored.nil
  speech _ := ⟨rfl, Nat.zero_le _⟩
  fresh _ _ := ⟨rfl, rfl⟩
  started _ _ hn := nomatch hn

namespace World.Ok

theorem seat (h : w.Ok S) (hinj : Set.InjOn Row.key S) {w' : World σ}
    {pair speech : Bool} {limit now : Nat} (hS : ∀ x ∈ p.rows.getD [], x ∈ S)
    (hs : w.seat session p slot pair speech resumed limit now = some w') : w'.Ok S := by
  unfold World.seat at hs
  split at hs
  · next keys rows hk hr =>
    obtain rfl := p.keys_rows hk hr
    rw [hr] at hS
    split at hs
    · next hguard =>
      obtain ⟨-, hoff, hres⟩ := hguard
      cases hs
      have hf : Ok S { w with table := w.table.forget session } :=
        h.fewer (forget_sublist session).subperm
      have hlive : LiveOk S w.mem ⟨Seat.new session (rows.map Row.key) slot pair speech, rows,
          resumed⟩ := by
        rcases hres with rfl | hres
        · exact LiveOk.seated hS session slot pair speech (Nat.zero_le _) fun _ _ _ hi => nomatch hi
        · obtain ⟨-, -, -, -, -, -, -, -, hlt, -⟩ := lookup_some hres
          rw [length_map] at hlt
          exact LiveOk.seated hS session slot pair speech (Nat.le_sub_one_of_lt hlt)
            (h.lookup hinj hS hres)
      refine ⟨hf.sessions, ?_, hf.stored, fun l hl => ?_⟩
      · show (_ ++ (w.live ++ [_]).map fun l : Live σ => l.seat.slots).Pairwise Disjoint
        rw [map_append, ← append_assoc]
        refine pairwise_append.mpr ⟨hf.disjoint, pairwise_singleton _ _, ?_⟩
        intro ls hls ls' hls' s hs hs'
        rw [map_singleton, mem_singleton] at hls'
        subst hls'
        obtain ⟨hentries, hinbox, hlives⟩ := hoff s hs'
        rcases mem_append.mp hls with hls | hls
        · obtain ⟨q, hq, rfl⟩ := mem_map.mp hls
          rcases mem_append.mp hq with hq | hq
          · obtain ⟨e, he, rfl⟩ := mem_map.mp hq
            obtain ⟨he, hne⟩ := mem_filter.mp he
            exact hentries e he (of_decide_eq_true hne) hs
          · obtain ⟨r, hr, rfl⟩ := mem_map.mp hq
            exact hinbox r hr hs
        · obtain ⟨l, hl, rfl⟩ := mem_map.mp hls
          exact hlives l hl hs
      · rcases mem_append.mp hl with hl | hl
        · exact h.live l hl
        · rw [mem_singleton.mp hl]
          exact hlive
    · cases hs
  · cases hs

theorem foreign (h : w.Ok S) {row : Nat} {r : Row} (hfree : w.Free slot) :
    Ok S { w with mem := w.mem.write [slot] row r } := by
  obtain ⟨hentries, hinbox, hlives⟩ := hfree
  have hout : ∀ slots : List Nat, slot ∉ slots → ∀ s ∈ slots,
      w.mem.write [slot] row r s = w.mem s := fun slots hn s hs =>
    funext fun _ => Cache.write_other fun hm => hn (mem_singleton.mp hm ▸ hs)
  refine ⟨h.sessions, h.disjoint, fun p hp => (h.stored p hp).congr (hout _ ?_),
    fun l hl => (h.live l hl).congr (hout _ (hlives l hl))⟩
  rcases mem_append.mp hp with hp | hp
  · obtain ⟨e, he, rfl⟩ := mem_map.mp hp
    exact hentries e he
  · obtain ⟨q, hq, rfl⟩ := mem_map.mp hp
    exact hinbox q hq

theorem step (h : w.Ok S) (hinj : Set.InjOn Row.key S) {e : Event σ} (hS : ∀ x ∈ e.rows, x ∈ S)
    {w' : World σ} (hs : w.step e = some w') : w'.Ok S := by
  cases e with
  | seat => exact h.seat hinj hS hs
  | fill => exact h.fill hs
  | stray => exact h.stray hs
  | foreign slot row r =>
    change (if w.Free slot then some { w with mem := w.mem.write [slot] row r } else none) =
      some w' at hs
    split at hs
    · next hfree =>
      cases hs
      exact h.foreign hfree
    · cases hs
  | token => exact h.token (hS _ (mem_singleton_self _)) hs
  | drop => exact h.drop hs
  | collect now =>
    cases hs
    exact h.collect now
  | sweep =>
    cases hs
    exact h.fewer sweep_subperm
  | evict =>
    cases hs
    exact h.fewer evictLru_subperm
  | clear =>
    cases hs
    exact h.fewer (nil_sublist _).subperm

theorem new (S : Set Row) (ttl max : Nat) : Ok S (World.new ttl max : World σ) :=
  ⟨nodup_nil, .nil, nofun, nofun⟩

theorem exec (hinj : Set.InjOn Row.key S) {ttl max : Nat} {events : List (Event σ)}
    (hS : ∀ e ∈ events, ∀ x ∈ e.rows, x ∈ S)
    (hrun : Lib.exec World.step (World.new ttl max) events = some w) : w.Ok S := by
  have hrows : Each World.step (fun _ (e : Event σ) => ∀ x ∈ e.rows, x ∈ S) (World.new ttl max)
    events := each_of_forall hS
  exact exec_inv_of (fun _ _ _ h hc hs => h.step hinj hc hs) (new S ttl max) hrows hrun

theorem holders (h : w.Ok S) (slot : Nat) : (w.table.entries.filter (·.holds slot)).length ≤ 1 := by
  have hd : w.table.entries.Pairwise fun a b => List.Disjoint a.slots b.slots := by
    have := (pairwise_append.mp h.disjoint).1
    rw [records, map_append, map_map] at this
    exact pairwise_map.mp (pairwise_append.mp this).1
  refine filter_length_le_one hd fun a b ha hb hdis => ?_
  exact hdis (Entry.holds_iff.mp ha) (Entry.holds_iff.mp hb)

theorem owners (h : w.Ok S) (session : σ) :
    (w.table.entries.filter (·.session = session)).length ≤ 1 :=
  filter_length_le_one (pairwise_map.mp h.sessions) fun _ _ ha hb hne =>
    hne ((of_decide_eq_true ha).trans (of_decide_eq_true hb).symm)

end World.Ok

/-- **Retention only resumes rows that were written for the same content.**  After any run whose
rows have distinct keys, no slot has two entries and no session has two; an entry's keys are those
of the rows its slots hold; and what `lookup` gives a prompt is a live entry of the session, of the
prompt's shape and below the limit, whose slots hold the prompt's own rows. -/
theorem retention_sound {S : Set Row} (hinj : Set.InjOn Row.key S) {ttl max : Nat}
    {events : List (Event σ)} (hS : ∀ e ∈ events, ∀ x ∈ e.rows, x ∈ S) {w : World σ}
    (hrun : exec World.step (World.new ttl max) events = some w) :
    (∀ slot, (w.table.entries.filter (·.holds slot)).length ≤ 1) ∧
    (∀ session, (w.table.entries.filter (·.session = session)).length ≤ 1) ∧
    (∀ e ∈ w.table.entries, ∀ slot, e.holds slot → ∀ i k, e.keys[i]? = some k →
      ∃ x, w.mem slot i = some x ∧ x.key = k) ∧
    ∀ (session : σ) (prompt : Prompt) keys rows, prompt.keys = some keys →
      prompt.rows = some rows → (∀ x ∈ rows, x ∈ S) → ∀ pair limit now r,
      w.table.lookup session keys pair limit now = some r → 0 < r.rows ∧ r.rows < rows.length ∧
      (∃ e ∈ w.table.entries, e.session = session ∧ e.slot = r.slot ∧ e.pair = pair ∧
        now - e.used < w.table.ttl) ∧
      ∀ slot ∈ slotsOf r.slot pair, slot < limit ∧ ∀ i < r.rows, w.mem slot i = rows[i]? := by
  have h := World.Ok.exec hinj hS hrun
  refine ⟨h.holders, h.owners, fun e he slot hh i k hk => ?_, ?_⟩
  · obtain ⟨x, -, hx⟩ := h.stored (e.slots, e.keys) (mem_append_left _ (mem_map_of_mem he))
      slot (Entry.holds_iff.mp hh) i k hk
    exact ⟨x, hx⟩
  · intro session prompt keys rows hkeys hrows hin pair limit now r hl
    obtain rfl := prompt.keys_rows hkeys hrows
    obtain ⟨e, he, hses, hslot, hlive, hpair, hlim, hpos, hlt, -, -⟩ := lookup_some hl
    rw [length_map] at hlt
    refine ⟨hpos, hlt, ⟨e, he, hses, hslot, hpair, hlive⟩, fun slot hs =>
      ⟨?_, h.lookup hinj hin hl slot hs⟩⟩
    unfold slotsOf at hs
    cases pair with
    | true =>
      have : slot = r.slot ∨ slot = r.slot + 1 := by simpa using hs
      have hlim : r.slot + 1 < limit := hlim
      omega
    | false =>
      rw [mem_singleton.mp hs]
      exact hlim

def turn : List (Event Nat) :=
  [.seat 0 ⟨[5, 6, 7], [], []⟩ 2 false false 0 16 0, .fill 0, .fill 0, .fill 0, .token 0 8,
    .token 0 9, .stray 0 4 (Row.token 9), .drop 0, .collect 3]

def nextTurn : Prompt := ⟨[5, 6, 7, 8, 10, 11], [], []⟩

theorem retention_sound_turn : ∃ w, exec World.step (World.new 60 0) turn = some w ∧
    w.table.lookup 0 (nextTurn.keys.getD []) false 16 10 = some ⟨2, 4⟩ ∧
    ∀ slot ∈ slotsOf 2 false, slot < 16 ∧ ∀ i < 4, w.mem slot i = (nextTurn.rows.getD [])[i]? := by
  obtain ⟨w, hw⟩ : ∃ w, exec World.step (World.new 60 0) turn = some w :=
    Option.isSome_iff_exists.mp (by decide)
  have hlook : (exec World.step (World.new 60 0) turn).map
      (fun w => w.table.lookup 0 (nextTurn.keys.getD []) false 16 10) = some (some ⟨2, 4⟩) := by
    decide +kernel
  rw [hw] at hlook
  have hlook := Option.some.inj hlook
  have hinj : Set.InjOn Row.key {x | x ∈ [5, 6, 7, 8, 9, 10, 11].map Row.token} := by
    have : ∀ a ∈ [5, 6, 7, 8, 9, 10, 11].map Row.token, ∀ b ∈ [5, 6, 7, 8, 9, 10, 11].map Row.token,
        a.key = b.key → a = b := by decide +kernel
    exact fun a ha b hb => this a ha b hb
  refine ⟨w, hw, hlook, ?_⟩
  exact ((retention_sound hinj (by decide) hw).2.2.2 0 nextTurn _ _ rfl rfl (by decide) false 16 10 _
    hlook).2.2.2

end Plow.Session
