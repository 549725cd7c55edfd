import Plow.Dp.Route

/-!
# New sessions spread evenly

While only new sessions are placed, each by the counts, the counts of the ranks that take them never
differ by more than one (`Fair`).  A thread claims a rank by an exchange of a count that it found to
be the least; the other counts have only grown since it read them, so the count it takes is still
the least.
-/

set_option linter.unusedSectionVars false

namespace Plow.Dp
open Lib List Function Option

section
variable {F : Type} [NatCast F] [Add F] [Sub F] [Mul F] [Div F] [Max F] [LT F] [LE F]
  [DecidableLT F] [DecidableLE F]

/-- the session that a thread is placing -/
def Pc.key : Pc F → Option UInt64
  | .idle => none
  | .cands r => r.req.session
  | .get _ h _ => some h
  | .counts r _ => r.session.map Prod.fst
  | .choose r => r.session.map Prod.fst
  | .reserve r _ _ _ _ => r.session.map Prod.fst
  | .claim r _ _ _ _ => r.session.map Prod.fst
  | .put h _ _ _ _ => some h
  | .pick _ _ => none

/-- the ranks that `reserve` considers -/
def Route.takers (r : Route F) : List Nat :=
  (List.range r.cands.length).filter fun i => (r.cands[i]?).any r.eligible

namespace World

def Unseen (w : World F) (h : UInt64) : Prop :=
  (w.sessions.shards (shardOf h)).find h = none ∧ ∀ pc ∈ w.threads, pc.key ≠ some h

instance (w : World F) (h : UInt64) : Decidable (w.Unseen h) := inferInstanceAs (Decidable (_ ∧ _))

/-- Only new sessions are routed, every thread sees the ranks `R` up with room, and no shard is full
when a session is stored. -/
def Steady (R : List Nat) (w : World F) : Event F → Prop
  | .drop _ => True
  | .turn i e =>
    match w.threads[i]? with
    | some .idle => match e.request.session with
      | none => True
      | some h => w.Unseen h
    | some (.choose r) => r.session.isSome → r.takers = R
    | some (.put h _ _ _ _) => (w.sessions.shards (shardOf h)).length < shardCap
    | _ => True

instance (R : List Nat) (w : World F) (e : Event F) : Decidable (w.Steady R e) := by
  unfold Steady
  split
  · infer_instance
  · split
    · split <;> infer_instance
    all_goals infer_instance

/-- no prefix cache decides where a session goes -/
def ByCount (w : World F) : Event F → Prop
  | .drop _ => True
  | .turn i e =>
    match w.threads[i]? with
    | some (.choose r) => match r.choice w.n e.cached e.rr with
      | some (_, reason) => r.session.isSome → reason ≠ .prefixHit
      | none => True
    | _ => True

instance (w : World F) (e : Event F) : Decidable (w.ByCount e) := by
  unfold ByCount
  split
  · infer_instance
  · split
    · split <;> infer_instance
    · infer_instance

end World

/-! ### What a thread knows about the counts -/

/-- A thread that reserves knows, of the ranks it has looked at, one with the fewest sessions. -/
def Pc.Fair (R : List Nat) (counts : Counts) : Pc F → Prop
  | .cands r => r.stored = none ∧ r.session = none
  | .get r h _ => r.session.map Prod.fst = some h
  | .counts r _ => r.stored = none
  | .choose r => r.stored = none
  | .reserve r _ _ i best => r.takers = R ∧ R ≠ [] ∧
    match best with
    | none => ∀ j ∈ R, i ≤ j
    | some (b, s, _) => b ∈ R ∧ ∀ j ∈ R, j < i → s.toNat ≤ (counts j).toNat
  | .claim r _ _ b s => r.takers = R ∧ R ≠ [] ∧ b ∈ R ∧ ∀ j ∈ R, s.toNat ≤ (counts j).toNat
  | .put _ _ _ reserved _ => reserved = true
  | _ => True

section
variable {R : List Nat} {counts counts' : Counts} {pc : Pc F} {r : Route F}

theorem Pc.Fair.mono (h : pc.Fair R counts)
    (hle : ∀ j ∈ R, (counts j).toNat ≤ (counts' j).toNat) : pc.Fair R counts' := by
  cases pc with
  | reserve r rank reason i best =>
    obtain ⟨h1, h2, h3⟩ := h
    refine ⟨h1, h2, ?_⟩
    cases best with
    | none => exact h3
    | some b => exact ⟨h3.1, fun j hj hi => le_trans (h3.2 j hj hi) (hle j hj)⟩
  | claim r rank reason b s =>
    obtain ⟨h1, h2, h3, h4⟩ := h
    exact ⟨h1, h2, h3, fun j hj => le_trans (h4 j hj) (hle j hj)⟩
  | _ => exact h

theorem Route.mem_takers {j : Nat} :
    j ∈ r.takers ↔ ∃ c, r.cands[j]? = some c ∧ r.eligible c = true := by
  unfold Route.takers
  rw [mem_filter, mem_range]
  constructor
  · intro ⟨hj, h⟩
    rw [getElem?_eq_getElem hj] at h ⊢
    exact ⟨_, rfl, h⟩
  · intro ⟨c, hc, he⟩
    rw [hc]
    exact ⟨(List.getElem?_eq_some_iff.mp hc).1, he⟩

theorem Route.takers_ne (h : ∃ c ∈ r.cands, c.up = true) : r.takers ≠ [] := by
  have hex : ∃ c ∈ r.cands, r.eligible c = true := by
    by_cases hroomy : r.roomy = true
    · obtain ⟨c, hc, hup⟩ := any_eq_true.mp hroomy
      refine ⟨c, hc, ?_⟩
      obtain ⟨hup, hkv⟩ := (Bool.and_eq_true _ _).mp hup
      have hkv : ¬ kvFullMilli ≤ c.kvMilli := UInt32.not_le.mpr (of_decide_eq_true hkv)
      simp [Route.eligible, hup, hkv]
    · obtain ⟨c, hc, hup⟩ := h
      exact ⟨c, hc, by simp [Route.eligible, hup, hroomy]⟩
  obtain ⟨c, hc, he⟩ := hex
  obtain ⟨j, hj⟩ := mem_iff_getElem?.mp hc
  exact ne_nil_of_mem (Route.mem_takers.mpr ⟨c, hj, he⟩)

theorem Route.settle_key (r : Route F) (rank : Nat) (reason : Reason) (reserved : Bool)
    {h : UInt64} (hk : (r.settle rank reason reserved).key = some h) :
    r.session.map Prod.fst = some h := by
  unfold Route.settle at hk
  split at hk
  · cases hk
  · next hs =>
    rw [hs]
    split at hk
    · cases hk
    · exact hk

variable {best : Option (Nat × UInt32 × F)} {reason : Reason} {rank i : Nat}

section

variable (h : (Pc.reserve r rank reason i best).Fair R counts)
include h

/-- the next rank that `reserve` looks at -/
theorem Pc.Fair.look (hi : i ∈ R) (l : F) :
    (Pc.reserve r rank reason (i + 1) (Route.better best i (counts i) l)).Fair R counts := by
  obtain ⟨h1, h2, h3⟩ := h
  cases best with
  | none =>
    refine ⟨h1, h2, hi, fun j hj hlt => ?_⟩
    rw [le_antisymm (Nat.le_of_lt_succ hlt) (h3 j hj)]
  | some b =>
    obtain ⟨b, bs, bl⟩ := b
    obtain ⟨hb, hle⟩ := h3
    by_cases hlt : counts i < bs ∨ (counts i = bs ∧ l < bl)
    · have hnew : Route.better (some (b, bs, bl)) i (counts i) l = some (i, counts i, l) :=
        if_pos hlt
      rw [hnew]
      refine ⟨h1, h2, hi, fun j hj hji => ?_⟩
      have hs : (counts i).toNat ≤ bs.toNat := by
        rcases hlt with hlt | ⟨heq, -⟩
        · exact le_of_lt (UInt32.lt_iff_toNat_lt.mp hlt)
        · rw [heq]
      rcases lt_or_eq_of_le (Nat.le_of_lt_succ hji) with hji | rfl
      · exact le_trans hs (hle j hj hji)
      · exact le_rfl
    · have hold : Route.better (some (b, bs, bl)) i (counts i) l = some (b, bs, bl) := if_neg hlt
      rw [hold]
      refine ⟨h1, h2, hb, fun j hj hji => ?_⟩
      rcases lt_or_eq_of_le (Nat.le_of_lt_succ hji) with hji | rfl
      · exact hle j hj hji
      · exact Nat.not_lt.mp fun hgt => hlt (.inl (UInt32.lt_iff_toNat_lt.mpr hgt))

theorem Pc.Fair.skip (hi : i ∉ R) :
    (Pc.reserve r rank reason (i + 1) best).Fair R counts := by
  obtain ⟨h1, h2, h3⟩ := h
  have hne : ∀ j ∈ R, j ≠ i := fun j hj heq => hi (heq ▸ hj)
  refine ⟨h1, h2, ?_⟩
  cases best with
  | none => exact fun j hj => Nat.lt_of_le_of_ne (h3 j hj) (Ne.symm (hne j hj))
  | some b =>
    exact ⟨h3.1, fun j hj hlt =>
      h3.2 j hj (Nat.lt_of_le_of_ne (Nat.le_of_lt_succ hlt) (hne j hj))⟩

theorem Pc.Fair.looked
    (hi : r.cands[i]? = none) :
    ∃ b s l, best = some (b, s, l) ∧ (Pc.claim r rank reason b s).Fair R counts := by
  obtain ⟨h1, h2, h3⟩ := h
  have hlt : ∀ j ∈ R, j < i := fun j hj => by
    obtain ⟨c, hc, -⟩ := Route.mem_takers.mp (h1 ▸ hj)
    exact lt_of_lt_of_le (List.getElem?_eq_some_iff.mp hc).1 (List.getElem?_eq_none_iff.mp hi)
  cases best with
  | none =>
    obtain ⟨j, hj⟩ := exists_mem_of_ne_nil R h2
    exact absurd (hlt j hj) (Nat.not_lt.mpr (h3 j hj))
  | some b => exact ⟨b.1, b.2.1, b.2.2, rfl, h1, h2, h3.1, fun j hj => h3.2 j hj (hlt j hj)⟩

end

end

/-! ### Every step of the world -/

namespace World

structure Fair (R : List Nat) (w : World F) : Prop where
  ok : w.Ok
  small : w.threads.length + shardCount * shardCap < 2 ^ 32
  keys : ∀ (i j : Nat) (pc pc' : Pc F) h, w.threads[i]? = some pc → w.threads[j]? = some pc' → pc.key = some h →
    pc'.key = some h → i = j
  unseen : ∀ pc ∈ w.threads, ∀ h, pc.key = some h → (w.sessions.shards (shardOf h)).find h = none
  threads : ∀ pc ∈ w.threads, pc.Fair R w.sessions.counts
  even : ∀ i ∈ R, ∀ j ∈ R, (w.sessions.counts i).toNat ≤ (w.sessions.counts j).toNat + 1

variable {R : List Nat} {w w' : World F} {i rank : Nat} {pc pc' : Pc F} {t : Sessions} {reason : Reason}
  {r : Route F} {h : UInt64}

/-- A thread takes a step: it keeps its session or takes a new one, and the counts do not fall. -/
theorem Fair.thread (h : w.Fair R) (hpc : w.threads[i]? = some pc)
    (hok : Ok { w with threads := w.threads.set i pc', sessions := t })
    (hkey : ∀ k, pc'.key = some k → pc.key = some k ∨ w.Unseen k)
    (hfind : ∀ k, pc'.key = some k ∨ pc.key ≠ some k →
      (w.sessions.shards (shardOf k)).find k = none → (t.shards (shardOf k)).find k = none)
    (hfair : pc'.Fair R t.counts)
    (hle : ∀ j ∈ R, (w.sessions.counts j).toNat ≤ (t.counts j).toNat)
    (heven : ∀ a ∈ R, ∀ b ∈ R, (t.counts a).toNat ≤ (t.counts b).toNat + 1) :
    Fair R { w with threads := w.threads.set i pc', sessions := t } := by
  have hget : ∀ {a q}, (w.threads.set i pc')[a]? = some q →
      (a = i ∧ q = pc') ∨ (a ≠ i ∧ w.threads[a]? = some q) := by
    intro a q hq
    rw [getElem?_set] at hq
    split at hq
    · next heq =>
      split at hq
      · cases hq
        exact .inl ⟨heq.symm, rfl⟩
      · cases hq
    · next hne => exact .inr ⟨Ne.symm hne, hq⟩
  -- another thread's session is not the one that this thread now has
  have hother : ∀ {a q k}, a ≠ i → w.threads[a]? = some q → q.key = some k → pc'.key ≠ some k := by
    intro a q k hne hq hk hk'
    rcases hkey k hk' with hold | hnew
    · exact hne (h.keys a i q pc k hq hpc hk hold)
    · exact hnew.2 q (mem_of_getElem? hq) hk
  refine ⟨hok, ?_, ?_, ?_, ?_, heven⟩
  · show (w.threads.set i pc').length + shardCount * shardCap < 2 ^ 32
    rw [length_set]
    exact h.small
  · intro a b q q' k hq hq' hk hk'
    rcases hget hq with ⟨ha, hp⟩ | ⟨hne, hold⟩
    · rcases hget hq' with ⟨hb, -⟩ | ⟨hne', hold'⟩
      · exact ha.trans hb.symm
      · exact absurd (hp ▸ hk) (hother hne' hold' hk')
    · rcases hget hq' with ⟨-, hp⟩ | ⟨hne', hold'⟩
      · exact absurd (hp ▸ hk') (hother hne hold hk)
      · exact h.keys a b q q' k hold hold' hk hk'
  · intro q hq k hk
    obtain ⟨a, ha⟩ := mem_iff_getElem?.mp hq
    rcases hget ha with ⟨-, rfl⟩ | ⟨hne, ha⟩
    · refine hfind k (.inl hk) ?_
      rcases hkey k hk with hold | hnew
      · exact h.unseen pc (mem_of_getElem? hpc) k hold
      · exact hnew.1
    · refine hfind k (.inr fun hold => ?_) (h.unseen q (mem_of_getElem? ha) k hk)
      exact hne (h.keys a i q pc k ha hpc hk hold)
  · intro q hq
    rcases mem_or_eq_of_mem_set hq with hq | rfl
    · exact (h.threads q hq).mono hle
    · exact hfair

theorem Fair.local (h : w.Fair R) (hpc : w.threads[i]? = some pc)
    (hok : Ok { w with threads := w.threads.set i pc' })
    (hkey : ∀ k, pc'.key = some k → pc.key = some k ∨ w.Unseen k)
    (hfair : pc'.Fair R w.sessions.counts) :
    Fair R { w with threads := w.threads.set i pc' } :=
  h.thread hpc (t := w.sessions) hok hkey (fun _ _ hf => hf) hfair (fun _ _ => le_rfl)
    h.even

theorem get_unseen (hf : (t.shards (shardOf h)).find h = none)
    (now : UInt32) : t.get h now = (t, none) := by
  have hget : (t.shards (shardOf h)).get t.counts h now = (t.shards (shardOf h), t.counts, none) := by
    unfold Shard.get
    rw [hf]
  unfold Sessions.get
  rw [hget]
  show (Sessions.mk (update t.shards (shardOf h) (t.shards (shardOf h))) t.counts, none) = _
  rw [update_eq_self]

/-- A reserved session with no entry is stored where there is room. -/
theorem put_unseen (hf : (t.shards (shardOf h)).find h = none)
    (hroom : (t.shards (shardOf h)).length < shardCap) (rank : Nat) (now : UInt32) :
    (t.put h rank now true).counts = t.counts ∧ ∀ k, k ≠ h → (t.shards (shardOf k)).find k = none →
      ((t.put h rank now true).shards (shardOf k)).find k = none := by
  have hput : (t.shards (shardOf h)).put t.counts h rank now true =
      ((t.shards (shardOf h)).remove h ++ [⟨h, rank, now⟩], t.counts) := by
    have hr : (t.shards (shardOf h)).room t.counts h now = (t.shards (shardOf h), t.counts) :=
      if_neg fun hc => Nat.not_le.mpr hroom hc.1
    unfold Shard.put
    rw [hr]
    simp only [hf]
    rfl
  unfold Sessions.put
  rw [hput]
  refine ⟨rfl, fun k hne hk => ?_⟩
  show (update t.shards (shardOf h) _ (shardOf k)).find k = none
  rw [update_apply]
  split
  · next heq =>
    rw [heq] at hk
    refine find?_eq_none.mpr fun p hp hpk => ?_
    have hpk : p.key = k := of_decide_eq_true hpk
    rcases mem_append.mp hp with hp | hp
    · exact Shard.find_none hk p (mem_of_mem_filter hp) hpk
    · rw [mem_singleton.mp hp] at hpk
      exact hne hpk.symm
  · exact hk

theorem choice_reason {n : Nat} {cached : List UInt32} {rr : Nat}
    (hs : r.sticky n = none) (h : r.choice n cached rr = some (rank, reason)) :
    reason = .leastLoaded ∨ reason = .prefixHit := by
  have hchoose : ∀ (cands : List Cand) (rows : Nat) (blockRows : UInt32) (cfg : RouteCfg F),
      Dp.choose cands none rows blockRows cfg rr = some (rank, reason) →
      reason = .leastLoaded ∨ reason = .prefixHit := by
    intro cands rows blockRows cfg h
    unfold Dp.choose at h
    split at h
    · cases h
    · simp only [filter_none] at h
      split at h
      · cases h
        exact .inr rfl
      · cases h
        exact .inl rfl
  unfold Route.choice at h
  simp only [hs] at h
  split at h <;> exact hchoose _ _ _ _ h

/-- The claimed rank had the fewest sessions, so the counts stay even. -/
theorem Fair.claim (h : w.Fair R) {b : Nat} {s : UInt32}
    (hpc : w.threads[i]? = some (.claim r rank reason b s)) (hs : w.sessions.counts b = s)
    (hok : Ok { w with
      threads := w.threads.set i (r.settle b reason true)
      sessions := { w.sessions with counts := w.sessions.counts.add b } }) :
    Fair R { w with
      threads := w.threads.set i (r.settle b reason true)
      sessions := { w.sessions with counts := w.sessions.counts.add b } } := by
  obtain ⟨-, -, hb, hleast⟩ := h.threads _ (mem_of_getElem? hpc)
  obtain ⟨hnew, -, hbn⟩ := h.ok.threads _ (mem_of_getElem? hpc)
  have hsub : (w.sessions.counts.add b b).toNat = s.toNat + 1 := by
    have hsmall : s.toNat < 2 ^ 32 - 1 := by
      have h1 := h.ok.count_toNat h.small b
      have h2 := entries_le h.ok b
      have h3 : w.reserved b ≤ w.threads.length := countP_le_length
      have h4 := h.small
      have h6 : w.reserved b < w.threads.length := by
        refine Nat.lt_of_le_of_ne h3 fun heq => ?_
        have := countP_eq_length.mp heq _ (mem_of_getElem? hpc)
        cases this
      rw [← hs]
      omega
    have hadd : w.sessions.counts.add b b = s + 1 := by
      rw [Counts.add, update_self, hs]
    rw [hadd, UInt32.toNat_add]
    exact Nat.mod_eq_of_lt (by simpa using (by omega : s.toNat + 1 < 2 ^ 32))
  have hother : ∀ j, j ≠ b → w.sessions.counts.add b j = w.sessions.counts j :=
    fun j hne => update_of_ne hne _ _
  obtain ⟨key, now, hses, hput⟩ := hnew.settle hbn reason
  refine h.thread hpc hok (fun k hk => .inl (r.settle_key b reason true hk)) (fun _ _ hf => hf) ?_
    (fun j _ => ?_) fun x hx y hy => ?_
  · rw [hput]
    exact rfl
  · show _ ≤ (w.sessions.counts.add b j).toNat
    by_cases hj : j = b
    · rw [hj, hsub, hs]
      exact Nat.le_succ _
    · rw [hother j hj]
  · show (w.sessions.counts.add b x).toNat ≤ (w.sessions.counts.add b y).toNat + 1
    have hy' : s.toNat ≤ (w.sessions.counts.add b y).toNat := by
      by_cases hyb : y = b
      · rw [hyb, hsub]
        exact Nat.le_succ _
      · rw [hother y hyb]
        exact hleast y hy
    by_cases hxb : x = b
    · rw [hxb, hsub]
      exact Nat.succ_le_succ hy'
    · rw [hother x hxb]
      by_cases hyb : y = b
      · rw [hyb, hsub]
        have := h.even x hx b hb
        rw [hs] at this
        exact Nat.le_succ_of_le this
      · rw [hother y hyb]
        exact h.even x hx y hy

theorem Fair.turn (h : w.Fair R) {e : Env F} (hst : w.Steady R (.turn i e))
    (hby : w.ByCount (.turn i e)) (hs : w.turn i e = some w') : w'.Fair R := by
  have hok := h.ok.turn hs
  unfold Steady at hst
  unfold ByCount at hby
  unfold World.turn at hs
  split at hs
  · cases hs
  · next rank reason hpc =>
    cases hs
    have hidle : Fair R { w with threads := w.threads.set i .idle } :=
      h.local hpc ⟨hok.n_le, hok.table, hok.threads, hok.count, h.ok.picks⟩ nofun trivial
    exact ⟨hok, hidle.small, hidle.keys, hidle.unseen, hidle.threads, hidle.even⟩
  · next pc hnp hpc =>
    generalize hstep : pc.step w.n w.picked w.sessions e = out at hs
    obtain ⟨pc', t⟩ := out
    cases hs
    have hmem := mem_of_getElem? hpc
    have hfair := h.threads pc hmem
    have hpok := h.ok.threads pc hmem
    simp only [hpc] at hst hby
    unfold Pc.step at hstep
    cases pc with
    | idle =>
      cases hstep
      refine h.local hpc hok (fun k hk => .inr ?_) ⟨rfl, rfl⟩
      rw [show e.request.session = some k from hk] at hst
      exact hst
    | cands r =>
      simp only at hstep
      split at hstep
      · cases hstep
        exact h.local hpc hok (fun _ hk => .inl hk) hfair
      · split at hstep
        · cases hstep
          refine h.local hpc hok (fun k hk => ?_) hfair.1
          rw [Pc.key, hfair.2] at hk
          cases hk
        · next key hses =>
          cases hstep
          exact h.local hpc hok (fun k hk => .inl (hses.trans hk)) rfl
    | get r key now =>
      have hses : r.session.map Prod.fst = some key := hfair
      simp only [get_unseen (h.unseen _ hmem key rfl) now] at hstep
      cases hstep
      refine h.local hpc hok (fun k hk => .inl (hses.symm.trans ?_)) ?_
      · split at hk <;> exact hk
      · split <;> exact rfl
    | counts r j =>
      simp only at hstep
      split at hstep
      · cases hstep
        exact h.local hpc hok (fun _ hk => .inl hk) hfair
      · cases hstep
        exact h.local hpc hok (fun _ hk => .inl hk) hfair
    | choose r =>
      simp only at hstep
      split at hstep
      · cases hstep
        exact h.local hpc hok nofun trivial
      · next rank reason hc =>
        have hsticky : r.sticky w.n = none := by
          rw [Route.sticky, (hfair : r.stored = none)]
          rfl
        split at hstep
        · next hnew =>
          cases hstep
          refine h.local hpc hok (fun _ hk => .inl hk) ⟨hst hnew.1, ?_, fun _ _ => Nat.zero_le _⟩
          rw [← hst hnew.1]
          exact Route.takers_ne (Route.choice_spec hc).2
        · next hold =>
          cases hstep
          have hses : r.session = none := by
            refine not_isSome_iff_eq_none.mp fun hsome => hold ⟨hsome, hsticky, ?_⟩
            simp only [hc] at hby
            exact (choice_reason hsticky hc).resolve_right (hby hsome)
          have hpick : r.settle rank reason false = .pick rank (r.told reason) := by
            rw [Route.settle, hses]
          rw [hpick] at hok ⊢
          exact h.local hpc hok nofun trivial
    | reserve r rank reason j best =>
      simp only at hstep
      split at hstep
      · next c hc =>
        split at hstep
        · next hskip =>
          cases hstep
          refine h.local hpc hok (fun _ hk => .inl hk) (hfair.skip fun hj => ?_)
          obtain ⟨c', hc', he⟩ := Route.mem_takers.mp (hfair.1 ▸ hj)
          rw [hc] at hc'
          cases hc'
          simp [he] at hskip
        · next htake =>
          cases hstep
          have he : r.eligible c = true := by simpa using htake
          exact h.local hpc hok (fun _ hk => .inl hk)
            (hfair.look (hfair.1 ▸ Route.mem_takers.mpr ⟨c, hc, he⟩) _)
      · next hend =>
        obtain ⟨b, s, l, rfl, hclaim⟩ := hfair.looked hend
        cases hstep
        exact h.local hpc hok (fun _ hk => .inl hk) hclaim
    | claim r rank reason b s =>
      simp only at hstep
      split at hstep
      · next hc =>
        cases hstep
        exact h.claim hpc hc.1 hok
      · cases hstep
        exact h.local hpc hok (fun _ hk => .inl hk) ⟨hfair.1, hfair.2.1, fun _ _ => Nat.zero_le _⟩
    | put key rank now reserved reason =>
      obtain rfl : reserved = true := hfair
      cases hstep
      obtain ⟨hcounts, hfind⟩ := put_unseen (h.unseen _ hmem key rfl) hst rank now
      refine h.thread hpc hok nofun (fun k hk => hfind k ?_) trivial ?_ ?_
      · rcases hk with hk | hk
        · cases hk
        · exact fun heq => hk (congrArg some heq.symm)
      · rw [hcounts]
        exact fun _ _ => le_rfl
      · rw [hcounts]
        exact h.even
    | pick rank reason => exact absurd rfl (hnp rank reason)

theorem Fair.step (h : w.Fair R) {e : Event F} (hst : w.Steady R e) (hby : w.ByCount e)
    (hs : w.step e = some w') : w'.Fair R := by
  cases e with
  | turn i e => exact h.turn hst hby hs
  | drop k =>
    have hok := h.ok.step hs
    unfold World.step at hs
    simp only at hs
    split at hs
    · cases hs
    · cases hs
      exact ⟨hok, h.small, h.keys, h.unseen, h.threads, h.even⟩

theorem Fair.start (h : w.Ok) (hk : w.threads.length + shardCount * shardCap < 2 ^ 32)
    (hidle : ∀ pc ∈ w.threads, pc = .idle)
    (heq : ∀ i ∈ R, ∀ j ∈ R, w.sessions.counts i = w.sessions.counts j) : w.Fair R where
  ok := h
  small := hk
  keys a b pc pc' k hpc _ hkey _ := by
    rw [hidle pc (mem_of_getElem? hpc)] at hkey
    cases hkey
  unseen pc hpc k hkey := by
    rw [hidle pc hpc] at hkey
    cases hkey
  threads pc hpc := by
    rw [hidle pc hpc]
    exact trivial
  even i hi j hj := by
    rw [heq i hi j hj]
    exact Nat.le_succ _

theorem exec_threads {events : List (Event F)} (hrun : exec World.step w events = some w') :
    w'.threads.length = w.threads.length :=
  exec_inv (P := fun v => v.threads.length = w.threads.length)
    (fun _ _ _ h hs => (step_threads hs).trans h) rfl hrun

end World

def Sessions.stored (t : Sessions) (h : UInt64) : Nat :=
  ∑ k ∈ Finset.range shardCount, (t.shards k).countP (·.key = h)

theorem Sessions.stored_le {t : Sessions} (ht : t.Ok) (h : UInt64) : t.stored h ≤ 1 := by
  have hzero : ∀ k ∈ Finset.range shardCount, k ≠ shardOf h →
      (t.shards k).countP (·.key = h) = 0 := by
    intro k _ hne
    refine countP_eq_zero.mpr fun p hp hk => hne ?_
    rw [← (ht k).home p hp, of_decide_eq_true hk]
  rw [Sessions.stored, Finset.sum_eq_single_of_mem (shardOf h)
    (Finset.mem_range.mpr (Sessions.shardOf_lt h)) hzero]
  have hcount := nodup_iff_count_le_one.mp (ht (shardOf h)).keys h
  rw [count_eq_countP, countP_map] at hcount
  refine le_trans (le_of_eq (countP_congr fun p _ => ?_)) hcount
  simp

/-- **Session accounting is exact under any interleaving.**  For any ranks, threads and steps the
counts are the entries and the reservations, a session id has one entry at most, and the pick counts
are the live routes.  From equal counts, while new sessions are placed by the counts, the counts of
the ranks that take them differ by one at most. -/
theorem sessions_accounted {n k : Nat} (hn : n ≤ maxDp) {events : List (Event F)} {w : World F}
    (hrun : exec World.step (World.new n k) events = some w) :
    (∀ r, w.sessions.counts r = UInt32.ofNat (w.sessions.entries r + w.reserved r)) ∧
    (k + shardCount * shardCap < 2 ^ 32 →
      ∀ r, (w.sessions.counts r).toNat = w.sessions.entries r + w.reserved r) ∧
    ((∀ pc ∈ w.threads, ∀ r, pc.holds r = false) →
      ∀ r, (w.sessions.counts r).toNat = w.sessions.entries r) ∧ (∀ h, w.sessions.stored h ≤ 1) ∧
    (∀ r, w.picked r = UInt32.ofNat (w.routed.count r)) ∧
    ∀ (R : List Nat) (later : List (Event F)) (w' : World F), (∀ pc ∈ w.threads, pc = .idle) →
      (∀ i ∈ R, ∀ j ∈ R, w.sessions.counts i = w.sessions.counts j) →
      k + shardCount * shardCap < 2 ^ 32 →
      Each World.step (fun v e => v.Steady R e ∧ v.ByCount e) w later →
      exec World.step w later = some w' →
      ∀ i ∈ R, ∀ j ∈ R, (w'.sessions.counts i).toNat ≤ (w'.sessions.counts j).toNat + 1 := by
  have h : w.Ok := exec_inv (fun _ _ _ h hs => h.step hs) (World.Ok.new hn k) hrun
  have hlen : w.threads.length = k := by
    rw [World.exec_threads hrun]
    exact length_replicate
  refine ⟨h.count, fun hk => h.count_toNat (hlen.symm ▸ hk), fun hfree r => ?_,
    Sessions.stored_le h.table, h.picks, fun R later w' hidle heq hk heach hlater => ?_⟩
  · have hres : w.reserved r = 0 := countP_eq_zero.mpr fun pc hpc => by
      rw [hfree pc hpc r]
      exact Bool.false_ne_true
    have hle := World.entries_le h r
    have hsmall : shardCount * shardCap < 2 ^ 32 := by decide
    rw [h.count r, hres, add_zero, UInt32.toNat_ofNat']
    exact Nat.mod_eq_of_lt (lt_of_le_of_lt hle hsmall)
  · have hstart : w.Fair R := World.Fair.start h (hlen.symm ▸ hk) hidle heq
    exact (exec_inv_of (fun _ _ _ hf hc hs => hf.step hc.1 hc.2 hs) hstart heach hlater).even

end

def placing (i : Nat) (h : UInt64) : Event ℚ :=
  .turn i
    { request := { cfg := ⟨false, none, 1 / 2⟩, session := some h }
      metric := { capacity := 8 } }

def inStep : List (Event ℚ) :=
  (List.replicate 14 [placing 0 1, placing 1 2]).flatten ++ List.replicate 4 (placing 1 2)

theorem sessions_accounted_inStep : ∃ w, exec World.step (World.new 2 2) inStep = some w ∧
    ∀ i ∈ [0, 1], ∀ j ∈ [0, 1], (w.sessions.counts i).toNat ≤ (w.sessions.counts j).toNat + 1 := by
  have heach : Each World.step (fun v e => v.Steady [0, 1] e ∧ v.ByCount e) (World.new 2 2)
      inStep := by decide +kernel
  obtain ⟨w, hw⟩ : ∃ w, exec World.step (World.new 2 2) inStep = some w :=
    isSome_iff_exists.mp (by decide +kernel)
  obtain ⟨-, -, -, -, -, hbal⟩ := sessions_accounted (n := 2) (k := 2) (by decide) (w := (World.new 2 2 : World ℚ))
    (rfl : exec World.step _ [] = _)
  exact ⟨w, hw, hbal [0, 1] inStep w (by simp [World.new]) (fun _ _ _ _ => rfl) (by decide) heach hw⟩

/-! ### A prompt that one rank has cached -/

/-- a new session whose prompt rank 0 has in its prefix cache -/
def sharedPrompt (h : UInt64) : List (Event ℚ) :=
  List.replicate 11 (.turn 0
    { request := { cfg := ⟨true, none, 1 / 2⟩, session := some h, promptRows := some 2048 }
      metric := { capacity := 8 }
      cached := [2000, 0] }) ++ [.drop 0]

def sharedRun : List (Event ℚ) := sharedPrompt 1 ++ sharedPrompt 2 ++ sharedPrompt 3

/-- Sessions that a prefix cache places all go to its rank. -/
theorem balance_past_prefixes : ¬ ∀ (events : List (Event ℚ)) (w : World ℚ),
    Each World.step (fun v e => v.Steady [0, 1] e) (World.new 2 1) events →
    exec World.step (World.new 2 1) events = some w → ∀ i ∈ [0, 1], ∀ j ∈ [0, 1],
      (w.sessions.counts i).toNat ≤ (w.sessions.counts j).toNat + 1 := by
  intro hall
  have heach : Each World.step (fun v e => v.Steady [0, 1] e) (World.new 2 1) sharedRun := by
    decide +kernel
  obtain ⟨w, hw⟩ : ∃ w, exec World.step (World.new 2 1) sharedRun = some w :=
    isSome_iff_exists.mp (by decide +kernel)
  have hcounts : (exec World.step (World.new 2 1) sharedRun).map
      (fun w => ((w.sessions.counts 0).toNat, (w.sessions.counts 1).toNat)) = some (3, 0) := by
    decide +kernel
  have hle := hall sharedRun w heach hw 0 (by decide) 1 (by decide)
  rw [hw] at hcounts
  obtain ⟨h0, h1⟩ := Prod.mk.inj (some.inj hcounts)
  rw [h0, h1] at hle
  exact absurd hle (by decide)

end Plow.Dp
