import Plow.Schedule.Machine

/-!
# What a timeline holds

The reservations of an `IntervalSet` lie apart and in order (`IntervalSet.Wf`), and `earliestFree` is
the least cycle from which an interval is free.  `load` is what a `BandwidthSet` holds at a cycle; a
reservation adds its weight inside its window and nothing outside, and `nextFeasible` is the least cycle
from which a weight fits.
-/

namespace Plow.Schedule

open List

namespace IntervalSet

variable {s : IntervalSet} {l : List (Nat × Nat)} {t u v d start stop after : Nat} {e : Nat × Nat}

structure Wf (s : IntervalSet) : Prop where
  apart : s.res.Pairwise fun a b => a.2 ≤ b.1
  pos : ∀ e ∈ s.res, e.1 < e.2

def Free (s : IntervalSet) (t d : Nat) : Prop := ∀ e ∈ s.res, e.2 ≤ t ∨ t + d ≤ e.1

def overlaps (s : IntervalSet) (start stop : Nat) : Bool :=
  s.res.any fun e => decide (start < e.2) && decide (e.1 < stop)

theorem overlaps_false : s.overlaps start stop = false ↔ ∀ e ∈ s.res, e.2 ≤ start ∨ stop ≤ e.1 := by
  unfold overlaps
  rw [any_eq_false]
  refine forall₂_congr fun e _ => ?_
  rw [Bool.and_eq_true, decide_eq_true_iff, decide_eq_true_iff]
  omega

theorem wf_empty : Wf empty := ⟨.nil, fun _ => nofun⟩

/-! ### Reserving -/

theorem mem_reserve : e ∈ (s.reserve t d).res ↔ e = (t, t + d) ∨ e ∈ s.res := by
  unfold reserve
  conv_rhs => rw [← takeWhile_append_dropWhile (p := fun e : Nat × Nat => e.1 < t) (l := s.res)]
  simp only [mem_append, mem_cons]
  tauto

theorem dropWhile_ge (hp : l.Pairwise fun a b => a.2 ≤ b.1) (hpos : ∀ e ∈ l, e.1 < e.2)
    (he : e ∈ l.dropWhile fun e => e.1 < t) : t ≤ e.1 := by
  induction l with
  | nil => cases he
  | cons a l ih =>
    obtain ⟨ha, hl⟩ := pairwise_cons.mp hp
    rw [dropWhile_cons] at he
    split at he
    · exact ih hl (fun e he => hpos e (mem_cons_of_mem _ he)) he
    · next hat =>
      rw [decide_eq_true_iff] at hat
      rcases mem_cons.mp he with rfl | he
      · omega
      · have := ha e he
        have := hpos a mem_cons_self
        omega

theorem Wf.reserve (h : s.Wf) (hfree : s.Free t d) (hd : 0 < d) : (s.reserve t d).Wf := by
  have hfront : ∀ e ∈ s.res.takeWhile fun e => e.1 < t, e.2 ≤ t := by
    intro e he
    have hlt := mem_takeWhile_imp he
    rw [decide_eq_true_iff] at hlt
    rcases hfree e ((takeWhile_sublist _).subset he) with h | h <;> omega
  have hbehind : ∀ e ∈ s.res.dropWhile fun e => e.1 < t, t + d ≤ e.1 := by
    intro e he
    have hge := dropWhile_ge h.apart h.pos he
    have hmem := (dropWhile_sublist _).subset he
    have := h.pos e hmem
    rcases hfree e hmem with h | h <;> omega
  constructor
  · unfold IntervalSet.reserve
    refine pairwise_append.mpr ⟨h.apart.sublist (takeWhile_sublist _), ?_, ?_⟩
    · exact pairwise_cons.mpr ⟨hbehind, h.apart.sublist (dropWhile_sublist _)⟩
    · intro a ha b hb
      have hat := hfront a ha
      rcases mem_cons.mp hb with rfl | hb
      · exact hat
      · have := hbehind b hb
        omega
  · intro e he
    rcases mem_reserve.mp he with rfl | he
    · show t < t + d
      omega
    · exact h.pos e he

/-! ### The earliest gap -/

theorem slide_spec (hp : l.Pairwise fun a b => a.2 ≤ b.1) (hpos : ∀ e ∈ l, e.1 < e.2) :
    t ≤ slide d l t ∧ (∀ e ∈ l, e.2 ≤ slide d l t ∨ slide d l t + d ≤ e.1) ∧
      (∀ v, t ≤ v → (∀ e ∈ l, e.2 ≤ v ∨ v + d ≤ e.1) → slide d l t ≤ v) ∧
        (slide d l t = t ∨ ∃ e ∈ l, slide d l t = e.2) := by
  induction l generalizing t with
  | nil => exact ⟨le_rfl, fun _ => nofun, fun v hv _ => hv, .inl rfl⟩
  | cons a l ih =>
    obtain ⟨ha, hl⟩ := pairwise_cons.mp hp
    obtain ⟨hap, hpos⟩ := forall_mem_cons.mp hpos
    unfold slide
    split
    · next hgap =>
      refine ⟨le_rfl, fun e he => .inr ?_, fun v hv _ => hv, .inl rfl⟩
      rcases mem_cons.mp he with rfl | he
      · exact hgap
      · have := ha e he
        omega
    · next hno =>
      obtain ⟨hle, hfree, hmin, hval⟩ := @ih (max t a.2) hl hpos
      refine ⟨by omega, fun e he => ?_, fun v hv hf => ?_, ?_⟩
      · rcases mem_cons.mp he with rfl | he
        · exact .inl (by omega)
        · exact hfree e he
      · obtain ⟨hfa, hf⟩ := forall_mem_cons.mp hf
        exact hmin v (by omega) hf
      · rcases hval with hval | ⟨e, he, hval⟩
        · rcases le_total t a.2 with hta | hta
          · rw [max_eq_right hta] at hval ⊢
            exact .inr ⟨a, mem_cons_self, hval⟩
          · rw [max_eq_left hta] at hval ⊢
            exact .inl hval
        · exact .inr ⟨e, mem_cons_of_mem _ he, hval⟩

theorem takeWhile_le (he : e ∈ s.res.takeWhile fun e => e.2 ≤ after) : e.2 ≤ after := by
  have h := mem_takeWhile_imp he
  exact of_decide_eq_true h

theorem earliestFree_isLeast (h : s.Wf) (hd : 0 < d) (after : Nat) :
    IsLeast {t | after ≤ t ∧ s.Free t d} (s.earliestFree after d) := by
  unfold earliestFree
  rw [if_neg (by omega)]
  obtain ⟨hle, hfree, hmin, -⟩ := @slide_spec (s.res.dropWhile fun e => e.2 ≤ after) after d
    (h.apart.sublist (dropWhile_sublist _)) fun e he => h.pos e ((dropWhile_sublist _).subset he)
  refine ⟨⟨hle, fun e he => ?_⟩, fun t ht => ?_⟩
  · rw [← takeWhile_append_dropWhile (p := fun e : Nat × Nat => e.2 ≤ after) (l := s.res)] at he
    rcases mem_append.mp he with he | he
    · have := takeWhile_le he
      exact .inl (by omega)
    · exact hfree e he
  · exact hmin t ht.1 fun e he => ht.2 e ((dropWhile_sublist _).subset he)

theorem earliestFree_val (h : s.Wf) (hd : 0 < d) (after : Nat) :
    s.earliestFree after d = after ∨ s.earliestFree after d ∈ s.res.map (·.2) := by
  unfold earliestFree
  rw [if_neg (by omega)]
  obtain ⟨-, -, -, hval⟩ := @slide_spec (s.res.dropWhile fun e => e.2 ≤ after) after d
    (h.apart.sublist (dropWhile_sublist _)) fun e he => h.pos e ((dropWhile_sublist _).subset he)
  rcases hval with hval | ⟨e, he, hval⟩
  · exact .inl hval
  · exact .inr (mem_map.mpr ⟨e, (dropWhile_sublist _).subset he, hval.symm⟩)

end IntervalSet

namespace BandwidthSet

variable {b : BandwidthSet} {l rest : List (Nat × ℚ)} {t u v c d start stop after : Nat} {w limit x y : ℚ}

def loadIn (l : List (Nat × ℚ)) (c : Nat) : ℚ := ((l.filter (·.1 ≤ c)).getLast?.map (·.2)).getD 0

def load (b : BandwidthSet) (c : Nat) : ℚ := loadIn b.levels c

structure Wf (b : BandwidthSet) : Prop where
  sorted : b.levels.Pairwise fun a b => a.1 < b.1
  zero : ∃ x rest, b.levels = (0, x) :: rest
  /-- every reservation ends -/
  tail : b.levels.getLast?.map (·.2) = some 0

theorem wf_empty : Wf empty := ⟨pairwise_singleton _ _, ⟨0, [], rfl⟩, rfl⟩

theorem load_empty (c : Nat) : empty.load c = 0 := rfl

/-! ### The load in a list of pieces -/

theorem loadIn_append (front behind : List (Nat × ℚ)) (hb : behind.filter (·.1 ≤ c) ≠ []) :
    loadIn (front ++ behind) c = loadIn behind c := by
  unfold loadIn
  rw [filter_append, getLast?_append_of_ne_nil _ hb]

theorem loadIn_front {front behind : List (Nat × ℚ)} (hb : ∀ e ∈ behind, c < e.1) :
    loadIn (front ++ behind) c = loadIn front c := by
  have hnil : behind.filter (·.1 ≤ c) = [] := by
    refine filter_eq_nil_iff.mpr fun e he => ?_
    have := hb e he
    rw [decide_eq_true_iff]
    omega
  unfold loadIn
  rw [filter_append, hnil, append_nil]

theorem loadIn_all {front : List (Nat × ℚ)} (hf : ∀ e ∈ front, e.1 ≤ c) :
    loadIn front c = (front.getLast?.map (·.2)).getD 0 := by
  unfold loadIn
  rw [filter_eq_self.mpr fun e he => decide_eq_true (hf e he)]

theorem takeWhile_lt {e : Nat × ℚ} (he : e ∈ l.takeWhile fun e => e.1 < t) : e.1 < t := by
  have h := mem_takeWhile_imp he
  exact of_decide_eq_true h

theorem dropWhile_ge (hs : l.Pairwise fun a b => a.1 < b.1) {e : Nat × ℚ}
    (he : e ∈ l.dropWhile fun e => e.1 < t) : t ≤ e.1 := by
  induction l with
  | nil => cases he
  | cons a l ih =>
    obtain ⟨ha, hl⟩ := pairwise_cons.mp hs
    rw [dropWhile_cons] at he
    split at he
    · exact ih hl he
    · next hat =>
      rw [decide_eq_true_iff] at hat
      rcases mem_cons.mp he with rfl | he
      · omega
      · have := ha e he
        omega

/-! ### Reserving -/

/-- an entry more, and the load as it was -/
structure Splits (b b' : BandwidthSet) (t : Nat) : Prop where
  wf : b'.Wf
  load : ∀ c, b'.load c = b.load c
  at_t : ∃ x, (t, x) ∈ b'.levels
  keeps : ∀ e ∈ b.levels, e ∈ b'.levels

theorem ensureBreakpoint_splits (h : b.Wf) (t : Nat) : Splits b (b.ensureBreakpoint t) t := by
  have hsplit := takeWhile_append_dropWhile (p := fun e : Nat × ℚ => e.1 < t) (l := b.levels)
  have hfront : ∀ e ∈ b.levels.takeWhile fun e => e.1 < t, e.1 < t := fun e he => takeWhile_lt he
  have hbehind : ∀ e ∈ b.levels.dropWhile fun e => e.1 < t, t ≤ e.1 := fun e he => dropWhile_ge h.sorted he
  unfold ensureBreakpoint
  dsimp only
  split
  · next hhead =>
    obtain ⟨e, he, hte⟩ := Option.map_eq_some_iff.mp hhead
    refine ⟨h, fun c => rfl, ⟨e.2, ?_⟩, fun _ he => he⟩
    rw [← hte]
    exact (dropWhile_sublist _).subset (mem_of_head? he)
  · next hhead =>
    -- behind the new entry all is later
    have hlater : ∀ e ∈ b.levels.dropWhile fun e => e.1 < t, t < e.1 := by
      have hs : (b.levels.dropWhile fun e => e.1 < t).Pairwise fun a b => a.1 < b.1 :=
        h.sorted.sublist (dropWhile_sublist _)
      revert hhead hbehind hs
      cases b.levels.dropWhile fun e => e.1 < t with
      | nil => exact fun _ _ _ _ => nofun
      | cons a rest =>
        intro hbehind hhead hs e he
        have hat : t < a.1 := Nat.lt_of_le_of_ne (hbehind a mem_cons_self) fun heq => hhead (by rw [heq]; rfl)
        rcases mem_cons.mp he with rfl | he
        · exact hat
        · exact hat.trans ((pairwise_cons.mp hs).1 e he)
    obtain ⟨x0, rest0, hzero⟩ := h.zero
    have hpos : 0 < t := by
      rcases Nat.eq_zero_or_pos t with h0 | hpos
      · subst h0
        refine absurd ?_ hhead
        rw [hzero]
        rfl
      · exact hpos
    have hfirst : ∃ rest, (b.levels.takeWhile fun e => e.1 < t) = (0, x0) :: rest := by
      rw [hzero, takeWhile_cons, if_pos (decide_eq_true hpos)]
      exact ⟨_, rfl⟩
    refine ⟨⟨?_, ?_, ?_⟩, fun c => ?_, ⟨_, mem_append_right _ mem_cons_self⟩, fun e he => ?_⟩
    · refine pairwise_append.mpr ⟨h.sorted.sublist (takeWhile_sublist _), ?_, fun a ha e he => ?_⟩
      · exact pairwise_cons.mpr ⟨hlater, h.sorted.sublist (dropWhile_sublist _)⟩
      · have hat := hfront a ha
        rcases mem_cons.mp he with rfl | he
        · exact hat
        · exact hat.trans (hlater e he)
    · obtain ⟨rest, hrest⟩ := hfirst
      exact ⟨x0, rest ++ _, by rw [hrest]; rfl⟩
    · rw [getLast?_append_of_ne_nil _ (cons_ne_nil _ _)]
      have htail := h.tail
      rw [← hsplit] at htail
      revert htail
      cases hd : b.levels.dropWhile fun e => e.1 < t with
      | nil =>
        intro htail
        rw [append_nil] at htail
        rw [getLast?_singleton, htail]
        rfl
      | cons a rest =>
        intro htail
        rw [getLast?_append_of_ne_nil _ (cons_ne_nil _ _)] at htail
        rw [getLast?_cons_cons]
        exact htail
    · show loadIn _ c = loadIn b.levels c
      conv_rhs => rw [← hsplit]
      rcases lt_or_ge c t with hct | htc
      · rw [loadIn_front (fun e he => ?_), loadIn_front fun e he => hct.trans (hlater e he)]
        rcases mem_cons.mp he with rfl | he
        · exact hct
        · exact hct.trans (hlater e he)
      · have hin : ((t, ((b.levels.takeWhile fun e => e.1 < t).getLast?.map (·.2)).getD 0) ::
            b.levels.dropWhile fun e => e.1 < t).filter (·.1 ≤ c) ≠ [] := by
          rw [filter_cons, if_pos (decide_eq_true htc)]
          exact cons_ne_nil _ _
        rw [loadIn_append _ _ hin]
        by_cases hb : (b.levels.dropWhile fun e => e.1 < t).filter (·.1 ≤ c) = []
        · -- the new entry is the last one
          have hnone : ∀ e ∈ b.levels.dropWhile fun e => e.1 < t, c < e.1 := fun e he => by
            have := filter_eq_nil_iff.mp hb e he
            rw [decide_eq_true_iff] at this
            omega
          rw [loadIn_front hnone, loadIn_all fun e he => (hfront e he).le.trans htc]
          unfold loadIn
          rw [filter_cons, if_pos (decide_eq_true htc), hb]
          rfl
        · rw [loadIn_append _ _ hb, ← singleton_append, loadIn_append _ _ hb]
    · rw [← hsplit] at he
      rcases mem_append.mp he with he | he
      · exact mem_append_left _ he
      · exact mem_append_right _ (mem_cons_of_mem _ he)

def bump (start stop : Nat) (w : ℚ) (e : Nat × ℚ) : Nat × ℚ :=
  if start ≤ e.1 ∧ e.1 < stop then (e.1, e.2 + w) else e

theorem bump_fst (e : Nat × ℚ) : (bump start stop w e).1 = e.1 := by
  unfold bump
  split <;> rfl

/-- Where the window begins and ends at entries, the entries in it are those of its cycles. -/
theorem loadIn_bump (hs : l.Pairwise fun a b => a.1 < b.1) (h0 : ∃ x rest, l = (0, x) :: rest)
    (hstart : ∃ x, (start, x) ∈ l) (hstop : ∃ x, (stop, x) ∈ l) :
    loadIn (l.map (bump start stop w)) c = loadIn l c + if start ≤ c ∧ c < stop then w else 0 := by
  have hfilter : (l.map (bump start stop w)).filter (·.1 ≤ c) = (l.filter (·.1 ≤ c)).map (bump start stop w) := by
    rw [filter_map]
    congr 2
    funext e
    show decide ((bump start stop w e).1 ≤ c) = _
    rw [bump_fst]
  unfold loadIn
  rw [hfilter, getLast?_map]
  cases hlast : (l.filter (·.1 ≤ c)).getLast? with
  | none =>
    obtain ⟨x, rest, rfl⟩ := h0
    rw [getLast?_eq_none_iff, filter_eq_nil_iff] at hlast
    exact absurd (decide_eq_true (Nat.zero_le c)) (hlast (0, x) mem_cons_self)
  | some e =>
    -- the last entry up to the cycle is behind no other entry up to it
    have hmem := mem_of_getLast? hlast
    rw [mem_filter, decide_eq_true_iff] at hmem
    have hgreatest : ∀ a ∈ l, a.1 ≤ c → a.1 ≤ e.1 := by
      intro a ha hac
      have hin : a ∈ l.filter (·.1 ≤ c) := mem_filter.mpr ⟨ha, decide_eq_true hac⟩
      obtain ⟨front, hfront⟩ := getLast?_eq_some_iff.mp hlast
      have hsf : (l.filter (·.1 ≤ c)).Pairwise fun a b => a.1 < b.1 := hs.sublist filter_sublist
      rw [hfront] at hin hsf
      rcases mem_append.mp hin with hin | hin
      · exact ((pairwise_append.mp hsf).2.2 a hin e (mem_singleton.mpr rfl)).le
      · rw [mem_singleton.mp hin]
    have hwin : (start ≤ e.1 ∧ e.1 < stop) ↔ start ≤ c ∧ c < stop := by
      obtain ⟨x, hx⟩ := hstart
      obtain ⟨y, hy⟩ := hstop
      have hge := hgreatest _ hx
      have hge' := hgreatest _ hy
      dsimp only at hge hge'
      omega
    simp only [Option.map_some, Option.getD_some, bump]
    by_cases hw : start ≤ c ∧ c < stop
    · rw [if_pos (hwin.mpr hw), if_pos hw]
    · rw [if_neg (fun h => hw (hwin.mp h)), if_neg hw, add_zero]

theorem reserve_spec (h : b.Wf) (hlt : start < stop) (w : ℚ) : (b.reserve start stop w).Wf ∧
    ∀ c, (b.reserve start stop w).load c = b.load c + if start ≤ c ∧ c < stop then w else 0 := by
  have h1 := ensureBreakpoint_splits h start
  have h2 := ensureBreakpoint_splits h1.wf stop
  obtain ⟨x, hx⟩ := h1.at_t
  have hstart : ∃ x, (start, x) ∈ ((b.ensureBreakpoint start).ensureBreakpoint stop).levels := ⟨x, h2.keeps _ hx⟩
  unfold reserve
  rw [if_neg (by omega)]
  refine ⟨⟨?_, ?_, ?_⟩, fun c => ?_⟩
  · refine pairwise_map.mpr (h2.wf.sorted.imp fun hab => ?_)
    exact (bump_fst _).trans_lt (hab.trans_eq (bump_fst _).symm)
  · obtain ⟨x0, rest, hzero⟩ := h2.wf.zero
    refine ⟨(bump start stop w (0, x0)).2, rest.map (bump start stop w), ?_⟩
    dsimp only
    rw [hzero, map_cons]
    refine congrArg₂ List.cons ?_ rfl
    exact Prod.ext (bump_fst (0, x0)) rfl
  · -- the last entry is not before the end of the window
    obtain ⟨y, hy⟩ := h2.at_t
    obtain ⟨e, he, he0⟩ := Option.map_eq_some_iff.mp h2.wf.tail
    have hge : stop ≤ e.1 := by
      obtain ⟨front, hfront⟩ := getLast?_eq_some_iff.mp he
      have hs := h2.wf.sorted
      rw [hfront] at hy hs
      rcases mem_append.mp hy with hy | hy
      · exact ((pairwise_append.mp hs).2.2 _ hy e (mem_singleton.mpr rfl)).le
      · rw [← mem_singleton.mp hy]
    show ((List.map (bump start stop w) _).getLast?).map _ = _
    rw [getLast?_map, he, Option.map_some, Option.map_some]
    unfold bump
    rw [if_neg (by omega), he0]
  · have hload := @loadIn_bump ((b.ensureBreakpoint start).ensureBreakpoint stop).levels c start stop w
      h2.wf.sorted h2.wf.zero hstart h2.at_t
    exact hload.trans (congrArg (· + _) ((h2.load c).trans (h1.load c)))

/-! ### The earliest window -/

def FitsIn (l : List (Nat × ℚ)) (d : Nat) (w limit : ℚ) (t : Nat) : Prop :=
  ∀ c, t ≤ c → c < t + d → (∃ e ∈ l, e.1 ≤ c) → loadIn l c + w ≤ limit + slack

theorem loadIn_cons {a a' : Nat × ℚ} (hc : a'.1 ≤ c) :
    loadIn (a :: a' :: rest) c = loadIn (a' :: rest) c := by
  have hne : (a' :: rest).filter (·.1 ≤ c) ≠ [] := by
    rw [filter_cons, if_pos (decide_eq_true hc)]
    exact cons_ne_nil _ _
  exact loadIn_append [a] _ hne

theorem loadIn_head {a : Nat × ℚ} (hc : a.1 ≤ c) (hrest : ∀ e ∈ rest, c < e.1) :
    loadIn (a :: rest) c = a.2 := by
  have hfront := @loadIn_front c [a] rest hrest
  rw [singleton_append] at hfront
  rw [hfront, loadIn_all fun e he => by rw [mem_singleton.mp he]; exact hc]
  rfl

theorem nextIn_spec (hs : l.Pairwise fun a b => a.1 < b.1) (htail : l.getLast?.map (·.2) = some 0) (hd : 0 < d)
    (hw : w ≤ limit + slack) (hnext : ∀ e ∈ l.tail, t ≤ e.1) :
    t ≤ nextIn d w limit l t ∧ FitsIn l d w limit (nextIn d w limit l t) ∧
      (∀ v, t ≤ v → FitsIn l d w limit v → nextIn d w limit l t ≤ v) ∧
        (nextIn d w limit l t = t ∨ ∃ e ∈ l, nextIn d w limit l t = e.1) := by
  induction l generalizing t with
  | nil => cases htail
  | cons a l ih =>
    obtain ⟨ha, hl⟩ := pairwise_cons.mp hs
    cases l with
    | nil =>
      refine ⟨le_rfl, fun c _ _ hc => ?_, fun v hv _ => hv, .inl rfl⟩
      obtain ⟨e, he, hec⟩ := hc
      rw [mem_singleton.mp he] at hec
      have h0 : a.2 = 0 := Option.some.inj htail
      rw [loadIn_head hec fun e he => absurd he not_mem_nil, h0, zero_add]
      exact hw
    | cons a' rest =>
      have hta' : t ≤ a'.1 := hnext a' mem_cons_self
      have htail' : (a' :: rest).getLast?.map (·.2) = some 0 := by
        rw [getLast?_cons_cons] at htail
        exact htail
      have hrest : ∀ e ∈ rest, a'.1 ≤ e.1 := fun e he => ((pairwise_cons.mp hl).1 e he).le
      have hlater : ∀ c < a'.1, ∀ e ∈ a' :: rest, c < e.1 := by
        intro c hc e he
        rcases mem_cons.mp he with rfl | he
        · exact hc
        · exact hc.trans_le (hrest e he)
      unfold nextIn
      split
      · next hgap =>
        refine ⟨le_rfl, fun c htc hcd hc => ?_, fun v hv _ => hv, .inl rfl⟩
        obtain ⟨e, he, hec⟩ := hc
        rcases mem_cons.mp he with rfl | he
        · omega
        · have := ha e he
          omega
      · next hno =>
        split
        · next hover =>
          -- no window may meet the piece
          obtain ⟨hle, hfits, hmin, hval⟩ := @ih a'.1 hl htail' hrest
          refine ⟨hta'.trans hle, fun c huc hcd _ => ?_, fun v hv hf => ?_, ?_⟩
          · rw [loadIn_cons (hle.trans huc)]
            exact hfits c huc hcd ⟨a', mem_cons_self, hle.trans huc⟩
          · rcases lt_or_ge v a'.1 with hva | hav
            · have hbad := hf (max v a.1) (by omega) (by omega) ⟨a, mem_cons_self, le_max_right _ _⟩
              have hmax : max v a.1 < a'.1 := by
                have := ha a' mem_cons_self
                omega
              rw [loadIn_head (le_max_right _ _) (hlater _ hmax)] at hbad
              exact absurd hover (not_lt.mpr hbad)
            · refine hmin v hav fun c hvc hcd _ => ?_
              have hac := hav.trans hvc
              have := hf c hvc hcd ⟨a, mem_cons_self, (ha a' mem_cons_self).le.trans hac⟩
              rwa [loadIn_cons hac] at this
          · rcases hval with hval | ⟨e, he, hval⟩
            · exact .inr ⟨a', mem_cons_of_mem _ mem_cons_self, hval⟩
            · exact .inr ⟨e, mem_cons_of_mem _ he, hval⟩
        · next hunder =>
          obtain ⟨hle, hfits, hmin, hval⟩ := @ih t hl htail' fun e he => hta'.trans (hrest e he)
          refine ⟨hle, fun c huc hcd hc => ?_, fun v hv hf => ?_, ?_⟩
          · rcases lt_or_ge c a'.1 with hca | hac
            · obtain ⟨e, he, hec⟩ := hc
              have hac : a.1 ≤ c := by
                rcases mem_cons.mp he with rfl | he
                · exact hec
                · exact absurd hec (not_le.mpr (hlater c hca e he))
              rw [loadIn_head hac (hlater c hca)]
              exact not_lt.mp hunder
            · rw [loadIn_cons hac]
              exact hfits c huc hcd ⟨a', mem_cons_self, hac⟩
          · refine hmin v hv fun c hvc hcd hc => ?_
            obtain ⟨e, he, hec⟩ := hc
            have hac : a'.1 ≤ c := by
              rcases mem_cons.mp he with rfl | he
              · exact hec
              · exact (hrest e he).trans hec
            have := hf c hvc hcd ⟨a', mem_cons_of_mem _ mem_cons_self, hac⟩
            rwa [loadIn_cons hac] at this
          · rcases hval with hval | ⟨e, he, hval⟩
            · exact .inl hval
            · exact .inr ⟨e, mem_cons_of_mem _ he, hval⟩

def Fits (b : BandwidthSet) (d : Nat) (w limit : ℚ) (t : Nat) : Prop :=
  ∀ c, t ≤ c → c < t + d → b.load c + w ≤ limit + slack

/-- The pieces from a cycle on say what the load is from there on. -/
theorem piecesFrom_spec (h : b.Wf) (after : Nat) : ∃ front a rest, b.levels = front ++ a :: rest ∧
    b.piecesFrom after = a :: rest ∧ a.1 ≤ after ∧ ∀ e ∈ rest, after < e.1 := by
  obtain ⟨x0, rest0, hzero⟩ := h.zero
  have hsplit := takeWhile_append_dropWhile (p := fun e : Nat × ℚ => e.1 ≤ after) (l := b.levels)
  have hne : (b.levels.takeWhile fun e => e.1 ≤ after) ≠ [] := by
    rw [hzero, takeWhile_cons, if_pos (decide_eq_true (Nat.zero_le _))]
    exact cons_ne_nil _ _
  obtain ⟨front, a, hfront⟩ : ∃ front a, (b.levels.takeWhile fun e => e.1 ≤ after) = front ++ [a] :=
    ⟨_, _, (dropLast_append_getLast hne).symm⟩
  have hlevels : b.levels = front ++ a :: b.levels.dropWhile fun e => e.1 ≤ after := by
    conv_lhs => rw [← hsplit, hfront, append_assoc, singleton_append]
  refine ⟨front, a, _, hlevels, ?_, ?_, ?_⟩
  · unfold piecesFrom
    rw [hfront, length_append, length_singleton, Nat.add_sub_cancel]
    conv_lhs => rw [hlevels]
    exact drop_left
  · have hmem : a ∈ b.levels.takeWhile fun e => e.1 ≤ after := by
      rw [hfront]
      exact mem_append_right _ mem_cons_self
    have h := mem_takeWhile_imp hmem
    exact of_decide_eq_true h
  · -- the first entry that is dropped is later, and so are those behind it
    have hs : (b.levels.dropWhile fun e => e.1 ≤ after).Pairwise fun a b => a.1 < b.1 :=
      h.sorted.sublist (dropWhile_sublist _)
    have hhead := head?_dropWhile_not (fun e : Nat × ℚ => decide (e.1 ≤ after)) b.levels
    revert hs hhead
    cases b.levels.dropWhile fun e => e.1 ≤ after with
    | nil => exact fun _ _ _ => nofun
    | cons q rest =>
      intro hs hhead e he
      have hq : after < q.1 := by
        have : decide (q.1 ≤ after) = false := hhead
        rw [decide_eq_false_iff_not] at this
        omega
      rcases mem_cons.mp he with rfl | he
      · exact hq
      · exact hq.trans ((pairwise_cons.mp hs).1 e he)

theorem nextFeasible_spec (h : b.Wf) (hd : 0 < d) (hw : w ≤ limit + slack) (after : Nat) :
    IsLeast {t | after ≤ t ∧ b.Fits d w limit t} (b.nextFeasible after d w limit) ∧
      (b.nextFeasible after d w limit = after ∨ b.nextFeasible after d w limit ∈ b.levels.map (·.1)) := by
  obtain ⟨front, a, rest, hlevels, hpieces, hle, hrest⟩ := piecesFrom_spec h after
  have hs : (a :: rest).Pairwise fun a b => a.1 < b.1 := by
    have := h.sorted
    rw [hlevels] at this
    exact (pairwise_append.mp this).2.1
  have htail : (a :: rest).getLast?.map (·.2) = some 0 := by
    have := h.tail
    rwa [hlevels, getLast?_append_of_ne_nil _ (cons_ne_nil _ _)] at this
  have hload : ∀ c, after ≤ c → b.load c = loadIn (a :: rest) c := by
    intro c hc
    unfold load
    rw [hlevels]
    refine loadIn_append _ _ ?_
    rw [filter_cons, if_pos (decide_eq_true (hle.trans hc))]
    exact cons_ne_nil _ _
  have hfits : ∀ t, after ≤ t → (FitsIn (a :: rest) d w limit t ↔ b.Fits d w limit t) := by
    intro t ht
    constructor
    · intro hf c htc hcd
      rw [hload c (ht.trans htc)]
      exact hf c htc hcd ⟨a, mem_cons_self, hle.trans (ht.trans htc)⟩
    · intro hf c htc hcd _
      rw [← hload c (ht.trans htc)]
      exact hf c htc hcd
  obtain ⟨hge, hf, hmin, hval⟩ := @nextIn_spec (a :: rest) after d w limit hs htail hd hw
    fun e he => (hrest e he).le
  unfold nextFeasible
  rw [hpieces, max_eq_left hd]
  refine ⟨⟨⟨hge, (hfits _ hge).mp hf⟩, fun v hv => hmin v hv.1 ((hfits v hv.1).mpr hv.2)⟩, ?_⟩
  rcases hval with hval | ⟨e, he, hval⟩
  · exact .inl hval
  · refine .inr (mem_map.mpr ⟨e, ?_, hval.symm⟩)
    rw [hlevels]
    exact mem_append_right _ he

end BandwidthSet

end Plow.Schedule
