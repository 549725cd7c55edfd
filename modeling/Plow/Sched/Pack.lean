import Plow.TokenBatch.Model

/-!
# Admission for one prefill launch

`admit` and `admitOldestFirst` pick the spans of one cross-request launch: the valid candidates, the
first one for a slot (`validSpans`), in rotation or arrival order, those of the first one's program
packed into its bucket (`packInOrder`).

A pack is `Packs rows offered spans`: the spans serve a sublist of the offered candidates, in order,
each at the row where the one before it ends, none wider than its offer, and all of them within the
bucket. `packInOrder_packs` is the result of this file; the rest of a tick only needs that.
-/

namespace Plow.Sched

open Plow.TokenBatch (PrefillSpan)

inductive SpanPolicy
  | whole
  | fairSplit
  | greedy
  deriving DecidableEq

def u32Max : ℕ := 2 ^ 32 - 1

theorem eight_le_u32Max : 8 ≤ u32Max := by decide

/-- one bit per slot, in words of 64 -/
structure SlotSet where
  words : List (BitVec 64)

def SlotSet.withCapacity (slots : ℕ) : SlotSet := ⟨List.replicate ((slots + 63) / 64) 0⟩

def SlotSet.contains (q : SlotSet) (slot : ℕ) : Bool :=
  match q.words[slot / 64]? with
  | some w => w.getLsbD (slot % 64)
  | none => false

/-- the set with the slot, and whether the slot is new and within the capacity -/
def SlotSet.insert (q : SlotSet) (slot : ℕ) : SlotSet × Bool :=
  match q.words[slot / 64]? with
  | some w =>
    if w.getLsbD (slot % 64) then (q, false)
    else (⟨q.words.set (slot / 64) (w ||| BitVec.twoPow 64 (slot % 64))⟩, true)
  | none => (q, false)

structure PrefillPack where
  spans : List PrefillSpan
  bucketRows : ℕ

def PrefillPack.none : PrefillPack := ⟨[], 0⟩

/-- `limit_spans`: at most `max` spans -/
def PrefillPack.limitSpans (p : PrefillPack) (max : ℕ) : PrefillPack := { p with spans := p.spans.take max }

/-- what a span must be to enter a pack, its slot apart -/
def validSpan (span : PrefillSpan) (rowLimit capacity : ℕ) (policy : SpanPolicy) : Bool :=
  span.nRows ≠ 0 && span.stateSlot = span.slot &&
    (span.kvRow0 + span.nRows ≤ u32Max && span.kvRow0 + span.nRows = span.kvLen) &&
    (policy ≠ .whole || span.nRows ≤ rowLimit) && span.slot < capacity

/-- the candidates a pack may take, the first one per slot -/
def validSpans (rowLimit capacity : ℕ) (policy : SpanPolicy) :
    SlotSet → List (ℕ × PrefillSpan) → List (ℕ × PrefillSpan)
  | _, [] => []
  | occupied, c :: cs =>
    if validSpan c.2 rowLimit capacity policy then
      match occupied.insert c.2.slot with
      | (occupied, true) => c :: validSpans rowLimit capacity policy occupied cs
      | (occupied, false) => validSpans rowLimit capacity policy occupied cs
    else validSpans rowLimit capacity policy occupied cs

/-- how many rows the span gets of those left, with `left` candidates to come; `none` skips it -/
def take (policy : SpanPolicy) (span : PrefillSpan) (remaining left : ℕ) : Option ℕ :=
  match policy with
  | .whole => if span.nRows ≤ remaining then some span.nRows else none
  | .fairSplit =>
    let candidatesLeft := min left u32Max
    some (min span.nRows ((remaining + candidatesLeft - 1) / candidatesLeft))
  | .greedy => some (min span.nRows remaining)

def add32 (a b : ℕ) : ℕ := (a + b) % 2 ^ 32

/-- the span cut to `n` rows from packed row `row0` on -/
def place (span : PrefillSpan) (row0 n : ℕ) : PrefillSpan :=
  { span with row0 := row0, nRows := n, kvLen := add32 span.kvRow0 n }

/-- the rows packed behind `rows`, from the candidate `index` of `count` on -/
def packLoop (policy : SpanPolicy) (bucket count : ℕ) : ℕ → ℕ → List PrefillSpan → List PrefillSpan
  | _, _, [] => []
  | index, rows, span :: rest =>
    let remaining := bucket - rows
    if remaining = 0 then []
    else
      match take policy span remaining (count - index) with
      | none => packLoop policy bucket count (index + 1) rows rest
      | some n => place span rows n :: packLoop policy bucket count (index + 1) (rows + n) rest

/-- rows that short requests left over, given back in order -/
def reclaim : ℕ → ℕ → List PrefillSpan → List PrefillSpan → List PrefillSpan
  | spare, row0, span :: spans, offered :: rest =>
    let extra := min spare (offered.nRows - span.nRows)
    place span row0 (span.nRows + extra) ::
      reclaim (spare - extra) (row0 + (span.nRows + extra)) spans rest
  | _, _, spans, _ => spans

def denseRows (spans : List PrefillSpan) : ℕ := (spans.map PrefillSpan.nRows).sum

def packInOrder (ordered : List PrefillSpan) (rowLimit : ℕ) (policy : SpanPolicy)
    (programRows : ℕ → Option ℕ) : PrefillPack :=
  match ordered.head? with
  | none => .none
  | some head =>
    match programRows head.program with
    | none => .none
    | some rows =>
      let bucket := min rows rowLimit
      if bucket = 0 then .none
      else
        let ordered := ordered.filter (fun span => span.program = head.program)
        let spans := packLoop policy bucket ordered.length 0 0 ordered
        let rows := denseRows spans
        if policy = .fairSplit ∧ rows < bucket then ⟨reclaim (bucket - rows) 0 spans ordered, bucket⟩
        else ⟨spans, bucket⟩

/-- rotation order: the slots from `start` on, then the others -/
def rotates (start : ℕ) (a b : ℕ × PrefillSpan) : Prop :=
  (a.2.slot < start → b.2.slot < start) ∧
    ((a.2.slot < start ↔ b.2.slot < start) → a.2.slot ≤ b.2.slot)

instance (start : ℕ) : DecidableRel (rotates start) := fun _ _ => inferInstanceAs (Decidable (_ ∧ _))

def older (a b : ℕ × PrefillSpan) : Prop := a.1 < b.1 ∨ (a.1 = b.1 ∧ a.2.slot ≤ b.2.slot)

instance : DecidableRel older := fun _ _ => inferInstanceAs (Decidable (_ ∨ _))

def admitSpans (candidates : List PrefillSpan) (rowLimit start capacity : ℕ) (policy : SpanPolicy)
    (programRows : ℕ → Option ℕ) : PrefillPack :=
  if rowLimit = 0 ∨ capacity = 0 then .none
  else
    let valid := validSpans rowLimit capacity policy (.withCapacity capacity)
      (candidates.map (fun span => (0, span)))
    let ordered := valid.insertionSort (rotates (start % capacity))
    packInOrder (ordered.map Prod.snd) rowLimit policy programRows

def admitOldestFirst (candidates : List (ℕ × PrefillSpan)) (rowLimit capacity : ℕ)
    (policy : SpanPolicy) (programRows : ℕ → Option ℕ) : PrefillPack :=
  if rowLimit = 0 ∨ capacity = 0 then .none
  else
    let valid := validSpans rowLimit capacity policy (.withCapacity capacity) candidates
    let ordered := valid.insertionSort older
    packInOrder (ordered.map Prod.snd) rowLimit policy programRows

end Plow.Sched

/-!
# What a pack is

`Packs Q row0 offered spans`: the spans serve some of the offered candidates, in the order offered,
the first one from packed row `row0` on and each where the one before it ends; `Q` relates an offer
to the rows it gets. Every admission yields such a pack (`admit_packs`, `admitOldestFirst_packs`),
within the rows of the program of its first candidate.
-/

namespace Plow.Sched

open Plow.TokenBatch (PrefillSpan)

variable {q : SlotSet} {a b slot row0 rows bucket count index limit capacity n : ℕ}
  {policy : SpanPolicy} {o : PrefillSpan} {os ss candidates : List PrefillSpan} {programRows : ℕ → Option ℕ}

/-! ### Slot sets -/

theorem contains_insert_of_contains (h : q.contains b = true) : (q.insert a).1.contains b = true := by
  unfold SlotSet.insert
  split
  · next w hw =>
    split
    · exact h
    · unfold SlotSet.contains at h ⊢
      rw [List.getElem?_set]
      by_cases hi : a / 64 = b / 64
      · rw [if_pos hi]
        rw [hi] at hw
        simp only [hw] at h
        have hlt := (List.getElem?_eq_some_iff.mp hw).1
        rw [if_pos (by omega)]
        simp only [BitVec.getLsbD_or, h, Bool.true_or]
      · rw [if_neg hi]
        exact h
  · exact h

theorem insert_new (h : (q.insert a).2 = true) :
    q.contains a = false ∧ (q.insert a).1.contains a = true := by
  unfold SlotSet.insert at h ⊢
  split at h
  · next w hw =>
    split at h
    · cases h
    · next hbit =>
      have hlt := (List.getElem?_eq_some_iff.mp hw).1
      have hmod : a % 64 < 64 := Nat.mod_lt _ (by omega)
      simp only [SlotSet.contains, hw, if_neg hbit, List.getElem?_set, if_true, if_pos hlt,
        BitVec.getLsbD_or, BitVec.getLsbD_twoPow]
      refine ⟨Bool.not_eq_true _ ▸ hbit, ?_⟩
      simp only [hmod, decide_true, Bool.true_and, Bool.or_true]
  · cases h

theorem contains_insert (h : (q.insert a).1.contains b = true) : q.contains b = true ∨ b = a := by
  unfold SlotSet.insert at h
  split at h
  · next w hw =>
    split at h
    · exact .inl h
    · by_cases hba : b = a
      · exact .inr hba
      · refine .inl ?_
        unfold SlotSet.contains at h ⊢
        rw [List.getElem?_set] at h
        by_cases hi : a / 64 = b / 64
        · have hlt := (List.getElem?_eq_some_iff.mp hw).1
          rw [if_pos hi, if_pos (by omega)] at h
          rw [← hi, hw]
          have hmod : a % 64 ≠ b % 64 := by omega
          simpa only [BitVec.getLsbD_or, BitVec.getLsbD_twoPow, Bool.or_eq_true, Bool.and_eq_true,
            decide_eq_true_eq, beq_iff_eq, hmod, and_false, or_false] using h
        · rw [if_neg hi] at h
          exact h
  · exact .inl h

theorem contains_insert_self (hq : q.words.length = (capacity + 63) / 64) (hs : slot < capacity) :
    (q.insert slot).1.contains slot = true := by
  cases hnew : (q.insert slot).2 with
  | true => exact (insert_new hnew).2
  | false =>
    have hlt : slot / 64 < q.words.length := by omega
    unfold SlotSet.insert at hnew ⊢
    rw [List.getElem?_eq_getElem hlt] at hnew ⊢
    simp only at hnew ⊢
    split at hnew
    · next hbit =>
      rw [if_pos hbit, SlotSet.contains, List.getElem?_eq_getElem hlt]
      exact hbit
    · cases hnew

theorem insert_length (q : SlotSet) (slot : ℕ) :
    (q.insert slot).1.words.length = q.words.length := by
  unfold SlotSet.insert
  split
  · split
    · rfl
    · exact List.length_set
  · rfl

theorem withCapacity_length (slots : ℕ) :
    (SlotSet.withCapacity slots).words.length = (slots + 63) / 64 := List.length_replicate

theorem contains_withCapacity (slots slot : ℕ) : (SlotSet.withCapacity slots).contains slot = false := by
  unfold SlotSet.contains SlotSet.withCapacity
  rw [List.getElem?_replicate]
  split
  · next h =>
    split at h
    · cases h
      exact BitVec.getLsbD_zero
    · cases h
  · rfl

/-! ### Valid candidates -/

theorem validSpan_iff : validSpan o limit capacity policy = true ↔
    o.nRows ≠ 0 ∧ o.stateSlot = o.slot ∧ o.kvRow0 + o.nRows ≤ u32Max ∧ o.kvRow0 + o.nRows = o.kvLen ∧
      (policy = .whole → o.nRows ≤ limit) ∧ o.slot < capacity := by
  simp only [validSpan, Bool.and_eq_true, decide_eq_true_eq, Bool.or_eq_true, ne_eq]
  constructor
  · rintro ⟨⟨⟨⟨h1, h2⟩, h3, h4⟩, h5⟩, h6⟩
    exact ⟨h1, h2, h3, h4, fun hp => h5.resolve_left (not_not_intro hp), h6⟩
  · rintro ⟨h1, h2, h3, h4, h5, h6⟩
    exact ⟨⟨⟨⟨h1, h2⟩, h3, h4⟩, (em (policy = .whole)).symm.imp id h5⟩, h6⟩

theorem validSpans_spec (q : SlotSet) (cs : List (ℕ × PrefillSpan)) :
    (validSpans limit capacity policy q cs).Sublist cs ∧
    (∀ c ∈ validSpans limit capacity policy q cs,
      validSpan c.2 limit capacity policy = true ∧ q.contains c.2.slot = false) ∧
    ((validSpans limit capacity policy q cs).map (fun c => c.2.slot)).Nodup := by
  induction cs generalizing q with
  | nil => exact ⟨.refl _, nofun, List.nodup_nil⟩
  | cons c cs ih =>
    unfold validSpans
    split
    · next hv =>
      cases hi : q.insert c.2.slot with
      | mk q' new =>
        have hq' : q' = (q.insert c.2.slot).1 := by rw [hi]
        have hmono : ∀ x, q'.contains x = false → q.contains x = false := by
          intro x hx
          by_contra hc
          rw [Bool.not_eq_false] at hc
          rw [hq', contains_insert_of_contains hc] at hx
          cases hx
        obtain ⟨h1, h2, h3⟩ := ih q'
        cases new with
        | true =>
          obtain ⟨hnot, hin⟩ := insert_new (q := q) (a := c.2.slot) (by rw [hi])
          refine ⟨h1.cons_cons c, ?_, ?_⟩
          · intro d hd
            rcases List.mem_cons.mp hd with rfl | hd
            · exact ⟨hv, hnot⟩
            · exact ⟨(h2 d hd).1, hmono _ (h2 d hd).2⟩
          · rw [List.map_cons, List.nodup_cons]
            refine ⟨?_, h3⟩
            intro hmem
            obtain ⟨d, hd, hds⟩ := List.mem_map.mp hmem
            have := (h2 d hd).2
            rw [hds, hq', hin] at this
            cases this
        | false => exact ⟨h1.cons c, fun d hd => ⟨(h2 d hd).1, hmono _ (h2 d hd).2⟩, h3⟩
    · obtain ⟨h1, h2, h3⟩ := ih q
      exact ⟨h1.cons c, h2, h3⟩

/-! ### Packs -/

inductive Packs (Q : PrefillSpan → ℕ → Prop) : ℕ → List PrefillSpan → List PrefillSpan → Prop
  | nil {row0 : ℕ} {os : List PrefillSpan} : Packs Q row0 os []
  | skip {row0 : ℕ} {o : PrefillSpan} {os ss : List PrefillSpan} : Packs Q row0 os ss → Packs Q row0 (o :: os) ss
  | take {row0 n : ℕ} {o : PrefillSpan} {os ss : List PrefillSpan} : Q o n → Packs Q (row0 + n) os ss →
      Packs Q row0 (o :: os) (place o row0 n :: ss)

def Cut (policy : SpanPolicy) (o : PrefillSpan) (n : ℕ) : Prop :=
  1 ≤ n ∧ n ≤ o.nRows ∧ (policy = .whole → n = o.nRows)

theorem place_place (o : PrefillSpan) (r n r' n' : ℕ) : place (place o r n) r' n' = place o r' n' := rfl

theorem denseRows_cons (o : PrefillSpan) (os : List PrefillSpan) :
    denseRows (o :: os) = o.nRows + denseRows os := List.sum_cons

section Packs
variable {Q Q' : PrefillSpan → ℕ → Prop}

theorem Packs.prefix_take (h : Packs Q row0 os ss) (k : ℕ) : Packs Q row0 os (ss.take k) := by
  induction h generalizing k with
  | nil => rw [List.take_nil]; exact .nil
  | skip _ ih => exact .skip (ih k)
  | take hq _ ih =>
    rcases k with _ | k
    · exact .nil
    · exact .take hq (ih k)

theorem Packs.slots (h : Packs Q row0 os ss) :
    (ss.map PrefillSpan.slot).Sublist (os.map PrefillSpan.slot) := by
  induction h with
  | nil => exact List.nil_sublist _
  | skip _ ih => exact ih.cons _
  | take _ _ ih => exact ih.cons_cons _

theorem Packs.serves (h : Packs Q row0 os ss) :
    ∀ s ∈ ss, ∃ o ∈ os, ∃ r n, Q o n ∧ s = place o r n := by
  induction h with
  | nil => exact nofun
  | skip _ ih =>
    intro s hs
    obtain ⟨o, ho, h⟩ := ih s hs
    exact ⟨o, List.mem_cons_of_mem _ ho, h⟩
  | take hq _ ih =>
    intro s hs
    rcases List.mem_cons.mp hs with rfl | hs
    · exact ⟨_, List.mem_cons_self, _, _, hq, rfl⟩
    · obtain ⟨o, ho, h⟩ := ih s hs
      exact ⟨o, List.mem_cons_of_mem _ ho, h⟩

theorem Packs.row0_eq (h : Packs Q row0 os ss) (i : ℕ) {s : PrefillSpan} (hi : ss[i]? = some s) :
    s.row0 = row0 + denseRows (ss.take i) := by
  induction h generalizing i with
  | nil => cases hi
  | skip _ ih => exact ih i hi
  | take _ _ ih =>
    rcases i with _ | i
    · cases hi
      rfl
    · rw [ih i hi, List.take_succ_cons, denseRows_cons, ← add_assoc]
      rfl

end Packs

theorem take_spec (hn : o.nRows ≠ 0) (hrem : row0 ≠ 0) (hleft : 0 < count)
    (h : take policy o row0 count = some n) : Cut policy o n ∧ n ≤ row0 := by
  unfold take at h
  cases policy with
  | whole =>
    simp only at h
    split at h
    · next hle =>
      cases h
      exact ⟨⟨Nat.one_le_iff_ne_zero.mpr hn, le_rfl, fun _ => rfl⟩, hle⟩
    · cases h
  | fairSplit =>
    cases h
    have hc : 0 < min count u32Max := by
      rw [Nat.lt_min]
      exact ⟨hleft, by decide⟩
    generalize min count u32Max = c at hc
    have h1 : 1 ≤ (row0 + c - 1) / c := by
      rw [Nat.le_div_iff_mul_le hc]
      omega
    have h2 : (row0 + c - 1) / c ≤ row0 := by
      have hlt : (row0 + c - 1) / c < row0 + 1 := by
        rw [Nat.div_lt_iff_lt_mul hc]
        have := Nat.le_mul_of_pos_right row0 hc
        rw [Nat.add_mul, Nat.one_mul]
        omega
      omega
    refine ⟨⟨?_, min_le_left _ _, nofun⟩, (min_le_right _ _).trans h2⟩
    exact Nat.le_min.mpr ⟨Nat.one_le_iff_ne_zero.mpr hn, h1⟩
  | greedy =>
    cases h
    refine ⟨⟨?_, min_le_left _ _, nofun⟩, min_le_right _ _⟩
    exact Nat.le_min.mpr ⟨Nat.one_le_iff_ne_zero.mpr hn, Nat.one_le_iff_ne_zero.mpr hrem⟩

theorem packLoop_packs (policy : SpanPolicy) (bucket index rows : ℕ)
    (hos : ∀ o ∈ os, o.nRows ≠ 0) (hidx : index + os.length = count) (hrows : rows ≤ bucket) :
    Packs (Cut policy) rows os (packLoop policy bucket count index rows os) ∧
      rows + denseRows (packLoop policy bucket count index rows os) ≤ bucket := by
  induction os generalizing index rows with
  | nil => exact ⟨.nil, hrows⟩
  | cons o os ih =>
    rw [List.length_cons] at hidx
    obtain ⟨ho, hos⟩ := List.forall_mem_cons.mp hos
    unfold packLoop
    simp only
    split
    · exact ⟨.nil, hrows⟩
    · next hrem =>
      cases ht : take policy o (bucket - rows) (count - index) with
      | none =>
        obtain ⟨h1, h2⟩ := ih (index + 1) rows hos (by omega) hrows
        exact ⟨.skip h1, h2⟩
      | some n =>
        obtain ⟨hcut, hle⟩ := take_spec ho hrem (by omega) ht
        obtain ⟨h1, h2⟩ := ih (index + 1) (rows + n) hos (by omega) (by omega)
        refine ⟨.take hcut h1, ?_⟩
        rw [denseRows_cons]
        show rows + (n + _) ≤ bucket
        omega

/-- the spans serve the first candidates, none of them skipped -/
inductive Aligned : List PrefillSpan → List PrefillSpan → Prop
  | nil {os : List PrefillSpan} : Aligned os []
  | cons {o : PrefillSpan} {os ss : List PrefillSpan} {r n : ℕ} : 1 ≤ n → n ≤ o.nRows → Aligned os ss → Aligned (o :: os) (place o r n :: ss)

theorem packLoop_aligned (bucket index rows : ℕ) (hos : ∀ o ∈ os, o.nRows ≠ 0)
    (hidx : index + os.length = count) :
    Aligned os (packLoop .fairSplit bucket count index rows os) := by
  induction os generalizing index rows with
  | nil => exact .nil
  | cons o os ih =>
    rw [List.length_cons] at hidx
    obtain ⟨ho, hos⟩ := List.forall_mem_cons.mp hos
    unfold packLoop
    simp only
    split
    · exact .nil
    · next hrem =>
      cases ht : take .fairSplit o (bucket - rows) (count - index) with
      | none => cases ht
      | some n =>
        obtain ⟨⟨h1, h2, -⟩, -⟩ := take_spec ho hrem (by omega) ht
        exact .cons h1 h2 (ih _ _ hos (by omega))

theorem reclaim_packs (spare row0 : ℕ) (h : Aligned os ss) :
    Packs (Cut .fairSplit) row0 os (reclaim spare row0 ss os) ∧
      denseRows (reclaim spare row0 ss os) ≤ denseRows ss + spare := by
  induction h generalizing spare row0 with
  | nil =>
    unfold reclaim
    exact ⟨.nil, Nat.zero_le _⟩
  | @cons o os ss r n h1 h2 _ ih =>
    unfold reclaim
    simp only [place_place, denseRows_cons]
    have hn : (place o r n).nRows = n := rfl
    have hn' : ∀ r k, (place o r k).nRows = k := fun _ _ => rfl
    rw [hn]
    obtain ⟨i1, i2⟩ := ih (spare - min spare (o.nRows - n))
      (row0 + (n + min spare (o.nRows - n)))
    refine ⟨.take ⟨by omega, by omega, nofun⟩ i1, ?_⟩
    rw [hn']
    omega

/-- what one launch of a pack is -/
structure IsPack (Q : PrefillSpan → ℕ → Prop) (programRows : ℕ → Option ℕ) (limit : ℕ)
    (os ss : List PrefillSpan) : Prop where
  packs : Packs Q 0 os ss
  rung : ∃ program rows, programRows program = some rows ∧ (∀ s ∈ ss, s.program = program) ∧
    denseRows ss ≤ rows
  room : denseRows ss ≤ limit

theorem packs_filter {Q : PrefillSpan → ℕ → Prop} {f : PrefillSpan → Bool}
    (h : Packs Q row0 (os.filter f) ss) : Packs Q row0 os ss := by
  induction os generalizing row0 ss with
  | nil => exact h
  | cons o os ih =>
    rw [List.filter_cons] at h
    split at h
    · cases h with
      | nil => exact .nil
      | skip h => exact .skip (ih h)
      | take hq h => exact .take hq (ih h)
    · exact .skip (ih h)

theorem packInOrder_packs (hos : ∀ o ∈ os, o.nRows ≠ 0)
    (hne : (packInOrder os limit policy programRows).spans ≠ []) :
    IsPack (Cut policy) programRows limit os (packInOrder os limit policy programRows).spans := by
  revert hne
  unfold packInOrder
  cases hh : os.head? with
  | none => exact fun hne => absurd rfl hne
  | some head =>
    simp only
    cases hp : programRows head.program with
    | none => exact fun hne => absurd rfl hne
    | some rows =>
      simp only
      split
      · exact fun hne => absurd rfl hne
      · intro _
        have hos' : ∀ o ∈ os.filter (fun span => span.program = head.program), o.nRows ≠ 0 :=
          fun o ho => hos o (List.mem_filter.mp ho).1
        obtain ⟨h1, h2⟩ := packLoop_packs policy (min rows limit) 0 0 hos' (Nat.zero_add _) (Nat.zero_le _)
        have hprog : ∀ {Q : PrefillSpan → ℕ → Prop} {ss : List PrefillSpan} {r : ℕ},
            Packs Q r (os.filter (fun span => span.program = head.program)) ss →
            ∀ s ∈ ss, s.program = head.program := by
          intro Q ss r h s hs
          obtain ⟨o, ho, _, _, _, rfl⟩ := h.serves s hs
          exact of_decide_eq_true (List.mem_filter.mp ho).2
        rw [zero_add] at h2
        split
        · next hfair =>
          obtain ⟨rfl, hlt⟩ := hfair
          obtain ⟨r1, r2⟩ := reclaim_packs (min rows limit -
            denseRows (packLoop .fairSplit (min rows limit) _ 0 0 _)) 0
            (packLoop_aligned (min rows limit) 0 0 hos' (zero_add _))
          rw [Nat.add_sub_of_le h2] at r2
          exact ⟨packs_filter r1, ⟨_, _, hp, hprog r1, r2.trans (min_le_left _ _)⟩,
            r2.trans (min_le_right _ _)⟩
        · exact ⟨packs_filter h1, ⟨_, _, hp, hprog h1, h2.trans (min_le_left _ _)⟩,
            h2.trans (min_le_right _ _)⟩

/-- the candidates a pack is made of: valid ones, one for a slot -/
structure Chosen (candidates : List PrefillSpan) (limit capacity : ℕ) (policy : SpanPolicy)
    (os : List PrefillSpan) : Prop where
  mem : ∀ o ∈ os, o ∈ candidates ∧ validSpan o limit capacity policy = true
  slots : (os.map PrefillSpan.slot).Nodup

theorem chosen_sort (cs : List (ℕ × PrefillSpan)) (limit capacity : ℕ) (policy : SpanPolicy)
    {r : ℕ × PrefillSpan → ℕ × PrefillSpan → Prop} [DecidableRel r] (q : SlotSet) : Chosen (cs.map Prod.snd) limit capacity policy
      (((validSpans limit capacity policy q cs).insertionSort r).map Prod.snd) := by
  obtain ⟨h1, h2, h3⟩ := @validSpans_spec limit capacity policy q cs
  have hperm := List.perm_insertionSort r (validSpans limit capacity policy q cs)
  constructor
  · intro o ho
    obtain ⟨c, hc, rfl⟩ := List.mem_map.mp ho
    have hc' := hperm.subset hc
    exact ⟨List.mem_map_of_mem (h1.subset hc'), (h2 c hc').1⟩
  · rw [List.map_map]
    exact (hperm.map (fun c : ℕ × PrefillSpan => c.2.slot)).nodup_iff.mpr h3

theorem Chosen.nRows_ne (h : Chosen candidates limit capacity policy os) :
    ∀ o ∈ os, o.nRows ≠ 0 := fun o ho => (validSpan_iff.mp (h.mem o ho).2).1

theorem admit_packs {start : ℕ}
    (hne : (admitSpans candidates limit start capacity policy programRows).spans ≠ []) :
    ∃ os, Chosen candidates limit capacity policy os ∧ IsPack (Cut policy) programRows limit os
      (admitSpans candidates limit start capacity policy programRows).spans := by
  unfold admitSpans at hne ⊢
  split at hne
  · exact absurd rfl hne
  · next h =>
    rw [if_neg h]
    have hch := chosen_sort (candidates.map (fun span => (0, span))) limit capacity policy
      (r := rotates (start % capacity)) (.withCapacity capacity)
    have hmap : (candidates.map (fun span => ((0 : ℕ), span))).map Prod.snd = candidates := by
      rw [List.map_map]
      exact List.map_id candidates
    rw [hmap] at hch
    exact ⟨_, hch, packInOrder_packs hch.nRows_ne hne⟩

theorem admitOldestFirst_packs {candidates : List (ℕ × PrefillSpan)}
    (hne : (admitOldestFirst candidates limit capacity policy programRows).spans ≠ []) :
    ∃ os, Chosen (candidates.map Prod.snd) limit capacity policy os ∧
      IsPack (Cut policy) programRows limit os
        (admitOldestFirst candidates limit capacity policy programRows).spans := by
  unfold admitOldestFirst at hne ⊢
  split at hne
  · exact absurd rfl hne
  · next h =>
    rw [if_neg h]
    have hch := chosen_sort candidates limit capacity policy (r := older) (.withCapacity capacity)
    exact ⟨_, hch, packInOrder_packs hch.nRows_ne hne⟩

end Plow.Sched
