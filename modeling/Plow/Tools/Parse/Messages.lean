import Plow.Tools.Parse.Returned

/-!
# The messages of a Harmony generation

A generation is a row of messages. One has a header up to the message marker, and a body up to an end
marker; the first may have none, when the prompt has already opened it. The parser finds them
whatever pieces they come in, and while no call has started the text it puts out is the bodies of the
answer messages and the reasoning those of the analysis (`Harmony.returned`).
-/

namespace Plow.Tools
open Plow.Lib Plow.Lib.Text List

/-! ### Text without markers -/

section
variable {ms : List (List Char)} {a r s : List Char} {j k : ℕ}

def Free (ms : List (List Char)) (x : List Char) : Prop := ∀ m ∈ ms, ¬ m <:+: x

/-- no marker begins in `a`, whatever comes behind `r` -/
def Clear (ms : List (List Char)) (a r : List Char) : Prop :=
  ∀ i < a.length, ∀ m ∈ ms, ∀ u, ¬ m <+: (a ++ (r ++ u)).drop i

def Uncrossed (ms : List (List Char)) : Prop :=
  ∀ m ∈ ms, m ≠ [] ∧ ∀ n ∈ ms, ∀ i < n.length, 0 < i → ¬ m <+: n.drop i

theorem clear_nil : Clear ms [] r := fun i hi => absurd hi (Nat.not_lt_zero i)

theorem Clear.more (h : Clear ms a r) (s : List Char) : Clear ms a (r ++ s) := by
  intro i hi m hm u
  rw [append_assoc]
  exact h i hi m hm (s ++ u)

theorem Clear.free (h : Clear ms a r) (hne : [] ∉ ms) : Free ms a := by
  rintro m hm ⟨p, q, rfl⟩
  have hpos := length_pos_of_ne_nil fun h0 => hne (h0 ▸ hm)
  refine h p.length (by simp only [length_append]; omega) m hm [] ?_
  rw [append_assoc p m q, append_assoc, drop_left, append_assoc]
  exact prefix_append _ _

theorem Clear.scan (h : Clear ms a s) (hne : [] ∉ ms) (hj : (scan ms s).place = j) :
    Clear ms (a ++ s.take j) (s.drop j) := by
  intro i hi m hm u
  have he : a ++ s.take j ++ (s.drop j ++ u) = a ++ (s ++ u) := by
    rw [append_assoc, ← append_assoc (s.take j), take_append_drop]
  rw [he]
  by_cases hia : i < a.length
  · exact h i hia m hm u
  · rw [length_append, length_take] at hi
    have hlt : i - a.length < j := by omega
    rw [show i = a.length + (i - a.length) by omega, drop_length_add_append,
      drop_append_of_le_length (by omega)]
    exact scan_clear hne (by rwa [hj]) hm u

/-- at the end of the text, what is held back is free of markers too -/
theorem Clear.whole (h : Clear ms a s) (hap : Uncrossed ms) (hj : Tools.scan ms s = .need j) :
    Free ms (a ++ s) := by
  have hne : [] ∉ ms := fun h0 => (hap [] h0).1 rfl
  have hc := h.scan hne (j := j) (by rw [hj]; rfl)
  have hjl := scan_need_le hj
  rintro m hm ⟨p, q, hx⟩
  have hat : m <+: (a ++ s).drop p.length := by
    rw [← hx, append_assoc, drop_left]
    exact prefix_append _ _
  have hpos := length_pos_of_ne_nil (hap m hm).1
  by_cases hp : p.length < (a ++ s.take j).length
  · refine hc p.length hp m hm [] ?_
    rwa [append_nil, append_assoc, take_append_drop]
  · rw [length_append, length_take] at hp
    obtain ⟨i, hi⟩ : ∃ i, p.length = a.length + (j + i) := ⟨p.length - a.length - j, by omega⟩
    rw [hi, drop_length_add_append, ← drop_drop] at hat
    obtain hnil | ⟨hno, n, hn, hpre⟩ := scan_need_rest hj
    · rw [hnil, drop_nil] at hat
      rw [prefix_nil.mp hat] at hpos
      exact absurd hpos (Nat.lt_irrefl 0)
    · cases i with
      | zero => exact hno m hm hat
      | succ i =>
        have hle := hat.length_le
        have hnl := hpre.length_le
        rw [length_drop] at hle
        exact (hap m hm).2 n hn (i + 1) (by omega) (Nat.succ_pos i)
          (hat.trans (hpre.drop (i + 1)))

end


/-! ### White space in front -/

section
variable {w x y u : List Char}

theorem trimStart_nil_iff : trimStart x = [] ↔ x.all isWhitespace = true := by
  rw [trimStart, dropWhile_eq_nil_iff, all_eq_true]

theorem trim_nil_iff : trim x = [] ↔ x.all isWhitespace = true := by
  rw [trim, trimEnd, rdropWhile_eq_nil_iff]
  constructor
  · intro h
    obtain ⟨w, hw, hx⟩ := trimStart_split x
    rw [hx, all_append, all_eq_true.mpr hw, all_eq_true.mpr h]
    rfl
  · intro h
    rw [trimStart_nil_iff.mpr h]
    exact fun _ hc => absurd hc not_mem_nil

theorem trimStart_blank_append (hw : w.all isWhitespace = true) : trimStart (w ++ x) = trimStart x :=
  trimStart_append_nil (trimStart_nil_iff.mpr hw)

def Headed (x : List Char) : Prop := hBar <+: trimStart x

def Unheaded (x : List Char) : Prop := trimStart x ≠ [] ∧ ¬ hBar <+: trimStart x

theorem Headed.nonblank (h : Headed x) : trimStart x ≠ [] := by
  intro h0
  rw [Headed, h0] at h
  exact absurd (prefix_nil.mp h) (by decide)

theorem Headed.append (h : Headed x) (y : List Char) : Headed (x ++ y) := by
  rw [Headed, trimStart_append h.nonblank]
  exact h.trans (prefix_append _ _)

theorem Headed.front (h : Headed (x ++ y)) (hl : hBar.length ≤ (trimStart x).length) : Headed x := by
  have hne : trimStart x ≠ [] := by
    intro h0
    rw [h0] at hl
    exact absurd hl (by decide)
  rw [Headed, trimStart_append hne] at h
  exact prefix_of_prefix_length_le h (prefix_append _ _) hl

theorem trimStart_bar (x : List Char) : trimStart (hBar ++ x) = hBar ++ x :=
  dropWhile_cons_of_neg (by decide)

theorem le_trimStart {m : List Char} (hm : hBar <+: m) (a : List Char) :
    m.length ≤ (trimStart (a ++ m)).length := by
  by_cases ha : trimStart a = []
  · obtain ⟨t, rfl⟩ := hm
    rw [trimStart_append_nil ha, trimStart_bar]
  · rw [trimStart_append ha, length_append]
    exact Nat.le_add_left _ _

def Plainly (x : List Char) : Prop :=
  trimStart x ≠ [] ∧ ¬ hBar <+: trimStart x ∧ ¬ trimStart x <+: hBar

theorem Plainly.append (h : Plainly x) (y : List Char) : Plainly (x ++ y) := by
  obtain ⟨hne, h1, h2⟩ := h
  rw [Plainly, trimStart_append hne]
  refine ⟨fun h0 => hne (append_eq_nil_iff.mp h0).1, fun hp => ?_, fun hp => ?_⟩
  · exact (List.prefix_or_prefix_of_prefix hp (prefix_append _ _)).elim h1 h2
  · exact h2 ((prefix_append _ _).trans hp)

theorem Plainly.front {e : List Char} (h : Plainly (x ++ (e ++ y))) (he : hBar <+: e) :
    Unheaded x := by
  by_cases hx : trimStart x = []
  · obtain ⟨t, rfl⟩ := he
    rw [Plainly, trimStart_append_nil hx, append_assoc, trimStart_bar] at h
    exact absurd (prefix_append _ _) h.2.1
  · refine ⟨hx, fun hp => h.2.1 ?_⟩
    rw [trimStart_append hx]
    exact hp.trans (prefix_append _ _)

end

/-! ### Messages -/

/-- the text of a message without its end: a header and its marker, or none, and the body -/
inductive Opened : List Char → HarmonyBody → List Char → Prop
  | headed {h b : List Char} : Headed (h ++ hMsg) → Free [hMsg] h → Free hEnd b →
      Opened (h ++ hMsg ++ b) (Harmony.header h).1 b
  | bare {b : List Char} : Unheaded b → Free hEnd b → Opened b .final b

def answer (kind : HarmonyBody) (b : List Char) : List Char := if kind = .final then b else []

def trace (kind : HarmonyBody) (b : List Char) : List Char := if kind = .analysis then b else []

/-- whole messages, none of them a call: the text, the answer in it and the reasoning -/
inductive Messages : List Char → List Char → List Char → Prop
  | nil : Messages [] [] []
  | message {x t r m b e : List Char} {kind : HarmonyBody} : Messages x t r → Opened m kind b →
      kind = .final ∨ kind = .analysis → e ∈ hEnd →
      Messages (x ++ (m ++ e)) (t ++ answer kind b) (r ++ trace kind b)

/-- a generation without calls: its messages, and what stands behind the last end marker -/
inductive Generation : List Char → List Char → List Char → Prop
  | closed {x t r w : List Char} : Messages x t r → w.all isWhitespace = true →
      Generation (x ++ w) t r
  /-- an unfinished header is text -/
  | header {x t r h : List Char} : Messages x t r → Headed h ∨ trimStart h = ['<'] →
      Free [hMsg] h → Generation (x ++ h) (t ++ h) r
  | opened {x t r m b : List Char} {kind : HarmonyBody} : Messages x t r → Opened m kind b →
      kind = .final ∨ kind = .analysis →
      Generation (x ++ m) (t ++ answer kind b) (r ++ trace kind b)

namespace Harmony

variable {inp s r h x : List Char} {q : Harmony} {out : Out} {eof : Bool} {kind : HarmonyBody} {j : ℕ}

/-- a message whose body may go on -/
inductive Begun (rest : List Char) : List Char → HarmonyBody → List Char → Prop
  | headed {h b : List Char} : Headed (h ++ hMsg) → Free [hMsg] h → Clear hEnd b rest →
      Begun rest (h ++ hMsg ++ b) (Harmony.header h).1 b
  | bare {b : List Char} : Plainly (b ++ rest) → Clear hEnd b rest → Begun rest b .final b

/-- a header is being read: nothing of it is put out -/
def HeadHolds (inp : List Char) (q : Harmony) (out : Out) (rest : List Char) : Prop :=
  ∃ x, Messages x out.text out.reasoning ∧ inp = x ++ (q.head ++ rest) ∧
    Clear [hMsg] q.head rest ∧ (q.head.all isWhitespace = true ∨ Headed (q.head ++ rest))

/-- a body is being read: what was read of it is put out -/
def BodyHolds (inp : List Char) (kind : HarmonyBody) (out : Out) (rest : List Char) : Prop :=
  ∃ x t tr m b, Messages x t tr ∧ Begun rest m kind b ∧ (kind = .final ∨ kind = .analysis) ∧
    inp = x ++ (m ++ rest) ∧ out.text = t ++ answer kind b ∧ out.reasoning = tr ++ trace kind b

def Holds (inp : List Char) (q : Harmony) (out : Out) (rest : List Char) : Prop :=
  out.called = true ∨
    match q.body with
    | none => HeadHolds inp q out rest
    | some kind => q.head = [] ∧ BodyHolds inp kind out rest

/-- all text is read -/
def Last (inp : List Char) (q : Harmony) (out : Out) : Prop :=
  out.called = true ∨
    match q.body with
    | none => ∃ x, Messages x out.text out.reasoning ∧ inp = x ++ q.head ∧
        (q.head.all isWhitespace = true ∨
          (Headed q.head ∨ trimStart q.head = ['<']) ∧ Free [hMsg] q.head)
    | some _ => q.head = [] ∧ Generation inp out.text out.reasoning

def Ended (inp : List Char) (out : Out) : Prop :=
  out.called = true ∨ Generation inp out.text out.reasoning

/-- what a round leaves -/
def Roundly (eof : Bool) (inp : List Char) : Turn (Harmony × Out) Char → Prop
  | .go q r => Holds inp q.1 q.2 r ∨ eof = true ∧ r = [] ∧ Last inp q.1 q.2
  | .wait q r => if eof then Ended inp q.2 else Holds inp q.1 q.2 r

theorem header_kind (hn : (header h).2 = none) :
    (header h).1 = .final ∨ (header h).1 = .analysis := by
  unfold header at hn ⊢
  cases hw : word h "to=".toList with
  | some r =>
    rw [hw] at hn
    dsimp only at hn ⊢
    by_cases hp : (hFunctions.isPrefixOf r && hFunctions.length < r.length) = true
    · rw [if_pos hp] at hn
      cases hn
    · rw [if_neg hp]
      exact .inl rfl
  | none =>
    dsimp only
    split
    · exact .inr rfl
    · exact .inl rfl

theorem uncrossed_hMsg : Uncrossed [hMsg] := by
  unfold Uncrossed
  decide

theorem uncrossed_hEnd : Uncrossed hEnd := by
  unfold Uncrossed
  decide

theorem clear_blank {ms : List (List Char)} {a r : List Char} (ha : a.all isWhitespace = true)
    (hm : ∀ m ∈ ms, hBar <+: m) : Clear ms a r := by
  intro i hi m hms u hp
  obtain ⟨t, rfl⟩ := hm m hms
  rw [drop_append_of_le_length (Nat.le_of_lt hi), drop_eq_getElem_cons hi] at hp
  have hc : '<' = a[i] := (cons_prefix_cons.mp hp).1
  have := all_eq_true.mp ha a[i] (getElem_mem hi)
  rw [← hc] at this
  exact absurd this (by decide)

theorem bar_front (hx : x ≠ []) (h1 : ¬ hBar <+: x) (h2 : x <+: hBar) : x = ['<'] := by
  obtain ⟨a, t, rfl⟩ := exists_cons_of_ne_nil hx
  obtain ⟨rfl, ht⟩ := cons_prefix_cons.mp (show a :: t <+: '<' :: ['|'] from h2)
  cases t with
  | nil => rfl
  | cons b t =>
    obtain ⟨rfl, hnil⟩ := cons_prefix_cons.mp ht
    rw [prefix_nil.mp hnil] at h1
    exact absurd (prefix_refl hBar) h1

theorem not_bare (hq : q.head.all isWhitespace = true) (hb : q.bare s = false) :
    s.all isWhitespace = true ∨ Headed s ∨ trimStart s = ['<'] := by
  by_cases ht : trimStart s = []
  · exact .inl (trimStart_nil_iff.mp ht)
  · refine .inr ?_
    by_cases h1 : hBar <+: trimStart s
    · exact .inl h1
    · by_cases h2 : trimStart s <+: hBar
      · exact .inr (bar_front ht h1 h2)
      · have e1 : hBar.isPrefixOf (trimStart s) = false :=
          Bool.eq_false_iff.mpr fun h => h1 (List.isPrefixOf_iff_prefix.mp h)
        rw [bare, trim_nil_iff.mpr hq] at hb
        simp only [ht, ne_eq, not_false_eq_true, decide_true, Bool.and_self, e1, Bool.not_false] at hb
        rw [Bool.true_and, Bool.not_eq_false'] at hb
        exact absurd (List.isPrefixOf_iff_prefix.mp hb) h2

/-! ### Rounds in a header -/

theorem bare_plainly (hb : q.bare s = true) : q.head.all isWhitespace = true ∧ Plainly s := by
  simp only [bare, Bool.and_eq_true, decide_eq_true_eq, Bool.not_eq_true'] at hb
  obtain ⟨⟨⟨hq, hne⟩, h1⟩, h2⟩ := hb
  refine ⟨trim_nil_iff.mp hq, hne, fun h => ?_, fun h => ?_⟩
  · rw [List.isPrefixOf_iff_prefix.mpr h] at h1
    cases h1
  · rw [List.isPrefixOf_iff_prefix.mpr h] at h2
    cases h2

theorem bar_hEnd : ∀ m ∈ hEnd, hBar <+: m := by decide

theorem bar_hMsg : hBar <+: hMsg := by decide

theorem holds_bare (h : HeadHolds inp q out s) (hb : q.bare s = true) :
    BodyHolds inp .final (out.putText q.head) s := by
  obtain ⟨x, hm, hi, -, -⟩ := h
  obtain ⟨hq, hp⟩ := bare_plainly hb
  have hpl : Plainly (q.head ++ s) := by
    rw [Plainly, trimStart_blank_append hq]
    exact hp
  exact ⟨x, _, _, q.head, q.head, hm, .bare hpl (clear_blank hq bar_hEnd), .inl rfl, hi,
    Out.text_putText _ _, (Out.reasoning_putText _ _).trans (append_nil _).symm⟩

theorem headed_found {j k : ℕ} (hq : q.head.all isWhitespace = true ∨ Headed (q.head ++ s))
    (hb : q.bare s = false) (hs : scan [hMsg] s = .found j k) :
    Headed (q.head ++ s.take j ++ hMsg) := by
  obtain ⟨m, hm, -, t, ht⟩ := scan_found hs
  obtain rfl := mem_singleton.mp hm
  have hx : q.head ++ s = (q.head ++ s.take j ++ hMsg) ++ t := by
    rw [append_assoc, ht, append_assoc, take_append_drop]
  have front (h : Headed (q.head ++ s)) : Headed (q.head ++ s.take j ++ hMsg) := by
    rw [hx] at h
    exact h.front ((by decide : hBar.length ≤ hMsg.length).trans (le_trimStart bar_hMsg _))
  obtain hq | hq := hq
  · have hsm : s = s.take j ++ (hMsg ++ t) := by rw [ht, take_append_drop]
    have hlen := le_trimStart (bar_hMsg.trans (prefix_append hMsg t)) (s.take j)
    rw [← hsm, length_append, show hMsg.length = 11 from rfl] at hlen
    obtain hs | hs | hs := not_bare hq hb
    · rw [trimStart_nil_iff.mpr hs, length_nil] at hlen
      omega
    · refine front ?_
      rw [Headed, trimStart_blank_append hq]
      exact hs
    · rw [hs, length_singleton] at hlen
      omega
  · exact front hq

theorem blank_front {j : ℕ} (ht : trimStart s = ['<']) (hs : scan [hMsg] s = .need j) :
    (s.take j).all isWhitespace = true := by
  obtain ⟨w, hw, hx⟩ := trimStart_split s
  rw [ht] at hx
  have hj : j ≤ w.length := by
    by_contra hlt
    have hc : ¬ hMsg <+: s.drop w.length ++ hMsg.tail :=
      scan_clear (by decide) (by rw [hs]; exact Nat.lt_of_not_le hlt)
        (mem_singleton_self hMsg) _
    rw [hx, drop_left] at hc
    exact hc (by decide)
  rw [hx, take_append_of_le_length hj]
  exact all_eq_true.mpr fun c hc => hw c (mem_of_mem_take hc)

theorem head_need {j : ℕ} (h : HeadHolds inp q out s) (hb : q.bare s = false)
    (hs : scan [hMsg] s = .need j) :
    HeadHolds inp { q with head := q.head ++ s.take j } out (s.drop j) := by
  obtain ⟨x, hm, hi, hc, hq⟩ := h
  have hx : q.head ++ s.take j ++ s.drop j = q.head ++ s := by
    rw [append_assoc, take_append_drop]
  refine ⟨x, hm, by rw [hi, hx], hc.scan (by decide) (by rw [hs]; rfl), ?_⟩
  show (q.head ++ s.take j).all isWhitespace = true ∨ Headed (q.head ++ s.take j ++ s.drop j)
  rw [hx]
  obtain hq | hq := hq
  · obtain hs' | hs' | hs' := not_bare hq hb
    · refine .inl ?_
      rw [all_append, hq, Bool.true_and]
      exact all_eq_true.mpr fun c hc =>
        all_eq_true.mp hs' c (mem_of_mem_take hc)
    · refine .inr ?_
      rw [Headed, trimStart_blank_append hq]
      exact hs'
    · refine .inl ?_
      rw [all_append, hq, blank_front hs' hs]
      rfl
  · exact .inr hq

theorem head_last {j : ℕ} (h : HeadHolds inp q out s) (hb : q.bare s = false) (hn : q.body = none)
    (hs : scan [hMsg] s = .need j) : Last inp { q with head := q.head ++ s } out := by
  obtain ⟨x, hm, hi, hc, hq⟩ := h
  unfold Last
  dsimp only
  rw [hn]
  refine .inr ⟨x, hm, hi, ?_⟩
  show (q.head ++ s).all isWhitespace = true ∨ _
  have hfree := hc.whole uncrossed_hMsg hs
  obtain hq | hq := hq
  · obtain hs' | hs' | hs' := not_bare hq hb
    · refine .inl ?_
      rw [all_append, hq, hs']
      rfl
    · refine .inr ⟨.inl ?_, hfree⟩
      rw [Headed, trimStart_blank_append hq]
      exact hs'
    · refine .inr ⟨.inr ?_, hfree⟩
      rw [trimStart_blank_append hq]
      exact hs'
  · exact .inr ⟨.inl hq, hfree⟩

/-! ### Rounds in a body -/

theorem answer_append (kind : HarmonyBody) (a b : List Char) :
    answer kind (a ++ b) = answer kind a ++ answer kind b := by
  unfold answer
  split <;> rfl

theorem trace_append (kind : HarmonyBody) (a b : List Char) :
    trace kind (a ++ b) = trace kind a ++ trace kind b := by
  unfold trace
  split <;> rfl

theorem piece_put {kind : HarmonyBody} (hk : kind = .final ∨ kind = .analysis) (p : List Char)
    (out : Out) : (bodyPiece kind p out).1 = kind ∧
      (bodyPiece kind p out).2.text = out.text ++ answer kind p ∧
      (bodyPiece kind p out).2.reasoning = out.reasoning ++ trace kind p ∧
      bodyEnd (bodyPiece kind p out).1 (bodyPiece kind p out).2 = (bodyPiece kind p out).2 := by
  obtain rfl | rfl := hk
  · exact ⟨rfl, Out.text_putText _ _,
      (Out.reasoning_putText _ _).trans (append_nil _).symm, rfl⟩
  · exact ⟨rfl, (append_nil _).symm, rfl, rfl⟩

namespace Begun

variable {m b : List Char} {kind : HarmonyBody} {j k : ℕ}

theorem take (h : Begun s m kind b) (hs : (scan hEnd s).place = j) :
    Begun (s.drop j) (m ++ s.take j) kind (b ++ s.take j) := by
  cases h with
  | headed hh hf hc =>
    rw [append_assoc]
    exact .headed hh hf (hc.scan (by decide) hs)
  | bare hp hc =>
    refine .bare ?_ (hc.scan (by decide) hs)
    rwa [append_assoc, take_append_drop]

theorem found {e t : List Char} (h : Begun s m kind b) (hs : (scan hEnd s).place = j)
    (he : e ∈ hEnd) (ht : s.drop j = e ++ t) : Opened (m ++ s.take j) kind (b ++ s.take j) := by
  cases h with
  | headed hh hf hc =>
    rw [append_assoc]
    exact .headed hh hf ((hc.scan (by decide) hs).free (by decide))
  | bare hp hc =>
    refine .bare (Plainly.front (e := e) (y := t) ?_ (bar_hEnd e he))
      ((hc.scan (by decide) hs).free (by decide))
    rwa [append_assoc, ← ht, take_append_drop]

theorem whole (h : Begun s m kind b) (hs : scan hEnd s = .need j) :
    Opened (m ++ s) kind (b ++ s) := by
  cases h with
  | headed hh hf hc =>
    rw [append_assoc]
    exact .headed hh hf (hc.whole uncrossed_hEnd hs)
  | bare hp hc => exact .bare ⟨hp.1, hp.2.1⟩ (hc.whole uncrossed_hEnd hs)

end Begun

theorem body_need (h : BodyHolds inp kind out s)
    (hs : (scan hEnd s).place = j) : (bodyPiece kind (s.take j) out).1 = kind ∧
      BodyHolds inp kind (bodyPiece kind (s.take j) out).2 (s.drop j) := by
  obtain ⟨x, t, tr, m, b, hm, hb, hk, hi, ht, hr⟩ := h
  obtain ⟨h1, h2, h3, -⟩ := piece_put hk (s.take j) out
  refine ⟨h1, x, t, tr, _, _, hm, hb.take hs, hk, ?_, ?_, ?_⟩
  · rw [append_assoc, take_append_drop]
    exact hi
  · rw [h2, ht, answer_append, append_assoc]
  · rw [h3, hr, trace_append, append_assoc]

theorem body_found {e u : List Char} (h : BodyHolds inp kind out s)
    (hs : (scan hEnd s).place = j) (he : e ∈ hEnd) (hu : s.drop j = e ++ u)
    (hq : q.head = []) : HeadHolds inp q (bodyEnd (bodyPiece kind (s.take j) out).1
      (bodyPiece kind (s.take j) out).2) u := by
  obtain ⟨x, t, tr, m, b, hm, hb, hk, hi, ht, hr⟩ := h
  obtain ⟨-, h2, h3, h4⟩ := piece_put hk (s.take j) out
  refine ⟨x ++ (m ++ s.take j ++ e), ?_, ?_, ?_, .inl (by rw [hq]; rfl)⟩
  · rw [h4, h2, h3, ht, hr, append_assoc t, append_assoc tr, ← answer_append,
      ← trace_append]
    exact .message hm (hb.found hs he hu) hk he
  · rw [hi, hq, nil_append, append_assoc x, append_assoc _ e, ← hu,
      append_assoc m, take_append_drop]
  · rw [hq]
    exact clear_nil

theorem body_last (h : BodyHolds inp kind out s) (hs : scan hEnd s = .need j) :
    Generation inp (bodyPiece kind s out).2.text (bodyPiece kind s out).2.reasoning := by
  obtain ⟨x, t, tr, m, b, hm, hb, hk, rfl, ht, hr⟩ := h
  obtain ⟨-, h2, h3, -⟩ := piece_put hk s out
  rw [h2, h3, ht, hr, append_assoc t, append_assoc tr, ← answer_append, ← trace_append]
  exact .opened hm (hb.whole hs) hk

theorem bodyPiece_called (kind : HarmonyBody) (p : List Char) (out : Out) :
    (bodyPiece kind p out).2.called = out.called := by
  cases kind with
  | analysis => rfl
  | final => exact Out.called_putText _ _
  | call a => exact RawArgs.piece_called

theorem bodyEnd_called (kind : HarmonyBody) (out : Out) :
    (bodyEnd kind out).called = out.called := by
  cases kind with
  | analysis => rfl
  | final => rfl
  | call a => exact (Out.called_done _).trans RawArgs.finish_called

/-! ### Runs -/

theorem holds_headRound (hn : q.body = none) (h : Holds inp q out s) :
    Roundly eof inp (headRound eof q out s) := by
  unfold Holds at h
  rw [hn] at h
  unfold headRound
  cases hb : q.bare s with
  | true =>
    rw [if_pos rfl]
    refine .inl ?_
    obtain h | h := h
    · exact .inl ((Out.called_putText _ _).trans h)
    · exact .inr ⟨rfl, holds_bare h hb⟩
  | false =>
    rw [if_neg Bool.false_ne_true]
    cases hs : scan [hMsg] s with
    | found j k =>
      refine .inl ?_
      cases hname : (header (q.head ++ s.take j)).2 with
      | some n =>
        exact .inl (Out.called_start _ _ _)
      | none =>
        dsimp only
        obtain h | ⟨x, hm, hi, hc, hq⟩ := h
        · exact .inl h
        · obtain ⟨m, hmem, -, t, ht⟩ := scan_found hs
          obtain rfl := mem_singleton.mp hmem
          have hd : s.drop (j + hMsg.length) = t := by
            rw [← drop_drop, ← ht, drop_left]
          have hfree := (hc.scan (j := j) (by decide) (by rw [hs]; rfl)).free (by decide)
          refine .inr ⟨rfl, x, _, _, _, [], hm, .headed (headed_found hq hb hs) hfree clear_nil,
            header_kind hname, ?_, ?_, ?_⟩
          · rw [hd, hi, append_nil, append_assoc, ht, append_assoc,
              take_append_drop]
          · rw [answer, ite_self, append_nil]
          · rw [trace, ite_self, append_nil]
    | need j =>
      cases eof with
      | false =>
        show Roundly false inp (.wait ({ q with head := q.head ++ s.take j }, out) (s.drop j))
        obtain h | h := h
        · exact .inl h
        · refine .inr ?_
          dsimp only
          rw [hn]
          exact head_need h hb hs
      | true =>
        show Roundly true inp (.go ({ q with head := q.head ++ s.take s.length }, out) (s.drop s.length))
        rw [take_length, drop_length]
        refine .inr ⟨rfl, rfl, ?_⟩
        obtain h | h := h
        · exact .inl h
        · exact head_last h hb hn hs

theorem holds_bodyRound (hn : q.body = some kind) (h : Holds inp q out s) :
    Roundly eof inp (bodyRound eof q kind out s) := by
  unfold Holds at h
  rw [hn] at h
  unfold bodyRound
  cases hs : scan hEnd s with
  | found j k =>
    refine .inl ?_
    obtain h | ⟨hq, h⟩ := h
    · exact .inl ((bodyEnd_called _ _).trans ((bodyPiece_called _ _ _).trans h))
    · obtain ⟨e, he, hk, u, hu⟩ := scan_found hs
      have hd : hEnd.getD k [] = e := by rw [getD_eq_getElem?_getD, hk, Option.getD_some]
      have hrest : s.drop (j + e.length) = u := by rw [← drop_drop, ← hu, drop_left]
      rw [hd, hrest]
      exact .inr (body_found h (by rw [hs]; rfl) he hu.symm hq)
  | need j =>
    cases eof with
    | false =>
      show Roundly false inp (.wait ({ q with body := some _ }, _) (s.drop j))
      obtain h | ⟨hq, h⟩ := h
      · exact .inl ((bodyPiece_called _ _ _).trans h)
      · obtain ⟨h1, h2⟩ := body_need (j := j) h (by rw [hs]; rfl)
        refine .inr ⟨hq, ?_⟩
        rw [if_neg Bool.false_ne_true, h1]
        exact h2
    | true =>
      show Roundly true inp (.go ({ q with body := some (bodyPiece kind (s.take s.length) out).1 },
        (bodyPiece kind (s.take s.length) out).2) (s.drop s.length))
      rw [take_length, drop_length]
      refine .inr ⟨rfl, rfl, ?_⟩
      obtain h | ⟨hq, h⟩ := h
      · exact .inl ((bodyPiece_called _ _ _).trans h)
      · exact .inr ⟨hq, body_last h hs⟩

theorem Holds.last (h : Holds inp q out []) : Last inp q out := by
  unfold Holds at h
  unfold Last
  obtain h | h := h
  · exact .inl h
  · refine .inr ?_
    cases hn : q.body with
    | none =>
      rw [hn] at h
      obtain ⟨x, hm, hi, hc, hq⟩ := h
      rw [append_nil] at hi hq
      exact ⟨x, hm, hi, hq.imp id fun hq => ⟨.inl hq, hc.free (by decide)⟩⟩
    | some kind =>
      rw [hn] at h
      obtain ⟨hq, x, t, tr, m, b, hm, hb, hk, hi, ht, hr⟩ := h
      refine ⟨hq, ?_⟩
      have ho := hb.whole (j := 0) rfl
      rw [append_nil, append_nil] at ho
      rw [hi, ht, hr, append_nil]
      exact .opened hm ho hk

theorem ended_round (h : Last inp q out) : Roundly true inp (round true (q, out) []) := by
  show Ended inp (if q.body.isNone && trim q.head ≠ [] then out.putText q.head else out)
  unfold Last at h
  obtain h | h := h
  · refine .inl ?_
    split
    · exact (Out.called_putText _ _).trans h
    · exact h
  · refine .inr ?_
    cases hn : q.body with
    | some kind =>
      rw [hn] at h
      exact h.2
    | none =>
      rw [hn] at h
      obtain ⟨x, hm, rfl, hq | ⟨hq, hf⟩⟩ := h
      · rw [trim_nil_iff.mpr hq]
        exact .closed hm hq
      · have hne : trim q.head ≠ [] := by
          intro h0
          have h0 := trimStart_nil_iff.mpr (trim_nil_iff.mp h0)
          obtain hq | hq := hq
          · exact hq.nonblank h0
          · rw [h0] at hq
            cases hq
        rw [if_pos (by simp [hne]), Out.text_putText, Out.reasoning_putText]
        exact .header hm hq hf

theorem holds_round (eof : Bool) (h : Holds inp q out s) :
    Roundly eof inp (round eof (q, out) s) := by
  cases s with
  | nil =>
    cases eof with
    | true => exact ended_round h.last
    | false => exact h
  | cons c s =>
    dsimp only [round]
    cases hn : q.body with
    | none => exact holds_headRound hn h
    | some kind => exact holds_bodyRound hn h

theorem holds_run (eof : Bool) (h : Holds inp q out s) :
    Roundly eof inp (.wait (run eof q out s).1 (run eof q out s).2) := by
  have main (p : Harmony × Out) : Holds inp p.1 p.2 s ∨ eof = true ∧ s = [] ∧ Last inp p.1 p.2 →
      Roundly eof inp (.wait ((scanner eof).scan p s).1 ((scanner eof).scan p s).2) := by
    clear h
    induction p, s using Scanner.scan_induct (M := scanner eof) with
    | hw p s p' r ht =>
      intro h
      rw [Scanner.scan_wait ht]
      obtain h | ⟨rfl, rfl, h⟩ := h
      · have hr := holds_round eof h
        rwa [show round eof (p.1, p.2) s = .wait p' r from ht] at hr
      · have hr := ended_round h
        rwa [show round true (p.1, p.2) [] = .wait p' r from ht] at hr
    | hg p s p' r ht ih =>
      intro h
      rw [Scanner.scan_go ht]
      obtain h | ⟨rfl, rfl, h⟩ := h
      · have hr := holds_round eof h
        rw [show round eof (p.1, p.2) s = .go p' r from ht] at hr
        exact ih hr
      · cases ht
  exact main (q, out) (.inl h)

theorem Holds.more (h : Holds inp q out r) (s : List Char) : Holds (inp ++ s) q out (r ++ s) := by
  unfold Holds at h ⊢
  obtain h | h := h
  · exact .inl h
  · refine .inr ?_
    cases hn : q.body with
    | none =>
      rw [hn] at h
      obtain ⟨x, hm, rfl, hc, hq⟩ := h
      refine ⟨x, hm, by simp only [append_assoc], hc.more s, hq.imp id fun hq => ?_⟩
      rw [← append_assoc]
      exact hq.append s
    | some kind =>
      rw [hn] at h
      obtain ⟨hq, x, t, tr, m, b, hm, hb, hk, rfl, ht, hr⟩ := h
      refine ⟨hq, x, t, tr, m, b, hm, ?_, hk, by simp only [append_assoc], ht, hr⟩
      cases hb with
      | headed hh hf hc => exact .headed hh hf (hc.more s)
      | bare hp hc =>
        refine .bare ?_ (hc.more s)
        rw [← append_assoc]
        exact hp.append s

theorem holds_pieces (pieces : List (List Char)) (h : Holds inp q out q.buf) :
    let p := pieces.foldl (fun p s => push p.1 s p.2) (q, out)
    Holds (inp ++ pieces.flatten) p.1 p.2 p.1.buf := by
  induction pieces generalizing inp q out with
  | nil => rwa [flatten_nil, append_nil]
  | cons s pieces ih =>
    rw [flatten_cons, ← append_assoc]
    exact ih (q := (push q s out).1) (holds_run false (h.more s))

theorem returned (cut : Bool) (pieces : List (List Char)) :
    Ended pieces.flatten (parser.events cut pieces) := by
  have h0 : Holds [] new Out.empty new.buf := .inr ⟨[], .nil, rfl, clear_nil, .inl rfl⟩
  have hp := holds_pieces pieces h0
  rw [nil_append] at hp
  dsimp only [Parser.events, parser, finish]
  rw [ite_self]
  generalize pieces.foldl _ _ = p at hp ⊢
  exact holds_run (q := { p.1 with buf := [] }) true hp

end Harmony

/-! ### Every format -/

def Whole (start : Opener) (cut : Bool) (input text : List Char) : Prop :=
  ∃ tail, input = text ++ tail ∧ (tail = [] ∨ cut = true ∧ start.text <+: tail)

/-- the same, less regions that hold no call -/
def Less (start : Opener) (lang : List Char → Prop) (cut : Bool) (input text : List Char) : Prop :=
  ∃ kept tail, input = kept ++ tail ∧ Returned (Framed.Gone start lang) kept text ∧
    (tail = [] ∨ cut = true ∧ start.text <+: tail)

/-- What is put out of a text in which no call starts. The list formats take out regions that are
well formed and hold no call; Harmony takes the frames of the messages off, and the analysis is
reasoning. -/
def Shown (format : ToolFormat) (cut : Bool) (input : List Char) (out : Out) : Prop :=
  match format with
  | .gemma4 => Whole gemmaOpener cut input out.text
  | .qwen3Xml | .glm45 => Whole toolCallOpener cut input out.text
  | .mistral => Whole mistralOpener cut input out.text
  | .hermes => Less toolCallOpener (JList.Empty (some toolCallEnd)) cut input out.text
  | .kimiK2 => Less kimiOpener (Blank kSectionEnd) cut input out.text
  | .deepSeekV3 | .deepSeekV31 => Less deepSeekOpener (Blank dsCallsEnd) cut input out.text
  | .llama3Json => out.text = input ∨ Tagged input
  | .harmony => Generation input out.text out.reasoning

variable {input : List Char} {start : Opener} {cut : Bool} {out : Out}

theorem Framed.Ended.whole
    (h : Framed.Ended start (fun _ => False) cut input out) (hc : out.called = false) :
    Whole start cut input out.text := by
  obtain h | ⟨p, tail, rfl, hp, ht⟩ := h
  · exact absurd (h.symm.trans hc) (by decide)
  · rw [hp.same fun e ⟨_, hf, _⟩ => hf]
    exact ⟨tail, rfl, ht⟩

theorem Framed.Ended.less {lang : List Char → Prop} (h : Framed.Ended start lang cut input out)
    (hc : out.called = false) : Less start lang cut input out.text := by
  obtain h | h := h
  · exact absurd (h.symm.trans hc) (by decide)
  · exact h

theorem text_returned (format : ToolFormat) (serde : Serde) (spec : ParseSpec Value) (cut : Bool)
    (pieces : List (List Char))
    (h : ((format.parser serde spec).2.events cut pieces).called = false) :
    Shown format cut pieces.flatten ((format.parser serde spec).2.events cut pieces) := by
  cases format with
  | gemma4 => exact (Framed.returned Gemma.quiet serde spec _ cut pieces).whole h
  | hermes => exact (Framed.returned (JList.quiet _) serde spec _ cut pieces).less h
  | qwen3Xml => exact (Framed.returned QwenXml.quiet serde spec _ cut pieces).whole h
  | glm45 => exact (Framed.returned Glm.quiet serde spec _ cut pieces).whole h
  | mistral => exact (Framed.returned Mistral.quiet serde spec _ cut pieces).whole h
  | kimiK2 => exact (Framed.returned Kimi.quiet serde spec _ cut pieces).less h
  | deepSeekV3 => exact (Framed.returned DeepSeek.quiet serde spec _ cut pieces).less h
  | deepSeekV31 => exact (Framed.returned DeepSeek.quiet serde spec _ cut pieces).less h
  | llama3Json =>
    exact (Llama3.returned serde spec cut pieces).resolve_left fun hc =>
      absurd (hc.symm.trans h) (by decide)
  | harmony =>
    exact (Harmony.returned cut pieces).resolve_left fun hc =>
      absurd (hc.symm.trans h) (by decide)

def plainSpec : Serde × ParseSpec Value :=
  (⟨fun _ => none, fun _ => none, fun _ => false⟩, ⟨[], true, .auto⟩)

def failedRegion : List (List Char) := ["hey <tool_call>\x7b1</tool_".toList, "call>".toList]

theorem text_returned_failed :
    ((ToolFormat.hermes.parser plainSpec.1 plainSpec.2).2.events false failedRegion).called = false ∧
      Shown .hermes false failedRegion.flatten
        ((ToolFormat.hermes.parser plainSpec.1 plainSpec.2).2.events false failedRegion) :=
  ⟨by decide, text_returned .hermes plainSpec.1 plainSpec.2 false failedRegion (by decide)⟩

/-- A region that holds no call is not returned. -/
theorem empty_region_taken :
    ¬ ∀ (format : ToolFormat) (serde : Serde) (spec : ParseSpec Value) (pieces : List (List Char)),
      ((format.parser serde spec).2.events false pieces).called = false →
        ((format.parser serde spec).2.events false pieces).text = pieces.flatten := by
  intro h
  have := h .hermes plainSpec.1 plainSpec.2 ["<tool_call></tool_call>".toList] (by decide)
  exact absurd this (by decide)

end Plow.Tools
