import Plow.Tools.Parse.Quiet

/-!
# Text that is no call is returned

Whatever the pieces a text comes in, while no call has started the text that was put out is what came
in, less the regions that ended without a call and less the region that a cut generation ended in.
-/

namespace Plow.Tools
open Plow.Lib Plow.Lib.Text List

/-- a text, and what is left of it when regions are taken out -/
inductive Returned (gone : List Char → Prop) : List Char → List Char → Prop
  | nil : Returned gone [] []
  | text {p t : List Char} (s : List Char) : Returned gone p t → Returned gone (p ++ s) (t ++ s)
  | region {p t e : List Char} : Returned gone p t → gone e → Returned gone (p ++ e) t

theorem Returned.same {gone : List Char → Prop} {p t : List Char} (h : Returned gone p t)
    (hg : ∀ e, ¬ gone e) : t = p := by
  induction h with
  | nil => rfl
  | text s _ ih => rw [ih]
  | region _ he _ => exact absurd he (hg _)

/-! ### Framed formats -/

namespace Framed

variable {σ : Type} {B : Body σ} {start : Opener} {head : σ → List Char → Prop}
  {lang : List Char → Prop} {env : Env} {f f' : Framed σ} {out out' : Out}
  {inp s r : List Char}

def Gone (start : Opener) (lang : List Char → Prop) (e : List Char) : Prop :=
  ∃ raw, lang raw ∧ e = start.text ++ raw

def pending (start : Opener) (f : Framed σ) : List Char :=
  if f.inCall then start.text ++ f.raw else []

/-- a call has started, or all text that came in is put out, pending, or still to be read -/
def Holds (start : Opener) (head : σ → List Char → Prop) (lang : List Char → Prop)
    (inp : List Char) (f : Framed σ) (out : Out) (rest : List Char) : Prop :=
  out.called = true ∨ ∃ p, Returned (Gone start lang) p out.text ∧
    inp = p ++ (f.pending start ++ rest) ∧
    (f.inCall = true → f.started = false ∧ head f.body f.raw)

/-- at the end of the text, a call has started or all text is put out -/
def Ended (start : Opener) (lang : List Char → Prop) (cut : Bool) (inp : List Char) (out : Out) :
    Prop :=
  out.called = true ∨ ∃ p tail, inp = p ++ tail ∧ Returned (Gone start lang) p out.text ∧
    (tail = [] ∨ cut = true ∧ start.text <+: tail)

theorem consumed_append (d rest : List Char) : consumed (d ++ rest) rest = d := by
  rw [consumed, length_append, Nat.add_sub_cancel, take_left]

theorem Holds.putText (h : Holds start head lang inp f out (s ++ r)) (hin : f.inCall = false) :
    Holds start head lang inp f (out.putText s) r := by
  obtain h | ⟨p, hp, hi, hh⟩ := h
  · exact .inl ((Out.called_putText _ _).trans h)
  · refine .inr ⟨p ++ s, ?_, ?_, hh⟩
    · rw [Out.text_putText]
      exact .text s hp
    · rw [hi, pending, hin]
      simp only [Bool.false_eq_true, if_false, nil_append, append_assoc]

/-- what a round leaves, in the middle of the text and at its end -/
def Regional (start : Opener) (head : σ → List Char → Prop) (lang : List Char → Prop)
    (eof cut : Bool) (inp : List Char) : Turn (Framed σ × Out) Char → Prop
  | .go q r => Holds start head lang inp q.1 q.2 r ∧ q.1.cut = cut
  | .wait q r =>
    if eof then Ended start lang cut inp q.2
    else Holds start head lang inp q.1 q.2 r ∧ q.1.cut = cut

theorem holds_open (hB : B.Quiet head lang) (h : Holds start head lang inp f out s)
    (hin : f.inCall = false) :
    Regional start head lang env.eof f.cut inp (round start B env (f, out) s) := by
  dsimp only [round]
  rw [hin]
  simp only [Bool.false_eq_true, if_false]
  cases hs : scan [start.text] s with
  | found j k =>
    obtain ⟨m, hm, -, t, ht⟩ := scan_found hs
    obtain rfl := mem_singleton.mp hm
    have hd : s.drop (j + start.text.length) = t := by
      rw [← drop_drop, ← ht, drop_left]
    refine ⟨?_, rfl⟩
    rw [← take_append_drop j s] at h
    obtain h | ⟨p, hp, hi, -⟩ := h.putText hin
    · exact .inl h
    · refine .inr ⟨p, hp, ?_, fun _ => ⟨rfl, hB.fresh⟩⟩
      rw [hi, pending, hin, ← ht, hd]
      simp [pending]
  | need j =>
    rw [← take_append_drop (if env.eof = true then s.length else j) s] at h
    have h := h.putText hin
    cases he : env.eof with
    | false =>
      rw [he] at h
      exact ⟨h, rfl⟩
    | true =>
      rw [he] at h
      obtain h | ⟨p, hp, hi, -⟩ := h
      · exact .inl h
      · refine .inr ⟨p, [], ?_, hp, .inl rfl⟩
        rw [hi, pending, hin]
        simp

theorem region_called (h : (B.feed env f.body ⟨out, f.started⟩ s).1.cx.out.called = true) :
    Regional start head lang env.eof f.cut inp (region start B env f out s) := by
  dsimp only [region]
  generalize B.feed env f.body ⟨out, f.started⟩ s = q at h ⊢
  obtain ⟨⟨st, cx, v⟩, rest⟩ := q
  cases v with
  | done => exact ⟨.inl h, rfl⟩
  | fail => exact ⟨.inl (by simpa using h), rfl⟩
  | going =>
    cases he : env.eof with
    | false => exact ⟨.inl h, rfl⟩
    | true =>
      simp only [Bool.not_true, Bool.false_eq_true, if_false]
      by_cases hc : (!cx.started && !f.cut) = true
      · rw [if_pos hc]
        exact .inl (by simpa using h)
      · rw [if_neg hc]
        exact .inl h

theorem holds_region (hB : B.Quiet head lang) (h : Holds start head lang inp f out s)
    (hin : f.inCall = true) :
    Regional start head lang env.eof f.cut inp (region start B env f out s) := by
  obtain h | ⟨p, hp, hi, hh⟩ := h
  · exact region_called (hB.feed_called env h)
  obtain ⟨hs, hh⟩ := hh hin
  obtain hq | hq := hB.feed_silent (x := s) env (show (⟨out, f.started⟩ : Cx).started = false from hs) hh
  · exact region_called hq
  rw [pending, if_pos hin, append_assoc] at hi
  dsimp only [region]
  generalize B.feed env f.body ⟨out, f.started⟩ s = q at hq ⊢
  obtain ⟨⟨st, cx, v⟩, rest⟩ := q
  rw [hs] at hq ⊢
  obtain ⟨d, rfl, rfl, hw⟩ := hq
  rw [consumed_append]
  simp only [Bool.false_eq_true, if_false]
  cases v with
  | done =>
    refine ⟨.inr ⟨p ++ (start.text ++ (f.raw ++ d)), .region hp ⟨_, hw, rfl⟩, ?_, fun h => ?_⟩, rfl⟩
    · rw [hi]
      simp [pending]
    · cases h
  | fail =>
    refine ⟨.inr ⟨p ++ (start.text ++ (f.raw ++ d)), ?_, ?_, fun h => ?_⟩, rfl⟩
    · simp only [Out.text_putText, append_assoc]
      exact .text _ hp
    · rw [hi]
      simp [pending]
    · cases h
  | going =>
    cases he : env.eof with
    | false =>
      refine ⟨.inr ⟨p, hp, ?_, fun _ => ⟨rfl, hw⟩⟩, rfl⟩
      rw [hi]
      simp [pending, hin]
    | true =>
      simp only [Bool.not_true, Bool.false_eq_true, if_false]
      cases hc : f.cut with
      | false =>
        refine .inr ⟨inp, [], (append_nil _).symm, ?_, .inl rfl⟩
        simp only [Out.text_putText, append_assoc, hi]
        exact .text _ hp
      | true => exact .inr ⟨p, _, hi, hp, .inr ⟨rfl, prefix_append _ _⟩⟩

theorem holds_round (env : Env) (hB : B.Quiet head lang) (h : Holds start head lang inp f out s) :
    Regional start head lang env.eof f.cut inp (round start B env (f, out) s) := by
  cases hin : f.inCall with
  | false => exact holds_open hB h hin
  | true =>
    rw [round, if_pos hin]
    exact holds_region hB h hin

theorem holds_run (env : Env) (hB : B.Quiet head lang) (h : Holds start head lang inp f out s) :
    if env.eof then Ended start lang f.cut inp (run start B env f out s).1.2
    else Holds start head lang inp (run start B env f out s).1.1 (run start B env f out s).1.2
      (run start B env f out s).2 ∧ (run start B env f out s).1.1.cut = f.cut := by
  have main (q : Framed σ × Out) : Holds start head lang inp q.1 q.2 s →
      Regional start head lang env.eof q.1.cut inp
        (.wait ((scanner start B env).scan q s).1 ((scanner start B env).scan q s).2) := by
    clear h
    induction q, s using Scanner.scan_induct (M := scanner start B env) with
    | hw q s q' r ht =>
      intro h
      rw [Scanner.scan_wait ht]
      have hr := holds_round env hB h
      rwa [show round start B env (q.1, q.2) s = .wait q' r from ht] at hr
    | hg q s q' r ht ih =>
      intro h
      rw [Scanner.scan_go ht]
      have hr := holds_round env hB h
      rw [show round start B env (q.1, q.2) s = .go q' r from ht] at hr
      rw [← hr.2]
      exact ih hr.1
  exact main (f, out) h

theorem Holds.more (h : Holds start head lang inp f out r) (s : List Char) :
    Holds start head lang (inp ++ s) f out (r ++ s) := by
  obtain h | ⟨p, hp, hi, hh⟩ := h
  · exact .inl h
  · exact .inr ⟨p, hp, by rw [hi]; simp only [append_assoc], hh⟩

theorem holds_pieces (hB : B.Quiet head lang) (serde : Serde) (spec : ParseSpec Value)
    (pieces : List (List Char)) (h : Holds start head lang inp f out f.buf) :
    let q := pieces.foldl (fun q s => push serde spec start B q.1 s q.2) (f, out)
    Holds start head lang (inp ++ pieces.flatten) q.1 q.2 q.1.buf ∧ q.1.cut = f.cut := by
  induction pieces generalizing inp f out with
  | nil =>
    rw [flatten_nil, append_nil]
    exact ⟨h, rfl⟩
  | cons s pieces ih =>
    have hr := holds_run ⟨serde, spec, false⟩ hB (h.more s)
    obtain ⟨hq, hc⟩ := ih (f := (push serde spec start B f s out).1) hr.1
    rw [flatten_cons, ← append_assoc]
    exact ⟨hq, hc.trans hr.2⟩

theorem returned (hB : B.Quiet head lang) (serde : Serde) (spec : ParseSpec Value)
    (start : Opener) (cut : Bool) (pieces : List (List Char)) :
    Ended start lang cut pieces.flatten ((parser serde spec start B).events cut pieces) := by
  have h0 : Holds start head lang [] (new B) Out.empty (new B).buf :=
    .inr ⟨[], .nil, rfl, nofun⟩
  obtain ⟨hq, hc⟩ := holds_pieces hB serde spec pieces h0
  dsimp only [Parser.events, parser, finish]
  generalize pieces.foldl _ _ = q at hq hc ⊢
  rw [nil_append] at hq
  have finish (f : Framed σ) (hf : Holds start head lang pieces.flatten f q.2 q.1.buf) :
      Ended start lang f.cut pieces.flatten
        (run start B ⟨serde, spec, true⟩ f q.2 q.1.buf).1.2  :=
    holds_run ⟨serde, spec, true⟩ hB hf
  cases cut with
  | false =>
    have hf := finish { q.1 with buf := [] } hq
    rwa [show ({ q.1 with buf := [] } : Framed σ).cut = false from hc] at hf
  | true => exact finish { q.1 with cut := true, buf := [] } hq

end Framed

/-! ### Llama 3 -/

def Tagged (x : List Char) : Prop :=
  ∃ blocks : List (List Char), pyTag ∈ blocks ∧
    (∀ b ∈ blocks, b = pyTag ∨ b.all isWhitespace = true) ∧ x = blocks.flatten

theorem Tagged.append {raw w : List Char} (h : raw = [] ∨ Tagged raw)
    (hw : w.all isWhitespace = true) : Tagged (raw ++ (w ++ pyTag)) := by
  have hlast : ∀ b ∈ [w, pyTag], b = pyTag ∨ b.all isWhitespace = true := by
    intro b hb
    obtain rfl | hb := mem_cons.mp hb
    · exact .inr hw
    · exact .inl (mem_singleton.mp hb)
  obtain rfl | ⟨blocks, -, hall, rfl⟩ := h
  · exact ⟨[w, pyTag], by simp, hlast, by simp⟩
  · refine ⟨blocks ++ [w, pyTag], by simp, fun b hb => ?_, by simp⟩
    exact (mem_append.mp hb).elim (hall b) (hlast b)

theorem Tagged.blank {raw w : List Char} (h : Tagged raw) (hw : w.all isWhitespace = true) :
    Tagged (raw ++ w) := by
  obtain ⟨blocks, hm, hall, rfl⟩ := h
  refine ⟨blocks ++ [w], by simp [hm], fun b hb => ?_, by simp⟩
  obtain hb | hb := mem_append.mp hb
  · exact hall b hb
  · exact .inr (mem_singleton.mp hb ▸ hw)

namespace Llama3

variable {f : Llama3} {out : Out} {inp s r : List Char} {env : Env}

/-- a call has started, or all text that came in is put out, kept in `raw`, or still to be read -/
def Holds (inp : List Char) (f : Llama3) (out : Out) (rest : List Char) : Prop :=
  out.called = true ∨
    match f.state with
    | .deciding => inp = f.raw ++ rest ∧ out.text = [] ∧ (f.raw = [] ∨ Tagged f.raw) ∧
        f.list = JList.new
    | .list => inp = f.raw ++ rest ∧ out.text = [] ∧ ∃ raw, f.list.Head raw
    | .pass => inp = out.text ++ rest

def Ended (inp : List Char) (out : Out) : Prop :=
  out.called = true ∨ out.text = inp ∨ Tagged inp

def Roundly (eof : Bool) (inp : List Char) : Turn (Llama3 × Out) Char → Prop
  | .go q r => Holds inp q.1 q.2 r
  | .wait q r =>
    if eof then Ended inp q.2
    else Holds inp q.1 q.2 r ∧ (q.1.state = .pass → r = [])

theorem holds_deciding (hst : f.state = .deciding) (h : Holds inp f out s) :
    Roundly env.eof inp (deciding env.eof f out s) := by
  obtain ⟨w, hw, hs⟩ := trimStart_split s
  have hw : w.all isWhitespace = true := all_eq_true.mpr hw
  have hc := Framed.consumed_append w (trimStart s)
  rw [← hs] at hc
  unfold Holds at h
  rw [hst] at h
  dsimp only [deciding]
  by_cases ht : trimStart s = []
  · rw [if_pos ht]
    cases he : env.eof with
    | false => exact ⟨by unfold Holds; rw [hst]; exact h, by simp [hst]⟩
    | true =>
      obtain h | ⟨rfl, hq, hr, -⟩ := h
      · exact .inl (by simpa using h)
      · rw [ht, append_nil] at hs
        obtain hr | hr := hr
        · exact .inr (.inl (by simp [hq, hr]))
        · exact .inr (.inr (hr.blank (hs ▸ hw)))
  · rw [if_neg ht]
    by_cases hp : pyTag.isPrefixOf (trimStart s) = true
    · rw [if_pos hp]
      obtain ⟨t, ht⟩ := isPrefixOf_iff_prefix.mp hp
      have hd : (trimStart s).drop pyTag.length = t := by rw [← ht, drop_left]
      have hst' : s = (w ++ pyTag) ++ t := by rw [append_assoc, ht]; exact hs
      rw [hd]
      show Holds _ { f with raw := _ } _ _
      unfold Holds
      dsimp only
      rw [hst]
      obtain h | ⟨rfl, hq, hr, hl⟩ := h
      · exact .inl h
      · rw [hst', Framed.consumed_append]
        exact .inr ⟨by simp only [append_assoc], hq, .inr (Tagged.append hr hw), hl⟩
    · rw [if_neg hp]
      by_cases hn : (!env.eof && (trimStart s).isPrefixOf pyTag) = true
      · rw [if_pos hn]
        have he : env.eof = false := by
          rw [Bool.and_eq_true, Bool.not_eq_true'] at hn
          exact hn.1
        rw [he]
        exact ⟨by unfold Holds; rw [hst]; exact h, by simp [hst]⟩
      · rw [if_neg hn]
        by_cases hb : (trimStart s).head? = some '{'
        · rw [if_pos hb, hc]
          obtain h | ⟨rfl, hq, -, hl⟩ := h
          · exact .inl h
          · refine .inr ⟨?_, hq, [], ?_⟩
            · rw [append_assoc, ← hs]
            · show f.list.Head []
              rw [hl]
              exact (JList.quiet none).fresh
        · rw [if_neg hb]
          obtain h | ⟨rfl, hq, -, -⟩ := h
          · exact .inl (by simpa using h)
          · refine .inr ?_
            show f.raw ++ s = (out.putText f.raw).text ++ s
            rw [Out.text_putText, hq, nil_append]

def fed (env : Env) (f : Llama3) (out : Out) (s : List Char) : At JList × List Char :=
  (JList.body none).feed env f.list ⟨out, 0 < f.list.calls || f.list.started⟩ s

theorem listing_called (hst : f.state = .list) (h : (fed env f out s).1.cx.out.called = true) :
    Roundly env.eof inp (listing env f out s) := by
  dsimp only [listing, fed] at h ⊢
  generalize Body.feed (JList.body none) env f.list _ s = q at h ⊢
  obtain ⟨⟨l, cx, v⟩, rest⟩ := q
  cases v with
  | done => exact .inl h
  | fail => exact .inl (by simpa using h)
  | going =>
    cases he : env.eof with
    | false => exact ⟨.inl h, by simp [hst]⟩
    | true =>
      simp only [Bool.not_true, Bool.false_eq_true, if_false]
      cases cx.started with
      | false => exact .inl (by simpa using h)
      | true => exact .inl h

theorem holds_listing (hst : f.state = .list) (h : Holds inp f out s) :
    Roundly env.eof inp (listing env f out s) := by
  unfold Holds at h
  rw [hst] at h
  obtain h | ⟨rfl, ht, raw, hl⟩ := h
  · exact listing_called hst ((JList.quiet none).feed_called env h)
  have hbef : (decide (0 < f.list.calls) || f.list.started) = false := by
    rw [hl.1, hl.2.1]
    rfl
  have hq : (fed env f out s).1.cx.out.called = true ∨ _ :=
    (JList.quiet none).feed_silent (x := s) env hbef hl
  obtain hq | hq := hq
  · exact listing_called hst hq
  dsimp only [listing]
  generalize Body.feed (JList.body none) env f.list _ s = q at hq ⊢
  obtain ⟨⟨l, cx, v⟩, rest⟩ := q
  obtain ⟨d, rfl, rfl, hw⟩ := hq
  rw [Framed.consumed_append, hbef]
  simp only [Bool.false_eq_true, if_false]
  cases v with
  | done =>
    obtain ⟨e, he, -⟩ := hw
    cases he
  | fail =>
    refine .inr ?_
    show _ = (out.putText (f.raw ++ d)).text ++ rest
    rw [Out.text_putText, ht, nil_append, append_assoc]
  | going =>
    cases he : env.eof with
    | false =>
      refine ⟨?_, by simp [hst]⟩
      unfold Holds
      dsimp only
      rw [hst]
      exact .inr ⟨by rw [append_assoc], ht, _, hw⟩
    | true =>
      refine .inr (.inl ?_)
      show ((out.putText (f.raw ++ d)).putText rest).text = f.raw ++ (d ++ rest)
      simp only [Out.text_putText, ht, nil_append, append_assoc]

theorem holds_round (env : Env) (h : Holds inp f out s) :
    Roundly env.eof inp (round env (f, out) s) := by
  unfold round
  cases hst : f.state with
  | deciding => exact holds_deciding hst h
  | list => exact holds_listing hst h
  | pass =>
    unfold Holds at h
    rw [hst] at h
    cases he : env.eof with
    | false =>
      refine ⟨?_, fun _ => rfl⟩
      unfold Holds
      dsimp only
      rw [hst]
      obtain h | rfl := h
      · exact .inl ((Out.called_putText _ _).trans h)
      · refine .inr ?_
        show out.text ++ s = (out.putText s).text ++ []
        rw [Out.text_putText, append_nil]
    | true =>
      obtain h | rfl := h
      · exact .inl ((Out.called_putText _ _).trans h)
      · exact .inr (.inl (Out.text_putText _ _))

theorem holds_run (env : Env) (h : Holds inp f out s) :
    Roundly env.eof inp (.wait (run env f out s).1 (run env f out s).2) := by
  have main (q : Llama3 × Out) : Holds inp q.1 q.2 s →
      Roundly env.eof inp (.wait ((scanner env).scan q s).1 ((scanner env).scan q s).2) := by
    clear h
    induction q, s using Scanner.scan_induct (M := scanner env) with
    | hw q s q' r ht =>
      intro h
      rw [Scanner.scan_wait ht]
      have hr := holds_round env h
      rwa [show round env (q.1, q.2) s = .wait q' r from ht] at hr
    | hg q s q' r ht ih =>
      intro h
      rw [Scanner.scan_go ht]
      have hr := holds_round env h
      rw [show round env (q.1, q.2) s = .go q' r from ht] at hr
      exact ih hr
  exact main (f, out) h

theorem Holds.more (h : Holds inp f out r) (s : List Char) : Holds (inp ++ s) f out (r ++ s) := by
  unfold Holds at h ⊢
  obtain h | h := h
  · exact .inl h
  · refine .inr ?_
    cases hst : f.state with
    | deciding =>
      rw [hst] at h
      exact ⟨by rw [h.1, append_assoc], h.2⟩
    | list =>
      rw [hst] at h
      exact ⟨by rw [h.1, append_assoc], h.2⟩
    | pass =>
      rw [hst] at h
      exact h ▸ append_assoc _ _ _

theorem holds_push (serde : Serde) (spec : ParseSpec Value) (h : Holds inp f out f.buf)
    (hp : f.state = .pass → f.buf = []) (s : List Char) :
    let q := push serde spec f s out
    Holds (inp ++ s) q.1 q.2 q.1.buf ∧ (q.1.state = .pass → q.1.buf = []) := by
  dsimp only [push]
  by_cases hst : f.state = .pass
  · rw [if_pos hst]
    refine ⟨?_, hp⟩
    unfold Holds at h ⊢
    rw [hst, hp hst] at h
    dsimp only
    rw [hst, hp hst]
    obtain h | rfl := h
    · exact .inl ((Out.called_putText _ _).trans h)
    · exact .inr (by simp)
  · rw [if_neg hst]
    exact holds_run ⟨serde, spec, false⟩ (h.more s)

theorem holds_pieces (serde : Serde) (spec : ParseSpec Value) (pieces : List (List Char))
    (h : Holds inp f out f.buf) (hp : f.state = .pass → f.buf = []) :
    let q := pieces.foldl (fun q s => push serde spec q.1 s q.2) (f, out)
    Holds (inp ++ pieces.flatten) q.1 q.2 q.1.buf := by
  induction pieces generalizing inp f out with
  | nil => rwa [flatten_nil, append_nil]
  | cons s pieces ih =>
    obtain ⟨hq, hp⟩ := holds_push serde spec h hp s
    rw [flatten_cons, ← append_assoc]
    exact ih (f := (push serde spec f s out).1) hq hp

theorem returned (serde : Serde) (spec : ParseSpec Value) (cut : Bool) (pieces : List (List Char)) :
    Ended pieces.flatten ((parser serde spec).events cut pieces) := by
  have h0 : Holds [] new Out.empty new.buf := .inr ⟨rfl, rfl, .inl rfl, rfl⟩
  have hq := holds_pieces serde spec pieces h0 (by decide)
  rw [nil_append] at hq
  dsimp only [Parser.events, parser, finish]
  rw [ite_self]
  generalize pieces.foldl _ _ = q at hq ⊢
  exact holds_run (f := { q.1 with buf := [] }) ⟨serde, spec, true⟩ hq

end Llama3

end Plow.Tools
