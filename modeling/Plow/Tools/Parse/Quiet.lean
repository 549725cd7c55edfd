import Plow.Tools.Parse.Formats

/-!
# Bodies are quiet before a call

While a body has started no call it has emitted nothing. `Quiet` says so of a body turn by turn, with a
predicate `head` on its states before a start and on what it has consumed in the region, and `lang`, what
a region may be that ends without a call. `feed_silent` carries it over to the loop of turns.

Only two kinds of region end without a call: those of JSON lists that hold no object, and the sections
of Kimi-K2 and DeepSeek that hold nothing but white space.
-/

namespace Plow.Tools
open Plow.Lib Plow.Lib.Text List

/-! ### What was emitted -/

namespace Out

def text (o : Out) : List Char :=
  o.evs.flatMap fun
    | .text t => t
    | _ => []

def called (o : Out) : Bool :=
  o.evs.any fun
    | .start _ _ => true
    | _ => false

@[simp] theorem called_start (o : Out) (n : List Char) (id : Option (List Char)) :
    (o.start n id).called = true := by simp [start, called]

@[simp] theorem called_done (o : Out) : o.done.called = o.called := by simp [done, called]

@[simp] theorem called_putText (o : Out) (s : List Char) : (o.putText s).called = o.called := by
  unfold putText
  split
  · rfl
  · split
    · next t h =>
      obtain ⟨evs, he⟩ := getLast?_eq_some_iff.mp h
      simp [called, he]
    · simp [called]

@[simp] theorem called_arg (o : Out) (s : List Char) : (o.arg s).called = o.called := by
  unfold arg
  split
  · rfl
  · split
    · next t h =>
      obtain ⟨evs, he⟩ := getLast?_eq_some_iff.mp h
      simp [called, he]
    · simp [called]

@[simp] theorem text_putText (o : Out) (s : List Char) : (o.putText s).text = o.text ++ s := by
  unfold putText
  split
  · next h => rw [h, append_nil]
  · split
    · next t h =>
      obtain ⟨evs, he⟩ := getLast?_eq_some_iff.mp h
      simp [text, he]
    · simp [text]

@[simp] theorem reasoning_putText (o : Out) (s : List Char) :
    (o.putText s).reasoning = o.reasoning := by
  unfold putText
  split
  · rfl
  · split <;> rfl

end Out

namespace Cx

@[simp] theorem called_start (cx : Cx) (n : List Char) (id : Option (List Char)) :
    (cx.start n id).out.called = true := Out.called_start _ _ _

@[simp] theorem called_arg (cx : Cx) (s : List Char) : (cx.arg s).out.called = cx.out.called :=
  Out.called_arg _ _

@[simp] theorem called_argEscaped (cx : Cx) (s : List Char) :
    (cx.argEscaped s).out.called = cx.out.called := Out.called_arg _ _

@[simp] theorem called_finish (cx : Cx) : cx.finish.out.called = cx.out.called := Out.called_done _

end Cx

/-! ### Quiet bodies -/

section
variable {σ : Type}

/-- what a body may return that has consumed `raw` since its region began and started no call -/
def At.Waits (head : σ → List Char → Prop) (lang : List Char → Prop) (a : At σ)
    (raw : List Char) : Prop :=
  match a.verdict with
  | .going => head a.st raw
  | .done => lang raw
  | .fail => True

/-- a call has started, or nothing was emitted and `raw` grows by what was consumed of the text -/
def Silent (head : σ → List Char → Prop) (lang : List Char → Prop) (cx : Cx)
    (raw x : List Char) : Move σ → Prop
  | .go a rest =>
    a.cx.out.called = true ∨ ∃ d, x = d ++ rest ∧ a.cx = cx ∧ head a.st (raw ++ d)
  | .wait a rest =>
    a.cx.out.called = true ∨ ∃ d, x = d ++ rest ∧ a.cx = cx ∧ a.Waits head lang (raw ++ d)

def Calls : Move σ → Prop
  | .go a _ => a.cx.out.called = true
  | .wait a _ => a.cx.out.called = true

structure Body.Quiet (B : Body σ) (head : σ → List Char → Prop) (lang : List Char → Prop) :
    Prop where
  fresh : head B.fresh []
  silent : ∀ env st cx raw x, cx.started = false → head st raw →
    Silent head lang cx raw x (B.turn env st cx x)
  called : ∀ env st cx x, cx.out.called = true → Calls (B.turn env st cx x)

variable {head : σ → List Char → Prop} {lang : List Char → Prop} {cx cx' : Cx} {st : σ}
  {raw x rest : List Char} {v : St} {p : Prop}

namespace Body.Quiet

variable {B : Body σ}

theorem feed_called (h : B.Quiet head lang) (env : Env) (hc : cx.out.called = true) :
    (B.feed env st cx x).1.cx.out.called = true := by
  show ((B.scanner env).scan ⟨st, cx, .going⟩ x).1.cx.out.called = true
  have hc : (⟨st, cx, .going⟩ : At σ).cx.out.called = true := hc
  generalize (⟨st, cx, .going⟩ : At σ) = a at hc ⊢
  induction a, x using Scanner.scan_induct (M := B.scanner env) with
  | hw a x a' r ht =>
    rw [Scanner.scan_wait ht]
    have hq := h.called env a.st a.cx x hc
    rwa [show B.turn env a.st a.cx x = .wait a' r from ht] at hq
  | hg a x a' r ht ih =>
    rw [Scanner.scan_go ht]
    have hq := h.called env a.st a.cx x hc
    rw [show B.turn env a.st a.cx x = .go a' r from ht] at hq
    exact ih hq

/-- the loop of turns is as silent as each turn -/
theorem feed_silent (h : B.Quiet head lang) (env : Env) (hs : cx.started = false)
    (hh : head st raw) :
    (B.feed env st cx x).1.cx.out.called = true ∨ ∃ d, x = d ++ (B.feed env st cx x).2 ∧
      (B.feed env st cx x).1.cx = cx ∧ (B.feed env st cx x).1.Waits head lang (raw ++ d) := by
  have main (a : At σ) : a.cx = cx → ∀ raw, head a.st raw →
      ((B.scanner env).scan a x).1.cx.out.called = true ∨
        ∃ d, x = d ++ ((B.scanner env).scan a x).2 ∧ ((B.scanner env).scan a x).1.cx = cx ∧
          ((B.scanner env).scan a x).1.Waits head lang (raw ++ d) := by
    induction a, x using Scanner.scan_induct (M := B.scanner env) with
    | hw a x a' r ht =>
      intro hcx raw hh
      rw [Scanner.scan_wait ht]
      have hq := h.silent env a.st a.cx raw x (by rw [hcx, hs]) hh
      rwa [show B.turn env a.st a.cx x = .wait a' r from ht, hcx] at hq
    | hg a x a' r ht ih =>
      intro hcx raw hh
      rw [Scanner.scan_go ht]
      have hq := h.silent env a.st a.cx raw x (by rw [hcx, hs]) hh
      rw [show B.turn env a.st a.cx x = .go a' r from ht] at hq
      obtain hc | ⟨d, rfl, hcx', hh'⟩ := hq
      · exact .inl (h.feed_called env hc)
      · obtain hc | ⟨e, he, hq⟩ := ih (hcx'.trans hcx) _ hh'
        · exact .inl hc
        · refine .inr ⟨d ++ e, ?_, hq.1, by rw [← append_assoc]; exact hq.2⟩
          rw [append_assoc, ← he]
  exact main ⟨st, cx, .going⟩ rfl raw hh

end Body.Quiet

theorem silent_go (h : rest <:+ x) (hh : ∀ d, x = d ++ rest → head st (raw ++ d)) :
    Silent head lang cx raw x (go st cx rest) := by
  obtain ⟨d, hd⟩ := h
  exact .inr ⟨d, hd.symm, rfl, hh d hd.symm⟩

theorem silent_going (h : rest <:+ x) (hh : ∀ d, x = d ++ rest → head st (raw ++ d)) :
    Silent head lang cx raw x (ret st cx rest .going) := by
  obtain ⟨d, hd⟩ := h
  exact .inr ⟨d, hd.symm, rfl, hh d hd.symm⟩

theorem silent_nil (h : head st raw) : Silent head lang cx raw [] (ret st cx [] .going) :=
  .inr ⟨[], rfl, rfl, by rwa [append_nil]⟩

theorem silent_done (h : rest <:+ x) (hh : ∀ d, x = d ++ rest → lang (raw ++ d)) :
    Silent head lang cx raw x (ret st cx rest .done) := by
  obtain ⟨d, hd⟩ := h
  exact .inr ⟨d, hd.symm, rfl, hh d hd.symm⟩

theorem silent_fail (h : rest <:+ x) (hv : v = .fail) :
    Silent head lang cx raw x (ret st cx rest v) := by
  obtain ⟨d, hd⟩ := h
  subst hv
  exact .inr ⟨d, hd.symm, rfl, trivial⟩

theorem silent_start (h : cx'.out.called = true) : Silent head lang cx raw x (go st cx' rest) :=
  .inl h

theorem silent_calls {m : Move σ} (h : Calls m) : Silent head lang cx raw x m := by
  cases m with
  | go a r => exact .inl h
  | wait a r => exact .inl h

theorem silent_ite [Decidable p] {a b : Move σ} (ha : p → Silent head lang cx raw x a)
    (hb : ¬ p → Silent head lang cx raw x b) : Silent head lang cx raw x (if p then a else b) := by
  split
  · next h => exact ha h
  · next h => exact hb h

theorem calls_ite [Decidable p] {a b : Move σ} (ha : p → Calls a) (hb : ¬ p → Calls b) :
    Calls (if p then a else b) := by
  split
  · next h => exact ha h
  · next h => exact hb h

end

/-! ### Gemma -/

namespace Nest

variable {n : Nest} {cx : Cx} {c : Char}

theorem member_called : (n.member cx).2.out.called = cx.out.called := by
  unfold member
  split
  · exact Cx.called_arg _ _
  · rfl

theorem begin_called : (n.begin c cx).2.out.called = cx.out.called :=
  (Cx.called_arg _ _).trans member_called

theorem putKey_called {key : List Char} : (n.putKey key cx).2.out.called = cx.out.called :=
  (Cx.called_arg _ _).trans member_called

theorem close_called {q : Nest × Cx} (h : n.close c cx = some q) :
    q.2.out.called = cx.out.called := by
  rw [close, Option.ite_none_right_eq_some] at h
  rw [← Option.some.inj h.2]
  exact Cx.called_arg _ _

theorem closeD_called : ((n.close c cx).getD (n, cx)).2.out.called = cx.out.called := by
  cases h : n.close c cx with
  | none => rfl
  | some q => exact close_called h

theorem seals_called : (n.seals cx).2.out.called = cx.out.called := by
  have run (cs : List Char) (cx : Cx) :
      (cs.foldl (fun cx c => cx.arg [c]) cx).out.called = cx.out.called := by
    induction cs generalizing cx with
    | nil => rfl
    | cons c cs ih => exact (ih _).trans (Cx.called_arg _ _)
  exact (Cx.called_finish _).trans (run _ _)

end Nest

namespace Gemma

variable {serde : Serde} {eof : Bool} {g : Gemma} {cx : Cx} {c : Char} {raw x rest : List Char}

def Head (g : Gemma) (_ : List Char) : Prop := g.st = .call ∨ g.st = .name

theorem calls_broken (h : cx.out.called = true) : Calls (g.brokenTurn cx x) :=
  Nest.seals_called.trans h

theorem calls_closed (h : cx.out.called = true) : Calls (g.closedTurn cx x) := by
  show (g.closed cx).2.out.called = true
  unfold closed
  split
  · exact (Cx.called_finish _).trans h
  · exact h

theorem arrayMember_called : (g.arrayMember cx).2.out.called = cx.out.called := by
  unfold arrayMember
  split
  · exact Nest.member_called
  · rfl

theorem called_turn (env : Env) (h : cx.out.called = true) : Calls (g.turn env cx x) := by
  cases x with
  | nil => exact h
  | cons c rest =>
    dsimp only [turn]
    split
    · dsimp only [callTurn]
      refine calls_ite (fun _ => h) fun _ => ?_
      split <;> exact h
    · dsimp only [nameTurn]
      split
      · exact h
      · exact calls_ite (fun _ => h) fun _ => Nest.begin_called.trans (Cx.called_start _ _ _)
    · unfold keyTurn
      refine calls_ite (fun _ => h) fun _ => calls_ite (fun _ => ?_) fun _ =>
        calls_ite (fun _ => ?_) fun _ => h
      · exact calls_closed (Nest.closeD_called.trans h)
      · split
        · exact h
        · exact h
        · exact calls_broken h
    · unfold keyQuotedTurn
      split <;> exact h
    · dsimp only [colonTurn]
      split
      · exact h
      · exact calls_ite (fun _ => calls_broken h) fun _ => Nest.putKey_called.trans h
    · unfold valueTurn
      refine calls_ite (fun _ => h) fun _ => calls_ite (fun _ => Nest.begin_called.trans h) fun _ =>
        calls_ite (fun _ => Nest.begin_called.trans h) fun _ => calls_ite (fun _ => ?_) fun _ =>
        calls_ite (fun _ => ?_) fun _ => arrayMember_called.trans h
      · exact calls_closed (Nest.closeD_called.trans h)
      · split
        · exact ((Cx.called_arg _ _).trans arrayMember_called).trans h
        · exact h
        · exact calls_broken h
    · unfold strTurn
      split
      · exact ((Cx.called_arg _ _).trans (Cx.called_argEscaped _ _)).trans h
      · exact (Cx.called_argEscaped _ _).trans h
    · dsimp only [bareTurn]
      split
      · exact h
      · exact (Cx.called_arg _ _).trans h
    · unfold afterTurn
      refine calls_ite (fun _ => h) fun _ => calls_ite (fun _ => h) fun _ =>
        calls_ite (fun _ => ?_) fun _ => calls_broken h
      split
      · next hq => exact calls_closed ((Nest.close_called hq).trans h)
      · exact calls_broken h
    · unfold skipTurn
      split <;> exact h
    · unfold skipTurn
      split <;> exact h

theorem quiet : body.Quiet Head fun _ => False where
  fresh := .inl rfl
  called env g cx x h := called_turn env h
  silent := by
    intro env g cx raw x _ hg
    cases x with
    | nil => exact silent_nil hg
    | cons c rest =>
      show Silent Head _ cx raw _ (g.turn env cx (c :: rest))
      dsimp only [turn]
      obtain hst | hst := hg
      · have hy := trimStart_suffix (c :: rest)
        rw [hst]
        dsimp only [callTurn]
        refine silent_ite (fun _ => silent_going nil_suffix fun _ _ => .inl hst) fun _ => ?_
        split
        · exact silent_go ((drop_suffix _ _).trans hy) fun _ _ => .inr rfl
        · exact silent_going hy fun _ _ => .inl hst
        · exact silent_fail hy rfl
      · have hs : ((c :: rest).span fun c => !(c = '{' || c = '<' || isWhitespace c)).2
            <:+ c :: rest := by
          rw [span_eq_takeWhile_dropWhile]
          exact dropWhile_suffix _
        rw [hst]
        dsimp only [nameTurn]
        split
        · exact silent_going nil_suffix fun _ _ => .inr hst
        · exact silent_ite (fun _ => silent_fail hs rfl) fun _ =>
            silent_start (Nest.begin_called.trans (Cx.called_start _ _ _))

end Gemma

/-! ### Qwen3 XML and GLM -/

namespace Param

variable {serde : Serde} {spec : ParseSpec Value} {u : Bool} {p : Param} {n : Nest} {cx : Cx}
  {s : List Char}

theorem begin_called : (p.begin spec u n cx).2.2.out.called = cx.out.called := by
  dsimp only [begin]
  split
  · exact (Cx.called_arg _ _).trans Nest.putKey_called
  · exact Nest.putKey_called

theorem streamed_called : (p.streamed s cx).2.out.called = cx.out.called := by
  have held : (if p.nlHeld then cx.arg ['\\', 'n'] else cx).out.called = cx.out.called := by
    split
    · exact Cx.called_arg _ _
    · rfl
  dsimp only [streamed]
  split
  · exact (Cx.called_argEscaped _ _).trans held
  · exact (Cx.called_argEscaped _ _).trans held

theorem piece_called : (p.piece s cx).2.out.called = cx.out.called := by
  dsimp only [piece]
  generalize (if p.lead && s.head? = some '\n' then s.tail else s) = t
  split
  · rfl
  · split
    · rfl
    · split
      · rfl
      · exact streamed_called

theorem finish_called : (p.finish serde spec u n cx).2.out.called = cx.out.called := by
  dsimp only [finish]
  split
  · exact Cx.called_arg _ _
  · exact Cx.called_arg _ _

end Param

namespace QwenXml

variable {q : QwenXml} {cx : Cx} {x : List Char}

def Head (q : QwenXml) (_ : List Char) : Prop := (q.st = .func ∨ q.st = .fName) ∧ q.calls = 0

theorem called_turn (env : Env) (h : cx.out.called = true) : Calls (q.turn env cx x) := by
  cases x with
  | nil => exact h
  | cons c rest =>
    dsimp only [turn]
    split
    · dsimp only [funcTurn]
      refine calls_ite (fun _ => h) fun _ => ?_
      split <;> exact h
    · dsimp only [fNameTurn]
      split
      · exact h
      · exact calls_ite (fun _ => h) fun _ => Nest.begin_called.trans (Cx.called_start _ _ _)
    · dsimp only [paramsTurn]
      split
      · exact h
      · exact calls_ite (fun _ => Nest.seals_called.trans h) fun _ => Nest.seals_called.trans h
      · exact h
    · dsimp only [pNameTurn]
      split
      · exact h
      · exact calls_ite (fun _ => h) fun _ => Param.begin_called.trans h
    · dsimp only [pValTurn]
      split
      · exact ((Param.finish_called (n := q.nest)).trans Param.piece_called).trans h
      · exact Param.piece_called.trans h
    · dsimp only [afterFuncTurn]
      refine calls_ite (fun _ => h) fun _ => ?_
      split
      · exact h
      · exact h
      · exact calls_ite (fun _ => h) fun _ => h
      · exact h

theorem quiet : body.Quiet Head fun _ => False where
  fresh := ⟨.inl rfl, rfl⟩
  called env q cx x h := called_turn env h
  silent := by
    intro env q cx raw x _ hq
    have hfail : q.failOrDone = .fail := if_pos hq.2
    cases x with
    | nil => exact silent_nil hq
    | cons c rest =>
      show Silent Head _ cx raw _ (q.turn env cx (c :: rest))
      dsimp only [turn]
      obtain hst | hst := hq.1
      · have hy := trimStart_suffix (c :: rest)
        rw [hst]
        dsimp only [funcTurn]
        refine silent_ite (fun _ => silent_going nil_suffix fun _ _ => hq) fun _ => ?_
        split
        · exact silent_go ((drop_suffix _ _).trans hy) fun _ _ => ⟨.inr rfl, hq.2⟩
        · exact silent_going hy fun _ _ => hq
        · exact silent_fail hy hfail
      · rw [hst]
        dsimp only [fNameTurn]
        split
        · exact silent_going nil_suffix fun _ _ => ⟨.inr hst, hq.2⟩
        · exact silent_ite (fun _ => silent_fail (findAny_suffix _ _) hfail) fun _ =>
            silent_start (Nest.begin_called.trans (Cx.called_start _ _ _))

end QwenXml

namespace Glm

variable {g : Glm} {cx : Cx} {x : List Char}

def Head (g : Glm) (_ : List Char) : Prop := g.st = .name

theorem called_turn (env : Env) (h : cx.out.called = true) : Calls (g.turn env cx x) := by
  cases x with
  | nil => exact h
  | cons c rest =>
    dsimp only [turn]
    split
    · dsimp only [nameTurn]
      split
      · exact h
      · exact calls_ite (fun _ => h) fun _ => calls_ite (fun _ => h) fun _ =>
          Nest.begin_called.trans (Cx.called_start _ _ _)
    · dsimp only [argsTurn]
      split
      · exact h
      · exact Nest.seals_called.trans h
      · exact h
    · unfold keyTurn
      split <;> exact h
    · dsimp only [val0Turn]
      refine calls_ite (fun _ => h) fun _ => ?_
      split
      · exact Param.begin_called.trans h
      · exact h
      · exact h
    · dsimp only [valTurn]
      split
      · exact ((Param.finish_called (n := g.nest)).trans Param.piece_called).trans h
      · exact Param.piece_called.trans h

theorem quiet : body.Quiet Head fun _ => False where
  fresh := rfl
  called env g cx x h := called_turn env h
  silent := by
    intro env g cx raw x _ hg
    cases x with
    | nil => exact silent_nil hg
    | cons c rest =>
      have hs := findAny_suffix ['<', '\n'] (c :: rest)
      show Silent Head _ cx raw _ (g.turn env cx (c :: rest))
      dsimp only [turn]
      rw [show g.st = .name from hg]
      dsimp only [nameTurn]
      split
      · exact silent_going nil_suffix fun _ _ => hg
      · next c' tail hd =>
        refine silent_ite (fun _ => ?_) fun _ => silent_ite (fun _ => silent_fail hs rfl) fun _ =>
          silent_start (Nest.begin_called.trans (Cx.called_start _ _ _))
        rw [hd] at hs
        exact silent_go ((suffix_cons c' tail).trans hs) fun _ _ => hg

end Glm

/-! ### Kimi-K2 and DeepSeek -/

namespace RawArgs

variable {a : RawArgs} {p : List Char} {o : Out}

theorem piece_called : (a.piece p o).2.called = o.called := by
  dsimp only [piece]
  generalize (if a.began = true then p else trimStart p) = p
  by_cases hp : p = []
  · rw [if_pos hp]
  · rw [if_neg hp]
    by_cases hb : trimEnd p = []
    · rw [if_pos hb]
    · rw [if_neg hb]
      exact (Out.called_arg _ _).trans (Out.called_arg _ _)

theorem finish_called : (a.finish o).2.called = o.called := by
  dsimp only [finish]
  split
  · exact Out.called_arg _ _
  · rfl

theorem whole_called : ((a.piece p o).1.finish (a.piece p o).2).2.done.called = o.called :=
  (Out.called_done _).trans (finish_called.trans piece_called)

end RawArgs

def Blank (fin raw : List Char) : Prop := ∃ w, w.all isWhitespace = true ∧ raw = w ++ fin

theorem trimStart_blank {x d : List Char} (h : x = d ++ trimStart x) : d.all isWhitespace = true := by
  obtain ⟨w, hw, hx⟩ := trimStart_split x
  obtain rfl : d = w := append_cancel_right (h.symm.trans hx)
  exact all_eq_true.mpr hw

theorem drop_word {x d y m : List Char} (hx : trimStart x = y) (hm : m <+: y)
    (h : x = d ++ y.drop m.length) : ∃ w, w.all isWhitespace = true ∧ d = w ++ m := by
  obtain ⟨w, hw, hxw⟩ := trimStart_split x
  obtain ⟨t, rfl⟩ := hm
  rw [hx, ← append_assoc] at hxw
  rw [drop_left] at h
  exact ⟨w, all_eq_true.mpr hw, append_cancel_right (h.symm.trans hxw)⟩

theorem scan_second {m n y : List Char} {j k : ℕ} (h : scan [m, n] y = .found j k) (hk : k ≠ 0) :
    n <+: y.drop j := by
  obtain ⟨m', -, hm, hp⟩ := scan_found h
  match k, hk, hm with
  | 0, hk, _ => exact absurd rfl hk
  | 1, _, hm => cases hm; exact hp
  | k + 2, _, hm => cases hm

theorem Blank.of_drop {fin raw d x : List Char} (hraw : raw.all isWhitespace = true)
    (hp : fin <+: trimStart x) (h : x = d ++ (trimStart x).drop fin.length) :
    Blank fin (raw ++ d) := by
  obtain ⟨w, hw, rfl⟩ := drop_word rfl hp h
  exact ⟨raw ++ w, by rw [all_append, hraw, hw]; rfl, (append_assoc raw w fin).symm⟩

theorem blank_append {raw d x : List Char} (hraw : raw.all isWhitespace = true)
    (h : x = d ++ trimStart x) : (raw ++ d).all isWhitespace = true := by
  rw [all_append, hraw, trimStart_blank h]
  rfl

namespace Kimi

variable {q : Kimi} {cx : Cx} {x : List Char}

def Head (q : Kimi) (raw : List Char) : Prop :=
  q.calls = 0 ∧ (q.st = .between ∧ raw.all isWhitespace = true ∨ q.st = .id)

theorem called_turn (env : Env) (h : cx.out.called = true) : Calls (q.turn env cx x) := by
  cases x with
  | nil => exact h
  | cons c rest =>
    dsimp only [turn]
    split
    · dsimp only [betweenTurn]
      refine calls_ite (fun _ => h) fun _ => ?_
      split
      · exact h
      · exact h
      · exact calls_ite (fun _ => h) fun _ => h
      · exact h
    · dsimp only [idTurn]
      split
      · exact calls_ite (fun _ => h) fun _ => Cx.called_start _ _ _
      · exact h
    · dsimp only [argsTurn]
      split
      · exact calls_ite (fun _ => RawArgs.whole_called.trans h) fun _ => RawArgs.whole_called.trans h
      · exact RawArgs.piece_called.trans h

theorem quiet : body.Quiet Head (Blank kSectionEnd) where
  fresh := ⟨rfl, .inl ⟨rfl, rfl⟩⟩
  called env q cx x h := called_turn env h
  silent := by
    intro env q cx raw x hs hq
    cases x with
    | nil => exact silent_nil hq
    | cons c rest =>
      show Silent Head _ cx raw _ (q.turn env cx (c :: rest))
      dsimp only [turn]
      obtain ⟨hst, hraw⟩ | hst := hq.2
      · have hy := trimStart_suffix (c :: rest)
        have hj : (if (decide (q.calls = 0) && !cx.started) = true then St.fail else .done)
            = .fail := by rw [hq.1, hs]; rfl
        rw [hst]
        dsimp only [betweenTurn]
        refine silent_ite (fun hnil => silent_going nil_suffix fun d hd => ?_) fun _ => ?_
        · rw [← hnil] at hd
          exact ⟨hq.1, .inl ⟨hst, blank_append hraw hd⟩⟩
        · split
          · exact silent_go ((drop_suffix _ _).trans hy) fun _ _ => ⟨hq.1, .inr rfl⟩
          · next k hk hf =>
            exact silent_done ((drop_suffix _ _).trans hy) fun d hd =>
              Blank.of_drop hraw (scan_second hf hk) hd
          · exact silent_ite
              (fun _ => silent_going hy fun d hd => ⟨hq.1, .inl ⟨hst, blank_append hraw hd⟩⟩)
              fun _ => silent_fail hy hj
          · exact silent_fail hy hj
      · rw [hst]
        dsimp only [idTurn]
        split
        · exact silent_ite (fun _ => silent_fail (drop_suffix _ _) (if_pos hq.1)) fun _ =>
            silent_start (Cx.called_start _ _ _)
        · exact silent_going (drop_suffix _ _) fun _ _ => ⟨hq.1, .inr hst⟩

end Kimi

namespace DeepSeek

variable {d : DeepSeek} {cx : Cx} {x : List Char}

def Head (d : DeepSeek) (raw : List Char) : Prop :=
  d.calls = 0 ∧
    (d.st = .between ∧ raw.all isWhitespace = true ∨ d.st = .head ∨ d.st = .v3Name)

theorem called_argsTurn {marks : List (List Char)} (h : cx.out.called = true) :
    Calls (d.argsTurn marks cx x) := by
  dsimp only [argsTurn]
  split
  · exact RawArgs.whole_called.trans h
  · exact RawArgs.piece_called.trans h

theorem called_turn (env : Env) (h : cx.out.called = true) : Calls (d.turn env cx x) := by
  cases x with
  | nil => exact h
  | cons c rest =>
    dsimp only [turn]
    split
    · dsimp only [betweenTurn]
      refine calls_ite (fun _ => h) fun _ => ?_
      split
      · exact h
      · exact h
      · exact calls_ite (fun _ => h) fun _ => h
      · exact h
    · dsimp only [headTurn]
      split
      · exact calls_ite (fun _ => h) fun _ => calls_ite (fun _ => h) fun _ => Cx.called_start _ _ _
      · exact h
      · exact h
    · dsimp only [v3NameTurn]
      split
      · exact h
      · exact calls_ite (fun _ => h) fun _ => Cx.called_start _ _ _
    · dsimp only [v3FenceTurn]
      refine calls_ite (fun _ => h) fun _ => ?_
      split <;> exact h
    · exact called_argsTurn h
    · exact called_argsTurn h

theorem quiet : body.Quiet Head (Blank dsCallsEnd) where
  fresh := ⟨rfl, .inl ⟨rfl, rfl⟩⟩
  called env d cx x h := called_turn env h
  silent := by
    intro env d cx raw x hs hd
    have hfail : d.failOrDone cx = .fail := by rw [failOrDone, hd.1, hs]; rfl
    cases x with
    | nil => exact silent_nil hd
    | cons c rest =>
      show Silent Head _ cx raw _ (d.turn env cx (c :: rest))
      dsimp only [turn]
      obtain ⟨hst, hraw⟩ | hst | hst := hd.2
      · have hy := trimStart_suffix (c :: rest)
        rw [hst]
        dsimp only [betweenTurn]
        refine silent_ite (fun hnil => silent_going nil_suffix fun e he => ?_) fun _ => ?_
        · rw [← hnil] at he
          exact ⟨hd.1, .inl ⟨hst, blank_append hraw he⟩⟩
        · split
          · exact silent_go ((drop_suffix _ _).trans hy) fun _ _ => ⟨hd.1, .inr (.inl rfl)⟩
          · next k hk hf =>
            exact silent_done ((drop_suffix _ _).trans hy) fun e he =>
              Blank.of_drop hraw (scan_second hf hk) he
          · exact silent_ite
              (fun _ => silent_going hy fun e he => ⟨hd.1, .inl ⟨hst, blank_append hraw he⟩⟩)
              fun _ => silent_fail hy hfail
          · exact silent_fail hy hfail
      · rw [hst]
        dsimp only [headTurn]
        split
        · exact silent_ite
            (fun _ => silent_go (drop_suffix _ _) fun _ _ => ⟨hd.1, .inr (.inr rfl)⟩)
            fun _ => silent_ite (fun _ => silent_fail (drop_suffix _ _) hfail) fun _ =>
              silent_start (Cx.called_start _ _ _)
        · exact silent_fail (drop_suffix _ _) hfail
        · exact silent_going (drop_suffix _ _) fun _ _ => ⟨hd.1, .inr (.inl hst)⟩
      · have hr := findAny_suffix ['\n', '<'] (c :: rest)
        rw [hst]
        dsimp only [v3NameTurn]
        split
        · exact silent_going nil_suffix fun _ _ => ⟨hd.1, .inr (.inr hst)⟩
        · exact silent_ite (fun _ => silent_fail hr hfail) fun _ =>
            silent_start (Cx.called_start _ _ _)

end DeepSeek

/-! ### JSON lists -/

namespace JList

variable {serde : Serde} {l l' : JList} {cx : Cx} {c : Char} {raw x rest n d piece : List Char}

def isSep (c : Char) : Bool :=
  isAsciiWhitespace c || c = ',' || c = ';' || c = '[' || c = ']'

def Head (l : JList) (raw : List Char) : Prop :=
  l.calls = 0 ∧ l.started = false ∧ (l.st = .between → raw.all isSep = true)

def Empty (close : Option (List Char)) (raw : List Char) : Prop :=
  ∃ e ∈ close, ∃ w, w.all isSep = true ∧ raw = w ++ e

theorem emitKeptArgs_called : (emitKeptArgs serde l cx).2.out.called = cx.out.called :=
  Cx.called_arg _ _

theorem closeObject_called (hn : l.name = some n) (h : cx.out.called = true ∨ l.started = false) :
    (l.closeObject serde cx).2.1.out.called = true := by
  dsimp only [closeObject]
  rw [hn]
  show (Cx.finish _).out.called = true
  rw [Cx.called_finish]
  split
  · split
    · exact emitKeptArgs_called.trans (Cx.called_start _ _ _)
    · split
      · exact (Cx.called_arg _ _).trans (Cx.called_start _ _ _)
      · exact Cx.called_start _ _ _
  · next hs =>
    have h : cx.out.called = true := h.resolve_right (by simpa using hs)
    split
    · exact (Cx.called_arg _ _).trans h
    · exact h

theorem closeObject_none (hn : l.name = none) : l.closeObject serde cx = (l, cx, .fail) := by
  rw [closeObject, hn]

theorem closeTurn_some (hn : l.name = some n)
    (h : cx.out.called = true ∨ l.started = false) : Calls (l.closeTurn serde cx c rest) := by
  have hc : (l.closeObject serde cx).2.1.out.called = true := closeObject_called hn h
  unfold closeTurn
  split
  · next he =>
    rw [he] at hc
    exact hc
  · next he =>
    rw [he] at hc
    exact hc

section

variable (h : cx.out.called = true)
include h

theorem called_closeTurn : Calls (l.closeTurn serde cx c rest) := by
  cases hn : l.name with
  | none =>
    rw [closeTurn, closeObject_none hn]
    exact h
  | some n => exact closeTurn_some hn (.inl h)

theorem called_objectTurn : Calls (l.objectTurn cx c rest) :=
  calls_ite (fun _ => h) fun _ => calls_ite (fun _ => h) fun _ => calls_ite (fun _ => h) fun _ => h

theorem argsValue_called : (l.argsValue cx c).2.out.called = true := by
  dsimp only [argsValue]
  by_cases ho : c = '{' || c = '['
  · rw [if_pos ho]
    split
    · exact Cx.called_start _ _ _
    · exact h
  · rw [if_neg ho]
    split <;> exact h

theorem valueDone_called : (l.valueDone serde cx).2.out.called = true := by
  unfold valueDone
  split
  · exact emitKeptArgs_called.trans (Cx.called_start _ _ _)
  · split
    · exact (Cx.called_arg _ _).trans h
    · exact h
  · exact h

end

theorem valuePiece_called : (l.valuePiece piece cx).2.out.called = cx.out.called := by
  unfold valuePiece
  split
  · split
    · exact Cx.called_arg _ _
    · rfl
  · rfl
  · rfl

theorem called_scanTurn (h : cx.out.called = true) : Calls (l.scanTurn serde cx x) := by
  dsimp only [scanTurn]
  exact calls_ite (fun _ => valueDone_called (valuePiece_called.trans h)) fun _ =>
    valuePiece_called.trans h

theorem called_turn (close : Option (List Char)) (env : Env) (h : cx.out.called = true) :
    Calls (l.turn close env cx x) := by
  cases x with
  | nil => exact h
  | cons c rest =>
    dsimp only [turn]
    split
    · unfold betweenTurn
      refine calls_ite (fun _ => h) fun _ => ?_
      split
      · exact called_objectTurn h
      · split
        · exact h
        · exact h
        · exact called_objectTurn h
    · exact calls_ite (fun _ => h) fun _ => calls_ite (fun _ => h) fun _ =>
        calls_ite (fun _ => called_closeTurn h) fun _ => h
    · dsimp only [keyStrTurn]
      split <;> exact h
    · dsimp only [nameStrTurn]
      split
      · exact h
      · exact calls_ite (fun _ => h) fun _ => h
    · exact calls_ite (fun _ => h) fun _ => calls_ite (fun _ => h) fun _ => h
    · exact calls_ite (fun _ => h) fun _ => calls_ite (fun _ => h) fun _ =>
        calls_ite (fun _ => argsValue_called h) fun _ => h
    · exact called_scanTurn h
    · exact called_scanTurn h
    · exact called_scanTurn h
    · exact calls_ite (fun _ => h) fun _ => calls_ite (fun _ => h) fun _ =>
        calls_ite (fun _ => called_closeTurn h) fun _ => h

variable {lang : List Char → Prop}

theorem head_tail (h : l'.calls = 0 ∧ l'.started = false) (hst : l'.st ≠ .between) :
    l'.Head raw := ⟨h.1, h.2, fun hb => absurd hb hst⟩

theorem sep_tail (hraw : raw.all isSep = true) (hc : isSep c = true)
    (hd : c :: rest = d ++ rest) : (raw ++ d).all isSep = true := by
  obtain rfl : [c] = d := append_cancel_right (show [c] ++ rest = d ++ rest from hd)
  rw [all_append, hraw]
  simp only [all_cons, hc, all_nil, Bool.and_self]

theorem junk_fail (h : l.Head raw) : l.junk = .fail := by
  rw [junk, h.1, h.2.1]
  rfl

theorem silent_objectTurn (h : l.Head raw) (hraw : raw.all isSep = true) :
    Silent Head lang cx raw (c :: rest) (l.objectTurn cx c rest) := by
  have hs : rest <:+ c :: rest := suffix_cons c rest
  refine silent_ite (fun _ => silent_go hs fun _ _ => ?_) fun _ =>
    silent_ite (fun hc => silent_go hs fun d hd => ?_) fun _ =>
    silent_ite (fun hc => silent_go hs fun d hd => ?_) fun _ =>
      silent_fail (suffix_refl _) (junk_fail h)
  · exact head_tail ⟨h.1, rfl⟩ (by simp [openObject])
  · have hc : isSep c = true := by simp only [Bool.and_eq_true, decide_eq_true_eq] at hc; rw [hc.1]; rfl
    exact ⟨h.1, h.2.1, fun _ => sep_tail hraw hc hd⟩
  · have hc : isSep c = true := by simp only [Bool.and_eq_true, decide_eq_true_eq] at hc; rw [hc.1]; rfl
    exact ⟨h.1, h.2.1, fun _ => sep_tail hraw hc hd⟩

theorem silent_betweenTurn {close : Option (List Char)} {eof : Bool} (h : l.Head raw)
    (hst : l.st = .between) :
    Silent Head (Empty close) cx raw (c :: rest) (l.betweenTurn close eof cx c rest) := by
  have hraw := h.2.2 hst
  refine silent_ite (fun hc => silent_go (suffix_cons c rest) fun d hd => ?_) fun _ => ?_
  · have hc : isSep c = true := by
      simp only [isSep, Bool.or_eq_true] at hc ⊢
      exact .inl (.inl hc)
    exact ⟨h.1, h.2.1, fun _ => sep_tail hraw hc hd⟩
  · split
    · exact silent_objectTurn h hraw
    · next e =>
      split
      · next he =>
        refine silent_done (drop_suffix _ _) fun d hd => ⟨e, rfl, raw, hraw, ?_⟩
        obtain ⟨t, ht⟩ := starts_true he
        rw [← ht, drop_left] at hd
        rw [append_cancel_right hd]
      · refine silent_going (suffix_refl _) fun d hd => ?_
        obtain rfl : [] = d := append_cancel_right (show [] ++ (c :: rest) = _ from hd)
        rwa [append_nil]
      · exact silent_objectTurn h hraw

theorem silent_closeTurn (h : l.Head raw) :
    Silent Head lang cx raw (c :: rest) (l.closeTurn serde cx c rest) := by
  cases hn : l.name with
  | none =>
    rw [closeTurn, closeObject_none hn]
    exact silent_fail (suffix_refl _) (junk_fail h)
  | some n => exact silent_calls (closeTurn_some hn (.inr h.2.1))

theorem silent_valueTurn (h : l.Head raw) (hst : l.st = .value) :
    Silent Head lang cx raw (c :: rest) (l.valueTurn cx c rest) := by
  have hs : rest <:+ c :: rest := suffix_cons c rest
  refine silent_ite (fun _ => silent_go hs fun _ _ => head_tail ⟨h.1, h.2.1⟩ (by simp [hst]))
    fun _ => silent_ite (fun _ => silent_go hs fun _ _ => head_tail ⟨h.1, h.2.1⟩ (by simp))
    fun _ => silent_ite (fun _ => ?_) fun _ =>
      silent_go (suffix_refl _) fun _ _ => head_tail ⟨h.1, h.2.1⟩ (by simp)
  dsimp only [argsValue]
  by_cases ho : c = '{' || c = '['
  · rw [if_pos ho]
    split
    · exact silent_start (Cx.called_start _ _ _)
    · exact silent_go (suffix_refl _) fun _ _ => head_tail ⟨h.1, h.2.1⟩ (by simp)
  · rw [if_neg ho]
    by_cases hq : c = '"'
    · rw [if_pos hq]
      exact silent_go (suffix_refl _) fun _ _ => head_tail ⟨h.1, h.2.1⟩ (by simp)
    · rw [if_neg hq]
      exact silent_go (suffix_refl _) fun _ _ => head_tail ⟨h.1, h.2.1⟩ (by simp)

theorem valuePiece_head (piece : List Char) (cx : Cx) (h : l.calls = 0 ∧ l.started = false)
    (hst : l.st ≠ .between) : (l.valuePiece piece cx).2 = cx ∧ (l.valuePiece piece cx).1.calls = 0 ∧
      (l.valuePiece piece cx).1.started = false ∧ (l.valuePiece piece cx).1.st ≠ .between := by
  unfold valuePiece
  split
  · next ha =>
    rw [h.2]
    exact ⟨rfl, h.1, rfl, hst⟩
  · exact ⟨rfl, h.1, h.2, hst⟩
  · exact ⟨rfl, h.1, h.2, hst⟩

theorem valueDone_head (serde : Serde) (cx : Cx) (h : l.calls = 0 ∧ l.started = false) :
    (l.valueDone serde cx).2.out.called = true ∨ l.valueDone serde cx = (l, cx) := by
  unfold valueDone
  split
  · exact .inl (emitKeptArgs_called.trans (Cx.called_start _ _ _))
  · next hs =>
    rw [h.2] at hs
    cases hs
  · exact .inr rfl

theorem silent_scanTurn (h : l.Head raw) (hst : l.st ≠ .between) :
    Silent Head lang cx raw x (l.scanTurn serde cx x) := by
  dsimp only [scanTurn]
  obtain ⟨hcx, hc, hs, hb⟩ := valuePiece_head (l := { l with scan := (l.scan.feed x).1 })
    (x.take (x.length - (l.scan.feed x).2.1.length)) cx ⟨h.1, h.2.1⟩ hst
  refine silent_ite (fun _ => ?_) fun _ => ?_
  · obtain hd | hd := valueDone_head serde cx ⟨hc, hs⟩
    · rw [hcx]
      exact silent_start hd
    · rw [hcx, hd]
      exact silent_go (JsonScan.feed_suffix _ _) fun _ _ => head_tail ⟨hc, hs⟩ (by simp)
  · rw [hcx]
    exact silent_going (JsonScan.feed_suffix _ _) fun _ _ => head_tail ⟨hc, hs⟩ hb

theorem quiet (close : Option (List Char)) : (body close).Quiet Head (Empty close) where
  fresh := ⟨rfl, rfl, fun _ => rfl⟩
  called env l cx x h := called_turn close env h
  silent := by
    intro env l cx raw x _ h
    have hl : l.calls = 0 ∧ l.started = false := ⟨h.1, h.2.1⟩
    cases x with
    | nil => exact silent_nil h
    | cons c rest =>
      have hs : rest <:+ c :: rest := suffix_cons c rest
      have hx : c :: rest <:+ c :: rest := suffix_refl _
      show Silent Head _ cx raw _ (l.turn close env cx (c :: rest))
      dsimp only [turn]
      cases hst : l.st with
      | between => exact silent_betweenTurn h hst
      | key =>
        exact silent_ite (fun _ => silent_go hs fun _ _ => head_tail hl (by simp [hst])) fun _ =>
          silent_ite (fun _ => silent_go hs fun _ _ => head_tail hl (by simp)) fun _ =>
            silent_ite (fun _ => silent_closeTurn h) fun _ => silent_fail hx (junk_fail h)
      | keyStr =>
        dsimp only [keyStrTurn]
        split
        · exact silent_going nil_suffix fun _ _ => head_tail hl (by simp [hst])
        · next hq => exact silent_go (quoteScan_tail hq).1 fun _ _ => head_tail hl (by simp)
      | nameStr =>
        dsimp only [nameStrTurn]
        split
        · exact silent_going nil_suffix fun _ _ => head_tail hl (by simp [hst])
        · next hq =>
          refine silent_ite (fun _ => silent_fail (quoteScan_tail hq).1 ?_) fun _ =>
            silent_go (quoteScan_tail hq).1 fun _ _ => head_tail hl (by simp)
          rw [junk, hl.1, hl.2]
          rfl
      | colon =>
        exact silent_ite (fun _ => silent_go hs fun _ _ => head_tail hl (by simp [hst])) fun _ =>
          silent_ite (fun _ => silent_go hs fun _ _ => head_tail hl (by simp)) fun _ =>
            silent_fail hx (junk_fail h)
      | value => exact silent_valueTurn h hst
      | args => exact silent_scanTurn h (by simp [hst])
      | argsStr => exact silent_scanTurn h (by simp [hst])
      | skip => exact silent_scanTurn h (by simp [hst])
      | after =>
        exact silent_ite (fun _ => silent_go hs fun _ _ => head_tail hl (by simp [hst])) fun _ =>
          silent_ite (fun _ => silent_go hs fun _ _ => head_tail hl (by simp)) fun _ =>
            silent_ite (fun _ => silent_closeTurn h) fun _ => silent_fail hx (junk_fail h)

end JList

/-! ### Mistral -/

namespace Mistral

variable {env : Env} {m : Mistral} {cx : Cx} {raw x : List Char}

def Head (m : Mistral) (_ : List Char) : Prop :=
  m.calls = 0 ∧ (m.st = .decide ∨ m.st = .name ∨ m.st = .callId ∨
    m.st = .list ∧ ∃ raw, m.list.Head raw)

theorem called_turn (env : Env) (h : cx.out.called = true) : Calls (m.turn env cx x) := by
  cases x with
  | nil => exact h
  | cons c rest =>
    have name : Calls (m.nameTurn cx (c :: rest)) := by
      dsimp only [nameTurn]
      split
      · exact calls_ite (fun _ => calls_ite (fun _ => h) fun _ => Cx.called_start _ _ _) fun _ =>
          calls_ite (fun _ => h) fun _ => h
      · exact h
    dsimp only [turn]
    split
    · exact calls_ite (fun _ => h) fun _ => calls_ite (fun _ => h) fun _ => h
    · exact (JList.quiet none).feed_called env h
    · exact name
    · exact name
    · exact calls_ite (fun _ => h) fun _ => h
    · exact calls_ite (fun _ => (Cx.called_finish _).trans ((Cx.called_arg _ _).trans h)) fun _ =>
        (Cx.called_arg _ _).trans h
    · dsimp only [afterTurn]
      refine calls_ite (fun _ => h) fun _ => ?_
      split <;> exact h

theorem silent_nameTurn (h : m.calls = 0) (hst : m.st = .name ∨ m.st = .callId) :
    Silent Head (fun _ => False) cx raw x (m.nameTurn cx x) := by
  have grow (j : ℕ) : ∀ n : Mistral,
      n = (if m.st = .name then { m with name := m.name ++ x.take j } else m) →
      n.calls = 0 ∧ (n.st = .name ∨ n.st = .callId) := by
    rintro n rfl
    split
    · exact ⟨h, hst⟩
    · exact ⟨h, hst⟩
  have head {n : Mistral} (hn : n.calls = 0 ∧ (n.st = .name ∨ n.st = .callId))
      (raw : List Char) : n.Head raw :=
    ⟨hn.1, hn.2.elim (fun h => .inr (.inl h)) fun h => .inr (.inr (.inl h))⟩
  dsimp only [nameTurn]
  split
  · next j k _ =>
    have hg := grow j _ rfl
    refine silent_ite (fun _ => silent_ite
      (fun _ => silent_fail (drop_suffix _ _) (if_pos hg.1)) fun _ =>
        silent_start (Cx.called_start _ _ _)) fun _ => silent_ite
      (fun _ => silent_go (drop_suffix _ _) fun _ _ =>
        ⟨hg.1, .inr (.inr (.inl rfl))⟩)
      fun _ => silent_fail (drop_suffix _ _) (if_pos hg.1)
  · next j _ => exact silent_going (drop_suffix _ _) fun _ _ => head (grow j _ rfl) _

theorem quiet : body.Quiet Head fun _ => False where
  fresh := ⟨rfl, .inl rfl⟩
  called env m cx x h := called_turn env h
  silent := by
    intro env m cx raw x hs h
    cases x with
    | nil => exact silent_nil h
    | cons c rest =>
      show Silent Head _ cx raw _ (m.turn env cx (c :: rest))
      dsimp only [turn]
      obtain hst | hst | hst | ⟨hst, raw', hl⟩ := h.2
      · have hy := trimStart_suffix (c :: rest)
        rw [hst]
        exact silent_ite (fun _ => silent_going nil_suffix fun _ _ => h) fun _ => silent_ite
          (fun _ => silent_go hy fun _ _ =>
            ⟨h.1, .inr (.inr (.inr ⟨rfl, [], (JList.quiet none).fresh⟩))⟩)
          fun _ => silent_go hy fun _ _ => ⟨h.1, .inr (.inl rfl)⟩
      · rw [hst]
        exact silent_nameTurn h.1 (.inl hst)
      · rw [hst]
        exact silent_nameTurn h.1 (.inr hst)
      · rw [hst]
        have hq := (JList.quiet none).feed_silent (x := c :: rest) env hs hl
        dsimp only [listTurn]
        generalize (JList.body none).feed env m.list cx (c :: rest) = q at hq ⊢
        obtain ⟨⟨l, cx', v⟩, r⟩ := q
        obtain hc | ⟨d, hd, hcx, hw⟩ := hq
        · exact .inl hc
        · refine .inr ⟨d, hd, hcx, ?_⟩
          cases v with
          | going => exact ⟨h.1, .inr (.inr (.inr ⟨hst, _, hw⟩))⟩
          | done =>
            obtain ⟨e, he, -⟩ := hw
            cases he
          | fail => trivial

end Mistral

end Plow.Tools
