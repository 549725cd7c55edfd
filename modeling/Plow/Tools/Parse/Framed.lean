import Plow.Tools.Parse.Body

/-!
# Text, then call regions

`Framed` forwards text up to the format's start marker and hands the region behind it to the body.
The text of a region is kept while no call has started in it, and given back when the region fails
or the turn ends in it, unless the generation was cut there.
-/

namespace Plow.Tools
open Plow.Lib

structure Framed (σ : Type) where
  buf : List Char
  inCall : Bool
  started : Bool
  /-- region text consumed while the head is unresolved -/
  raw : List Char
  body : σ
  cut : Bool

/-- a start marker -/
structure Opener where
  text : List Char
  nonempty : text ≠ []

namespace Framed

variable {σ : Type}

def new (B : Body σ) : Framed σ := ⟨[], false, false, [], B.fresh, false⟩

def consumed (s rest : List Char) : List Char := s.take (s.length - rest.length)

/-- one round of `run` inside a region -/
def region (start : Opener) (B : Body σ) (env : Env) (f : Framed σ) (out : Out) (s : List Char) :
    Turn (Framed σ × Out) Char :=
  let (a, rest) := B.feed env f.body ⟨out, f.started⟩ s
  let raw :=
    if f.started then f.raw
    else if a.cx.started then []
    else f.raw ++ consumed s rest
  let f := { f with body := a.st, started := a.cx.started, raw := raw }
  match a.verdict with
  | .done => .go ({ f with inCall := false }, a.cx.out) rest
  | .fail => .go ({ f with inCall := false }, (a.cx.out.putText start.text).putText raw) rest
  | .going =>
    if !env.eof then .wait (f, a.cx.out) rest
    else if !f.started && !f.cut then
      .wait ({ f with inCall := false },
        ((a.cx.out.putText start.text).putText raw).putText rest) []
    else .wait ({ f with inCall := false }, a.cx.out) []

/-- one round of `run` -/
def round (start : Opener) (B : Body σ) (env : Env) (q : Framed σ × Out) (s : List Char) :
    Turn (Framed σ × Out) Char :=
  let (f, out) := q
  if f.inCall then region start B env f out s
  else
    match scan [start.text] s with
    | .found j _ =>
      .go ({ f with inCall := true, started := false, raw := [], body := B.fresh },
        out.putText (s.take j)) (s.drop (j + start.text.length))
    | .need j =>
      let j := if env.eof then s.length else j
      .wait (f, out.putText (s.take j)) (s.drop j)

end Framed

/-! ### What a body's loop leaves -/

namespace Body

variable {σ : Type} (B : Body σ)

theorem feed_suffix (env : Env) (st : σ) (cx : Cx) (s : List Char) :
    (B.feed env st cx s).2 <:+ s := by
  show ((B.scanner env).scan ⟨st, cx, .going⟩ s).2 <:+ s
  generalize (⟨st, cx, .going⟩ : At σ) = a
  induction a, s using Scanner.scan_induct (M := B.scanner env) with
  | hw a s a' r h =>
    rw [Scanner.scan_wait h]
    have hs := B.shrinks env a.st a.cx s
    rwa [show B.turn env a.st a.cx s = .wait a' r from h] at hs
  | hg a s a' r h ih =>
    rw [Scanner.scan_go h]
    have hs := B.shrinks env a.st a.cx s
    rw [show B.turn env a.st a.cx s = .go a' r from h] at hs
    exact ih.trans hs.1

end Body

namespace Framed

variable {σ : Type}

/-- `run`: the rounds of a scanner -/
def scanner (start : Opener) (B : Body σ) (env : Env) : Scanner (Framed σ × Out) Char Out where
  step := round start B env
  finish q _ := q.2
  size q s := 2 * s.length + q.1.inCall.toNat
  shrinks := by
    intro q s q' r h
    obtain ⟨f, out⟩ := q
    dsimp only [round] at h
    split at h
    · next hin =>
      have hl := (B.feed_suffix env f.body ⟨out, f.started⟩ s).length_le
      dsimp only [region] at h
      split at h
      · cases h
        simp only [hin, Bool.toNat_true, Bool.toNat_false]
        omega
      · cases h
        simp only [hin, Bool.toNat_true, Bool.toNat_false]
        omega
      · split at h
        · cases h
        · split at h <;> cases h
    · next hin =>
      split at h
      · next j k hj =>
        cases h
        obtain ⟨m, hm, hk, -⟩ := scan_found hj
        obtain rfl := List.mem_singleton.mp hm
        have hle := scan_found_le hj hk
        have hpos := List.length_pos_of_ne_nil start.nonempty
        have : j + start.text.length ≤ s.length := hle.resolve_right start.nonempty
        simp only [eq_false_of_ne_true hin, List.length_drop, Bool.toNat_true,
          Bool.toNat_false]
        omega
      · cases h

def run (start : Opener) (B : Body σ) (env : Env) (f : Framed σ) (out : Out) (s : List Char) :
    (Framed σ × Out) × List Char :=
  (scanner start B env).scan (f, out) s

def push (serde : Serde) (spec : ParseSpec Value) (start : Opener) (B : Body σ) (f : Framed σ)
    (s : List Char) (out : Out) : Framed σ × Out :=
  let q := run start B ⟨serde, spec, false⟩ f out (f.buf ++ s)
  ({ q.1.1 with buf := q.2 }, q.1.2)

def finish (serde : Serde) (spec : ParseSpec Value) (start : Opener) (B : Body σ) (f : Framed σ)
    (out : Out) : Out :=
  (run start B ⟨serde, spec, true⟩ { f with buf := [] } out f.buf).1.2

def parser (serde : Serde) (spec : ParseSpec Value) (start : Opener) (B : Body σ) :
    Parser (Framed σ) where
  init := new B
  push := push serde spec start B
  finish := finish serde spec start B
  cut f := { f with cut := true }

end Framed

end Plow.Tools
