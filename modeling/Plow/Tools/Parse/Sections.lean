import Plow.Tools.Parse.Body

/-!
# Call sections: Kimi-K2 and DeepSeek

The calls of a section carry their arguments as JSON text up to a closing marker; `RawArgs` drops the
white space around it.
-/

namespace Plow.Tools
open Plow.Lib Plow.Lib.Text List

/-- raw JSON arguments: trailing white space is held until something follows it -/
structure RawArgs where
  began : Bool
  ws : List Char
  deriving DecidableEq

namespace RawArgs

def new : RawArgs := ⟨false, []⟩

def piece (a : RawArgs) (p : List Char) (out : Out) : RawArgs × Out :=
  let p := if a.began then p else trimStart p
  if p = [] then (a, out)
  else
    let body := trimEnd p
    if body = [] then (⟨true, a.ws ++ p⟩, out)
    else (⟨true, p.drop body.length⟩, (out.arg a.ws).arg body)

def finish (a : RawArgs) (out : Out) : RawArgs × Out :=
  (⟨false, []⟩, if !a.began then out.arg "{}".toList else out)

end RawArgs

def beforeLast (c : Char) (s : List Char) : List Char :=
  if s.elem c then ((s.reverse.dropWhile (· ≠ c)).tail).reverse else s

def afterFirst (c : Char) (s : List Char) : List Char :=
  if s.elem c then (s.dropWhile (· ≠ c)).tail else s

/-! ### Kimi-K2 -/

def kCallBegin : List Char := "<|tool_call_begin|>".toList

def kArgBegin : List Char := "<|tool_call_argument_begin|>".toList

def kCallEnd : List Char := "<|tool_call_end|>".toList

def kSectionEnd : List Char := "<|tool_calls_section_end|>".toList

inductive K
  | between
  | id
  | args
  deriving DecidableEq

/-- `<|tool_call_begin|>functions.NAME:IDX<|tool_call_argument_begin|>{..}<|tool_call_end|>`,
repeated, then the end of the section -/
structure Kimi where
  st : K
  id : List Char
  args : RawArgs
  calls : ℕ

namespace Kimi

def new : Kimi := ⟨.between, [], RawArgs.new, 0⟩

def betweenTurn (eof : Bool) (q : Kimi) (cx : Cx) (x : List Char) : Move Kimi :=
  let y := trimStart x
  let junk : St := if q.calls = 0 && !cx.started then .fail else .done
  if y = [] then ret q cx [] .going
  else
    match scan [kCallBegin, kSectionEnd] y with
    | .found 0 0 => go { q with id := [], st := .id } cx (y.drop (0 + kCallBegin.length))
    | .found 0 _ => ret q cx (y.drop kSectionEnd.length) .done
    | .need 0 => if !eof then ret q cx y .going else ret q cx y junk
    | _ => ret q cx y junk

def idTurn (q : Kimi) (cx : Cx) (x : List Char) : Move Kimi :=
  match scan [kArgBegin] x with
  | .found j _ =>
    let rest := x.drop (j + kArgBegin.length)
    let q := { q with id := q.id ++ x.take j }
    let id := trim q.id
    let name := afterFirst '.' (beforeLast ':' id)
    if name = [] then ret q cx rest (if q.calls = 0 then .fail else .done)
    else go { q with st := .args } (cx.start name (some id)) rest
  | .need j => ret { q with id := q.id ++ x.take j } cx (x.drop j) .going

def argsTurn (q : Kimi) (cx : Cx) (x : List Char) : Move Kimi :=
  match scan [kCallEnd, kSectionEnd] x with
  | .found j k =>
    let a := q.args.piece (x.take j) cx.out
    let b := a.1.finish a.2
    let cx : Cx := { cx with out := b.2.done }
    let q := { q with args := b.1, calls := q.calls + 1 }
    if k = 1 then ret q cx (x.drop (j + kSectionEnd.length)) .done
    else go { q with st := .between } cx (x.drop (j + kCallEnd.length))
  | .need j =>
    let a := q.args.piece (x.take j) cx.out
    ret { q with args := a.1 } { cx with out := a.2 } (x.drop j) .going

def turn (env : Env) (q : Kimi) (cx : Cx) : List Char → Move Kimi
  | [] => ret q cx [] .going
  | c :: rest =>
    match q.st with
    | .between => q.betweenTurn env.eof cx (c :: rest)
    | .id => q.idTurn cx (c :: rest)
    | .args => q.argsTurn cx (c :: rest)

end Kimi

/-! ### DeepSeek -/

def dsCallsEnd : List Char := "<｜tool▁calls▁end｜>".toList

def dsCallBegin : List Char := "<｜tool▁call▁begin｜>".toList

def dsCallEnd : List Char := "<｜tool▁call▁end｜>".toList

def dsSep : List Char := "<｜tool▁sep｜>".toList

def dsFenceEnd : List Char := "```<｜tool▁call▁end｜>".toList

def dsFence : List Char := "```json".toList

inductive D
  | between
  | head
  | v3Name
  | v3Fence
  | v3Args
  | v31Args
  deriving DecidableEq

/-- V3: `function<｜tool▁sep｜>NAME`, then the arguments in a code fence; V3.1: the name alone, then
the arguments; either repeated, then the end of the section -/
structure DeepSeek where
  st : D
  head : List Char
  args : RawArgs
  calls : ℕ

namespace DeepSeek

def new : DeepSeek := ⟨.between, [], RawArgs.new, 0⟩

def failOrDone (d : DeepSeek) (cx : Cx) : St := if d.calls = 0 && !cx.started then .fail else .done

def betweenTurn (eof : Bool) (d : DeepSeek) (cx : Cx) (x : List Char) : Move DeepSeek :=
  let y := trimStart x
  if y = [] then ret d cx [] .going
  else
    match scan [dsCallBegin, dsCallsEnd] y with
    | .found 0 0 => go { d with head := [], st := .head } cx (y.drop (0 + dsCallBegin.length))
    | .found 0 _ => ret d cx (y.drop dsCallsEnd.length) .done
    | .need 0 => if !eof then ret d cx y .going else ret d cx y (d.failOrDone cx)
    | _ => ret d cx y (d.failOrDone cx)

def headTurn (d : DeepSeek) (cx : Cx) (x : List Char) : Move DeepSeek :=
  match scan [dsSep, dsCallEnd] x with
  | .found j 0 =>
    let rest := x.drop (j + dsSep.length)
    let d := { d with head := d.head ++ x.take j }
    if trim d.head = "function".toList then go { d with head := [], st := .v3Name } cx rest
    else if trim d.head = [] then ret d cx rest (d.failOrDone cx)
    else go { d with st := .v31Args } (cx.start (trim d.head) none) rest
  | .found j _ => ret d cx (x.drop j) (d.failOrDone cx)
  | .need j => ret { d with head := d.head ++ x.take j } cx (x.drop j) .going

def v3NameTurn (d : DeepSeek) (cx : Cx) (x : List Char) : Move DeepSeek :=
  let (taken, rest) := findAny ['\n', '<'] x
  let d := { d with head := d.head ++ taken }
  match rest with
  | [] => ret d cx [] .going
  | c :: tail =>
    if c ≠ '\n' || trim d.head = [] then ret d cx rest (d.failOrDone cx)
    else go { d with st := .v3Fence } (cx.start (trim d.head) none) tail

def v3FenceTurn (eof : Bool) (d : DeepSeek) (cx : Cx) (x : List Char) : Move DeepSeek :=
  let y := trimStart x
  if y = [] then ret d cx [] .going
  else
    match starts y dsFence eof with
    | some true => go { d with st := .v3Args } cx (y.drop dsFence.length)
    | none => ret d cx y .going
    | some false => go { d with st := .v3Args } cx y

def argsTurn (marks : List (List Char)) (d : DeepSeek) (cx : Cx) (x : List Char) : Move DeepSeek :=
  match scan marks x with
  | .found j k =>
    let a := d.args.piece (x.take j) cx.out
    let b := a.1.finish a.2
    go { d with args := b.1, calls := d.calls + 1, st := .between } { cx with out := b.2.done }
      (x.drop (j + (marks.getD k []).length))
  | .need j =>
    let a := d.args.piece (x.take j) cx.out
    ret { d with args := a.1 } { cx with out := a.2 } (x.drop j) .going

def turn (env : Env) (d : DeepSeek) (cx : Cx) : List Char → Move DeepSeek
  | [] => ret d cx [] .going
  | c :: rest =>
    match d.st with
    | .between => d.betweenTurn env.eof cx (c :: rest)
    | .head => d.headTurn cx (c :: rest)
    | .v3Name => d.v3NameTurn cx (c :: rest)
    | .v3Fence => d.v3FenceTurn env.eof cx (c :: rest)
    | .v3Args => d.argsTurn [dsFenceEnd, dsCallEnd] cx (c :: rest)
    | .v31Args => d.argsTurn [dsCallEnd] cx (c :: rest)

def rank (d : DeepSeek) : ℕ :=
  match d.st with
  | .v3Fence => 1
  | _ => 0

end DeepSeek

/-! ### Every turn gets on -/

namespace Kimi

variable {eof : Bool} {q : Kimi} {cx : Cx} {x : List Char} {rank : Kimi → ℕ}

theorem shrinks_betweenTurn : Shrinks rank q x (q.betweenTurn eof cx x) := by
  have hy := trimStart_suffix x
  dsimp only [betweenTurn]
  refine shrinks_ite (fun _ => shrinks_ret nil_suffix) fun _ => ?_
  split
  · next h =>
    have hlt := scan_found_lt (by decide) h
    refine shrinks_go ((drop_suffix _ _).trans hy) ?_
    have := hy.length_le
    rw [length_drop]
    simp only [show kCallBegin.length = 19 from rfl]
    omega
  · exact shrinks_ret ((drop_suffix _ _).trans hy)
  · exact shrinks_ite (fun _ => shrinks_ret hy) fun _ => shrinks_ret hy
  · exact shrinks_ret hy

theorem shrinks_idTurn : Shrinks rank q x (q.idTurn cx x) := by
  dsimp only [idTurn]
  split
  · next h =>
    exact shrinks_ite (fun _ => shrinks_ret (drop_suffix _ _)) fun _ =>
      shrinks_found (by decide) (by decide) h
  · exact shrinks_ret (drop_suffix _ _)

theorem shrinks_argsTurn : Shrinks rank q x (q.argsTurn cx x) := by
  dsimp only [argsTurn]
  split
  · next h =>
    exact shrinks_ite (fun _ => shrinks_ret (drop_suffix _ _)) fun _ =>
      shrinks_found (by decide) (by decide) h
  · exact shrinks_ret (drop_suffix _ _)

def body : Body Kimi where
  fresh := new
  turn := turn
  rank _ := 0
  rank_le _ := Nat.zero_le _
  shrinks := by
    intro env q cx x
    cases x with
    | nil => exact shrinks_ret (List.suffix_refl _)
    | cons c rest =>
      dsimp only [turn]
      split
      · exact shrinks_betweenTurn
      · exact shrinks_idTurn
      · exact shrinks_argsTurn

end Kimi

namespace DeepSeek

variable {eof : Bool} {d : DeepSeek} {cx : Cx} {x : List Char} {marks : List (List Char)}

theorem shrinks_betweenTurn : Shrinks rank d x (d.betweenTurn eof cx x) := by
  have hy := trimStart_suffix x
  dsimp only [betweenTurn]
  refine shrinks_ite (fun _ => shrinks_ret nil_suffix) fun _ => ?_
  split
  · next h =>
    have hlt := scan_found_lt (by decide) h
    refine shrinks_go ((drop_suffix _ _).trans hy) ?_
    have := hy.length_le
    rw [length_drop]
    simp only [show dsCallBegin.length = 19 from rfl]
    omega
  · exact shrinks_ret ((drop_suffix _ _).trans hy)
  · exact shrinks_ite (fun _ => shrinks_ret hy) fun _ => shrinks_ret hy
  · exact shrinks_ret hy

theorem shrinks_headTurn : Shrinks rank d x (d.headTurn cx x) := by
  dsimp only [headTurn]
  split
  · next h =>
    exact shrinks_ite (fun _ => shrinks_found (by decide) (by decide) h) fun _ =>
      shrinks_ite (fun _ => shrinks_ret (drop_suffix _ _)) fun _ =>
        shrinks_found (by decide) (by decide) h
  · exact shrinks_ret (drop_suffix _ _)
  · exact shrinks_ret (drop_suffix _ _)

theorem shrinks_v3NameTurn : Shrinks rank d x (d.v3NameTurn cx x) := by
  have hs := findAny_suffix ['\n', '<'] x
  dsimp only [v3NameTurn]
  split
  · exact shrinks_ret nil_suffix
  · next c tail hd =>
    refine shrinks_ite (fun _ => shrinks_ret hs) fun _ => ?_
    rw [hd] at hs
    exact shrinks_go ((suffix_cons c tail).trans hs) hs.length_le

theorem shrinks_v3FenceTurn (h : d.st = .v3Fence) : Shrinks rank d x (d.v3FenceTurn eof cx x) := by
  have hr : d.rank = 1 := by rw [rank, h]
  dsimp only [v3FenceTurn]
  refine shrinks_ite (fun _ => shrinks_ret nil_suffix) fun _ => ?_
  split
  · next h => exact shrinks_starts (by decide) h
  · exact shrinks_ret (trimStart_suffix x)
  · exact shrinks_rank (trimStart_suffix x) (by rw [hr]; exact Nat.one_pos)

theorem shrinks_argsTurn (hm : [] ∉ marks) : Shrinks rank d x (d.argsTurn marks cx x) := by
  dsimp only [argsTurn]
  split
  · next j k h =>
    obtain ⟨m, hmem, hk, -⟩ := scan_found h
    have hd : marks.getD k [] = m := by rw [getD_eq_getElem?_getD, hk, Option.getD_some]
    rw [hd]
    exact shrinks_found hm (length_pos_of_ne_nil fun h0 => hm (h0 ▸ hmem)) h
  · exact shrinks_ret (drop_suffix _ _)

theorem rank_le (d : DeepSeek) : rank d ≤ 4 := by unfold rank; split <;> omega

def body : Body DeepSeek where
  fresh := new
  turn := turn
  rank := rank
  rank_le := rank_le
  shrinks := by
    intro env d cx x
    cases x with
    | nil => exact shrinks_ret (List.suffix_refl _)
    | cons c rest =>
      dsimp only [turn]
      split
      · exact shrinks_betweenTurn
      · exact shrinks_headTurn
      · exact shrinks_v3NameTurn
      · next h => exact shrinks_v3FenceTurn h
      · exact shrinks_argsTurn (by decide)
      · exact shrinks_argsTurn (by decide)

end DeepSeek

end Plow.Tools
