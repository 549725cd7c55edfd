import Plow.Tools.Parse.Body

/-!
# Transcoded calls: Gemma

`call:NAME{key:<|"|>str<|"|>,n:1,o:{..},a:[..]}<tool_call|>` comes out as JSON while it is read.
A `Nest` holds the containers that are open in the JSON and the comma owed before the next member.
-/

namespace Plow.Tools
open Plow.Lib Plow.Lib.Text List

/-- the innermost open container stands first -/
structure Nest where
  stack : List Char
  comma : Bool
  deriving DecidableEq

namespace Nest

def new : Nest := ⟨[], false⟩

def member (n : Nest) (cx : Cx) : Nest × Cx :=
  if n.comma then ({ n with comma := false }, cx.arg [',']) else (n, cx)

/-- `open`: a container begins -/
def begin (n : Nest) (c : Char) (cx : Cx) : Nest × Cx :=
  let q := n.member cx
  (⟨c :: q.1.stack, false⟩, q.2.arg (if c = '{' then ['{'] else ['[']))

def putKey (n : Nest) (key : List Char) (cx : Cx) : Nest × Cx :=
  let q := n.member cx
  (q.1, q.2.arg (quoted key ++ [':']))

/-- `none`: the innermost container is not of this kind -/
def close (n : Nest) (c : Char) (cx : Cx) : Option (Nest × Cx) :=
  if n.stack.head? = some (if c = '}' then '{' else '[') then
    some (⟨n.stack.tail, true⟩, cx.arg (if c = '}' then ['}'] else [']']))
  else none

def closers (stack : List Char) : List Char := stack.map fun c => if c = '{' then '}' else ']'

def seals (n : Nest) (cx : Cx) : Nest × Cx :=
  (⟨[], n.comma⟩, ((closers n.stack).foldl (fun cx c => cx.arg [c]) cx).finish)

end Nest

/-- a bare scalar as JSON: literals and numbers as themselves, anything else as a string -/
def bareJson (serde : Serde) (t : List Char) : List Char :=
  let t := trim t
  if t = "true".toList || t = "false".toList || t = "null".toList then t
  else if t = "True".toList then "true".toList
  else if t = "False".toList then "false".toList
  else if t = "None".toList then "null".toList
  else if serde.number t then t
  else quoted t

def gq : List Char := "<|\"|>".toList

def gEnd : List Char := "<tool_call|>".toList

inductive G
  | call
  | name
  | key
  | keyQuoted
  | colon
  | value
  | str
  | bare
  | after
  | close
  | skip
  deriving DecidableEq

structure Gemma where
  st : G
  acc : List Char
  nest : Nest

namespace Gemma

def new : Gemma := ⟨.call, [], Nest.new⟩

def broken (g : Gemma) (cx : Cx) : Gemma × Cx :=
  let q := g.nest.seals cx
  ({ g with nest := q.1, st := .skip }, q.2)

def closed (g : Gemma) (cx : Cx) : Gemma × Cx :=
  if g.nest.stack = [] then ({ g with st := .close }, cx.finish) else ({ g with st := .after }, cx)

def arrayMember (g : Gemma) (cx : Cx) : Nest × Cx :=
  if g.nest.stack.head? = some '[' then g.nest.member cx else (g.nest, cx)

/-! ### The turns -/

def callTurn (eof : Bool) (g : Gemma) (cx : Cx) (x : List Char) : Move Gemma :=
  let y := trimStart x
  if y = [] then ret g cx [] .going
  else
    match starts y "call:".toList eof with
    | some true => go { g with st := .name } cx (y.drop 5)
    | none => ret g cx y .going
    | some false => ret g cx y .fail

def nameTurn (g : Gemma) (cx : Cx) (x : List Char) : Move Gemma :=
  let (taken, rest) := x.span fun c => !(c = '{' || c = '<' || isWhitespace c)
  let g := { g with acc := g.acc ++ taken }
  match rest with
  | [] => ret g cx [] .going
  | c :: tail =>
    if c ≠ '{' || g.acc = [] then ret g cx rest .fail
    else
      let q := g.nest.begin '{' (cx.start g.acc none)
      go { g with acc := [], nest := q.1, st := .key } q.2 tail

def brokenTurn (g : Gemma) (cx : Cx) (x : List Char) : Move Gemma :=
  go (g.broken cx).1 (g.broken cx).2 x

def closedTurn (g : Gemma) (cx : Cx) (rest : List Char) : Move Gemma :=
  go (g.closed cx).1 (g.closed cx).2 rest

def keyTurn (eof : Bool) (g : Gemma) (cx : Cx) (c : Char) (rest : List Char) : Move Gemma :=
  if isAsciiWhitespace c then go g cx rest
  else if c = '}' then
    let q := (g.nest.close '}' cx).getD (g.nest, cx)
    closedTurn { g with nest := q.1 } q.2 rest
  else if c = '<' then
    match starts (c :: rest) gq eof with
    | some true => go { g with acc := [], st := .keyQuoted } cx ((c :: rest).drop gq.length)
    | none => ret g cx (c :: rest) .going
    | some false => brokenTurn g cx (c :: rest)
  else go { g with acc := [], st := .colon } cx (c :: rest)

def keyQuotedTurn (g : Gemma) (cx : Cx) (x : List Char) : Move Gemma :=
  match scan [gq] x with
  | .found j _ => go { g with acc := g.acc ++ x.take j, st := .colon } cx (x.drop (j + gq.length))
  | .need j => ret { g with acc := g.acc ++ x.take j } cx (x.drop j) .going

/-- a bare key runs to the colon -/
def colonTurn (g : Gemma) (cx : Cx) (x : List Char) : Move Gemma :=
  let (taken, rest) := findAny [':', ',', '}', '<'] x
  let g := { g with acc := g.acc ++ taken }
  match rest with
  | [] => ret g cx [] .going
  | c :: tail =>
    if c ≠ ':' || trim g.acc = [] then brokenTurn g cx rest
    else
      let q := g.nest.putKey (trim g.acc) cx
      go { g with nest := q.1, st := .value } q.2 tail

def valueTurn (eof : Bool) (g : Gemma) (cx : Cx) (c : Char) (rest : List Char) : Move Gemma :=
  if isAsciiWhitespace c then go g cx rest
  else if c = '{' then
    let q := g.nest.begin '{' cx
    go { g with nest := q.1, st := .key } q.2 rest
  else if c = '[' then
    let q := g.nest.begin '[' cx
    go { g with nest := q.1 } q.2 rest
  else if c = ']' && g.nest.stack.head? = some '[' then
    let q := (g.nest.close ']' cx).getD (g.nest, cx)
    closedTurn { g with nest := q.1 } q.2 rest
  else if c = '<' then
    match starts (c :: rest) gq eof with
    | some true =>
      let q := g.arrayMember cx
      go { g with nest := q.1, st := .str } (q.2.arg ['"']) ((c :: rest).drop gq.length)
    | none => ret g cx (c :: rest) .going
    | some false => brokenTurn g cx (c :: rest)
  else
    let q := g.arrayMember cx
    go { g with nest := q.1, acc := [], st := .bare } q.2 (c :: rest)

def strTurn (g : Gemma) (cx : Cx) (x : List Char) : Move Gemma :=
  match scan [gq] x with
  | .found j _ =>
    go { g with nest := { g.nest with comma := true }, st := .after }
      ((cx.argEscaped (x.take j)).arg ['"']) (x.drop (j + gq.length))
  | .need j => ret g (cx.argEscaped (x.take j)) (x.drop j) .going

def bareTurn (serde : Serde) (g : Gemma) (cx : Cx) (x : List Char) : Move Gemma :=
  let (taken, rest) := findAny [',', '}', ']', '<'] x
  let g := { g with acc := g.acc ++ taken }
  match rest with
  | [] => ret g cx [] .going
  | _ :: _ =>
    go { g with nest := { g.nest with comma := true }, st := .after }
      (cx.arg (bareJson serde g.acc)) rest

def afterTurn (g : Gemma) (cx : Cx) (c : Char) (rest : List Char) : Move Gemma :=
  if isAsciiWhitespace c then go g cx rest
  else if c = ',' then
    go { g with st := if g.nest.stack.head? = some '{' then .key else .value } cx rest
  else if c = '}' || c = ']' then
    match g.nest.close c cx with
    | some q => closedTurn { g with nest := q.1 } q.2 rest
    | none => brokenTurn g cx (c :: rest)
  else brokenTurn g cx (c :: rest)

def skipTurn (g : Gemma) (cx : Cx) (x : List Char) : Move Gemma :=
  match scan [gEnd] x with
  | .found j _ => ret g cx (x.drop (j + gEnd.length)) .done
  | .need j => ret g cx (x.drop j) .going

def turn (env : Env) (g : Gemma) (cx : Cx) : List Char → Move Gemma
  | [] => ret g cx [] .going
  | c :: rest =>
    match g.st with
    | .call => g.callTurn env.eof cx (c :: rest)
    | .name => g.nameTurn cx (c :: rest)
    | .key => g.keyTurn env.eof cx c rest
    | .keyQuoted => g.keyQuotedTurn cx (c :: rest)
    | .colon => g.colonTurn cx (c :: rest)
    | .value => g.valueTurn env.eof cx c rest
    | .str => g.strTurn cx (c :: rest)
    | .bare => g.bareTurn env.serde cx (c :: rest)
    | .after => g.afterTurn cx c rest
    | .close | .skip => g.skipTurn cx (c :: rest)

def rank (g : Gemma) : ℕ :=
  match g.st with
  | .value => 3
  | .bare | .key => 2
  | .after | .colon => 1
  | _ => 0

/-! ### Every turn gets on -/

variable {serde : Serde} {eof : Bool} {g : Gemma} {cx : Cx} {c : Char} {x rest : List Char}

theorem shrinks_broken (h : rest <:+ x) (hr : 0 < g.rank) {g' : Gemma} :
    Shrinks rank g x (g'.brokenTurn cx rest) := shrinks_rank h hr

theorem shrinks_callTurn : Shrinks rank g x (g.callTurn eof cx x) := by
  have hy : trimStart x <:+ x := dropWhile_suffix _
  dsimp only [callTurn]
  refine shrinks_ite (fun _ => shrinks_ret nil_suffix) fun _ => ?_
  split
  · next h =>
    have hl := (starts_true h).length_le
    refine shrinks_go ((drop_suffix _ _).trans hy) ?_
    have := hy.length_le
    rw [length_drop]
    simp only [show "call:".toList.length = 5 from rfl] at hl
    omega
  · exact shrinks_ret hy
  · exact shrinks_ret hy

theorem shrinks_nameTurn : Shrinks rank g x (g.nameTurn cx x) := by
  dsimp only [nameTurn]
  rw [span_eq_takeWhile_dropWhile]
  dsimp only
  split
  · exact shrinks_ret nil_suffix
  · next c tail hd =>
    have hs : c :: tail <:+ x := by rw [← hd]; exact dropWhile_suffix _
    refine shrinks_ite (fun _ => ?_) fun _ => ?_
    · rw [hd]
      exact shrinks_ret hs
    · exact shrinks_go ((suffix_cons c tail).trans hs) hs.length_le

theorem shrinks_keyTurn (h : g.st = .key) :
    Shrinks rank g (c :: rest) (g.keyTurn eof cx c rest) := by
  have hr : g.rank = 2 := by rw [rank, h]
  unfold keyTurn
  refine shrinks_ite (fun _ => shrinks_tail) fun _ => shrinks_ite (fun _ => shrinks_tail) fun _ =>
    shrinks_ite (fun _ => ?_) fun _ => shrinks_rank (suffix_refl _) (by rw [hr]; exact Nat.one_lt_two)
  split
  · exact shrinks_go (drop_suffix _ _) (by rw [length_drop]; exact Nat.sub_lt (Nat.succ_pos _) (by decide))
  · exact shrinks_ret (suffix_refl _)
  · exact shrinks_broken (suffix_refl _) (by rw [hr]; exact Nat.two_pos)

theorem shrinks_keyQuotedTurn : Shrinks rank g x (g.keyQuotedTurn cx x) := by
  unfold keyQuotedTurn
  split
  · next h => exact shrinks_found (by decide) (by decide) h
  · exact shrinks_ret (drop_suffix _ _)

theorem shrinks_colonTurn (h : g.st = .colon) : Shrinks rank g x (g.colonTurn cx x) := by
  have hr : g.rank = 1 := by rw [rank, h]
  have hs := findAny_suffix [':', ',', '}', '<'] x
  dsimp only [colonTurn]
  split
  · exact shrinks_ret nil_suffix
  · next c tail hd =>
    rw [hd] at hs
    refine shrinks_ite (fun _ => ?_) fun _ => ?_
    · rw [hd]
      exact shrinks_broken hs (by rw [hr]; exact Nat.one_pos)
    · exact shrinks_go ((suffix_cons c tail).trans hs) hs.length_le

theorem shrinks_valueTurn (h : g.st = .value) :
    Shrinks rank g (c :: rest) (g.valueTurn eof cx c rest) := by
  have hr : g.rank = 3 := by rw [rank, h]
  unfold valueTurn
  refine shrinks_ite (fun _ => shrinks_tail) fun _ => shrinks_ite (fun _ => shrinks_tail) fun _ =>
    shrinks_ite (fun _ => shrinks_tail) fun _ => shrinks_ite (fun _ => shrinks_tail) fun _ =>
    shrinks_ite (fun _ => ?_) fun _ =>
      shrinks_rank (suffix_refl _) (by rw [hr]; exact Nat.lt_succ_self 2)
  split
  · exact shrinks_go (drop_suffix _ _) (by rw [length_drop]; exact Nat.sub_lt (Nat.succ_pos _) (by decide))
  · exact shrinks_ret (suffix_refl _)
  · exact shrinks_broken (suffix_refl _) (by rw [hr]; exact Nat.succ_pos 2)

theorem shrinks_strTurn : Shrinks rank g x (g.strTurn cx x) := by
  unfold strTurn
  split
  · next h => exact shrinks_found (by decide) (by decide) h
  · exact shrinks_ret (drop_suffix _ _)

theorem shrinks_bareTurn (h : g.st = .bare) : Shrinks rank g x (g.bareTurn serde cx x) := by
  have hr : g.rank = 2 := by rw [rank, h]
  have hs := findAny_suffix [',', '}', ']', '<'] x
  dsimp only [bareTurn]
  split
  · exact shrinks_ret nil_suffix
  · exact shrinks_rank hs (by rw [hr]; exact Nat.one_lt_two)

theorem shrinks_afterTurn (h : g.st = .after) :
    Shrinks rank g (c :: rest) (g.afterTurn cx c rest) := by
  have hr : g.rank = 1 := by rw [rank, h]
  unfold afterTurn
  refine shrinks_ite (fun _ => shrinks_tail) fun _ => shrinks_ite (fun _ => shrinks_tail) fun _ =>
    shrinks_ite (fun _ => ?_) fun _ =>
      shrinks_broken (suffix_refl _) (by rw [hr]; exact Nat.one_pos)
  split
  · exact shrinks_tail
  · exact shrinks_broken (suffix_refl _) (by rw [hr]; exact Nat.one_pos)

theorem shrinks_skipTurn : Shrinks rank g x (g.skipTurn cx x) := by
  unfold skipTurn
  split <;> exact shrinks_ret (drop_suffix _ _)

def body : Body Gemma where
  fresh := new
  turn := turn
  rank := rank
  rank_le g := by unfold rank; split <;> omega
  shrinks := by
    intro env g cx x
    cases x with
    | nil => exact shrinks_ret (List.suffix_refl _)
    | cons c rest =>
      dsimp only [turn]
      split
      · exact shrinks_callTurn
      · exact shrinks_nameTurn
      · next h => exact shrinks_keyTurn h
      · exact shrinks_keyQuotedTurn
      · next h => exact shrinks_colonTurn h
      · next h => exact shrinks_valueTurn h
      · exact shrinks_strTurn
      · next h => exact shrinks_bareTurn h
      · next h => exact shrinks_afterTurn h
      · exact shrinks_skipTurn
      · exact shrinks_skipTurn

end Gemma

end Plow.Tools
