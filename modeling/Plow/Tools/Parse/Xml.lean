import Plow.Tools.Parse.Gemma

/-!
# Transcoded calls: Qwen3 XML and GLM

`<function=NAME>\n<parameter=K>\nV\n</parameter>\n</function>\n</tool_call>` and
`NAME<arg_key>K</arg_key><arg_value>V</arg_value>...</tool_call>`. A parameter comes as text; what it
is in the JSON follows from the tool's schema.
-/

namespace Plow.Tools
open Plow.Lib Plow.Lib.Text List

/-- A string-carried parameter value, typed by the tool's schema. -/
def typed (serde : Serde) (spec : ParseSpec Value) (tool param raw : List Char)
    (undeclaredJson : Bool) : Value :=
  let json := serde.value (trim raw)
  match spec.paramType tool param with
  | some ty =>
    if ty = "string".toList then .string raw
    else if ty = "integer".toList || ty = "number".toList then
      (json.filter Value.isNumber).getD (.string raw)
    else if ty = "boolean".toList then
      if (trim raw).map Char.toLower = "true".toList then .bool true
      else if (trim raw).map Char.toLower = "false".toList then .bool false
      else .string raw
    else json.getD (.string raw)
  | none => if undeclaredJson then json.getD (.string raw) else .string raw

/-- A parameter value framed by a close tag: streamed as a JSON string when the schema says string,
kept and typed otherwise. -/
structure Param where
  name : List Char
  key : List Char
  stream : Bool
  /-- drop one newline after the open tag and before the close tag -/
  trimNl : Bool
  lead : Bool
  nlHeld : Bool
  raw : List Char

namespace Param

def new : Param := ⟨[], [], false, false, false, false, []⟩

def begin (spec : ParseSpec Value) (undeclaredJson : Bool) (p : Param) (nest : Nest) (cx : Cx) :
    Param × Nest × Cx :=
  let key := trim p.key
  let q := nest.putKey key cx
  let ty := spec.paramType p.name key
  let stream := ty = some "string".toList || (!undeclaredJson && ty.isNone)
  ({ p with stream := stream, lead := p.trimNl, nlHeld := false, raw := [] }, q.1,
    if stream then q.2.arg ['"'] else q.2)

/-- a streamed piece: the newline that was held, then all but a newline at its end -/
def streamed (p : Param) (s : List Char) (cx : Cx) : Param × Cx :=
  let cx := if p.nlHeld then cx.arg ['\\', 'n'] else cx
  if p.trimNl && s.getLast? = some '\n' then
    ({ p with nlHeld := true }, cx.argEscaped s.dropLast)
  else ({ p with nlHeld := false }, cx.argEscaped s)

def piece (p : Param) (s : List Char) (cx : Cx) : Param × Cx :=
  if s = [] then (p, cx)
  else
    let s := if p.lead && s.head? = some '\n' then s.tail else s
    let p := { p with lead := false }
    if !p.stream then ({ p with raw := p.raw ++ s }, cx)
    else if s = [] then (p, cx)
    else p.streamed s cx

def finish (serde : Serde) (spec : ParseSpec Value) (undeclaredJson : Bool) (p : Param)
    (nest : Nest) (cx : Cx) : Nest × Cx :=
  let raw := if p.trimNl && p.raw.getLast? = some '\n' then p.raw.dropLast else p.raw
  ({ nest with comma := true },
    if p.stream then cx.arg ['"']
    else cx.arg (typed serde spec p.name (trim p.key) raw undeclaredJson).render)

end Param

def toolCallEnd : List Char := "</tool_call>".toList

/-! ### Qwen3 XML -/

def functionOpen : List Char := "<function=".toList

def functionEnd : List Char := "</function>".toList

def parameterOpen : List Char := "<parameter=".toList

def parameterEnd : List Char := "</parameter>".toList

inductive Q
  | func
  | fName
  | params
  | pName
  | pVal
  | afterFunc
  deriving DecidableEq

structure QwenXml where
  st : Q
  nest : Nest
  p : Param
  calls : ℕ

namespace QwenXml

def new : QwenXml := ⟨.func, Nest.new, Param.new, 0⟩

def failOrDone (q : QwenXml) : St := if q.calls = 0 then .fail else .done

def funcTurn (eof : Bool) (q : QwenXml) (cx : Cx) (x : List Char) : Move QwenXml :=
  let y := trimStart x
  if y = [] then ret q cx [] .going
  else
    match starts y functionOpen eof with
    | some true =>
      go { q with p := { q.p with name := [] }, st := .fName } cx (y.drop functionOpen.length)
    | none => ret q cx y .going
    | some false => ret q cx y q.failOrDone

def fNameTurn (q : QwenXml) (cx : Cx) (x : List Char) : Move QwenXml :=
  let (taken, rest) := findAny ['>', '<', '\n'] x
  let q := { q with p := { q.p with name := q.p.name ++ taken } }
  match rest with
  | [] => ret q cx [] .going
  | c :: tail =>
    let name := trim q.p.name
    if c ≠ '>' || name = [] then ret q cx rest q.failOrDone
    else
      let n := Nest.new.begin '{' (cx.start name none)
      go { q with p := { q.p with name := name }, nest := n.1, calls := q.calls + 1, st := .params }
        n.2 tail

def paramsTurn (q : QwenXml) (cx : Cx) (x : List Char) : Move QwenXml :=
  match scan [parameterOpen, functionEnd, toolCallEnd] x with
  | .found j 0 =>
    go { q with p := { q.p with key := [] }, st := .pName } cx (x.drop (j + parameterOpen.length))
  | .found j k =>
    let n := q.nest.seals cx
    let q := { q with nest := n.1 }
    if k = 1 then go { q with st := .afterFunc } n.2 (x.drop (j + functionEnd.length))
    else ret q n.2 (x.drop (j + toolCallEnd.length)) .done
  | .need j => ret q cx (x.drop j) .going

def pNameTurn (spec : ParseSpec Value) (q : QwenXml) (cx : Cx) (x : List Char) : Move QwenXml :=
  let (taken, rest) := findAny ['>', '<', '\n'] x
  let q := { q with p := { q.p with key := q.p.key ++ taken } }
  match rest with
  | [] => ret q cx [] .going
  | c :: tail =>
    if c ≠ '>' then go { q with st := .params } cx rest
    else
      let b := { q.p with trimNl := true }.begin spec false q.nest cx
      go { q with p := b.1, nest := b.2.1, st := .pVal } b.2.2 tail

def pValTurn (serde : Serde) (spec : ParseSpec Value) (q : QwenXml) (cx : Cx) (x : List Char) :
    Move QwenXml :=
  match scan [parameterEnd, functionEnd] x with
  | .found j k =>
    let a := q.p.piece (x.take j) cx
    let b := a.1.finish serde spec false q.nest a.2
    go { q with p := a.1, nest := b.1, st := .params } b.2
      (x.drop (j + if k = 0 then parameterEnd.length else 0))
  | .need j =>
    let a := q.p.piece (x.take j) cx
    ret { q with p := a.1 } a.2 (x.drop j) .going

def afterFuncTurn (eof : Bool) (q : QwenXml) (cx : Cx) (x : List Char) : Move QwenXml :=
  let y := trimStart x
  if y = [] then ret q cx [] .going
  else
    match scan [toolCallEnd, functionOpen] y with
    | .found 0 0 => ret q cx (y.drop toolCallEnd.length) .done
    | .found 0 _ => go { q with st := .func } cx y
    | .need 0 => if !eof then ret q cx y .going else ret q cx y .done
    | _ => ret q cx y .done

def turn (env : Env) (q : QwenXml) (cx : Cx) : List Char → Move QwenXml
  | [] => ret q cx [] .going
  | c :: rest =>
    match q.st with
    | .func => q.funcTurn env.eof cx (c :: rest)
    | .fName => q.fNameTurn cx (c :: rest)
    | .params => q.paramsTurn cx (c :: rest)
    | .pName => q.pNameTurn env.spec cx (c :: rest)
    | .pVal => q.pValTurn env.serde env.spec cx (c :: rest)
    | .afterFunc => q.afterFuncTurn env.eof cx (c :: rest)

def rank (q : QwenXml) : ℕ :=
  match q.st with
  | .pName | .pVal | .afterFunc => 1
  | _ => 0

end QwenXml

/-! ### GLM -/

def argKeyOpen : List Char := "<arg_key>".toList

def argKeyEnd : List Char := "</arg_key>".toList

def argValueOpen : List Char := "<arg_value>".toList

def argValueEnd : List Char := "</arg_value>".toList

inductive Gl
  | name
  | args
  | key
  | val0
  | val
  deriving DecidableEq

structure Glm where
  st : Gl
  nest : Nest
  p : Param

namespace Glm

def new : Glm := ⟨.name, Nest.new, Param.new⟩

def nameTurn (g : Glm) (cx : Cx) (x : List Char) : Move Glm :=
  let (taken, rest) := findAny ['<', '\n'] x
  let g := { g with p := { g.p with name := g.p.name ++ taken } }
  match rest with
  | [] => ret g cx [] .going
  | c :: tail =>
    let name := trim g.p.name
    if c = '\n' && name = [] then go g cx tail
    else if name = [] || name.any isWhitespace then ret g cx rest .fail
    else
      let n := g.nest.begin '{' (cx.start name none)
      go { g with p := { g.p with name := name }, nest := n.1, st := .args } n.2 rest

def argsTurn (g : Glm) (cx : Cx) (x : List Char) : Move Glm :=
  match scan [argKeyOpen, toolCallEnd] x with
  | .found j 0 =>
    go { g with p := { g.p with key := [] }, st := .key } cx (x.drop (j + argKeyOpen.length))
  | .found j _ =>
    let n := g.nest.seals cx
    ret { g with nest := n.1 } n.2 (x.drop (j + toolCallEnd.length)) .done
  | .need j => ret g cx (x.drop j) .going

def keyTurn (g : Glm) (cx : Cx) (x : List Char) : Move Glm :=
  match scan [argKeyEnd] x with
  | .found j _ =>
    go { g with p := { g.p with key := g.p.key ++ x.take j }, st := .val0 } cx
      (x.drop (j + argKeyEnd.length))
  | .need j => ret { g with p := { g.p with key := g.p.key ++ x.take j } } cx (x.drop j) .going

def val0Turn (spec : ParseSpec Value) (eof : Bool) (g : Glm) (cx : Cx) (x : List Char) : Move Glm :=
  let y := trimStart x
  if y = [] then ret g cx [] .going
  else
    match starts y argValueOpen eof with
    | some true =>
      let b := { g.p with trimNl := false }.begin spec true g.nest cx
      go { g with p := b.1, nest := b.2.1, st := .val } b.2.2 (y.drop argValueOpen.length)
    | none => ret g cx y .going
    | some false => go { g with st := .args } cx y

def valTurn (serde : Serde) (spec : ParseSpec Value) (g : Glm) (cx : Cx) (x : List Char) :
    Move Glm :=
  match scan [argValueEnd, toolCallEnd] x with
  | .found j k =>
    let a := g.p.piece (x.take j) cx
    let b := a.1.finish serde spec true g.nest a.2
    go { g with p := a.1, nest := b.1, st := .args } b.2
      (x.drop (j + if k = 0 then argValueEnd.length else 0))
  | .need j =>
    let a := g.p.piece (x.take j) cx
    ret { g with p := a.1 } a.2 (x.drop j) .going

def turn (env : Env) (g : Glm) (cx : Cx) : List Char → Move Glm
  | [] => ret g cx [] .going
  | c :: rest =>
    match g.st with
    | .name => g.nameTurn cx (c :: rest)
    | .args => g.argsTurn cx (c :: rest)
    | .key => g.keyTurn cx (c :: rest)
    | .val0 => g.val0Turn env.spec env.eof cx (c :: rest)
    | .val => g.valTurn env.serde env.spec cx (c :: rest)

def rank (g : Glm) : ℕ :=
  match g.st with
  | .name | .val0 | .val => 1
  | _ => 0

end Glm

/-! ### Every turn gets on -/

namespace QwenXml

variable {serde : Serde} {spec : ParseSpec Value} {eof : Bool} {q : QwenXml} {cx : Cx}
  {x : List Char}

theorem shrinks_funcTurn : Shrinks rank q x (q.funcTurn eof cx x) := by
  dsimp only [funcTurn]
  refine shrinks_ite (fun _ => shrinks_ret nil_suffix) fun _ => ?_
  split
  · next h => exact shrinks_starts (by decide) h
  · exact shrinks_ret (trimStart_suffix x)
  · exact shrinks_ret (trimStart_suffix x)

theorem shrinks_fNameTurn : Shrinks rank q x (q.fNameTurn cx x) := by
  have hs := findAny_suffix ['>', '<', '\n'] x
  dsimp only [fNameTurn]
  split
  · exact shrinks_ret nil_suffix
  · next c tail hd =>
    refine shrinks_ite (fun _ => shrinks_ret hs) fun _ => ?_
    rw [hd] at hs
    exact shrinks_go ((suffix_cons c tail).trans hs) hs.length_le

theorem shrinks_paramsTurn : Shrinks rank q x (q.paramsTurn cx x) := by
  dsimp only [paramsTurn]
  split
  · next h => exact shrinks_found (by decide) (by decide) h
  · next h =>
    exact shrinks_ite (fun _ => shrinks_found (by decide) (by decide) h) fun _ =>
      shrinks_ret (drop_suffix _ _)
  · exact shrinks_ret (drop_suffix _ _)

theorem shrinks_pNameTurn (h : q.st = .pName) : Shrinks rank q x (q.pNameTurn spec cx x) := by
  have hr : q.rank = 1 := by rw [rank, h]
  have hs := findAny_suffix ['>', '<', '\n'] x
  dsimp only [pNameTurn]
  split
  · exact shrinks_ret nil_suffix
  · next c tail hd =>
    refine shrinks_ite (fun _ => shrinks_rank hs (by rw [hr]; exact Nat.one_pos)) fun _ => ?_
    rw [hd] at hs
    exact shrinks_go ((suffix_cons c tail).trans hs) hs.length_le

theorem shrinks_pValTurn (h : q.st = .pVal) : Shrinks rank q x (q.pValTurn serde spec cx x) := by
  have hr : q.rank = 1 := by rw [rank, h]
  dsimp only [pValTurn]
  split
  · exact shrinks_rank (drop_suffix _ _) (by rw [hr]; exact Nat.one_pos)
  · exact shrinks_ret (drop_suffix _ _)

theorem shrinks_afterFuncTurn (h : q.st = .afterFunc) :
    Shrinks rank q x (q.afterFuncTurn eof cx x) := by
  have hr : q.rank = 1 := by rw [rank, h]
  have hy := trimStart_suffix x
  dsimp only [afterFuncTurn]
  refine shrinks_ite (fun _ => shrinks_ret nil_suffix) fun _ => ?_
  split
  · exact shrinks_ret ((drop_suffix _ _).trans hy)
  · exact shrinks_rank hy (by rw [hr]; exact Nat.one_pos)
  · exact shrinks_ite (fun _ => shrinks_ret hy) fun _ => shrinks_ret hy
  · exact shrinks_ret hy

theorem rank_le (q : QwenXml) : rank q ≤ 4 := by unfold rank; split <;> omega

def body : Body QwenXml where
  fresh := new
  turn := turn
  rank := rank
  rank_le := rank_le
  shrinks := by
    intro env q cx x
    cases x with
    | nil => exact shrinks_ret (List.suffix_refl _)
    | cons c rest =>
      dsimp only [turn]
      split
      · exact shrinks_funcTurn
      · exact shrinks_fNameTurn
      · exact shrinks_paramsTurn
      · next h => exact shrinks_pNameTurn h
      · next h => exact shrinks_pValTurn h
      · next h => exact shrinks_afterFuncTurn h

end QwenXml

namespace Glm

variable {serde : Serde} {spec : ParseSpec Value} {eof : Bool} {g : Glm} {cx : Cx} {x : List Char}

theorem shrinks_nameTurn (h : g.st = .name) : Shrinks rank g x (g.nameTurn cx x) := by
  have hr : g.rank = 1 := by rw [rank, h]
  have hs := findAny_suffix ['<', '\n'] x
  dsimp only [nameTurn]
  split
  · exact shrinks_ret nil_suffix
  · next c tail hd =>
    refine shrinks_ite (fun _ => ?_) fun _ => shrinks_ite (fun _ => shrinks_ret hs) fun _ =>
      shrinks_rank hs (by rw [hr]; exact Nat.one_pos)
    rw [hd] at hs
    exact shrinks_go ((suffix_cons c tail).trans hs) hs.length_le

theorem shrinks_argsTurn : Shrinks rank g x (g.argsTurn cx x) := by
  dsimp only [argsTurn]
  split
  · next h => exact shrinks_found (by decide) (by decide) h
  · exact shrinks_ret (drop_suffix _ _)
  · exact shrinks_ret (drop_suffix _ _)

theorem shrinks_keyTurn : Shrinks rank g x (g.keyTurn cx x) := by
  unfold keyTurn
  split
  · next h => exact shrinks_found (by decide) (by decide) h
  · exact shrinks_ret (drop_suffix _ _)

theorem shrinks_val0Turn (h : g.st = .val0) : Shrinks rank g x (g.val0Turn spec eof cx x) := by
  have hr : g.rank = 1 := by rw [rank, h]
  dsimp only [val0Turn]
  refine shrinks_ite (fun _ => shrinks_ret nil_suffix) fun _ => ?_
  split
  · next h => exact shrinks_starts (by decide) h
  · exact shrinks_ret (trimStart_suffix x)
  · exact shrinks_rank (trimStart_suffix x) (by rw [hr]; exact Nat.one_pos)

theorem shrinks_valTurn (h : g.st = .val) : Shrinks rank g x (g.valTurn serde spec cx x) := by
  have hr : g.rank = 1 := by rw [rank, h]
  dsimp only [valTurn]
  split
  · exact shrinks_rank (drop_suffix _ _) (by rw [hr]; exact Nat.one_pos)
  · exact shrinks_ret (drop_suffix _ _)

theorem rank_le (g : Glm) : rank g ≤ 4 := by unfold rank; split <;> omega

def body : Body Glm where
  fresh := new
  turn := turn
  rank := rank
  rank_le := rank_le
  shrinks := by
    intro env g cx x
    cases x with
    | nil => exact shrinks_ret (List.suffix_refl _)
    | cons c rest =>
      dsimp only [turn]
      split
      · next h => exact shrinks_nameTurn h
      · exact shrinks_argsTurn
      · exact shrinks_keyTurn
      · next h => exact shrinks_val0Turn h
      · next h => exact shrinks_valTurn h

end Glm

end Plow.Tools
