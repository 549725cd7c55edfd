import Plow.Lib.Text

/-!
# Call events

What a call parser writes: answer text, reasoning, and for each call a start with its name, fragments
of its arguments and an end.  The ranges of the source are the texts they cut out of a buffer; a
range that is made longer always ends where its buffer does, so only the last event is.

A request's tools are what a parser and the stream behind it know about the request.
-/

namespace Plow.Tools

inductive Ev
  | start (name : List Char) (id : Option (List Char))
  | args (a : List Char)
  | done
  | text (t : List Char)
  deriving DecidableEq

structure Out where
  reasoning : List Char
  evs : List Ev
  deriving DecidableEq

namespace Out

def empty : Out := ⟨[], []⟩

def start (o : Out) (name : List Char) (id : Option (List Char)) : Out :=
  { o with evs := o.evs ++ [.start name id] }

def putText (o : Out) (s : List Char) : Out :=
  if s = [] then o
  else
    match o.evs.getLast? with
    | some (.text t) => { o with evs := o.evs.dropLast ++ [.text (t ++ s)] }
    | _ => { o with evs := o.evs ++ [.text s] }

def done (o : Out) : Out := { o with evs := o.evs ++ [.done] }

def arg (o : Out) (s : List Char) : Out :=
  if s = [] then o
  else
    match o.evs.getLast? with
    | some (.args a) => { o with evs := o.evs.dropLast ++ [.args (a ++ s)] }
    | _ => { o with evs := o.evs ++ [.args s] }

def putReasoning (o : Out) (s : List Char) : Out := { o with reasoning := o.reasoning ++ s }

end Out

structure ToolDef (P : Type) where
  name : List Char
  params : P
  strict : Bool

inductive Force
  | auto
  | required
  | named (name : List Char)
  deriving DecidableEq

/-- What the response parser needs to know about the request. -/
structure ParseSpec (P : Type) where
  tools : List (ToolDef P)
  parallel : Bool
  force : Force

def ParseSpec.tool {P : Type} (spec : ParseSpec P) (name : List Char) : Option (ToolDef P) :=
  spec.tools.find? (·.name = name)

/-- A parser of one format: it is fed the generation piece by piece and writes into an `Out`. -/
structure Parser (σ : Type) where
  init : σ
  push : σ → List Char → Out → σ × Out
  finish : σ → Out → Out
  /-- the generation was cut -/
  cut : σ → σ

end Plow.Tools
