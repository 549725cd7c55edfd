import Plow.Reasoning.Chunks
import Plow.Tools.Events

/-!
# A chat generation's response, token by token

The text of a generation goes through the reasoning splitter, the call parser and the stripping of
special tokens, and leaves as steps: reasoning, content and call deltas.  The buffered response takes
the calls at the end.

The parser of the format is a parameter, and so are the JSON reader and the schema check that
arguments are validated with, and the ids that calls get when the format carries none.
-/

namespace Plow.Tools
open Plow.Lib.Text
open Plow.Reasoning (Split Sink Marks pushInto finishInto)

/-! ### Special tokens -/

/-- the texts of the special tokens, longest first -/
structure SpecialText where
  tokens : List (List Char)

namespace SpecialText

def stripFuel (st : SpecialText) : ℕ → List Char → List Char
  | 0, _ => []
  | _, [] => []
  | n + 1, c :: s =>
    match st.tokens.find? (·.isPrefixOf (c :: s)) with
    | some t => stripFuel st n ((c :: s).drop t.length)
    | none => c :: stripFuel st n s

/-- `strip_into`: the text without the tokens in it -/
def strip (st : SpecialText) (s : List Char) : List Char := st.stripFuel s.length s

/-- the length of the end of `s` that is a proper start of some token -/
def partialTail (st : SpecialText) (s : List Char) : ℕ :=
  (((List.range s.length).find? fun p => st.tokens.any fun t =>
    (s.drop p).isPrefixOf t && (s.drop p).length < t.length).map (s.length - ·)).getD 0

/-- the text held back, and what is released -/
def stripStream (st : SpecialText) (hold s : List Char) (last : Bool) : List Char × List Char :=
  let w := hold ++ s
  let keep := if last then 0 else st.partialTail w
  (w.drop (w.length - keep), st.strip (w.take (w.length - keep)))

end SpecialText

/-! ### The stream -/

structure Call where
  id : List Char
  name : List Char
  args : List Char
  /-- validated against the schema at its end -/
  strict : Bool
  /-- arguments withheld from the stream until validated -/
  hold : Bool
  deriving DecidableEq

structure DeltaRec where
  call : ℕ
  head : Bool
  args : List Char
  deriving DecidableEq

/-- JSON values: `serde_json::from_str`, and the schema check -/
structure Json (P V : Type) where
  parse : List Char → Except String V
  isObject : V → Bool
  isNull : P → Bool
  schema : P → V → Except String Unit

/-- what a stream is made with -/
structure Setup (σ P V : Type) where
  spec : Option (ParseSpec P)
  marks : Marks
  opened : Split
  special : SpecialText
  /-- the turn is streamed -/
  stream : Bool
  parser : Parser σ
  json : Json P V
  /-- the id of the call with this index, if the format carries none -/
  callId : ℕ → List Char

structure ToolStream (σ : Type) where
  split : Split
  held : List Char
  parser : Option σ
  chold : List Char
  rhold : List Char
  content : List Char
  hasContent : Bool
  reasoning : List Char
  deltas : List DeltaRec
  carry : Bool
  calls : List Call
  opened : Option ℕ
  ws : List Char
  error : Option String

variable {σ P V : Type}

def Setup.new (u : Setup σ P V) : ToolStream σ where
  split := u.opened
  held := []
  parser := u.spec.map fun _ => u.parser.init
  chold := []
  rhold := []
  content := []
  hasContent := false
  reasoning := []
  deltas := []
  carry := false
  calls := []
  opened := none
  ws := []
  error := none

/-- Forced and `strict` calls only: a declared name, a JSON object, and for `strict` the schema. -/
def Setup.validate (u : Setup σ P V) (c : Call) : Except String Unit :=
  match u.spec with
  | none => .ok ()
  | some spec =>
    if !c.strict && spec.force = .auto then .ok ()
    else
      match spec.tool c.name with
      | none => .error ("the model called `" ++ String.ofList c.name ++ "`, which is not in `tools`")
      | some tool =>
        let other : Option (List Char) := match spec.force with
          | .named n => if n ≠ c.name then some n else none
          | _ => none
        match other with
        | some n => .error ("`tool_choice` names `" ++ String.ofList n ++ "`, but the model called `" ++
            String.ofList c.name ++ "`")
        | none =>
          match u.json.parse c.args with
          | .error e => .error ("the arguments of `" ++ String.ofList c.name ++
              "` are not valid JSON (" ++ e ++ ")")
          | .ok v =>
            if !u.json.isObject v then
              .error ("the arguments of `" ++ String.ofList c.name ++ "` are not a JSON object")
            else if c.strict && !u.json.isNull tool.params then
              match u.json.schema tool.params v with
              | .error e => .error ("the arguments of `" ++ String.ofList c.name ++
                  "` do not match its `parameters` schema: " ++ e)
              | .ok () => .ok ()
            else .ok ()

namespace ToolStream

variable (u : Setup σ P V) (ts : ToolStream σ)

/-- Answer text.  Trailing whitespace is held however the text was chunked. -/
def text (t : List Char) (last : Bool) : ToolStream σ :=
  let (hold, sbuf) := u.special.stripStream ts.chold t last
  let body := trimEnd sbuf
  if body = [] then { ts with chold := hold, ws := ts.ws ++ sbuf }
  else
    { ts with
      chold := hold
      content := ts.content ++ ts.ws ++ body
      hasContent := true
      ws := sbuf.drop body.length }

def deltaArgs (i : ℕ) (a : List Char) : ToolStream σ :=
  match ts.deltas.getLast? with
  | some d =>
    if d.call = i then
      { ts with deltas := ts.deltas.dropLast ++ [{ d with args := d.args ++ a }] }
    else { ts with deltas := ts.deltas ++ [⟨i, false, a⟩] }
  | none => { ts with deltas := ts.deltas ++ [⟨i, false, a⟩] }

def args (i : ℕ) (a : List Char) : ToolStream σ :=
  let ts := { ts with calls := ts.calls.modify i fun c => { c with args := c.args ++ a } }
  if ts.calls[i]?.any (!·.hold) then ts.deltaArgs i a else ts

/-- a call without arguments gets `{}` -/
def fillArgs (i : ℕ) : ToolStream σ :=
  if ts.calls[i]?.any fun c => trim c.args = [] then
    { ts with calls := ts.calls.modify i fun c => { c with args := [] } }.args i "{}".toList
  else ts

def release (i : ℕ) : ToolStream σ :=
  match ts.calls[i]? with
  | some c => if c.hold then ts.deltaArgs i c.args else ts
  | none => ts

def endCall (i : ℕ) (cut : Bool) : ToolStream σ :=
  let ts := ts.fillArgs i
  match ts.calls[i]? with
  | none => ts
  | some c =>
    if !cut && ts.error.isNone then
      match u.validate c with
      | .error e => { ts with error := some e }
      | .ok () => ts.release i
    else ts.release i

def close (cut : Bool) : ToolStream σ :=
  match ts.opened with
  | some i => { ts with opened := none }.endCall u i cut
  | none => ts

def start (name : List Char) (id : Option (List Char)) : ToolStream σ :=
  let ts := ts.close u false
  match u.spec with
  | none => ts
  | some spec =>
    if spec.tools = [] ∨ (!spec.parallel ∧ ts.calls ≠ []) then ts
    else
      let strict := (spec.tool name).any (·.strict)
      let i := ts.calls.length
      { ts with
        ws := []
        calls := ts.calls ++ [⟨id.getD (u.callId i), name, [], strict, strict && u.stream⟩]
        opened := some i
        deltas := ts.deltas ++ [⟨i, true, []⟩] }

def event : Ev → ToolStream σ
  | .text t => ts.text u t false
  | .start name id => ts.start u name id
  | .args a =>
    match ts.opened with
    | some i => ts.args i a
    | none => ts
  | .done => ts.close u false

def reason (r : List Char) : ToolStream σ :=
  if r = [] then ts
  else
    let (hold, out) := u.special.stripStream ts.rhold r false
    { ts with rhold := hold, reasoning := ts.reasoning ++ out }

/-- what the parser makes of the answer text of a step -/
def parse (c : List Char) (last cut : Bool) : Option σ × Out :=
  match ts.parser with
  | none => (none, Out.empty.putText c)
  | some p =>
    let (p, out) := if c = [] then (p, Out.empty) else u.parser.push p c .empty
    if last then
      let p := if cut then u.parser.cut p else p
      (some p, u.parser.finish p out)
    else (some p, out)

def clear : ToolStream σ :=
  if ts.carry then { ts with carry := false }
  else { ts with content := [], hasContent := false, reasoning := [], deltas := [] }

/-- the splitter on a piece of text, or at the end of the generation -/
def splitInto (t : Option (List Char)) : (Split × Sink) × List Char :=
  match t with
  | some t => pushInto u.marks ((ts.split, ⟨[], []⟩), ts.held) t
  | none => ((ts.split, finishInto (ts.split, ⟨[], []⟩) ts.held), [])

def flush (last : Bool) : ToolStream σ :=
  if last && ts.chold ≠ [] then ts.text u [] true else ts

def flushReasoning (last : Bool) : ToolStream σ :=
  if last && ts.rhold ≠ [] then
    let (hold, out) := u.special.stripStream ts.rhold [] true
    { ts with rhold := hold, reasoning := ts.reasoning ++ out }
  else ts

/-- `none` is the end of the generation. -/
def step (t : Option (List Char)) (cut : Bool) : ToolStream σ :=
  let ts := ts.clear
  let ((split, sink), held) := ts.splitInto u t
  let (parser, out) := ts.parse u sink.c t.isNone cut
  let ts := { ts with split, held, parser }
  let ts := ((ts.reason u sink.r).reason u out.reasoning).flushReasoning u t.isNone
  (out.evs.foldl (fun ts ev => ts.event u ev) ts).flush u t.isNone

def prime (t : List Char) : ToolStream σ := { ts.step u (some t) false with carry := true }

def push (t : List Char) : ToolStream σ := ts.step u (some t) false

/-- a forced call is missing -/
def missing (cut : Bool) : ToolStream σ :=
  match u.spec with
  | some spec =>
    if !cut && spec.force ≠ .auto && ts.calls = [] && ts.error.isNone then
      let e := "`tool_choice` requires a call, and the model's output did not parse as one"
      { ts with error := some e }
    else ts
  | none => ts

def answer : ToolStream σ :=
  if ts.calls = [] ∧ ts.ws ≠ [] then
    { ts with content := ts.content ++ ts.ws, ws := [], hasContent := true }
  else ts

def finish (cut : Bool) : ToolStream σ :=
  (((ts.step u none cut).close u cut).missing u cut).answer

end ToolStream

/-! ### What a client sees -/

/-- a delta on the wire: `index`, `id` and `name` for a head, `arguments` -/
structure Delta where
  index : ℕ
  head : Option (List Char × List Char)
  args : List Char
  deriving DecidableEq

/-- `Deltas::iter` -/
def ToolStream.view (ts : ToolStream σ) : List Delta :=
  ts.deltas.map fun d =>
    ⟨d.call, if d.head then ts.calls[d.call]?.map fun c => (c.id, c.name) else none, d.args⟩

/-- `take_calls`: id, name and arguments -/
def ToolStream.takeCalls (ts : ToolStream σ) : List (List Char × List Char × List Char) :=
  ts.calls.map fun c => (c.id, c.name, c.args)

inductive Op
  | prime (t : List Char)
  | push (t : List Char)

def act (u : Setup σ P V) (s : ToolStream σ × List Delta) : Op → ToolStream σ × List Delta
  | .prime t => (s.1.prime u t, s.2)
  | .push t => (s.1.push u t, s.2 ++ (s.1.push u t).view)

def respond (u : Setup σ P V) (ops : List Op) (cut : Bool) : ToolStream σ × List Delta :=
  let s := ops.foldl (act u) (u.new, [])
  (s.1.finish u cut, s.2 ++ (s.1.finish u cut).view)

end Plow.Tools
