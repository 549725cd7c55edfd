import Mathlib

/-!
# The reply guard

Planning lines that a model writes after its trace go to the reasoning, other lines to the reply.  A
line is held only while its start could still be one of planning.  A turn with nothing to say is given
a fallback line.

A text is a list of characters.  The openers and labels are ASCII, so where the source counts bytes of a
line it counts characters.  Which characters are alphanumeric is a parameter; `isWhitespace` is
Unicode's.
-/

namespace Plow.Reply

abbrev Text := List Char

/-- Fallback lines by kind and script. -/
structure GuardLines where
  wait : List (String × Text)
  goodbye : List (String × Text)

inductive Fallback where
  | wait
  | goodbye
  deriving DecidableEq, Repr

/-- `char::is_whitespace` -/
def isWhitespace (c : Char) : Bool :=
  let n := c.toNat
  (9 ≤ n && n ≤ 13) || n = 0x20 || n = 0x85 || n = 0xa0 || n = 0x1680 || (0x2000 ≤ n && n ≤ 0x200a) || n = 0x2028 ||
    n = 0x2029 || n = 0x202f || n = 0x205f || n = 0x3000

def trimStart (t : Text) : Text := t.dropWhile isWhitespace

/-- `str::eq_ignore_ascii_case` -/
def eqIgnoreCase (a b : Text) : Bool := a.map Char.toLower = b.map Char.toLower

/-- `str::split_whitespace` -/
def words (t : Text) : List Text := (t.splitOnP isWhitespace).filter (· ≠ [])

/-- the script of the caller's last message -/
def callerScript : Text → String
  | [] => "hi"
  | c :: cs =>
    if 0x0900 ≤ c.toNat ∧ c.toNat ≤ 0x097f then "hi"
    else if 0x0980 ≤ c.toNat ∧ c.toNat ≤ 0x09ff then "bn"
    else if 0x0b80 ≤ c.toNat ∧ c.toNat ≤ 0x0bff then "ta"
    else callerScript cs

/-! ### Planning lines -/

def openers : List Text :=
  ["wait", "hmm", "alternatively", "self-correction", "the user", "the caller", "the prompt", "the instruction",
    "the system", "the most logical", "the best response", "the best reply", "let me", "let's", "i need to",
    "i should", "my response", "my reply"].map String.toList

def labelWords : Nat := 4

def decideBytes : Nat := 32

def answerReasoning : List Text := ["wait", "alternatively", "hmm", "actually"].map String.toList

def boundary (complete : Bool) : Text → Bool
  | [] => complete
  | c :: _ => !c.isAlphanum && c != '-' && c != '\''

def sameHead (t o : Text) : Bool :=
  let n := min o.length t.length
  eqIgnoreCase (t.take n) (o.take n)

def opens (t : Text) (complete : Bool) (o : Text) : Bool :=
  sameHead t o && decide (o.length ≤ t.length) && boundary complete (t.drop o.length)

def mayOpen (t : Text) (complete : Bool) (o : Text) : Bool :=
  !complete && sameHead t o && decide (t.length ≤ o.length)

/-- a short label then a colon, or a short status line -/
def labelled (label : Text) (stop : Char) : Bool :=
  if stop = ':' then decide ((words label).length ≤ labelWords)
  else if stop = '.' then
    decide ((words label).length ≤ 2) && (eqIgnoreCase ((words label).getLast?.getD []) "detected".toList ||
      eqIgnoreCase (trimStart (trimStart label).reverse).reverse "none".toList)
  else false

def inLabel (c : Char) : Bool := c.isAlpha || c == ' '

def shape (t : Text) (complete : Bool) : Option Bool :=
  let label := t.takeWhile inLabel
  match t.dropWhile inLabel with
  | stop :: _ => if label.length ≤ decideBytes then some (labelled label stop) else some false
  | [] => if t.length ≤ decideBytes ∧ complete = false then none else some false

/-- planning, speech, or not settled by this start of a line; `complete`: the line ended -/
def planning (line : Text) (complete : Bool) : Option Bool :=
  match trimStart line with
  | [] => if complete then some false else none
  | first :: rest =>
    if first ∈ ['*', '(', '[', '#'] then some true
    else if !first.isAlpha then some false
    else if openers.any (opens (first :: rest) complete) then some true
    else if openers.any (mayOpen (first :: rest) complete) then none
    else shape (first :: rest) complete

/-! ### The guard -/

inductive LineState where
  | undecided
  | speak
  | move
  deriving DecidableEq, Repr

/-- One response's guard, with the reasoning `r` and the reply `c` that it has written. -/
structure ReplyGuard where
  line : Text
  state : LineState
  spoke : Bool
  firstWordSeen : Bool
  reasoningOut : Bool
  moved : Bool
  answerReasoning : Bool
  movedText : Text
  wait : Option Text
  goodbye : Option Text
  r : Text
  c : Text
  deriving DecidableEq

def pick (m : List (String × Text)) (script : String) : Option Text := (m.lookup script).or (m.lookup "hi")

def ReplyGuard.new (lines : Option GuardLines) (script : String) : ReplyGuard where
  line := []
  state := .undecided
  spoke := false
  firstWordSeen := false
  reasoningOut := false
  moved := false
  answerReasoning := false
  movedText := []
  wait := lines.bind fun l => pick l.wait script
  goodbye := lines.bind fun l => pick l.goodbye script
  r := []
  c := []

namespace ReplyGuard

variable (alnum : Char → Bool) (g : ReplyGuard)

def noteReasoning : ReplyGuard := { g with reasoningOut := true }

/-- the first word of what is spoken decides on `answerReasoning` -/
def speak (s : Text) : ReplyGuard :=
  let g :=
    if g.firstWordSeen then g
    else
      match (s.splitOnP fun ch => !alnum ch).find? (· ≠ []) with
      | some w => { g with firstWordSeen := true, answerReasoning := Plow.Reply.answerReasoning.any (eqIgnoreCase w) }
      | none => g
  { g with spoke := g.spoke || !s.all isWhitespace, c := g.c ++ s }

def moveText (s : Text) : ReplyGuard :=
  let s := (s.reverse.dropWhile (· == '\n')).reverse
  { g with r := g.r ++ s, movedText := g.movedText ++ s }

def settle (plan : Bool) : ReplyGuard :=
  let line := g.line
  let g := { g with line := [] }
  if plan then
    { g with r := if g.reasoningOut then g.r ++ ['\n'] else g.r, reasoningOut := true, moved := true,
             state := .move }.moveText (trimStart line)
  else { g with state := .speak }.speak alnum line

end ReplyGuard

def pieces : Text → List (Text × Bool)
  | [] => []
  | c :: cs =>
    if c = '\n' then ([c], true) :: pieces cs
    else match pieces cs with
      | [] => [([c], false)]
      | (p, nl) :: rest => (c :: p, nl) :: rest

namespace ReplyGuard

variable (alnum : Char → Bool) (g : ReplyGuard)

def pushPiece (piece : Text × Bool) : ReplyGuard :=
  let g :=
    match g.state with
    | .speak => g.speak alnum piece.1
    | .move => g.moveText piece.1
    | .undecided =>
      let g := { g with line := g.line ++ piece.1 }
      match planning (g.line.reverse.dropWhile (· == '\n')).reverse piece.2 with
      | some plan => g.settle alnum plan
      | none => g
  if piece.2 then { g with state := .undecided } else g

def push (text : Text) : ReplyGuard := (pieces text).foldl (pushPiece alnum) g

def goodbyes : List Text := ["goodbye", "bye", "end the call", "hang up", "ending the call"].map String.toList

/-- the line for a turn with nothing to say -/
def fallback (movedText : Text) (wait goodbye : Option Text) : Option (Text × Fallback) :=
  if goodbyes.any fun w => decide (w <:+: movedText.map Char.toLower) then goodbye.map fun line => (line, .goodbye)
  else wait.map fun line => (line, .wait)

/-- the end of the answer; `calls`: the turn made tool calls -/
def finish (calls : Bool) : ReplyGuard × Option Fallback :=
  let g :=
    if g.state = .undecided ∧ g.line ≠ [] then g.settle alnum ((planning g.line true).getD false) else g
  if g.spoke || calls then (g, none)
  else
    match fallback g.movedText g.wait g.goodbye with
    | some (line, kind) => ({ g with c := g.c ++ line, spoke := true }, some kind)
    | none => (g, none)

end ReplyGuard

/-- a response to the caller's message: its trace, if it had one, its texts and its end -/
def respond (alnum : Char → Bool) (lines : Option GuardLines) (caller : Text) (trace calls : Bool)
    (texts : List Text) : ReplyGuard × Option Fallback :=
  let g := ReplyGuard.new lines (callerScript caller)
  (texts.foldl (ReplyGuard.push alnum) (if trace then g.noteReasoning else g)).finish alnum calls

end Plow.Reply
