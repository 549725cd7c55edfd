import Plow.Lib.Text

/-!
# Splitting a reasoning trace out of the answer

The splitter gets a generation token by token and gives every piece of it to the reasoning or to the
answer. It is a resumable scanner: `step` is one turn of the loop of `push_into`, on the text held
and not attributed yet; what may still become a marker stays held until more text, or the end,
settles it.

`Marks` are the markers, fixed for a generation; with re-entry an answer may open another trace, and
an open marker of the form `<|channel>` + label makes the channel token with any other label an end
of the trace. Neither the token counters nor the flags that say whether a call emitted something are
modelled.
-/

namespace Plow.Reasoning

open Plow.Lib Plow.Lib.Text

inductive ReasoningMode
  | none
  | thinkTag
  | tags (opener closer : List Char) (ho : opener ≠ []) (hc : closer ≠ [])

def OPEN : List Char := ['<', 't', 'h', 'i', 'n', 'k', '>']

def CLOSE : List Char := ['<', '/', 't', 'h', 'i', 'n', 'k', '>']

structure Marks where
  opener : List Char
  closer : List Char
  /-- `allow_reentry` was called -/
  reenter : Bool
  opener_ne : opener ≠ []
  closer_ne : closer ≠ []

inductive State
  | opened
  | deciding
  | answer
  deriving DecidableEq

structure Split where
  state : State
  startedReasoning : Bool
  newBlock : Bool
  hadTrace : Bool
  startedAnswer : Bool

/-- the two texts a splitter appends to -/
structure Sink where
  r : List Char
  c : List Char
  deriving DecidableEq

/-- `markers().unwrap_or((OPEN, CLOSE))`, and whether re-entry is allowed -/
def ReasoningMode.marks (mode : ReasoningMode) (reenter : Bool) : Marks :=
  match mode with
  | .none => ⟨OPEN, CLOSE, reenter, nofun, nofun⟩
  | .thinkTag => ⟨OPEN, CLOSE, reenter, nofun, nofun⟩
  | .tags o c ho hc => ⟨o, c, reenter, ho, hc⟩

def ReasoningMode.init (mode : ReasoningMode) (promptOpens : Bool) : Split :=
  let state : State := match mode, promptOpens with
    | .none, _ => .answer
    | _, true => .opened
    | _, false => .deciding
  ⟨state, false, true, state = .opened, false⟩

def isLetter (c : Char) : Bool := c.isAlpha

/-- the channel token and the label of an open marker: split after its first `>` -/
def channelOf (opener : List Char) : Option (List Char × List Char) :=
  ((opener.findIdx? (· = '>')).map (fun i => opener.splitAt (i + 1))).filter
    (fun q => !q.2.isEmpty && q.2.all isLetter)

def Marks.chan (m : Marks) : Option (List Char × List Char) :=
  if m.reenter then channelOf m.opener else none

def emitReasoning (q : Split × Sink) (piece : List Char) : Split × Sink :=
  let (s, o) := q
  let piece := if s.newBlock then trimStart piece else piece
  if piece = [] then (s, o)
  else
    let dst := if s.newBlock && s.startedReasoning then o.r ++ ['\n'] else o.r
    ({ s with newBlock := false, startedReasoning := true }, { o with r := dst ++ piece })

def emitAnswer (q : Split × Sink) (piece : List Char) : Split × Sink :=
  let (s, o) := q
  if !s.hadTrace then (s, { o with c := o.c ++ piece })
  else
    let piece := if s.startedAnswer then piece else trimStart piece
    if piece = [] then (s, o)
    else ({ s with startedAnswer := true }, { o with c := o.c ++ piece })

def openBlock (q : Split × Sink) : Split × Sink :=
  ({ q.1 with state := .opened, hadTrace := true, newBlock := true }, q.2)

def settle (q : Split × Sink) : Split × Sink := ({ q.1 with state := .answer }, q.2)

def letters (s : List Char) : ℕ := (s.takeWhile isLetter).length

/-- the loop of `channel_switch` from the place `start` on -/
def channelScan (chan label s : List Char) : ℕ → ℕ → Option (Except ℕ (ℕ × ℕ))
  | 0, _ => none
  | fuel + 1, start =>
    match find chan (s.drop start) with
    | none => none
    | some k =>
      let j := start + k
      let after := s.drop (j + chan.length)
      let n := letters after
      if n = after.length then some (.error j)
      else if after.take n ≠ label then
        let nl := if ['\n'].isPrefixOf (after.drop n) then 1 else 0
        some (.ok (j, chan.length + n + nl))
      else channelScan chan label s fuel (j + chan.length)

def channelSwitch (m : Marks) (s : List Char) : Option (Except ℕ (ℕ × ℕ)) :=
  match m.chan with
  | none => none
  | some (chan, label) => channelScan chan label s (s.length + 1) 0

def traceEnd (m : Marks) (s : List Char) : Option (ℕ × ℕ) :=
  let close := (find m.closer s).map (fun i => (i, m.closer.length))
  match channelSwitch m s with
  | some (.ok sw) => if close.all (fun c => sw.1 < c.1) then some sw else close
  | _ => close

/-- the length of the longest end of `s` that is a proper start of `m` -/
def prefixTail (s m : List Char) : ℕ :=
  ((List.range (min m.length (s.length + 1))).reverse.find?
    (fun k => 0 < k && (s.drop (s.length - k)).isPrefixOf m)).getD 0

def traceCut (m : Marks) (s : List Char) : ℕ :=
  let cut := cutAt (byteLen m.closer - 1) s
  let cut := match m.chan with
    | none => cut
    | some (chan, _) =>
      let cut := min cut (s.length - prefixTail s chan)
      match channelSwitch m s with
      | some (.error j) => min cut j
      | _ => cut
  (trimEnd (s.take cut)).length

def stepDeciding (m : Marks) (q : Split × Sink) (rest : List Char) : Turn (Split × Sink) Char :=
  let trimmed := trimStart rest
  if m.opener.isPrefixOf trimmed then .go (openBlock q) (trimmed.drop m.opener.length)
  else if trimmed = [] || trimmed.isPrefixOf m.opener then .wait q rest
  else .go (settle q) rest

def stepOpened (m : Marks) (q : Split × Sink) (rest : List Char) : Turn (Split × Sink) Char :=
  match traceEnd m rest with
  | some (i, n) => .go (settle (emitReasoning q (trimEnd (rest.take i)))) (rest.drop (i + n))
  | none =>
    let cut := traceCut m rest
    .wait (emitReasoning q (rest.take cut)) (rest.drop cut)

def stepReenter (m : Marks) (q : Split × Sink) (rest : List Char) : Turn (Split × Sink) Char :=
  let stray (x : ℕ) : Turn (Split × Sink) Char :=
    .go (emitAnswer q (rest.take x)) (rest.drop (x + m.closer.length))
  let block (o : ℕ) : Turn (Split × Sink) Char :=
    .go (openBlock (emitAnswer q (rest.take o))) (rest.drop (o + m.opener.length))
  match find m.opener rest, find m.closer rest with
  | some o, none => block o
  | some o, some x => if o < x then block o else stray x
  | none, some x => stray x
  | none, none =>
    let keep := max (prefixTail rest m.opener) (prefixTail rest m.closer)
    .wait (emitAnswer q (rest.take (rest.length - keep))) (rest.drop (rest.length - keep))

def step (m : Marks) (q : Split × Sink) (rest : List Char) : Turn (Split × Sink) Char :=
  match q.1.state with
  | .deciding => stepDeciding m q rest
  | .opened => stepOpened m q rest
  | .answer => if m.reenter then stepReenter m q rest else .wait (emitAnswer q rest) []

def finishInto (q : Split × Sink) (held : List Char) : Sink :=
  match q.1.state with
  | .opened => (emitReasoning q (trimEnd held)).2
  | .deciding => (emitAnswer q held).2
  | .answer => (emitAnswer q held).2

end Plow.Reasoning
