import Mathlib

/-!
# Think control

The controller of one request sees every token before it is committed.  It counts the tokens of a
reasoning block, and once the block's budget (and grace) is spent and no character is left
incomplete it is armed: from then on it commits the forced-end sequence in place of the model's
tokens.

* `ThinkCtl.commit`      one token: forced, read as label text, or counted in its phase;
* `ThinkCtl.arm`         starts the forced end after a commit;
* `ThinkCtl.chainLeft`   how many tokens a chained decode path may produce;
* `ThinkCtl.tick`        a token as the serving loop drives it: `commit`, then `arm`.

The `u32` counters are natural numbers: a generation is far shorter than `2^32` tokens, so no
addition wraps or saturates.  A token's text is its bytes.
-/

namespace Plow.Think

/-- a token id (`u32`) -/
abbrev Token := UInt32

def liveChain : Nat := 16

/-- A model's trace markers as token ids. -/
structure ThinkMarkers where
  openId : Token
  closeId : Token
  channelLabel : Option (List UInt8)
  newline : List Token
  deriving DecidableEq

def ThinkMarkers.endsLine (m : ThinkMarkers) (id : Token) : Bool := id ∈ m.newline

/-- Host-logit steering. -/
structure ThinkBias where
  base : List (Token × ℚ)
  replyFirst : List (Token × ℚ)
  banReopen : Bool
  closeRamp : Option (Nat × ℚ)
  earlyExitRank : Option Nat
  deriving DecidableEq

def ThinkBias.default : ThinkBias := ⟨[], [], false, none, none⟩

/-- What a request asks of the controller.  `live` says that the request has a live flag; the flag
itself is `ThinkCtl.flag`. -/
structure ThinkLimits where
  budget : Option Nat
  replyCap : Option Nat
  forcedEnd : List Token
  grace : Nat
  live : Bool
  bias : ThinkBias
  deriving DecidableEq

inductive Phase
  | deciding
  | trace
  | reply
  deriving DecidableEq, Repr

/-- One committed token. -/
structure Commit where
  token : Token
  replaced : Bool
  capped : Bool
  deriving DecidableEq, Repr

structure ThinkCtl where
  m : ThinkMarkers
  lim : ThinkLimits
  phase : Phase
  traceN : Nat
  replyN : Nat
  due : Bool
  /-- index of the next forced id -/
  forcing : Option Nat
  blocks : Nat
  forced : Nat
  graceSpent : Nat
  /-- the current block ends at this trace count (a live `reasoning_end`) -/
  cut : Option Nat
  lineEnd : Bool
  /-- label bytes consumed and whether they still match the trace's label -/
  channel : Option (Nat × Bool)
  /-- the live flag, set from outside -/
  flag : Bool
  deriving DecidableEq

namespace ThinkCtl

/-- `opened`: the prompt leaves a trace open -/
def new (m : ThinkMarkers) (lim : ThinkLimits) (opened : Bool) : ThinkCtl where
  m := m
  lim := lim
  phase := if opened then .trace else .deciding
  traceN := 0
  replyN := 0
  due := false
  forcing := none
  blocks := if opened then 1 else 0
  forced := 0
  graceSpent := 0
  cut := none
  lineEnd := false
  channel := none
  flag := false

def openBlock (t : ThinkCtl) : ThinkCtl :=
  { t with phase := .trace, traceN := 0, due := false, cut := none, blocks := t.blocks + 1 }

/-- `u8::is_ascii_alphabetic` -/
def isAsciiAlphabetic (c : UInt8) : Bool := (0x41 ≤ c && c ≤ 0x5a) || (0x61 ≤ c && c ≤ 0x7a)

def letters (text : List UInt8) : List UInt8 := text.takeWhile isAsciiAlphabetic

/-- `label.get(n..n + w.len()) == Some(w)` -/
def labelAt (label : List UInt8) (n : Nat) (w : List UInt8) : Bool :=
  n + w.length ≤ label.length && (label.drop n).take w.length == w

def labelEnd (t : ThinkCtl) (whole : Bool) : ThinkCtl :=
  if whole then if t.phase = .trace then t else t.openBlock
  else { t with phase := .reply, due := false, cut := none }

/-- The part of `commit` for a trace with a label; `true` when the token is all framing. -/
def labelStep (t : ThinkCtl) (label : List UInt8) (sampled : Token) (text : List UInt8) :
    ThinkCtl × Bool :=
  if sampled = t.m.openId then ({ t with channel := some (0, true) }, true)
  else if sampled = t.m.closeId then ({ t with channel := none }, false)
  else
    match t.channel with
    | none => (t, false)
    | some (n, good) =>
      let w := letters text
      let good := good && labelAt label n w
      if w.length = text.length then ({ t with channel := some (n + w.length, good) }, true)
      else
        (({ t with channel := none }).labelEnd (good && n + w.length == label.length),
          text.drop w.length == [0x0a])

/-- an ordinary token inside a trace -/
def traceToken (t : ThinkCtl) (sampled : Token) : ThinkCtl :=
  let n := t.traceN + 1
  let live := t.lim.live && t.flag
  let cut := if live then some (min (t.cut.getD (n + liveChain)) (n + liveChain)) else t.cut
  let due := t.due || cut.any (· ≤ n)
  { t with
    traceN := n
    lineEnd := t.m.endsLine sampled
    flag := if t.lim.live then false else t.flag
    cut := cut
    graceSpent := if t.lim.budget.any (· < n) then t.graceSpent + 1 else t.graceSpent
    due := due || t.lim.budget.any fun b =>
      b ≤ n && (b + t.lim.grace ≤ n || t.m.endsLine sampled) }

/-- the part of `commit` that counts the token in its phase; `true` when the reply cap is reached -/
def phaseStep (t : ThinkCtl) (sampled : Token) : ThinkCtl × Bool :=
  match t.phase with
  | .trace =>
    if sampled = t.m.closeId then ({ t with phase := .reply }, false)
    else (t.traceToken sampled, false)
  | _ =>
    if sampled = t.m.openId then (t.openBlock, false)
    else if sampled = t.m.closeId then ({ t with phase := .reply }, false)
    else
      ({ t with phase := .reply, replyN := t.replyN + 1 },
        t.lim.replyCap.any (· ≤ t.replyN + 1))

/-- a token that is not forced -/
def freeStep (t : ThinkCtl) (sampled : Token) (text : List UInt8) : ThinkCtl × Bool :=
  match t.m.channelLabel with
  | none => t.phaseStep sampled
  | some label =>
    match t.labelStep label sampled text with
    | (t, true) => (t, false)
    | (t, false) => t.phaseStep sampled

/-- `none` is a panic: the forced end is empty -/
def commit (t : ThinkCtl) (sampled : Token) (text : List UInt8) : Option (ThinkCtl × Commit) :=
  let t := { t with lineEnd := false }
  match t.forcing with
  | some i =>
    match t.lim.forcedEnd[i]? with
    | none => none
    | some token =>
      some (if i + 1 < t.lim.forcedEnd.length then { t with forcing := some (i + 1) }
        else { t with forcing := none, phase := .reply }, ⟨token, token != sampled, false⟩)
  | none =>
    some ((t.freeStep sampled text).1, ⟨sampled, false, (t.freeStep sampled text).2⟩)

def resume (f out : List Token) : Nat :=
  ((List.range' 1 (f.length - 1)).reverse.find? fun k => (f.take k).isSuffixOf out).getD 0

/-- after `commit`, with the committed output so far -/
def arm (t : ThinkCtl) (out : List Token) (utf8Pending : Bool) : ThinkCtl :=
  if !t.due || utf8Pending || t.phase != .trace || t.forcing.isSome || t.channel.isSome then t
  else { t with due := false, forcing := some (resume t.lim.forcedEnd out), forced := t.forced + 1 }

/-- a steering bias may apply to the next token, set only once the host has seen this one -/
def steerWindow (t : ThinkCtl) : Bool :=
  let b := t.lim.bias
  if t.phase ≠ .reply ∧ (b.earlyExitRank.isSome ∨ b.replyFirst ≠ [] ∨ b.banReopen) then true
  else
    match t.phase with
    | .trace =>
      match b.closeRamp, t.lim.budget with
      | some (k, _), some budget => budget - k ≤ t.traceN + 1
      | _, _ => false
    | .reply => t.replyN < 2 && b.replyFirst ≠ []
    | .deciding => false

/-- the distance to the next forced id; `none` is `usize::MAX` -/
def forceLeft (t : ThinkCtl) : Option Nat :=
  match t.phase with
  | .trace =>
    match t.lim.budget, t.cut with
    | none, none => none
    | some b, none => some (b - t.traceN + 1)
    | none, some c => some (c - t.traceN + 1)
    | some b, some c => some (min b c - t.traceN + 1)
  | _ => t.lim.budget.map (· + 2)

/-- the distance to the close ramp -/
def rampLeft (t : ThinkCtl) : Option Nat :=
  match t.lim.bias.closeRamp, t.lim.budget with
  | some (k, _), some budget =>
    if k > 0 then
      some (match t.phase with
        | .trace => max (budget - k - t.traceN) 1
        | _ => budget - k + 1)
    else none
  | _, _ => none

def least : Option Nat → Option Nat → Option Nat
  | none, b => b
  | a, none => a
  | some a, some b => some (min a b)

/-- How many tokens a chained path may produce before the host must see one; `none` when nothing
can be replaced. -/
def chainLeft (t : ThinkCtl) : Option Nat :=
  if t.forcing.isSome || t.due || t.channel.isSome || t.steerWindow then some 1
  else least (least t.forceLeft t.rampLeft) (if t.lim.live then some liveChain else none)

end ThinkCtl

/-- What one step of the serving loop gives the controller: whether a live end was asked for since
the last token, the sampled id with its text, and whether the output then ends inside a character. -/
structure Event where
  liveEnd : Bool
  sampled : Token
  text : List UInt8
  utf8Pending : Bool
  deriving DecidableEq

def ThinkCtl.hear (t : ThinkCtl) (e : Event) : ThinkCtl := { t with flag := t.flag || e.liveEnd }

/-- one produced token: it is committed, joins the output, and the controller may be armed -/
def ThinkCtl.tick (t : ThinkCtl) (out : List Token) (e : Event) :
    Option (ThinkCtl × List Token × Commit) :=
  match (t.hear e).commit e.sampled e.text with
  | none => none
  | some (t, c) => some (t.arm (out ++ [c.token]) e.utf8Pending, out ++ [c.token], c)

end Plow.Think
