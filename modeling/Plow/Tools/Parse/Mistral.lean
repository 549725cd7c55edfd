import Plow.Tools.Parse.Framed
import Plow.Tools.Parse.JList

/-!
# Calls to the end of the turn: Mistral and Llama 3

Mistral, behind the first `[TOOL_CALLS]`: a JSON list, or `NAME[ARGS]{..}` segments joined by further
`[TOOL_CALLS]`. Llama 3 has no call marker of its own: an answer that opens with an object, or with
the python tag, is a candidate call list, and an object that turns out not to be a call is text.
-/

namespace Plow.Tools
open Plow.Lib Plow.Lib.Text List

/-! ### Mistral -/

def toolCalls : List Char := "[TOOL_CALLS]".toList

def argsMark : List Char := "[ARGS]".toList

def callIdMark : List Char := "[CALL_ID]".toList

inductive M
  | decide
  | list
  | name
  | callId
  | args0
  | args
  | after
  deriving DecidableEq

structure Mistral where
  st : M
  list : JList
  name : List Char
  scan : JsonScan
  calls : ℕ

namespace Mistral

def new : Mistral := ⟨.decide, JList.new, [], JsonScan.new, 0⟩

def failOrDone (m : Mistral) : St := if m.calls = 0 then .fail else .done

def decideTurn (m : Mistral) (cx : Cx) (x : List Char) : Move Mistral :=
  let y := trimStart x
  if y = [] then ret m cx [] .going
  else if y.head? = some '[' || y.head? = some '{' then
    go { m with list := JList.new, st := .list } cx y
  else go { m with name := [], st := .name } cx y

def listTurn (env : Env) (m : Mistral) (cx : Cx) (x : List Char) : Move Mistral :=
  let (a, rest) := (JList.body none).feed env m.list cx x
  ret { m with list := a.st } a.cx rest a.verdict

/-- `taken` is what the name grows by -/
def nameTurn (m : Mistral) (cx : Cx) (x : List Char) : Move Mistral :=
  let grow (j : ℕ) : Mistral := if m.st = .name then { m with name := m.name ++ x.take j } else m
  match Tools.scan [argsMark, callIdMark, toolCalls] x with
  | .found j k =>
    let m := grow j
    if k = 0 then
      let rest := x.drop (j + argsMark.length)
      if trim m.name = [] || (trim m.name).any isWhitespace then ret m cx rest m.failOrDone
      else go { m with st := .args0 } (cx.start (trim m.name) none) rest
    else if k = 1 then go { m with st := .callId } cx (x.drop (j + callIdMark.length))
    else ret m cx (x.drop j) m.failOrDone
  | .need j => ret (grow j) cx (x.drop j) .going

def args0Turn (m : Mistral) (cx : Cx) (x : List Char) : Move Mistral :=
  let y := trimStart x
  if y = [] then ret m cx [] .going else go { m with scan := JsonScan.new, st := .args } cx y

def argsTurn (m : Mistral) (cx : Cx) (x : List Char) : Move Mistral :=
  let (scan, rest, done) := m.scan.feed x
  let cx := cx.arg (x.take (x.length - rest.length))
  let m := { m with scan := scan }
  if done then go { m with calls := m.calls + 1, st := .after } cx.finish rest
  else ret m cx [] .going

def afterTurn (eof : Bool) (m : Mistral) (cx : Cx) (x : List Char) : Move Mistral :=
  let y := trimStart x
  if y = [] then ret m cx [] .going
  else
    match starts y toolCalls eof with
    | some true => go { m with name := [], st := .name } cx (y.drop toolCalls.length)
    | none => ret m cx y .going
    | some false => ret m cx y .done

def turn (env : Env) (m : Mistral) (cx : Cx) : List Char → Move Mistral
  | [] => ret m cx [] .going
  | c :: rest =>
    match m.st with
    | .decide => m.decideTurn cx (c :: rest)
    | .list => m.listTurn env cx (c :: rest)
    | .name | .callId => m.nameTurn cx (c :: rest)
    | .args0 => m.args0Turn cx (c :: rest)
    | .args => m.argsTurn cx (c :: rest)
    | .after => m.afterTurn env.eof cx (c :: rest)

def rank (m : Mistral) : ℕ :=
  match m.st with
  | .decide | .args0 => 2
  | .args => 1
  | _ => 0

variable {env : Env} {eof : Bool} {m : Mistral} {cx : Cx} {x : List Char}

theorem shrinks_decideTurn (h : m.st = .decide) : Shrinks rank m x (m.decideTurn cx x) := by
  have hr : m.rank = 2 := by rw [rank, h]
  have hy := trimStart_suffix x
  dsimp only [decideTurn]
  exact shrinks_ite (fun _ => shrinks_ret nil_suffix) fun _ =>
    shrinks_ite (fun _ => shrinks_rank hy (by rw [hr]; exact Nat.two_pos)) fun _ =>
      shrinks_rank hy (by rw [hr]; exact Nat.two_pos)

theorem shrinks_nameTurn : Shrinks rank m x (m.nameTurn cx x) := by
  dsimp only [nameTurn]
  split
  · next h =>
    refine shrinks_ite (fun _ => shrinks_ite (fun _ => shrinks_ret (drop_suffix _ _)) fun _ =>
      shrinks_found (by decide) (by decide) h) fun _ =>
      shrinks_ite (fun _ => shrinks_found (by decide) (by decide) h) fun _ =>
        shrinks_ret (drop_suffix _ _)
  · exact shrinks_ret (drop_suffix _ _)

theorem shrinks_args0Turn (h : m.st = .args0) : Shrinks rank m x (m.args0Turn cx x) := by
  have hr : m.rank = 2 := by rw [rank, h]
  dsimp only [args0Turn]
  exact shrinks_ite (fun _ => shrinks_ret nil_suffix) fun _ =>
    shrinks_rank (trimStart_suffix x) (by rw [hr]; exact Nat.one_lt_two)

theorem shrinks_argsTurn (h : m.st = .args) : Shrinks rank m x (m.argsTurn cx x) := by
  have hr : m.rank = 1 := by rw [rank, h]
  dsimp only [argsTurn]
  exact shrinks_ite
    (fun _ => shrinks_rank (JsonScan.feed_suffix _ _) (by rw [hr]; exact Nat.one_pos))
    fun _ => shrinks_ret nil_suffix

theorem shrinks_afterTurn : Shrinks rank m x (m.afterTurn eof cx x) := by
  dsimp only [afterTurn]
  refine shrinks_ite (fun _ => shrinks_ret nil_suffix) fun _ => ?_
  split
  · next h => exact shrinks_starts (by decide) h
  · exact shrinks_ret (trimStart_suffix x)
  · exact shrinks_ret (trimStart_suffix x)

theorem rank_le (m : Mistral) : rank m ≤ 4 := by unfold rank; split <;> omega

def body : Body Mistral where
  fresh := new
  turn := turn
  rank := rank
  rank_le := rank_le
  shrinks := by
    intro env m cx x
    cases x with
    | nil => exact shrinks_ret (List.suffix_refl _)
    | cons c rest =>
      dsimp only [turn]
      split
      · next h => exact shrinks_decideTurn h
      · exact shrinks_ret (Body.feed_suffix _ _ _ _ _)
      · exact shrinks_nameTurn
      · exact shrinks_nameTurn
      · next h => exact shrinks_args0Turn h
      · next h => exact shrinks_argsTurn h
      · exact shrinks_afterTurn

end Mistral

/-! ### Llama 3 -/

def pyTag : List Char := "<|python_tag|>".toList

inductive LlamaState
  | deciding
  | list
  | pass
  deriving DecidableEq

structure Llama3 where
  buf : List Char
  /-- everything since the answer began, until the first call starts -/
  raw : List Char
  state : LlamaState
  list : JList

namespace Llama3

def new : Llama3 := ⟨[], [], .deciding, JList.new⟩

def deciding (eof : Bool) (f : Llama3) (out : Out) (s : List Char) : Turn (Llama3 × Out) Char :=
  let t := trimStart s
  if t = [] then if eof then .wait (f, out.putText s) [] else .wait (f, out) s
  else if pyTag.isPrefixOf t then
    let rest := t.drop pyTag.length
    .go ({ f with raw := f.raw ++ Framed.consumed s rest }, out) rest
  else if !eof && t.isPrefixOf pyTag then .wait (f, out) s
  else if t.head? = some '{' then
    .go ({ f with raw := f.raw ++ Framed.consumed s t, state := .list }, out) t
  else .go ({ f with raw := [], state := .pass }, out.putText f.raw) s

def listing (env : Env) (f : Llama3) (out : Out) (s : List Char) : Turn (Llama3 × Out) Char :=
  let before := 0 < f.list.calls || f.list.started
  let (a, rest) := (JList.body none).feed env f.list ⟨out, before⟩ s
  let started := a.cx.started
  let raw :=
    if before then f.raw
    else if started then []
    else f.raw ++ Framed.consumed s rest
  let f := { f with list := a.st, raw := raw }
  match a.verdict with
  | .going =>
    if !env.eof then .wait (f, a.cx.out) rest
    else
      .wait ({ f with raw := [] },
        if !started then (a.cx.out.putText raw).putText rest else a.cx.out) []
  | .fail => .go ({ f with raw := [], state := .pass }, a.cx.out.putText raw) rest
  | .done => .go ({ f with state := .pass }, a.cx.out) rest

/-- one round of `run` -/
def round (env : Env) (q : Llama3 × Out) (s : List Char) : Turn (Llama3 × Out) Char :=
  match q.1.state with
  | .pass => .wait (q.1, q.2.putText s) []
  | .deciding => deciding env.eof q.1 q.2 s
  | .list => listing env q.1 q.2 s

def rank (f : Llama3) : ℕ :=
  match f.state with
  | .deciding => 2
  | .list => 1
  | .pass => 0

/-- `run`: the rounds of a scanner -/
def scanner (env : Env) : Scanner (Llama3 × Out) Char Out where
  step := round env
  finish q _ := q.2
  size q s := 3 * s.length + q.1.rank
  shrinks := by
    intro q s q' r h
    obtain ⟨f, out⟩ := q
    have ht := (trimStart_suffix s).length_le
    unfold round at h
    split at h
    · cases h
    · next hst =>
      have hr : f.rank = 2 := by rw [rank, show f.state = .deciding from hst]
      dsimp only [deciding] at h
      split at h
      · split at h <;> cases h
      · split at h
        · next hp =>
          cases h
          have hp := (List.isPrefixOf_iff_prefix.mp hp).length_le
          have hr' : ∀ w, rank { f with raw := w } = 2 := fun _ => hr
          simp only [hr', hr, List.length_drop, show pyTag.length = 14 from rfl] at hp ⊢
          omega
        · split at h
          · cases h
          · split at h
            · cases h
              show 3 * (trimStart s).length + 1 < 3 * s.length + f.rank
              omega
            · cases h
              show 3 * s.length + 0 < 3 * s.length + f.rank
              omega
    · next hst =>
      have hr : f.rank = 1 := by rw [rank, show f.state = .list from hst]
      have hl := ((JList.body none).feed_suffix env f.list
        ⟨out, 0 < f.list.calls || f.list.started⟩ s).length_le
      dsimp only [listing] at h
      split at h
      · split at h <;> cases h
      · cases h
        show 3 * _ + 0 < 3 * s.length + f.rank
        omega
      · cases h
        show 3 * _ + 0 < 3 * s.length + f.rank
        omega

def run (env : Env) (f : Llama3) (out : Out) (s : List Char) : (Llama3 × Out) × List Char :=
  (scanner env).scan (f, out) s

def push (serde : Serde) (spec : ParseSpec Value) (f : Llama3) (s : List Char) (out : Out) :
    Llama3 × Out :=
  if f.state = .pass then (f, out.putText s)
  else
    let q := run ⟨serde, spec, false⟩ f out (f.buf ++ s)
    ({ q.1.1 with buf := q.2 }, q.1.2)

def finish (serde : Serde) (spec : ParseSpec Value) (f : Llama3) (out : Out) : Out :=
  (run ⟨serde, spec, true⟩ { f with buf := [] } out f.buf).1.2

def parser (serde : Serde) (spec : ParseSpec Value) : Parser Llama3 where
  init := new
  push := push serde spec
  finish := finish serde spec
  cut f := f

end Llama3

end Plow.Tools
