import Plow.Tools.Events
import Plow.Tools.Parse.Scan

/-!
# The body of a call region

Each format's calls stand in a region behind a start marker. A `Body` reads that region: one `turn`
looks at the text that is there and either goes on, with the text it leaves, or returns a verdict
with the text it has not consumed. `feed` is the loop of turns.

A body reports its calls into a `Cx`. It may look at the request's `ParseSpec` and at whether the
text is at its end; the JSON reader is a parameter.
-/

namespace Plow.Tools
open Plow.Lib Plow.Lib.Text List

/-! ### JSON values -/

inductive Value
  | null
  | bool (b : Bool)
  /-- a number, as it is printed -/
  | number (text : List Char)
  | string (s : List Char)
  | array (items : List Value)
  | object (members : List (List Char × Value))

def quoted (s : List Char) : List Char := '"' :: escape s ++ ['"']

namespace Value

mutual

/-- the compact text of a value -/
def render : Value → List Char
  | .null => "null".toList
  | .bool true => "true".toList
  | .bool false => "false".toList
  | .number t => t
  | .string s => quoted s
  | .array [] => ['[', ']']
  | .array (v :: vs) => '[' :: v.render ++ renderItems vs ++ [']']
  | .object [] => ['{', '}']
  | .object (m :: ms) => '{' :: renderMember m ++ renderMembers ms ++ ['}']

def renderItems : List Value → List Char
  | [] => []
  | v :: vs => ',' :: v.render ++ renderItems vs

def renderMembers : List (List Char × Value) → List Char
  | [] => []
  | m :: ms => ',' :: renderMember m ++ renderMembers ms

def renderMember : List Char × Value → List Char
  | (k, v) => quoted k ++ ':' :: v.render

end

def get (key : List Char) : Value → Option Value
  | .object members => (members.find? (·.1 = key)).map Prod.snd
  | _ => none

def isNumber : Value → Bool
  | .number _ => true
  | _ => false

def asStr : Value → Option (List Char)
  | .string s => some s
  | _ => none

end Value

/-- `serde_json::from_str`, for the types it is asked for -/
structure Serde where
  value : List Char → Option Value
  string : List Char → Option (List Char)
  /-- whether the text is a number that can be represented -/
  number : List Char → Bool

/-- the JSON-schema `type` of the parameter of a tool, when declared -/
def ParseSpec.paramType (spec : ParseSpec Value) (tool param : List Char) : Option (List Char) :=
  (spec.tool tool).bind fun t =>
    (t.params.get "properties".toList).bind fun p =>
      (p.get param).bind fun q =>
        (q.get "type".toList).bind fun ty =>
          match ty with
          | .string s => some s
          | .array a => (a.filterMap Value.asStr).find? (· ≠ "null".toList)
          | _ => none

/-! ### Bodies -/

/-- whether a call body made progress, finished, or turned out not to be a call -/
inductive St
  | going
  | done
  /-- the head did not parse; what was not consumed is text -/
  | fail
  deriving DecidableEq

structure Cx where
  out : Out
  /-- set by the body when it starts a call -/
  started : Bool
  deriving DecidableEq

namespace Cx

def start (cx : Cx) (name : List Char) (id : Option (List Char)) : Cx := ⟨cx.out.start name id, true⟩

def arg (cx : Cx) (s : List Char) : Cx := { cx with out := cx.out.arg s }

def argEscaped (cx : Cx) (s : List Char) : Cx := cx.arg (escape s)

def finish (cx : Cx) : Cx := { cx with out := cx.out.done }

end Cx

/-- what a body may look at besides the text -/
structure Env where
  serde : Serde
  spec : ParseSpec Value
  eof : Bool

/-- where a body stands -/
structure At (σ : Type) where
  st : σ
  cx : Cx
  verdict : St

abbrev Move (σ : Type) := Turn (At σ) Char

section
variable {σ : Type}

def go (st : σ) (cx : Cx) (rest : List Char) : Move σ := .go ⟨st, cx, .going⟩ rest

def ret (st : σ) (cx : Cx) (rest : List Char) (v : St) : Move σ := .wait ⟨st, cx, v⟩ rest

def Shrinks (rank : σ → ℕ) (st : σ) (x : List Char) : Move σ → Prop
  | .go a r => r <:+ x ∧ (r.length < x.length ∨ rank a.st < rank st)
  | .wait _ r => r <:+ x

variable {rank : σ → ℕ} {st st' : σ} {cx : Cx} {c : Char} {x r : List Char} {v : St}

theorem shrinks_ret (h : r <:+ x) : Shrinks rank st x (ret st' cx r v) := h

theorem shrinks_go (h : r <:+ x) (hl : r.length < x.length) : Shrinks rank st x (go st' cx r) :=
  ⟨h, Or.inl hl⟩

theorem shrinks_rank (h : r <:+ x) (hr : rank st' < rank st) : Shrinks rank st x (go st' cx r) :=
  ⟨h, Or.inr hr⟩

theorem shrinks_tail : Shrinks rank st (c :: r) (go st' cx r) :=
  shrinks_go (suffix_cons c r) (Nat.lt_succ_self _)

theorem shrinks_found {markers : List (List Char)} {j k n : ℕ} (hm : [] ∉ markers) (hn : 0 < n)
    (h : scan markers x = .found j k) : Shrinks rank st x (go st' cx (x.drop (j + n))) := by
  have hlt := scan_found_lt hm h
  refine shrinks_go (drop_suffix _ _) ?_
  rw [length_drop]
  omega

theorem trimStart_suffix (x : List Char) : trimStart x <:+ x := dropWhile_suffix _

theorem shrinks_starts {m : List Char} {eof : Bool} (hm : m ≠ [])
    (h : starts (trimStart x) m eof = some true) :
    Shrinks rank st x (go st' cx ((trimStart x).drop m.length)) := by
  have hl := (starts_true h).length_le
  have hx := (trimStart_suffix x).length_le
  have hpos := length_pos_of_ne_nil hm
  refine shrinks_go ((drop_suffix _ _).trans (trimStart_suffix x)) ?_
  rw [length_drop]
  omega

theorem shrinks_ite {p : Prop} [Decidable p] {a b : Move σ} (ha : p → Shrinks rank st x a)
    (hb : ¬ p → Shrinks rank st x b) : Shrinks rank st x (if p then a else b) := by
  split
  · next h => exact ha h
  · next h => exact hb h

structure Body (σ : Type) where
  fresh : σ
  turn : Env → σ → Cx → List Char → Move σ
  rank : σ → ℕ
  rank_le : ∀ st, rank st ≤ 4
  shrinks : ∀ env st cx x, Shrinks rank st x (turn env st cx x)

namespace Body

variable (B : Body σ)

/-- the turns of a body as a scanner -/
def scanner (env : Env) : Scanner (At σ) Char St where
  step a x := B.turn env a.st a.cx x
  finish a _ := a.verdict
  size a x := 5 * x.length + B.rank a.st
  shrinks := by
    intro a x a' r h
    have hs := B.shrinks env a.st a.cx x
    rw [h] at hs
    have hr := B.rank_le a'.st
    have hl := hs.1.length_le
    obtain hs | hs := hs.2 <;> omega

/-- `Body::feed`: where the body stands then, and what it has not consumed -/
def feed (env : Env) (st : σ) (cx : Cx) (s : List Char) : At σ × List Char :=
  (B.scanner env).scan ⟨st, cx, .going⟩ s

end Body

end

end Plow.Tools
