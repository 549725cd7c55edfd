import Plow.Tools.Parse.Body

/-!
# JSON call lists

Call objects `{"name": .., "arguments"|"parameters": {..}}`, optionally in `[..]`, separated by white
space, `,` or `;`, and closed by an end marker when the format has one.
-/

namespace Plow.Tools
open Plow.Lib Plow.Lib.Text List

inductive J
  /-- between call objects -/
  | between
  /-- inside an object: a key or `}` -/
  | key
  | keyStr
  | colon
  | value
  | nameStr
  /-- the arguments value, streamed, or kept before the name -/
  | args
  /-- a string-encoded arguments value, kept whole and decoded -/
  | argsStr
  | skip
  | after
  deriving DecidableEq

structure JList where
  st : J
  inArray : Bool
  key : List Char
  esc : Bool
  name : Option (List Char)
  keyIsArgs : Bool
  /-- arguments kept until the name is known, or a string-encoded value -/
  kept : List Char
  haveArgs : Bool
  started : Bool
  scan : JsonScan
  calls : ℕ

namespace JList

def new : JList := ⟨.between, false, [], false, none, false, [], false, false, JsonScan.new, 0⟩

def openObject (l : JList) : JList :=
  { l with st := .key, name := none, haveArgs := false, started := false, kept := [] }

/-- what the kept arguments come out as: of a string, its own text -/
def keptArgs (serde : Serde) (kept : List Char) : List Char :=
  if ['"'].isPrefixOf kept then
    match serde.string kept with
    | some inner => if trim inner = [] then "{}".toList else trim inner
    | none => kept
  else kept

def emitKeptArgs (serde : Serde) (l : JList) (cx : Cx) : JList × Cx :=
  ({ l with kept := [] }, cx.arg (keptArgs serde l.kept))

def closeObject (serde : Serde) (l : JList) (cx : Cx) : JList × Cx × St :=
  match l.name with
  | none => (l, cx, .fail)
  | some name =>
    let l := { l with name := none }
    let q : JList × Cx :=
      if !l.started then
        let q : JList × Cx := ({ l with started := true }, cx.start name none)
        if l.haveArgs && !l.kept.isEmpty then emitKeptArgs serde q.1 q.2
        else if !l.haveArgs then (q.1, q.2.arg "{}".toList)
        else q
      else if !l.haveArgs then (l, cx.arg "{}".toList)
      else (l, cx)
    ({ q.1 with calls := q.1.calls + 1, st := .between }, q.2.finish, .going)

def junk (l : JList) : St := if l.calls = 0 && !l.started then .fail else .done

/-! ### The turns -/

def objectTurn (l : JList) (cx : Cx) (c : Char) (rest : List Char) : Move JList :=
  if c = '{' then go l.openObject cx rest
  else if c = '[' && !l.inArray then go { l with inArray := true } cx rest
  else if c = ']' && l.inArray then go { l with inArray := false } cx rest
  else ret l cx (c :: rest) l.junk

def betweenTurn (close : Option (List Char)) (eof : Bool) (l : JList) (cx : Cx) (c : Char)
    (rest : List Char) : Move JList :=
  if isAsciiWhitespace c || c = ',' || c = ';' then go l cx rest
  else
    match close with
    | none => l.objectTurn cx c rest
    | some e =>
      match starts (c :: rest) e eof with
      | some true => ret l cx ((c :: rest).drop e.length) .done
      | none => ret l cx (c :: rest) .going
      | some false => l.objectTurn cx c rest

/-- `}` of a call object -/
def closeTurn (serde : Serde) (l : JList) (cx : Cx) (c : Char) (rest : List Char) : Move JList :=
  match l.closeObject serde cx with
  | (l, cx, .fail) => ret l cx (c :: rest) l.junk
  | (l, cx, _) => go l cx rest

def keyTurn (serde : Serde) (l : JList) (cx : Cx) (c : Char) (rest : List Char) : Move JList :=
  if isAsciiWhitespace c || c = ',' then go l cx rest
  else if c = '"' then go { l with key := [], esc := false, st := .keyStr } cx rest
  else if c = '}' then l.closeTurn serde cx c rest
  else ret l cx (c :: rest) l.junk

def keyStrTurn (l : JList) (cx : Cx) (x : List Char) : Move JList :=
  let (taken, rest, esc) := quoteScan l.esc x
  let l := { l with esc := esc, key := l.key ++ taken }
  match rest with
  | [] => ret l cx [] .going
  | _ :: rest => go { l with st := .colon } cx rest

def nameStrTurn (l : JList) (cx : Cx) (x : List Char) : Move JList :=
  let (taken, rest, esc) := quoteScan l.esc x
  let name := l.name.getD [] ++ taken
  let l := { l with esc := esc, name := some name }
  match rest with
  | [] => ret l cx [] .going
  | _ :: rest =>
    if trim name = [] || (trim name).elem '\\' then ret l cx rest l.junk
    else go { l with name := some (trim name), st := .after } cx rest

def colonTurn (l : JList) (cx : Cx) (c : Char) (rest : List Char) : Move JList :=
  if isAsciiWhitespace c then go l cx rest
  else if c = ':' then go { l with st := .value } cx rest
  else ret l cx (c :: rest) l.junk

/-- an arguments value opens; a call whose name is known starts with it -/
def argsValue (l : JList) (cx : Cx) (c : Char) : JList × Cx :=
  let l := { l with haveArgs := true, scan := JsonScan.new, keyIsArgs := true }
  if c = '{' || c = '[' then
    match l.name, l.started with
    | some n, false => ({ l with started := true, st := .args }, cx.start n none)
    | _, _ => ({ l with st := .args }, cx)
  else if c = '"' then ({ l with st := .argsStr }, cx)
  else ({ l with kept := "{}".toList, st := .skip }, cx)

def valueTurn (l : JList) (cx : Cx) (c : Char) (rest : List Char) : Move JList :=
  if isAsciiWhitespace c then go l cx rest
  else if l.key = "name".toList && c = '"' && l.name.isNone then
    go { l with name := some [], esc := false, st := .nameStr } cx rest
  else if (l.key = "arguments".toList || l.key = "parameters".toList) && !l.haveArgs then
    go (l.argsValue cx c).1 (l.argsValue cx c).2 (c :: rest)
  else go { l with scan := JsonScan.new, keyIsArgs := false, st := .skip } cx (c :: rest)

/-- the scanned value is over -/
def valueDone (serde : Serde) (l : JList) (cx : Cx) : JList × Cx :=
  match l.st, l.name, l.started with
  | .argsStr, some n, false => emitKeptArgs serde { l with started := true } (cx.start n none)
  | .skip, _, true =>
    if l.keyIsArgs then ({ l with kept := [] }, cx.arg "{}".toList) else (l, cx)
  | _, _, _ => (l, cx)

/-- a piece of the scanned value -/
def valuePiece (l : JList) (piece : List Char) (cx : Cx) : JList × Cx :=
  match l.st with
  | .args => if l.started then (l, cx.arg piece) else ({ l with kept := l.kept ++ piece }, cx)
  | .argsStr => ({ l with kept := l.kept ++ piece }, cx)
  | _ => (l, cx)

def scanTurn (serde : Serde) (l : JList) (cx : Cx) (x : List Char) : Move JList :=
  let (scan, rest, done) := l.scan.feed x
  let q := { l with scan := scan }.valuePiece (x.take (x.length - rest.length)) cx
  if done then
    let q := q.1.valueDone serde q.2
    go { q.1 with st := .after } q.2 rest
  else ret q.1 q.2 rest .going

def afterTurn (serde : Serde) (l : JList) (cx : Cx) (c : Char) (rest : List Char) : Move JList :=
  if isAsciiWhitespace c then go l cx rest
  else if c = ',' then go { l with st := .key } cx rest
  else if c = '}' then l.closeTurn serde cx c rest
  else ret l cx (c :: rest) l.junk

def turn (close : Option (List Char)) (env : Env) (l : JList) (cx : Cx) : List Char → Move JList
  | [] => ret l cx [] .going
  | c :: rest =>
    match l.st with
    | .between => l.betweenTurn close env.eof cx c rest
    | .key => l.keyTurn env.serde cx c rest
    | .keyStr => l.keyStrTurn cx (c :: rest)
    | .nameStr => l.nameStrTurn cx (c :: rest)
    | .colon => l.colonTurn cx c rest
    | .value => l.valueTurn cx c rest
    | .args | .argsStr | .skip => l.scanTurn env.serde cx (c :: rest)
    | .after => l.afterTurn env.serde cx c rest

def rank (l : JList) : ℕ :=
  match l.st with
  | .value => 2
  | .args | .argsStr | .skip => 1
  | _ => 0

/-! ### Every turn gets on -/

variable {serde : Serde} {l : JList} {cx : Cx} {c : Char} {x rest : List Char}

theorem shrinks_objectTurn : Shrinks rank l (c :: rest) (l.objectTurn cx c rest) := by
  unfold objectTurn
  exact shrinks_ite (fun _ => shrinks_tail) fun _ =>
    shrinks_ite (fun _ => shrinks_tail) fun _ =>
      shrinks_ite (fun _ => shrinks_tail) fun _ => shrinks_ret (suffix_refl _)

theorem shrinks_betweenTurn {close : Option (List Char)} {eof : Bool} :
    Shrinks rank l (c :: rest) (l.betweenTurn close eof cx c rest) := by
  unfold betweenTurn
  refine shrinks_ite (fun _ => shrinks_tail) fun _ => ?_
  split
  · exact shrinks_objectTurn
  · split
    · exact shrinks_ret (drop_suffix _ _)
    · exact shrinks_ret (suffix_refl _)
    · exact shrinks_objectTurn

theorem shrinks_closeTurn : Shrinks rank l (c :: rest) (l.closeTurn serde cx c rest) := by
  unfold closeTurn
  split
  · exact shrinks_ret (suffix_refl _)
  · exact shrinks_tail

theorem shrinks_keyTurn : Shrinks rank l (c :: rest) (l.keyTurn serde cx c rest) := by
  unfold keyTurn
  exact shrinks_ite (fun _ => shrinks_tail) fun _ =>
    shrinks_ite (fun _ => shrinks_tail) fun _ =>
      shrinks_ite (fun _ => shrinks_closeTurn) fun _ => shrinks_ret (suffix_refl _)

theorem quoteScan_tail {esc : Bool} (h : (quoteScan esc x).2.1 = c :: rest) :
    rest <:+ x ∧ rest.length < x.length := by
  have hx := quoteScan_append esc x
  rw [h] at hx
  refine ⟨⟨(quoteScan esc x).1 ++ [c], by rw [append_assoc]; exact hx⟩, ?_⟩
  rw [← hx, length_append, length_cons]
  omega

theorem shrinks_keyStrTurn : Shrinks rank l x (l.keyStrTurn cx x) := by
  dsimp only [keyStrTurn]
  split
  · exact shrinks_ret (nil_suffix)
  · next h => exact shrinks_go (quoteScan_tail h).1 (quoteScan_tail h).2

theorem shrinks_nameStrTurn : Shrinks rank l x (l.nameStrTurn cx x) := by
  dsimp only [nameStrTurn]
  split
  · exact shrinks_ret (nil_suffix)
  · next h =>
    exact shrinks_ite (fun _ => shrinks_ret (quoteScan_tail h).1) fun _ =>
      shrinks_go (quoteScan_tail h).1 (quoteScan_tail h).2

theorem shrinks_colonTurn : Shrinks rank l (c :: rest) (l.colonTurn cx c rest) := by
  unfold colonTurn
  exact shrinks_ite (fun _ => shrinks_tail) fun _ =>
    shrinks_ite (fun _ => shrinks_tail) fun _ => shrinks_ret (suffix_refl _)

theorem rank_argsValue : (l.argsValue cx c).1.rank = 1 := by
  dsimp only [argsValue]
  by_cases ho : c = '{' || c = '['
  · rw [if_pos ho]
    split <;> rfl
  · rw [if_neg ho]
    split <;> rfl

theorem shrinks_valueTurn (h : l.st = .value) :
    Shrinks rank l (c :: rest) (l.valueTurn cx c rest) := by
  have hl : l.rank = 2 := by rw [rank, h]
  unfold valueTurn
  refine shrinks_ite (fun _ => shrinks_tail) fun _ =>
    shrinks_ite (fun _ => shrinks_tail) fun _ => shrinks_ite (fun _ => ?_) fun _ => ?_
  · apply shrinks_rank (suffix_refl _)
    rw [rank_argsValue, hl]
    exact Nat.one_lt_two
  · apply shrinks_rank (suffix_refl _)
    rw [hl]
    exact Nat.one_lt_two

theorem shrinks_scanTurn (h : l.rank = 1) : Shrinks rank l x (l.scanTurn serde cx x) := by
  dsimp only [scanTurn]
  refine shrinks_ite (fun _ => ?_) fun _ => shrinks_ret (JsonScan.feed_suffix _ _)
  apply shrinks_rank (JsonScan.feed_suffix _ _)
  rw [h]
  exact Nat.one_pos

theorem shrinks_afterTurn : Shrinks rank l (c :: rest) (l.afterTurn serde cx c rest) := by
  unfold afterTurn
  exact shrinks_ite (fun _ => shrinks_tail) fun _ =>
    shrinks_ite (fun _ => shrinks_tail) fun _ =>
      shrinks_ite (fun _ => shrinks_closeTurn) fun _ => shrinks_ret (suffix_refl _)

theorem rank_le (l : JList) : rank l ≤ 4 := by unfold rank; split <;> omega

/-- the lists of one format, with its end marker -/
def body (close : Option (List Char)) : Body JList where
  fresh := new
  turn := turn close
  rank := rank
  rank_le := rank_le
  shrinks := by
    intro env l cx x
    cases x with
    | nil => exact shrinks_ret (List.suffix_refl _)
    | cons c rest =>
      dsimp only [turn]
      split
      · exact shrinks_betweenTurn
      · exact shrinks_keyTurn
      · exact shrinks_keyStrTurn
      · exact shrinks_nameStrTurn
      · exact shrinks_colonTurn
      · next h => exact shrinks_valueTurn h
      · next h => exact shrinks_scanTurn (by rw [rank, h])
      · next h => exact shrinks_scanTurn (by rw [rank, h])
      · next h => exact shrinks_scanTurn (by rw [rank, h])
      · exact shrinks_afterTurn

end JList

end Plow.Tools
