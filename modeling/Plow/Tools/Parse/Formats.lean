import Plow.Tools.Parse.Mistral
import Plow.Tools.Parse.Sections
import Plow.Tools.Parse.Xml

/-!
# Harmony, and the parser of each format

gpt-oss writes messages `<|channel|>CH [to=RECIPIENT] [<|constrain|>json]<|message|>BODY<|end|>`:
`analysis` is the reasoning trace, `final` (and `commentary` without recipient) is the answer, and a
message to `functions.NAME` is a call.
-/

namespace Plow.Tools
open Plow.Lib Plow.Lib.Text

inductive HarmonyBody
  | analysis
  | final
  | call (a : RawArgs)
  deriving DecidableEq

structure Harmony where
  buf : List Char
  head : List Char
  /-- `none` while reading a header -/
  body : Option HarmonyBody

def hEnd : List (List Char) :=
  ["<|end|>".toList, "<|call|>".toList, "<|return|>".toList, "<|start|>".toList]

def hMsg : List Char := "<|message|>".toList

def hBar : List Char := "<|".toList

def hFunctions : List Char := "functions.".toList

namespace Harmony

def new : Harmony := ⟨[], [], none⟩

def word (h w : List Char) : Option (List Char) :=
  (find w h).map fun i => (h.drop (i + w.length)).takeWhile fun c => !(isWhitespace c || c = '<')

def header (h : List Char) : HarmonyBody × Option (List Char) :=
  match word h "to=".toList, word h "<|channel|>".toList with
  | some r, ch =>
    if hFunctions.isPrefixOf r && hFunctions.length < r.length then
      (.call RawArgs.new, some (r.drop hFunctions.length))
    else (.final, none)
  | none, ch => if ch = some "analysis".toList then (.analysis, none) else (.final, none)

def bodyPiece (body : HarmonyBody) (p : List Char) (out : Out) : HarmonyBody × Out :=
  match body with
  | .analysis => (.analysis, out.putReasoning p)
  | .final => (.final, out.putText p)
  | .call a => (.call (a.piece p out).1, (a.piece p out).2)

def bodyEnd (body : HarmonyBody) (out : Out) : Out :=
  match body with
  | .call a => (a.finish out).2.done
  | _ => out

def bare (h : Harmony) (s : List Char) : Bool :=
  let t := trimStart s
  trim h.head = [] && t ≠ [] && !(hBar.isPrefixOf t) && !(t.isPrefixOf hBar)

def headRound (eof : Bool) (h : Harmony) (out : Out) (s : List Char) : Turn (Harmony × Out) Char :=
  if h.bare s then .go ({ h with head := [], body := some .final }, out.putText h.head) s
  else
    match scan [hMsg] s with
    | .found j _ =>
      let q := header (h.head ++ s.take j)
      .go ({ h with head := [], body := some q.1 },
        match q.2 with
        | some n => out.start n none
        | none => out) (s.drop (j + hMsg.length))
    | .need j =>
      let j := if eof then s.length else j
      let h := { h with head := h.head ++ s.take j }
      if !eof then .wait (h, out) (s.drop j) else .go (h, out) (s.drop j)

def bodyRound (eof : Bool) (h : Harmony) (body : HarmonyBody) (out : Out) (s : List Char) :
    Turn (Harmony × Out) Char :=
  match scan hEnd s with
  | .found j k =>
    let q := bodyPiece body (s.take j) out
    .go ({ h with body := none }, bodyEnd q.1 q.2) (s.drop (j + (hEnd.getD k []).length))
  | .need j =>
    let j := if eof then s.length else j
    let q := bodyPiece body (s.take j) out
    let h := { h with body := some q.1 }
    if !eof then .wait (h, q.2) (s.drop j) else .go (h, q.2) (s.drop j)

/-- one round of `run`; at the end of the text an unfinished header is text -/
def round (eof : Bool) (q : Harmony × Out) : List Char → Turn (Harmony × Out) Char
  | [] =>
    let (h, out) := q
    if eof then
      .wait ({ h with head := [] },
        if h.body.isNone && trim h.head ≠ [] then out.putText h.head else out) []
    else .wait (h, out) []
  | c :: s =>
    match q.1.body with
    | none => headRound eof q.1 q.2 (c :: s)
    | some body => bodyRound eof q.1 body q.2 (c :: s)

/-- `run`: the rounds of a scanner -/
def scanner (eof : Bool) : Scanner (Harmony × Out) Char Out where
  step := round eof
  finish q _ := q.2
  size q s := 2 * s.length + q.1.body.isNone.toNat
  shrinks := by
    intro q s q' r h
    obtain ⟨f, out⟩ := q
    cases s with
    | nil =>
      dsimp only [round] at h
      split at h <;> cases h
    | cons c s =>
      dsimp only [round] at h
      split at h
      · next hb =>
        have h1 : f.body.isNone.toNat = 1 := by rw [hb]; rfl
        dsimp only [headRound] at h
        split at h
        · cases h
          show 2 * (c :: s).length + 0 < 2 * (c :: s).length + f.body.isNone.toNat
          omega
        · split at h
          · next j k hj =>
            cases h
            have := scan_found_lt (by decide) hj
            show 2 * ((c :: s).drop (j + hMsg.length)).length + 0 < 2 * (c :: s).length + f.body.isNone.toNat
            rw [List.length_drop]
            omega
          · split at h
            · cases h
            · next he =>
              cases h
              show 2 * ((c :: s).drop _).length + f.body.isNone.toNat < 2 * (c :: s).length + f.body.isNone.toNat
              rw [if_pos (by simpa using he), List.drop_length, List.length_cons]
              simp only [List.length_nil]
              omega
      · next body hb =>
        have h0 : f.body.isNone.toNat = 0 := by rw [hb]; rfl
        dsimp only [bodyRound] at h
        split at h
        · next j k hj =>
          cases h
          have hlt := scan_found_lt (by decide) hj
          obtain ⟨m, hmem, hk, -⟩ := scan_found hj
          have hd : hEnd.getD k [] = m := by
            rw [List.getD_eq_getElem?_getD, hk, Option.getD_some]
          have hpos : 0 < m.length :=
            List.length_pos_of_ne_nil fun h0 => absurd (h0 ▸ hmem) (by decide)
          show 2 * ((c :: s).drop (j + _)).length + 1 < 2 * (c :: s).length + f.body.isNone.toNat
          rw [List.length_drop, hd]
          omega
        · split at h
          · cases h
          · next he =>
            cases h
            show 2 * ((c :: s).drop _).length + 0 < 2 * (c :: s).length + f.body.isNone.toNat
            rw [if_pos (by simpa using he), List.drop_length, List.length_cons]
            simp only [List.length_nil]
            omega

def run (eof : Bool) (h : Harmony) (out : Out) (s : List Char) : (Harmony × Out) × List Char :=
  (scanner eof).scan (h, out) s

def push (h : Harmony) (s : List Char) (out : Out) : Harmony × Out :=
  let q := run false h out (h.buf ++ s)
  ({ q.1.1 with buf := q.2 }, q.1.2)

def finish (h : Harmony) (out : Out) : Out := (run true { h with buf := [] } out h.buf).1.2

def parser : Parser Harmony where
  init := new
  push := push
  finish := finish
  cut h := h

end Harmony

/-! ### The formats -/

inductive ToolFormat
  | gemma4
  | hermes
  | qwen3Xml
  | glm45
  | llama3Json
  | mistral
  | kimiK2
  | harmony
  | deepSeekV3
  | deepSeekV31
  deriving DecidableEq

def gemmaOpener : Opener := ⟨"<|tool_call>".toList, by decide⟩

def toolCallOpener : Opener := ⟨"<tool_call>".toList, by decide⟩

def kimiOpener : Opener := ⟨"<|tool_calls_section_begin|>".toList, by decide⟩

def mistralOpener : Opener := ⟨toolCalls, by decide⟩

def deepSeekOpener : Opener := ⟨"<｜tool▁calls▁begin｜>".toList, by decide⟩

/-- the parser of a format, with the type of its states -/
def ToolFormat.parser (format : ToolFormat) (serde : Serde) (spec : ParseSpec Value) :
    (σ : Type) × Parser σ :=
  match format with
  | .gemma4 => ⟨_, Framed.parser serde spec gemmaOpener Gemma.body⟩
  | .hermes => ⟨_, Framed.parser serde spec toolCallOpener (JList.body (some toolCallEnd))⟩
  | .qwen3Xml => ⟨_, Framed.parser serde spec toolCallOpener QwenXml.body⟩
  | .glm45 => ⟨_, Framed.parser serde spec toolCallOpener Glm.body⟩
  | .kimiK2 => ⟨_, Framed.parser serde spec kimiOpener Kimi.body⟩
  | .mistral => ⟨_, Framed.parser serde spec mistralOpener Mistral.body⟩
  | .deepSeekV3 | .deepSeekV31 => ⟨_, Framed.parser serde spec deepSeekOpener DeepSeek.body⟩
  | .llama3Json => ⟨_, Llama3.parser serde spec⟩
  | .harmony => ⟨_, Harmony.parser⟩

def Parser.events {σ : Type} (p : Parser σ) (cut : Bool) (pieces : List (List Char)) : Out :=
  let q := pieces.foldl (fun q s => p.push q.1 s q.2) (p.init, Out.empty)
  p.finish (if cut then p.cut q.1 else q.1) q.2

end Plow.Tools
