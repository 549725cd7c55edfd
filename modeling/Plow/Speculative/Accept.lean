import Mathlib

/-!
# Acceptance of one verify span

A verify span carries the slot's pending token and `k` drafts.  Row `j` of the verify launch gives
the target's own token after the first `j` drafts; a draft survives while it is that token.

* `acceptGreedy`, `acceptSampled`   the two acceptance functions, with their verdict record;
* `through`                         the emission is cut after its first stop token;
* `acceptGreedy_eq`                 the verdict of a span, field by field;
* `RowsOk`                          the rows as far as the acceptance looks at them: both functions
                                    hand `acceptGreedy` such rows;
* `Target.emit`                     the emission in terms of the target alone.
-/

namespace Plow.Speculative

open List

/-- a token id (`u32`) -/
abbrev Token := UInt32

def specKmax : Nat := 15

/-- `SpecVerdict::flags`: emission stopped at a stop token -/
def verdictStop : UInt32 := 1

/-- One verify span's outcome.  The counts are `u16` in the record; they are at most `specKmax + 1`. -/
structure SpecVerdict where
  reqGen : UInt32
  nAcc : Nat
  nEmit : Nat
  hrow : UInt32
  flags : UInt32
  tokens : List Token
  deriving DecidableEq, Repr

/-- `..Default::default()`: every field zero, and `specKmax + 1` zero tokens -/
def SpecVerdict.init (reqGen : UInt32) : SpecVerdict :=
  ⟨reqGen, 0, 0, 0, 0, List.replicate (specKmax + 1) 0⟩

/-- the tokens a verdict commits, `v.tokens[..v.n_emit]` -/
def SpecVerdict.emitted (v : SpecVerdict) : List Token := v.tokens.take v.nEmit

/-! ### The code -/

def acceptedPrefix (draft verified : List Token) : Nat :=
  ((draft.zip verified).takeWhile fun p => p.1 == p.2).length

/-- the emission loop: every token is written down, and a stop token ends it -/
def emitLoop (stop : List Token) : SpecVerdict → Nat → List Token → SpecVerdict
  | v, _, [] => v
  | v, j, t :: ts =>
    let v := { v with tokens := v.tokens.set j t, nEmit := j + 1 }
    if t ∈ stop then { v with flags := v.flags ||| verdictStop } else emitLoop stop v (j + 1) ts

/-- `none` is a panic: no input, too many drafts, or a row missing -/
def acceptGreedy (inputs argmax : List Token) (row0 reqGen : UInt32) (stop : List Token) :
    Option SpecVerdict :=
  match inputs with
  | [] => none
  | _ :: drafts =>
    if drafts.length ≤ specKmax ∧ argmax.length = inputs.length then
      let n := acceptedPrefix drafts argmax
      match argmax[n]? with
      | none => none
      | some bonus =>
        let v := emitLoop stop (.init reqGen) 0 (drafts.take n ++ [bonus])
        some { v with nAcc := min v.nEmit n, hrow := row0 + .ofNat v.nEmit - 1 }
    else none

/-- a span fails when a row cannot be sampled, or panics -/
inductive Fault (ε : Type)
  | failed (e : ε)
  | panic
  deriving DecidableEq, Repr

/-- The rows that are sampled from row `j` on: none is after the first mismatch or stop, and there
the array keeps the zeros it starts with. -/
def sampleRows {ε : Type} (sample : Nat → Except ε Token) (stop : List Token) :
    List Token → Nat → Except ε (List Token)
  | [], j => do
    let t ← sample j
    pure [t]
  | d :: ds, j => do
    let t ← sample j
    if t ≠ d ∨ t ∈ stop then pure (t :: List.replicate (ds.length + 1) 0)
    else do
      let rest ← sampleRows sample stop ds (j + 1)
      pure (t :: rest)

def acceptSampled {ε : Type} (inputs : List Token) (sample : Nat → Except ε Token)
    (row0 reqGen : UInt32) (stop : List Token) : Except (Fault ε) SpecVerdict :=
  match inputs with
  | [] => .error .panic
  | _ :: drafts =>
    if drafts.length ≤ specKmax then
      match sampleRows sample stop drafts 0 with
      | .error e => .error (.failed e)
      | .ok rows =>
        match acceptGreedy inputs rows row0 reqGen stop with
        | none => .error .panic
        | some v => .ok v
    else .error .panic

/-! ### The emission is cut after its first stop -/

/-- the list through its first element in `stop` -/
def through (stop : List Token) : List Token → List Token
  | [] => []
  | t :: ts => if t ∈ stop then [t] else t :: through stop ts

theorem through_singleton (stop : List Token) (t : Token) : through stop [t] = [t] := by
  unfold through through
  split <;> rfl

/-- the loop writes the cut emission over the tokens from `j` on -/
theorem emitLoop_eq (stop : List Token) (v : SpecVerdict) (j : Nat) (ts : List Token)
    (hj : j + ts.length ≤ v.tokens.length) (he : v.nEmit = j) :
    (emitLoop stop v j ts).nEmit = j + (through stop ts).length ∧
      (emitLoop stop v j ts).tokens.take (j + (through stop ts).length) =
        v.tokens.take j ++ through stop ts ∧
      (emitLoop stop v j ts).reqGen = v.reqGen ∧
      (emitLoop stop v j ts).flags =
        if ∃ t ∈ through stop ts, t ∈ stop then v.flags ||| verdictStop else v.flags := by
  induction ts generalizing v j with
  | nil => simp [emitLoop, through, he]
  | cons t ts ih =>
    rw [length_cons] at hj
    have hset : (v.tokens.set j t).take (j + 1) = v.tokens.take j ++ [t] := by
      rw [take_set, set_eq_take_append_cons_drop, length_take, if_pos (by omega),
        take_take, Nat.min_eq_left (Nat.le_succ j)]
      simp
    unfold emitLoop through
    by_cases hs : t ∈ stop
    · simp only [hs, if_true]
      refine ⟨rfl, hset, trivial, ?_⟩
      rw [if_pos ⟨t, mem_singleton_self t, hs⟩]
    · simp only [hs, if_false]
      obtain ⟨h1, h2, h3, h4⟩ := ih (v := { v with tokens := v.tokens.set j t, nEmit := j + 1 })
        (j := j + 1) (by simp only [length_set]; omega) rfl
      have e : j + (t :: through stop ts).length = j + 1 + (through stop ts).length := by
        rw [length_cons]
        omega
      refine ⟨by rw [h1, e], ?_, h3, ?_⟩
      · rw [e, h2, hset]
        simp
      · rw [h4]
        simp [hs]

def accepted (drafts rows : List Token) : List Token :=
  drafts.take (acceptedPrefix drafts rows) ++ rows[acceptedPrefix drafts rows]?.toList

theorem acceptedPrefix_le (drafts rows : List Token) : acceptedPrefix drafts rows ≤ drafts.length := by
  refine Nat.le_trans (takeWhile_sublist _).length_le ?_
  rw [length_zip]
  exact Nat.min_le_left _ _

/-- The verdict of a span that has all its rows. -/
theorem acceptGreedy_eq (p : Token) {drafts rows : List Token} (row0 reqGen : UInt32)
    (stop : List Token) (hk : drafts.length ≤ specKmax) (hr : rows.length = drafts.length + 1) :
    ∃ v, acceptGreedy (p :: drafts) rows row0 reqGen stop = some v ∧
      v.emitted = through stop (accepted drafts rows) ∧
      v.nEmit = (through stop (accepted drafts rows)).length ∧
      v.nAcc = min v.nEmit (acceptedPrefix drafts rows) ∧
      v.hrow = row0 + .ofNat v.nEmit - 1 ∧ v.reqGen = reqGen ∧
      v.flags = if ∃ t ∈ v.emitted, t ∈ stop then verdictStop else 0 := by
  have hn := acceptedPrefix_le drafts rows
  have hlt : acceptedPrefix drafts rows < rows.length := by omega
  have hget : rows[acceptedPrefix drafts rows]? = some rows[acceptedPrefix drafts rows] :=
    getElem?_eq_getElem hlt
  have hacc : drafts.take (acceptedPrefix drafts rows) ++ [rows[acceptedPrefix drafts rows]] =
      accepted drafts rows := by
    unfold accepted
    rw [hget]
    rfl
  have hlen : (accepted drafts rows).length ≤ specKmax + 1 := by
    rw [← hacc, length_append, length_take, length_singleton]
    omega
  obtain ⟨h1, h2, h3, h4⟩ := emitLoop_eq stop (.init reqGen) 0
    (accepted drafts rows) (by simpa [SpecVerdict.init] using hlen) rfl
  rw [Nat.zero_add] at h1 h2
  have hem : (emitLoop stop (.init reqGen) 0 (accepted drafts rows)).emitted =
      through stop (accepted drafts rows) := by
    unfold SpecVerdict.emitted
    rw [h1, h2]
    rfl
  refine ⟨{ emitLoop stop (.init reqGen) 0 (accepted drafts rows) with
      nAcc := min (emitLoop stop (.init reqGen) 0 (accepted drafts rows)).nEmit
        (acceptedPrefix drafts rows)
      hrow := row0 + .ofNat (emitLoop stop (.init reqGen) 0 (accepted drafts rows)).nEmit - 1 },
    ?_, hem, h1, rfl, rfl, h3, ?_⟩
  · simp only [acceptGreedy, hk, hr, length_cons, and_self, if_true, hget, hacc]
  · show (emitLoop stop (.init reqGen) 0 (accepted drafts rows)).flags = _
    rw [h4]
    show _ = if ∃ t ∈ (emitLoop stop (.init reqGen) 0 (accepted drafts rows)).emitted, t ∈ stop
      then verdictStop else 0
    rw [hem, show (SpecVerdict.init reqGen).flags = 0 from rfl, UInt32.zero_or]

/-! ### The emission in terms of the target -/

abbrev Target := List Token → Token

/-- the verify rows of a span: row `j` is the target after the first `j` drafts -/
def Target.rows (f : Target) : List Token → List Token → List Token
  | out, [] => [f out]
  | out, d :: ds => f out :: f.rows (out ++ [d]) ds

def Target.emit (f : Target) (stop : List Token) : List Token → List Token → List Token
  | out, [] => [f out]
  | out, d :: ds => if f out = d ∧ f out ∉ stop then f out :: f.emit stop (out ++ [d]) ds else [f out]

/-- the rows are the target's as far as the first mismatch or stop -/
def RowsOk (f : Target) (stop : List Token) : List Token → List Token → List Token → Prop
  | out, [], rows => rows = [f out]
  | out, d :: ds, rows => ∃ rest, rows = f out :: rest ∧ rest.length = ds.length + 1 ∧
      (f out = d → f out ∉ stop → RowsOk f stop (out ++ [d]) ds rest)

variable {f : Target} {stop out ds rows : List Token}

theorem Target.rows_length (f : Target) (out ds : List Token) :
    (f.rows out ds).length = ds.length + 1 := by
  induction ds generalizing out with
  | nil => rfl
  | cons d ds ih => simp [Target.rows, ih]

theorem rowsOk_rows (f : Target) (stop out ds : List Token) : RowsOk f stop out ds (f.rows out ds) := by
  induction ds generalizing out with
  | nil => rfl
  | cons d ds ih => exact ⟨_, rfl, f.rows_length _ _, fun _ _ => ih (out ++ [d])⟩

theorem RowsOk.length (h : RowsOk f stop out ds rows) : rows.length = ds.length + 1 := by
  cases ds with
  | nil =>
    rw [show rows = [f out] from h]
    rfl
  | cons d ds =>
    obtain ⟨rest, rfl, hl, -⟩ := h
    simp [hl]

/-- the sampled rows, of a sampler that draws the target's token for every row -/
theorem rowsOk_sampleRows {ε : Type} (f : Target) (stop out ds : List Token)
    (sample : Nat → Except ε Token) (j : Nat)
    (h : ∀ i ≤ ds.length, sample (j + i) = .ok (f (out ++ ds.take i))) :
    ∃ rows, sampleRows sample stop ds j = .ok rows ∧ RowsOk f stop out ds rows := by
  have h0 : sample j = .ok (f out) := by simpa using h 0 (Nat.zero_le _)
  induction ds generalizing out j with
  | nil =>
    refine ⟨[f out], ?_, rfl⟩
    unfold sampleRows
    rw [h0]
    rfl
  | cons d ds ih =>
    by_cases hc : f out ≠ d ∨ f out ∈ stop
    · refine ⟨f out :: List.replicate (ds.length + 1) 0, ?_, _, rfl, by simp, ?_⟩
      · unfold sampleRows
        rw [h0]
        exact if_pos hc
      · intro hd hs
        rcases hc with hne | hin
        · exact absurd hd hne
        · exact absurd hin hs
    · have h' : ∀ i ≤ ds.length, sample (j + 1 + i) = .ok (f ((out ++ [d]) ++ ds.take i)) := by
        intro i hi
        have h1 := h (i + 1) (Nat.succ_le_succ hi)
        rw [Nat.add_assoc, Nat.add_comm 1 i, h1]
        simp
      obtain ⟨rest, hrest, hok⟩ := ih _ _ h' (by simpa using h' 0 (Nat.zero_le _))
      refine ⟨f out :: rest, ?_, rest, rfl, hok.length, fun _ _ => hok⟩
      unfold sampleRows
      rw [h0]
      show (if f out ≠ d ∨ f out ∈ stop then _ else _) = _
      rw [if_neg hc, hrest]
      rfl

@[simp] theorem acceptedPrefix_cons (d r : Token) (ds rows : List Token) :
    acceptedPrefix (d :: ds) (r :: rows) = if d = r then acceptedPrefix ds rows + 1 else 0 := by
  unfold acceptedPrefix
  by_cases h : d = r <;> simp [h]

theorem through_accepted (h : RowsOk f stop out ds rows) :
    through stop (accepted ds rows) = f.emit stop out ds := by
  induction ds generalizing out rows with
  | nil =>
    rw [show rows = [f out] from h]
    exact through_singleton stop (f out)
  | cons d ds ih =>
    obtain ⟨rest, rfl, -, hok⟩ := h
    unfold accepted Target.emit
    rw [acceptedPrefix_cons]
    by_cases hd : d = f out
    · subst hd
      simp only [if_true, take_succ_cons, getElem?_cons_succ, cons_append, true_and]
      unfold through
      by_cases hs : f out ∈ stop
      · simp [hs]
      · simp only [hs, if_false, not_false_eq_true, if_true]
        rw [← ih (hok rfl hs)]
        rfl
    · rw [if_neg hd, if_neg fun hc => hd hc.1.symm]
      exact through_singleton stop (f out)

def draftsEmitted (emitted drafts : List Token) : Nat :=
  ((emitted.zip drafts).filter fun p => p.1 == p.2).length

theorem min_acceptedPrefix (h : RowsOk f stop out ds rows) :
    min (f.emit stop out ds).length (acceptedPrefix ds rows) =
      draftsEmitted (f.emit stop out ds) ds := by
  induction ds generalizing out rows with
  | nil => simp [acceptedPrefix, draftsEmitted]
  | cons d ds ih =>
    obtain ⟨rest, rfl, -, hok⟩ := h
    unfold Target.emit
    rw [acceptedPrefix_cons]
    by_cases hd : d = f out
    · subst hd
      by_cases hs : f out ∈ stop
      · simp [hs, draftsEmitted]
      · have h1 := ih (hok rfl hs)
        simp only [if_true, hs, not_false_eq_true, and_self, length_cons, Nat.add_min_add_right]
        rw [h1]
        simp [draftsEmitted]
    · have hne : f out ≠ d := fun hc => hd hc.symm
      simp [hd, hne, draftsEmitted]

theorem Target.emit_eq (f : Target) (stop out ds : List Token) :
    ∃ m ≤ ds.length, f.emit stop out ds = ds.take m ++ [f (out ++ ds.take m)] := by
  induction ds generalizing out with
  | nil => exact ⟨0, Nat.le_refl 0, by simp [Target.emit]⟩
  | cons d ds ih =>
    unfold Target.emit
    split
    · next hc =>
      obtain ⟨m, hm, e⟩ := ih (out ++ [d])
      refine ⟨m + 1, Nat.succ_le_succ hm, ?_⟩
      rw [e, hc.1]
      simp
    · exact ⟨0, Nat.zero_le _, by simp⟩

end Plow.Speculative
