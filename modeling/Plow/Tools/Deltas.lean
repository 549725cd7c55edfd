import Plow.Tools.Stream

/-!
# The deltas of a stream and its calls

The deltas that the steps showed so far and those of the step under way are one log.  Its heads are
the calls in their order, an argument follows its call's head, and its arguments of a call are those
the call holds, once the call is over (`Told`).  Every event keeps this, so every step does and every
generation ends with it (`told_respond`).
-/

namespace Plow.Tools
open Plow.Lib.Text List

/-! ### Logs -/

def argsOf (i : ℕ) (log : List Delta) : List Char := (log.filter (·.index = i)).flatMap (·.args)

def headsOf (log : List Delta) : List (ℕ × List Char × List Char) :=
  log.filterMap fun d => d.head.map fun h => (d.index, h)

def Led (log : List Delta) : Prop :=
  ∀ pre d suf, log = pre ++ d :: suf → d.index ∈ (headsOf (pre ++ [d])).map Prod.fst

variable {log log' : List Delta} {i j : ℕ}

theorem argsOf_append (i : ℕ) (log log' : List Delta) :
    argsOf i (log ++ log') = argsOf i log ++ argsOf i log' := by
  unfold argsOf
  rw [filter_append, flatMap_append]

theorem argsOf_singleton (i : ℕ) (d : Delta) : argsOf i [d] = if d.index = i then d.args else [] := by
  unfold argsOf
  by_cases h : d.index = i
  · simp [h]
  · simp [h]

theorem headsOf_append (log log' : List Delta) : headsOf (log ++ log') = headsOf log ++ headsOf log' :=
  filterMap_append

theorem Led.append (h : Led log) {d : Delta} (hd : d.index ∈ (headsOf (log ++ [d])).map Prod.fst) :
    Led (log ++ [d]) := by
  intro pre e suf he
  rcases eq_nil_or_concat suf with rfl | ⟨suf', e', rfl⟩
  · obtain ⟨rfl, hde⟩ := append_inj' he rfl
    obtain rfl := (List.cons.inj hde).1
    exact hd
  · rw [concat_eq_append, ← cons_append, ← append_assoc] at he
    exact h pre e suf' (append_inj' he rfl).1

theorem Led.last {d d' : Delta} (hi : d'.index = d.index) (hh : d'.head = d.head)
    (h : Led (log ++ [d])) : Led (log ++ [d']) := by
  have heads : ∀ pre : List Delta, headsOf (pre ++ [d']) = headsOf (pre ++ [d]) := by
    intro pre
    rw [headsOf_append, headsOf_append]
    unfold headsOf
    simp only [filterMap_cons, filterMap_nil, hi, hh]
  intro pre e suf he
  rcases eq_nil_or_concat suf with rfl | ⟨suf', e', rfl⟩
  · obtain ⟨rfl, hde⟩ := append_inj' he rfl
    obtain rfl := (List.cons.inj hde).1
    rw [heads, hi]
    exact h log d [] rfl
  · rw [concat_eq_append, ← cons_append, ← append_assoc] at he
    obtain rfl := (append_inj' he rfl).1
    exact h pre e (suf' ++ [d]) (by rw [append_assoc]; rfl)

theorem Led.before (h : Led log) {pre suf : List Delta} (hlog : log = pre ++ suf)
    (hi : argsOf i pre ≠ []) : i ∈ (headsOf pre).map Prod.fst := by
  obtain ⟨d, hd, hdi⟩ : ∃ d ∈ pre, d.index = i := by
    by_contra hno
    apply hi
    have hnil : pre.filter (·.index = i) = [] := by
      rw [filter_eq_nil_iff]
      intro d hd hdi
      exact hno ⟨d, hd, of_decide_eq_true hdi⟩
    rw [argsOf, hnil]
    rfl
  obtain ⟨a, b, rfl⟩ := append_of_mem hd
  have := h a d (b ++ suf) (by rw [hlog, append_assoc]; rfl)
  rw [hdi] at this
  have happ : a ++ d :: b = a ++ [d] ++ b := by rw [append_assoc]; rfl
  rw [happ, headsOf_append, map_append]
  exact mem_append_left _ this

/-! ### Views -/

def shown (ids : List (List Char × List Char)) (d : DeltaRec) : Delta :=
  ⟨d.call, if d.head then ids[d.call]? else none, d.args⟩

def Call.idName (c : Call) : List Char × List Char := (c.id, c.name)

variable {σ P V : Type} {u : Setup σ P V} {ts ts' : ToolStream σ} {B : List Delta}

theorem view_eq (ts : ToolStream σ) :
    ts.view = ts.deltas.map (shown (ts.calls.map Call.idName)) := by
  unfold ToolStream.view shown
  simp only [getElem?_map]
  rfl

theorem shown_append {ids more : List (List Char × List Char)} {d : DeltaRec} (h : d.call < ids.length) :
    shown (ids ++ more) d = shown ids d := by
  unfold shown
  rw [getElem?_append_left h]

/-- arguments for a call go to its last delta, or to a new one -/
theorem deltaArgs_view (i : ℕ) (a : List Char) (h : ∃ h, (i, h) ∈ headsOf (B ++ ts.view))
    (hl : Led (B ++ ts.view)) :
    Led (B ++ (ts.deltaArgs i a).view) ∧
      headsOf (B ++ (ts.deltaArgs i a).view) = headsOf (B ++ ts.view) ∧
      ∀ j, argsOf j (B ++ (ts.deltaArgs i a).view) =
        argsOf j (B ++ ts.view) ++ if i = j then a else [] := by
  obtain ⟨hd, hmem⟩ := h
  have new : ∀ ts' : ToolStream σ, ts'.view = ts.view ++ [⟨i, none, a⟩] →
      Led (B ++ ts'.view) ∧ headsOf (B ++ ts'.view) = headsOf (B ++ ts.view) ∧
        ∀ j, argsOf j (B ++ ts'.view) = argsOf j (B ++ ts.view) ++ if i = j then a else [] := by
    intro ts' hv
    rw [hv, ← append_assoc]
    have hheads : headsOf (B ++ ts.view ++ [⟨i, none, a⟩]) = headsOf (B ++ ts.view) := by
      rw [headsOf_append]
      exact append_nil _
    refine ⟨hl.append ?_, hheads, fun j => ?_⟩
    · rw [hheads]
      exact mem_map_of_mem (f := Prod.fst) hmem
    · rw [argsOf_append, argsOf_singleton]
  unfold ToolStream.deltaArgs
  cases hlast : ts.deltas.getLast? with
  | none =>
    refine new _ ?_
    rw [view_eq, view_eq, map_append]
    rfl
  | some d =>
    dsimp only
    by_cases hdi : d.call = i
    · rw [if_pos hdi]
      have hds : ts.deltas = ts.deltas.dropLast ++ [d] :=
        (dropLast_append_getLast? d hlast).symm
      have hold : B ++ ts.view = B ++ ts.deltas.dropLast.map (shown (ts.calls.map Call.idName)) ++
          [shown (ts.calls.map Call.idName) d] := by
        rw [view_eq, append_assoc]
        conv => lhs; rw [hds]
        rw [map_append]
        rfl
      have hnew : B ++ ({ ts with deltas := ts.deltas.dropLast ++ [{ d with args := d.args ++ a }] } :
            ToolStream σ).view =
          B ++ ts.deltas.dropLast.map (shown (ts.calls.map Call.idName)) ++
            [shown (ts.calls.map Call.idName) { d with args := d.args ++ a }] := by
        rw [view_eq, append_assoc, map_append]
        rfl
      rw [hold] at hl
      have hled := @Led.last _ (shown (ts.calls.map Call.idName) d)
        (shown (ts.calls.map Call.idName) { d with args := d.args ++ a }) rfl rfl hl
      refine ⟨hnew ▸ hled, ?_, fun j => ?_⟩
      · rw [hnew, hold, headsOf_append _ [shown _ d], headsOf_append _ [shown _ { d with args := _ }]]
        rfl
      · rw [hnew, hold, argsOf_append j _ [shown _ d], argsOf_append j _ [shown _ { d with args := _ }],
          argsOf_singleton, argsOf_singleton, append_assoc]
        congr 1
        show (if d.call = j then d.args ++ a else []) = _
        rw [← hdi]
        by_cases hj : d.call = j
        · rw [if_pos hj, if_pos hj]
          exact congrArg (· ++ a) (if_pos hj).symm
        · rw [if_neg hj, if_neg hj, append_nil]
          exact (if_neg hj).symm
    · rw [if_neg hdi]
      refine new _ ?_
      rw [view_eq, view_eq, map_append]
      rfl

theorem deltaArgs_eq (ts : ToolStream σ) (i : ℕ) (a : List Char) :
    ∃ ds, ts.deltaArgs i a = { ts with deltas := ds } ∧
      ∀ d ∈ ds, d.call = i ∨ ∃ e ∈ ts.deltas, e.call = d.call := by
  have new : ∀ d ∈ ts.deltas ++ [⟨i, false, a⟩], d.call = i ∨ ∃ e ∈ ts.deltas, e.call = d.call := by
    intro d hd
    rcases mem_append.mp hd with hd | hd
    · exact .inr ⟨d, hd, rfl⟩
    · exact .inl (congrArg DeltaRec.call (mem_singleton.mp hd))
  unfold ToolStream.deltaArgs
  cases hlast : ts.deltas.getLast? with
  | none => exact ⟨_, rfl, new⟩
  | some e =>
    dsimp only
    by_cases hei : e.call = i
    · rw [if_pos hei]
      refine ⟨_, rfl, fun d hd => ?_⟩
      rcases mem_append.mp hd with hd | hd
      · exact .inr ⟨d, mem_of_mem_dropLast hd, rfl⟩
      · rw [mem_singleton.mp hd]
        exact .inl hei
    · rw [if_neg hei]
      exact ⟨_, rfl, new⟩

/-! ### The log of a generation -/

def Writing (c : Call) (a : List Char) : Prop := a = if c.hold then [] else c.args

/-- a call that got its `{}` if it had no arguments -/
def Filled (c : Call) (a : List Char) : Prop :=
  if c.hold then a = []
  else a = c.args ∨ c.args = "{}".toList ∧ ∃ w, trim w = [] ∧ a = w ++ "{}".toList

/-- a call that is over -/
structure Over (u : Setup σ P V) (left : Bool) (error : Option String) (c : Call) (a : List Char) :
    Prop where
  /-- all its arguments are out, or it is held back in a failed turn -/
  args : a = c.args ∨ (c.hold = true ∧ error ≠ none ∧ a = []) ∨
    (c.hold = false ∧ Filled c a)
  /-- held arguments are out only if they passed, unless the turn failed or the call was left open -/
  vetted : c.hold = true → a ≠ [] → u.validate c = .ok () ∨ error ≠ none ∨ left = true

/-- The log `B ++ ts.view` and the calls of `ts` agree, where `Q` tells what the log has of the open
call's arguments. -/
structure Told (u : Setup σ P V) (left : ℕ → Bool) (B : List Delta) (ts : ToolStream σ) (o : Option ℕ)
    (Q : Call → List Char → Prop) : Prop where
  carry : ts.carry = false
  inRange : ∀ d ∈ ts.deltas, d.call < ts.calls.length
  heads : headsOf (B ++ ts.view) = (ts.calls.map Call.idName).mapIdx Prod.mk
  led : Led (B ++ ts.view)
  open_ : ∀ i, o = some i → ∃ c, ts.calls[i]? = some c ∧ Q c (argsOf i (B ++ ts.view))
  closed : ∀ i c, ts.calls[i]? = some c → o ≠ some i →
    Over u (left i) ts.error c (argsOf i (B ++ ts.view))

namespace Told

variable {left : ℕ → Bool} {o : Option ℕ} {Q Q' : Call → List Char → Prop}

theorem congr (h : Told u left B ts o Q) (hk : ts'.carry = ts.carry) (hd : ts'.deltas = ts.deltas)
    (hc : ts'.calls = ts.calls) (he : ts'.error = ts.error) : Told u left B ts' o Q := by
  have hv : ts'.view = ts.view := by rw [view_eq, view_eq, hd, hc]
  constructor
  · rw [hk]; exact h.carry
  · rw [hd, hc]; exact h.inRange
  · rw [hv, hc]; exact h.heads
  · rw [hv]; exact h.led
  · rw [hv, hc]; exact h.open_
  · rw [hv, hc, he]; exact h.closed

theorem head_mem (h : Told u left B ts o Q) {c : Call} (hc : ts.calls[i]? = some c) :
    (i, c.idName) ∈ headsOf (B ++ ts.view) := by
  rw [h.heads]
  apply mem_of_getElem?
  rw [getElem?_mapIdx, getElem?_map, hc]
  rfl

theorem argsOf_none (h : Told u left B ts o Q) (hi : ts.calls.length ≤ i) :
    argsOf i (B ++ ts.view) = [] := by
  by_contra hne
  have hmem := h.led.before (append_nil _).symm hne
  rw [h.heads] at hmem
  obtain ⟨x, hx, hxi⟩ := mem_map.mp hmem
  obtain ⟨j, hj, rfl⟩ := mem_mapIdx.mp hx
  rw [length_map] at hj
  exact absurd (hxi ▸ hj : i < ts.calls.length) (Nat.not_lt.mpr hi)

section

variable (h : Told u left B ts (some i) Q)
include h

theorem deltaArgs (a : List Char)
    (hQ : ∀ c x, ts.calls[i]? = some c → Q c x → Q' c (x ++ a)) :
    Told u left B (ts.deltaArgs i a) (some i) Q' := by
  obtain ⟨c, hc, hq⟩ := h.open_ i rfl
  obtain ⟨hled, hheads, hargs⟩ := deltaArgs_view i a ⟨_, h.head_mem hc⟩ h.led
  obtain ⟨ds, hds, hmem⟩ := deltaArgs_eq ts i a
  rw [hds] at hled hheads hargs ⊢
  have hlt : i < ts.calls.length := (List.getElem?_eq_some_iff.mp hc).1
  constructor
  · exact h.carry
  · intro d hd
    rcases hmem d hd with hdi | ⟨e, he, hde⟩
    · exact hdi ▸ hlt
    · exact hde ▸ h.inRange e he
  · rw [hheads]
    exact h.heads
  · exact hled
  · intro j hj
    cases hj
    refine ⟨c, hc, ?_⟩
    rw [hargs, if_pos rfl]
    exact hQ c _ hc hq
  · intro j d hd hj
    rw [hargs, if_neg fun hij => hj (congrArg some hij), append_nil]
    exact h.closed j d hd hj

/-- the open call changes, but not its id and name -/
theorem modify (f : Call → Call) (hf : ∀ c, (f c).idName = c.idName)
    (hQ : ∀ c x, ts.calls[i]? = some c → Q c x → Q' (f c) x) :
    Told u left B { ts with calls := ts.calls.modify i f } (some i) Q' := by
  have hids : (ts.calls.modify i f).map Call.idName = ts.calls.map Call.idName := by
    apply ext_getElem?
    intro j
    rw [getElem?_map, getElem?_map, getElem?_modify]
    by_cases hij : i = j
    · subst hij
      cases ts.calls[i]? with
      | none => rfl
      | some c => simpa using hf c
    · simp [hij]
  have hv : ({ ts with calls := ts.calls.modify i f } : ToolStream σ).view = ts.view := by
    rw [view_eq, view_eq]
    show ts.deltas.map (shown ((ts.calls.modify i f).map Call.idName)) = _
    rw [hids]
  obtain ⟨c, hc, hq⟩ := h.open_ i rfl
  constructor
  · exact h.carry
  · show ∀ d ∈ ts.deltas, d.call < (ts.calls.modify i f).length
    rw [length_modify]
    exact h.inRange
  · rw [hv, h.heads]
    show _ = ((ts.calls.modify i f).map Call.idName).mapIdx Prod.mk
    rw [hids]
  · rw [hv]
    exact h.led
  · intro j hj
    cases hj
    refine ⟨f c, ?_, ?_⟩
    · show (ts.calls.modify i f)[i]? = some (f c)
      rw [getElem?_modify, hc]
      simp
    · rw [hv]
      exact hQ c _ hc hq
  · intro j d hd hj
    rw [hv]
    refine h.closed j d ?_ hj
    have hd : (ts.calls.modify i f)[j]? = some d := hd
    have hij : i ≠ j := fun hij => hj (congrArg some hij)
    rw [getElem?_modify] at hd
    simpa [hij] using hd

theorem imp (hQ : ∀ c x, Q c x → Q' c x) :
    Told u left B ts (some i) Q' := by
  obtain ⟨c, hc, hq⟩ := h.open_ i rfl
  refine ⟨h.carry, h.inRange, h.heads, h.led, fun j hj => ?_, h.closed⟩
  cases hj
  exact ⟨c, hc, hQ c _ hq⟩

theorem ended (Q' : Call → List Char → Prop)
    (hQ : ∀ c x, ts.calls[i]? = some c → Q c x → Over u (left i) ts.error c x) :
    Told u left B ts none Q' := by
  constructor
  · exact h.carry
  · exact h.inRange
  · exact h.heads
  · exact h.led
  · exact nofun
  · intro j c hc _
    by_cases hij : i = j
    · subst hij
      obtain ⟨c', hc', hq⟩ := h.open_ i rfl
      obtain rfl := Option.some.inj (hc'.symm.trans hc)
      exact hQ c' _ hc hq
    · exact h.closed j c hc fun hj => hij (Option.some.inj hj)

end

theorem fail (h : Told u left B ts o Q) (e : String) : Told u left B { ts with error := some e } o Q := by
  constructor
  · exact h.carry
  · exact h.inRange
  · exact h.heads
  · exact h.led
  · exact h.open_
  · intro i c hc hi
    obtain ⟨hargs, hvet⟩ := h.closed i c hc hi
    refine ⟨?_, fun hh ha => .inr (.inl nofun)⟩
    rcases hargs with ha | ⟨hh, -, ha⟩ | hb
    · exact .inl ha
    · exact .inr (.inl ⟨hh, nofun, ha⟩)
    · exact .inr (.inr hb)

/-! ### Events -/

theorem args (h : Told u left B ts (some i) Q) (a : List Char)
    (hheld : ∀ c x, c.hold = true → Q c x → Q' { c with args := c.args ++ a } x)
    (hout : ∀ c x, c.hold = false → Q c x → Q' { c with args := c.args ++ a } (x ++ a)) :
    Told u left B (ts.args i a) (some i) Q' := by
  obtain ⟨c, hc, -⟩ := h.open_ i rfl
  have hget : (ts.calls.modify i fun c => { c with args := c.args ++ a })[i]? =
      some { c with args := c.args ++ a } := by
    rw [getElem?_modify, hc]
    simp
  have same : ∀ d, ts.calls[i]? = some d → d = c := fun d hd => Option.some.inj (hd.symm.trans hc)
  unfold ToolStream.args
  dsimp only
  rw [hget]
  by_cases hh : c.hold = true
  · have hcond : (some ({ c with args := c.args ++ a } : Call)).any (!·.hold) = false := by
      simp [hh]
    rw [hcond]
    refine h.modify _ (fun _ => rfl) fun d x hd hq => ?_
    exact hheld d x (same d hd ▸ hh) hq
  · have hh : c.hold = false := Bool.eq_false_iff.mpr hh
    have hcond : (some ({ c with args := c.args ++ a } : Call)).any (!·.hold) = true := by
      simp [hh]
    rw [hcond]
    have hmod : Told u left B
        { ts with calls := ts.calls.modify i fun c => { c with args := c.args ++ a } } (some i)
        fun c' x => Q' c' (x ++ a) := by
      refine h.modify _ (fun _ => rfl) fun d x hd hq => ?_
      exact hout d x (same d hd ▸ hh) hq
    exact hmod.deltaArgs a fun _ _ _ hq => hq

theorem writingArgs (h : Told u left B ts (some i) Writing) (a : List Char) :
    Told u left B (ts.args i a) (some i) Writing := by
  refine h.args a (fun c x hh hx => ?_) fun c x hh hx => ?_
  · unfold Writing at hx ⊢
    rw [if_pos hh] at hx
    rw [if_pos hh, hx]
  · have hf : ¬ c.hold = true := Bool.eq_false_iff.mp hh
    unfold Writing at hx ⊢
    rw [if_neg hf] at hx
    rw [if_neg hf, hx]

theorem fillArgs (h : Told u left B ts (some i) Writing) :
    Told u left B (ts.fillArgs i) (some i) Filled := by
  obtain ⟨c, hc, -⟩ := h.open_ i rfl
  have same : ∀ d, ts.calls[i]? = some d → d = c := fun d hd => Option.some.inj (hd.symm.trans hc)
  unfold ToolStream.fillArgs
  rw [hc]
  by_cases hblank : trim c.args = []
  · rw [if_pos (by simpa using hblank)]
    -- what was written of a blank call is blank
    have hclear : Told u left B
        { ts with calls := ts.calls.modify i fun c => { c with args := [] } } (some i)
        fun c' x => c'.args = [] ∧ if c'.hold then x = [] else trim x = [] := by
      refine h.modify _ (fun _ => rfl) fun d x hd hx => ⟨rfl, ?_⟩
      obtain rfl := same d hd
      unfold Writing at hx
      show if d.hold then x = [] else trim x = []
      split
      · rwa [if_pos ‹_›] at hx
      · rw [if_neg ‹_›] at hx
        exact hx ▸ hblank
    refine hclear.args _ (fun d x hh hx => ?_) fun d x hh hx => ?_
    · unfold Filled
      rw [if_pos hh] at hx
      rw [if_pos hh]
      exact hx.2
    · have hf : ¬ d.hold = true := Bool.eq_false_iff.mp hh
      unfold Filled
      rw [if_neg hf] at hx
      rw [if_neg hf]
      exact .inr ⟨congrArg (· ++ "{}".toList) hx.1, x, hx.2, rfl⟩
  · rw [if_neg (by simpa using hblank)]
    refine h.imp fun d x hx => ?_
    unfold Writing at hx
    unfold Filled
    split
    · rwa [if_pos ‹_›] at hx
    · rw [if_neg ‹_›] at hx
      exact .inl hx

theorem release (h : Told u left B ts (some i) Filled)
    (hv : ∀ c, ts.calls[i]? = some c → u.validate c = .ok () ∨ ts.error ≠ none ∨ left i = true) :
    Told u left B (ts.release i) none Writing := by
  obtain ⟨c, hc, -⟩ := h.open_ i rfl
  have same : ∀ d, ts.calls[i]? = some d → d = c := fun d hd => Option.some.inj (hd.symm.trans hc)
  unfold ToolStream.release
  rw [hc]
  dsimp only
  by_cases hh : c.hold = true
  · rw [if_pos hh]
    have hout : Told u left B (ts.deltaArgs i c.args) (some i) fun d x =>
        d.hold = true ∧ x = d.args ∧ (u.validate d = .ok () ∨ ts.error ≠ none ∨ left i = true) := by
      refine h.deltaArgs _ fun d x hd hx => ?_
      obtain rfl := same d hd
      unfold Filled at hx
      rw [if_pos hh] at hx
      rw [hx]
      exact ⟨hh, rfl, hv d hd⟩
    obtain ⟨ds, hds, -⟩ := deltaArgs_eq ts i c.args
    rw [hds] at hout ⊢
    exact hout.ended _ fun d x _ hx => ⟨.inl hx.2.1, fun _ _ => hx.2.2⟩
  · rw [if_neg hh]
    refine h.ended _ fun d x hd hx => ?_
    obtain rfl := same d hd
    exact ⟨.inr (.inr ⟨Bool.eq_false_iff.mpr hh, hx⟩), fun hh' => absurd hh' hh⟩

theorem endCall (h : Told u left B ts (some i) Writing) (k : Bool) (hk : k = true → left i = true) :
    Told u left B (ts.endCall u i k) none Writing := by
  have hf := h.fillArgs
  obtain ⟨c, hc, -⟩ := hf.open_ i rfl
  unfold ToolStream.endCall
  dsimp only
  rw [hc]
  dsimp only
  by_cases hcond : (!k && (ts.fillArgs i).error.isNone) = true
  · rw [if_pos hcond]
    cases hval : u.validate c with
    | error e =>
      refine (hf.fail e).ended _ fun d x hd hx => ⟨?_, fun _ _ => .inr (.inl nofun)⟩
      by_cases hh : d.hold = true
      · unfold Filled at hx
        rw [if_pos hh] at hx
        exact .inr (.inl ⟨hh, nofun, hx⟩)
      · exact .inr (.inr ⟨Bool.eq_false_iff.mpr hh, hx⟩)
    | ok v =>
      refine hf.release fun d hd => .inl ?_
      cases hd.symm.trans hc
      exact hval
  · rw [if_neg hcond]
    refine hf.release fun d _ => .inr ?_
    by_cases hcut : k = true
    · exact .inr (hk hcut)
    · refine .inl fun herr => hcond ?_
      rw [herr]
      simpa using hcut

/-- a new call, and its head -/
theorem begins (h : Told u left B ts none Q) (c : Call) (hargs : c.args = []) :
    Told u left B
      { ts with calls := ts.calls ++ [c], deltas := ts.deltas ++ [⟨ts.calls.length, true, []⟩] }
      (some ts.calls.length) Writing := by
  have hold : ts.deltas.map (shown (ts.calls.map Call.idName ++ [c.idName])) =
      ts.deltas.map (shown (ts.calls.map Call.idName)) :=
    map_congr_left fun d hd =>
      shown_append ((h.inRange d hd).trans_eq (length_map Call.idName).symm)
  have hv : ({ ts with calls := ts.calls ++ [c], deltas := ts.deltas ++ [⟨ts.calls.length, true, []⟩] } :
      ToolStream σ).view = ts.view ++ [⟨ts.calls.length, some c.idName, []⟩] := by
    rw [view_eq, view_eq]
    show (ts.deltas ++ [_]).map (shown ((ts.calls ++ [c]).map Call.idName)) = _
    rw [map_append, map_append, map_singleton, hold]
    congr 1
    unfold shown
    simp
  have hheads : headsOf (B ++ (ts.view ++ [⟨ts.calls.length, some c.idName, []⟩])) =
      headsOf (B ++ ts.view) ++ [(ts.calls.length, c.idName)] := by
    rw [← append_assoc, headsOf_append]
    rfl
  have hlog : ∀ j, argsOf j (B ++ (ts.view ++ [⟨ts.calls.length, some c.idName, []⟩])) =
      argsOf j (B ++ ts.view) := by
    intro j
    rw [← append_assoc, argsOf_append, argsOf_singleton, ite_self, append_nil]
  constructor
  · exact h.carry
  · intro d hd
    show d.call < (ts.calls ++ [c]).length
    rw [length_append]
    rcases mem_append.mp hd with hd | hd
    · exact Nat.lt_add_right 1 (h.inRange d hd)
    · rw [mem_singleton.mp hd]
      exact Nat.lt_succ_self _
  · rw [hv, hheads, h.heads]
    show _ = ((ts.calls ++ [c]).map Call.idName).mapIdx Prod.mk
    rw [map_append, map_singleton, mapIdx_append, length_map]
    simp
  · rw [hv, ← append_assoc]
    refine h.led.append ?_
    rw [append_assoc, hheads, map_append]
    exact mem_append_right _ (mem_singleton.mpr rfl)
  · intro j hj
    cases hj
    refine ⟨c, getElem?_concat_length, ?_⟩
    rw [hv, hlog, h.argsOf_none le_rfl]
    unfold Writing
    rw [hargs, ite_self]
  · intro j d hd hj
    rw [hv, hlog]
    refine h.closed j d ?_ nofun
    have hd : (ts.calls ++ [c])[j]? = some d := hd
    rcases Nat.lt_or_ge j ts.calls.length with hlt | hge
    · rwa [getElem?_append_left hlt] at hd
    · rcases Nat.eq_or_lt_of_le hge with heq | hgt
      · exact absurd (congrArg some heq) hj
      · rw [getElem?_eq_none (by rw [length_append]; exact hgt)] at hd
        exact nomatch hd

end Told

def Kept (u : Setup σ P V) (left : ℕ → Bool) (B : List Delta) (ts : ToolStream σ) : Prop :=
  Told u left B ts ts.opened Writing

section Opened

variable (ts : ToolStream σ)

@[simp]
theorem deltaArgs_opened (i : ℕ) (a : List Char) : (ts.deltaArgs i a).opened = ts.opened := by
  obtain ⟨ds, hds, -⟩ := deltaArgs_eq ts i a
  rw [hds]

@[simp]
theorem args_opened (i : ℕ) (a : List Char) : (ts.args i a).opened = ts.opened := by
  unfold ToolStream.args
  dsimp only
  split
  · rw [deltaArgs_opened]
  · rfl

@[simp]
theorem fillArgs_opened (i : ℕ) : (ts.fillArgs i).opened = ts.opened := by
  unfold ToolStream.fillArgs
  split
  · rw [args_opened]
  · rfl

@[simp]
theorem release_opened (i : ℕ) : (ts.release i).opened = ts.opened := by
  unfold ToolStream.release
  split
  · split
    · rw [deltaArgs_opened]
    · rfl
  · rfl

@[simp]
theorem endCall_opened (i : ℕ) (k : Bool) : (ts.endCall u i k).opened = ts.opened := by
  unfold ToolStream.endCall
  dsimp only
  split
  · rw [fillArgs_opened]
  · split
    · split
      · exact fillArgs_opened ts i
      · rw [release_opened, fillArgs_opened]
    · rw [release_opened, fillArgs_opened]

@[simp]
theorem close_opened (k : Bool) : (ts.close u k).opened = none := by
  unfold ToolStream.close
  cases h : ts.opened with
  | none => exact h
  | some i => rw [endCall_opened]

end Opened

/-- the streams agree on what the log and its calls depend on -/
structure Same (ts' ts : ToolStream σ) : Prop where
  carry : ts'.carry = ts.carry
  deltas : ts'.deltas = ts.deltas
  calls : ts'.calls = ts.calls
  error : ts'.error = ts.error
  opened : ts'.opened = ts.opened

theorem text_same (u : Setup σ P V) (ts : ToolStream σ) (t : List Char) (last : Bool) :
    Same (ts.text u t last) ts := by
  unfold ToolStream.text
  dsimp only
  split
  · exact ⟨rfl, rfl, rfl, rfl, rfl⟩
  · exact ⟨rfl, rfl, rfl, rfl, rfl⟩

theorem flush_same (u : Setup σ P V) (ts : ToolStream σ) (last : Bool) :
    Same (ts.flush u last) ts := by
  unfold ToolStream.flush
  split
  · exact text_same u ts [] true
  · exact ⟨rfl, rfl, rfl, rfl, rfl⟩

theorem reason_same (u : Setup σ P V) (ts : ToolStream σ) (r : List Char) :
    Same (ts.reason u r) ts := by
  unfold ToolStream.reason
  split
  · exact ⟨rfl, rfl, rfl, rfl, rfl⟩
  · exact ⟨rfl, rfl, rfl, rfl, rfl⟩

theorem flushReasoning_same (u : Setup σ P V) (ts : ToolStream σ) (last : Bool) :
    Same (ts.flushReasoning u last) ts := by
  unfold ToolStream.flushReasoning
  split
  · exact ⟨rfl, rfl, rfl, rfl, rfl⟩
  · exact ⟨rfl, rfl, rfl, rfl, rfl⟩

namespace Kept

variable {left : ℕ → Bool} {s : ToolStream σ × List Delta}

theorem close (h : Kept u left B ts) (k : Bool)
    (hk : ∀ i, ts.opened = some i → k = true → left i = true) :
    Told u left B (ts.close u k) none Writing := by
  unfold Kept at h
  unfold ToolStream.close
  cases ho : ts.opened with
  | none =>
    rw [ho] at h
    exact h
  | some i =>
    rw [ho] at h
    exact (h.congr rfl rfl rfl rfl : Told u left B { ts with opened := none } _ _).endCall k
      (hk i ho)

theorem start (h : Kept u left B ts) (name : List Char) (id : Option (List Char)) :
    Kept u left B (ts.start u name id) := by
  have hcl := h.close false fun _ _ => nofun
  unfold ToolStream.start
  dsimp only
  have same : Kept u left B (ts.close u false) := by
    unfold Kept
    rw [close_opened]
    exact hcl
  cases u.spec with
  | none => exact same
  | some spec =>
    dsimp only
    split
    · exact same
    · refine (hcl.begins ⟨id.getD (u.callId _), name, [], _, _⟩ rfl).congr rfl rfl rfl rfl

theorem same (h : Kept u left B ts) (hs : Same ts' ts) : Kept u left B ts' := by
  unfold Kept at h ⊢
  rw [hs.opened]
  exact h.congr hs.carry hs.deltas hs.calls hs.error

theorem event (h : Kept u left B ts) (ev : Ev) : Kept u left B (ts.event u ev) := by
  cases ev with
  | text t => exact h.same (text_same u ts t false)
  | start name id => exact h.start name id
  | args a =>
    unfold ToolStream.event
    cases ho : ts.opened with
    | none => exact h
    | some i =>
      unfold Kept at h ⊢
      rw [ho] at h
      dsimp only
      rw [args_opened, ho]
      exact h.writingArgs a
  | done =>
    show Kept u left B (ts.close u false)
    unfold Kept
    rw [close_opened]
    exact h.close false fun _ _ => nofun

theorem events (evs : List Ev) (h : Kept u left B ts) :
    Kept u left B (evs.foldl (fun ts ev => ts.event u ev) ts) := by
  induction evs generalizing ts with
  | nil => exact h
  | cons ev evs ih => exact ih (h.event ev)

theorem step (h : Kept u left B ts.clear) (t : Option (List Char)) (k : Bool) :
    Kept u left B (ts.step u t k) := by
  unfold ToolStream.step
  dsimp only
  generalize ts.clear = t₀ at h ⊢
  refine (Kept.events _ ?_).same (flush_same u _ _)
  refine Kept.same ?_ (flushReasoning_same u _ _)
  refine (Kept.same ?_ (reason_same u _ _)).same (reason_same u _ _)
  exact h.same ⟨rfl, rfl, rfl, rfl, rfl⟩

theorem shown (h : Kept u left B ts) : Kept u left (B ++ ts.view) ts.clear := by
  have hclear : ts.clear = { ts with content := [], hasContent := false, reasoning := [], deltas := [] } := by
    unfold ToolStream.clear
    rw [h.carry]
    rfl
  have hlog : B ++ ts.view ++ ts.clear.view = B ++ ts.view := by
    rw [hclear]
    exact append_nil _
  unfold Kept at h ⊢
  constructor
  · rw [hclear]; exact h.carry
  · rw [hclear]; exact nofun
  · rw [hlog, hclear]; exact h.heads
  · rw [hlog]; exact h.led
  · rw [hlog, hclear]; exact h.open_
  · rw [hlog, hclear]; exact h.closed

theorem act (h : Kept u left s.2 s.1.clear) (op : Op) :
    Kept u left (act u s op).2 (act u s op).1.clear := by
  cases op with
  | prime t =>
    have hs := h.step (some t) false
    exact hs.same ⟨hs.carry.symm, rfl, rfl, rfl, rfl⟩
  | push t => exact (h.step (some t) false).shown

theorem run (h : Kept u left s.2 s.1.clear) (ops : List Op) :
    Kept u left (ops.foldl (Tools.act u) s).2 (ops.foldl (Tools.act u) s).1.clear := by
  induction ops generalizing s with
  | nil => exact h
  | cons op ops ih => exact ih (h.act op)

theorem new (u : Setup σ P V) (left : ℕ → Bool) : Kept u left [] u.new.clear := by
  constructor
  · rfl
  · exact nofun
  · rfl
  · intro pre d suf h
    exact absurd h.symm (append_ne_nil_of_right_ne_nil pre (cons_ne_nil d suf))
  · exact nofun
  · exact nofun

end Kept

def ToolStream.leftOpen (u : Setup σ P V) (ts : ToolStream σ) (cut : Bool) (i : ℕ) : Bool :=
  cut && (ts.step u none cut).opened = some i

theorem told_respond (u : Setup σ P V) (ops : List Op) (cut : Bool) :
    Told u ((ops.foldl (act u) (u.new, [])).1.leftOpen u cut) (ops.foldl (act u) (u.new, [])).2
      (respond u ops cut).1 none Writing := by
  have hrun := fun left => Kept.run (s := (u.new, [])) (Kept.new u left) ops
  unfold respond
  dsimp only
  generalize ops.foldl (act u) (u.new, []) = s at hrun ⊢
  have hclose := ((hrun (s.1.leftOpen u cut)).step none cut).close cut fun i hi hcut => by
    unfold ToolStream.leftOpen
    rw [hi, hcut]
    simp
  unfold ToolStream.finish
  generalize (s.1.step u none cut).close u cut = t at hclose ⊢
  have hmissing : Told u (s.1.leftOpen u cut) s.2 (t.missing u cut) none Writing := by
    unfold ToolStream.missing
    split
    · split
      · exact hclose.fail _
      · exact hclose
    · exact hclose
  unfold ToolStream.answer
  split
  · exact hmissing.congr rfl rfl rfl rfl
  · exact hmissing

/-- What the steps of a generation streamed is what its calls are in the end. -/
theorem streamed_calls (u : Setup σ P V) (ops : List Op) (cut : Bool) :
    let s := (ops.foldl (act u) (u.new, [])).1
    let (ts, log) := respond u ops cut
    headsOf log = (ts.takeCalls.map fun c => (c.1, c.2.1)).mapIdx Prod.mk ∧
      (∀ pre suf i, log = pre ++ suf → argsOf i pre ≠ [] → i ∈ (headsOf pre).map Prod.fst) ∧
      ∀ i c, ts.calls[i]? = some c →
        (argsOf i log = c.args ∨ (c.hold = true ∧ ts.error ≠ none ∧ argsOf i log = []) ∨
          (c.hold = false ∧ c.args = "{}".toList ∧
            ∃ w, trim w = [] ∧ argsOf i log = w ++ "{}".toList)) ∧
        (c.hold = true → argsOf i log ≠ [] →
          u.validate c = .ok () ∨ ts.error ≠ none ∨ (cut = true ∧ (s.step u none cut).opened = some i)) := by
  have h := told_respond u ops cut
  have hlog : (respond u ops cut).2 = (ops.foldl (act u) (u.new, [])).2 ++ (respond u ops cut).1.view := rfl
  dsimp only
  rw [hlog]
  refine ⟨?_, fun pre suf i hp hi => h.led.before hp hi, fun i c hc => ?_⟩
  · rw [h.heads]
    unfold ToolStream.takeCalls Call.idName
    rw [map_map]
    rfl
  · have hover := h.closed i c hc nofun
    refine ⟨?_, fun hh ha => ?_⟩
    · rcases hover.args with ha | ha | ⟨hh, hf⟩
      · exact .inl ha
      · exact .inr (.inl ha)
      · unfold Filled at hf
        rw [if_neg (Bool.eq_false_iff.mp hh)] at hf
        rcases hf with ha | ⟨hargs, w, hw, ha⟩
        · exact .inl ha
        · exact .inr (.inr ⟨hh, hargs, w, hw, ha⟩)
    · rcases hover.vetted hh ha with hv | hv | hv
      · exact .inl hv
      · exact .inr (.inl hv)
      · have hv := hv
        unfold ToolStream.leftOpen at hv
        simp only [Bool.and_eq_true, decide_eq_true_eq] at hv
        exact .inr (.inr hv)

/-- one strict tool, and a format that takes every text for the arguments of a new call of it -/
def strictTool : Setup Unit Unit Unit where
  spec := some ⟨[⟨"f".toList, (), true⟩], true, .auto⟩
  marks := Reasoning.ReasoningMode.none.marks false
  opened := Reasoning.ReasoningMode.none.init false
  special := ⟨[]⟩
  stream := true
  parser := ⟨(), fun _ s o => ((), (o.start "f".toList none).arg s), fun _ o => o, id⟩
  json := ⟨fun s => if s = "{}".toList then .ok () else .error "EOF while parsing an object",
    fun _ => true, fun _ => true, fun _ _ => .ok ()⟩
  callId := fun _ => "call_0".toList

/-- Cut, a held call goes out though its arguments are malformed; not cut, it fails and nothing of its
arguments goes out. -/
theorem malformed_arguments :
    let cut := respond strictTool [.push ['{']] true
    let whole := respond strictTool [.push ['{']] false
    (∃ c, cut.1.calls[0]? = some c ∧ c.hold = true ∧ argsOf 0 cut.2 = ['{'] ∧
      strictTool.validate c ≠ .ok ()) ∧
    whole.1.takeCalls = [("call_0".toList, "f".toList, ['{'])] ∧ argsOf 0 whole.2 = [] := by
  refine ⟨⟨⟨"call_0".toList, "f".toList, ['{'], true, true⟩, by decide, rfl, by decide, ?_⟩, by decide,
    by decide⟩
  exact nofun

end Plow.Tools
