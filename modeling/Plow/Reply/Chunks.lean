import Plow.Reply.Guard

/-!
# The guard reads lines

What `planning` settles on the start of a line stays settled (`planning_append`), and a line that has
ended is always settled.  So the guard stands for the lines that have ended and the start of the next one
(`At`), however the text was cut, and a response is what its lines tell (`respond_tells`).
-/

namespace Plow.Reply

open List

variable {t s o line : Text} {b complete : Bool}

/-! ### Settled lines -/

theorem trimStart_append (h : trimStart t ≠ []) (s : Text) : trimStart (t ++ s) = trimStart t ++ s := by
  unfold trimStart at h ⊢
  rw [dropWhile_append, if_neg]
  rwa [List.isEmpty_iff]

theorem trimStart_ne_nil (h : planning line false = some b) : trimStart line ≠ [] := by
  intro hnil
  unfold planning at h
  rw [hnil] at h
  cases h

theorem trimStart_of_plan (h : planning line complete = some true) : trimStart line ≠ [] := by
  intro hnil
  unfold planning at h
  rw [hnil] at h
  cases complete <;> cases h

theorem sameHead_append (h : sameHead (t ++ s) o = true) : sameHead t o = true := by
  unfold sameHead eqIgnoreCase at h ⊢
  rw [decide_eq_true_iff] at h ⊢
  have hcut := congrArg (take (min o.length t.length)) h
  rw [← map_take, ← map_take, take_take, take_take] at hcut
  have hmin : min (min o.length t.length) (min o.length (t ++ s).length) = min o.length t.length := by
    rw [length_append]
    omega
  rw [hmin] at hcut
  rwa [take_append_of_le_length (min_le_right _ _)] at hcut

theorem boundary_append {u : Text} (h : u ≠ []) (complete complete' : Bool) (s : Text) :
    boundary complete (u ++ s) = boundary complete' u := by
  cases u with
  | nil => exact absurd rfl h
  | cons c u => rfl

theorem opens_append (h : opens t false o = true) (s : Text) (complete : Bool) : opens (t ++ s) complete o = true := by
  unfold opens at h ⊢
  rw [Bool.and_eq_true, Bool.and_eq_true, decide_eq_true_iff] at h ⊢
  obtain ⟨⟨hsame, hle⟩, hend⟩ := h
  have hdrop : t.drop o.length ≠ [] := by
    intro hnil
    rw [hnil] at hend
    cases hend
  refine ⟨⟨?_, ?_⟩, ?_⟩
  · unfold sameHead at hsame ⊢
    have hmin : min o.length (t ++ s).length = min o.length t.length := by
      rw [length_append]
      omega
    dsimp only at hsame ⊢
    rwa [hmin, take_append_of_le_length (min_le_right _ _)]
  · rw [length_append]
    omega
  · rw [drop_append_of_le_length hle, boundary_append hdrop complete false]
    exact hend

theorem not_opens_append (hopen : opens t false o = false) (hmay : mayOpen t false o = false) (s : Text)
    (complete : Bool) : opens (t ++ s) complete o = false ∧ mayOpen (t ++ s) complete o = false := by
  cases hsame : sameHead (t ++ s) o with
  | false =>
    unfold opens mayOpen
    rw [hsame]
    simp
  | true =>
    unfold opens at hopen ⊢
    unfold mayOpen at hmay ⊢
    rw [sameHead_append hsame] at hopen hmay
    simp only [Bool.not_false, Bool.true_and, decide_eq_false_iff_not, not_le] at hmay
    have hle : o.length ≤ t.length := hmay.le
    rw [decide_eq_true hle, Bool.true_and, Bool.true_and] at hopen
    have hdrop : t.drop o.length ≠ [] := by
      intro hnil
      have := congrArg length hnil
      rw [length_drop, length_nil] at this
      omega
    constructor
    · rw [drop_append_of_le_length hle, boundary_append hdrop complete false, hopen, Bool.and_false]
    · have hlong : ¬ (t ++ s).length ≤ o.length := by
        rw [length_append]
        omega
      rw [decide_eq_false hlong, Bool.and_false]

theorem shape_append (h : shape t false = some b) (s : Text) (complete : Bool) :
    shape (t ++ s) complete = some b := by
  unfold shape at h ⊢
  dsimp only at h ⊢
  have hsplit := takeWhile_append_dropWhile (p := inLabel) (l := t)
  cases hd : t.dropWhile inLabel with
  | cons stop rest =>
    -- the label has ended
    have hdrop : (t ++ s).dropWhile inLabel = stop :: (rest ++ s) := by
      rw [dropWhile_append, hd]
      rfl
    have htake : (t ++ s).takeWhile inLabel = t.takeWhile inLabel := by
      rw [takeWhile_append, if_neg]
      intro hlen
      have hsum := congrArg length hsplit
      rw [length_append, hd, length_cons] at hsum
      omega
    rw [hdrop, htake]
    rw [hd] at h
    exact h
  | nil =>
    rw [hd] at h hsplit
    rw [append_nil] at hsplit
    dsimp only at h
    split at h
    · cases h
    · next hlong =>
      have hlong : decideBytes < t.length := by simpa using hlong
      have hdrop : (t ++ s).dropWhile inLabel = s.dropWhile inLabel := by
        rw [dropWhile_append, hd]
        rfl
      have htake : (t ++ s).takeWhile inLabel = t ++ s.takeWhile inLabel := by
        rw [takeWhile_append, hsplit, if_pos rfl]
      rw [hdrop, htake, ← h]
      split
      · rw [if_neg (by rw [length_append]; omega)]
      · rw [if_neg (by rw [length_append]; omega)]

/-- what is settled stays -/
theorem planning_append (h : planning t false = some b) (s : Text) (complete : Bool) :
    planning (t ++ s) complete = some b := by
  have hne := trimStart_ne_nil h
  unfold planning at h ⊢
  rw [trimStart_append hne]
  cases ht : trimStart t with
  | nil => exact absurd ht hne
  | cons first rest =>
    rw [ht] at h
    simp only [cons_append] at h ⊢
    split
    · next hmark =>
      rw [if_pos hmark] at h
      exact h
    · next hmark =>
      rw [if_neg hmark] at h
      split
      · next halpha =>
        rw [if_pos halpha] at h
        exact h
      · next halpha =>
        rw [if_neg halpha] at h
        cases hopen : openers.any (opens (first :: rest) false) with
        | true =>
          rw [hopen] at h
          obtain ⟨o, ho, hoo⟩ := any_eq_true.mp hopen
          have hopens : openers.any (opens (first :: (rest ++ s)) complete) = true :=
            any_eq_true.mpr ⟨o, ho, opens_append hoo s complete⟩
          rw [if_pos hopens]
          exact h
        | false =>
          rw [hopen] at h
          cases hmay : openers.any (mayOpen (first :: rest) false) with
          | true =>
            rw [hmay] at h
            cases h
          | false =>
            rw [hmay] at h
            have hnot := fun o ho => not_opens_append (Bool.eq_false_iff.mpr (any_eq_false.mp hopen o ho))
              (Bool.eq_false_iff.mpr (any_eq_false.mp hmay o ho)) s complete
            have hopens : openers.any (opens (first :: (rest ++ s)) complete) = false :=
              any_eq_false.mpr fun o ho => Bool.eq_false_iff.mp (hnot o ho).1
            have hmays : openers.any (mayOpen (first :: (rest ++ s)) complete) = false :=
              any_eq_false.mpr fun o ho => Bool.eq_false_iff.mp (hnot o ho).2
            rw [hopens, hmays]
            exact shape_append h s complete

theorem planning_complete (line : Text) : ∃ b, planning line true = some b := by
  unfold planning
  cases trimStart line with
  | nil => exact ⟨false, rfl⟩
  | cons first rest =>
    dsimp only
    split
    · exact ⟨true, rfl⟩
    · split
      · exact ⟨false, rfl⟩
      · split
        · exact ⟨true, rfl⟩
        · split
          · next hmay =>
            obtain ⟨o, -, ho⟩ := any_eq_true.mp hmay
            cases ho
          · unfold shape
            dsimp only
            split
            · split
              · exact ⟨_, rfl⟩
              · exact ⟨false, rfl⟩
            · exact ⟨false, if_neg fun h => by cases h.2⟩

/-! ### What the guard stands for -/

/-- The reasoning and the reply, and what the rest of a response depends on. -/
structure Told where
  r : Text
  c : Text
  reasoningOut : Bool
  moved : Bool
  movedText : Text
  spoke : Bool
  wait : Option Text
  goodbye : Option Text

def bodyOf (piece : Text × Bool) : Text := if piece.2 then piece.1.dropLast else piece.1

namespace Told

/-- a line of planning, or its start, behind the other reasoning -/
def move (s : Told) (body : Text) : Told :=
  { s with r := s.r ++ ((if s.reasoningOut then ['\n'] else []) ++ trimStart body), reasoningOut := true, moved := true,
           movedText := s.movedText ++ trimStart body }

def speak (s : Told) (p : Text) : Told := { s with c := s.c ++ p, spoke := s.spoke || !p.all isWhitespace }

def tell (s : Told) (piece : Text × Bool) : Told :=
  if planning (bodyOf piece) true = some true then s.move (bodyOf piece) else s.speak piece.1

def start (s : Told) (last : Text) : Told :=
  match planning last false with
  | none => s
  | some true => s.move last
  | some false => s.speak last

end Told

def ReplyGuard.told (g : ReplyGuard) : Told :=
  ⟨g.r, g.c, g.reasoningOut, g.moved, g.movedText, g.spoke, g.wait, g.goodbye⟩

variable {g : ReplyGuard} {s₀ : Told} {last p : Text}

theorem told_speak (alnum : Char → Bool) (g : ReplyGuard) (p : Text) : (g.speak alnum p).told = g.told.speak p ∧
    (g.speak alnum p).line = g.line ∧ (g.speak alnum p).state = g.state := by
  unfold ReplyGuard.speak
  dsimp only
  split
  · exact ⟨rfl, rfl, rfl⟩
  · split <;> exact ⟨rfl, rfl, rfl⟩

theorem strip_line (h : '\n' ∉ p) : (p.reverse.dropWhile (· == '\n')).reverse = p := by
  rw [dropWhile_eq_self_iff.mpr, reverse_reverse]
  intro hlen hnl
  have hmem := mem_reverse.mp (get_mem p.reverse ⟨0, hlen⟩)
  rw [get_eq_getElem, eq_of_beq hnl] at hmem
  exact h hmem

theorem strip_newline (h : '\n' ∉ p) : ((p ++ ['\n']).reverse.dropWhile (· == '\n')).reverse = p := by
  rw [reverse_append, reverse_singleton, singleton_append, dropWhile_cons_of_pos rfl]
  exact strip_line h

/-- The guard has read the lines of `s`, and the start of the next one. -/
structure At (s : Told) (last : Text) (g : ReplyGuard) : Prop where
  line : g.line = if planning last false = none then last else []
  state : g.state = match planning last false with
    | none => .undecided
    | some true => .move
    | some false => .speak
  told : g.told = s.start last

theorem not_mem_trimStart (h : '\n' ∉ p) : '\n' ∉ trimStart p := fun hmem =>
  h ((dropWhile_sublist _).subset hmem)

theorem settle_spec (alnum : Char → Bool) (g : ReplyGuard) (plan : Bool) {line body : Text} (hg : g.line = line) (hbody : '\n' ∉ body)
    (hline : line = body ∨ line = body ++ ['\n']) (hplan : plan = true → trimStart body ≠ []) :
    (g.settle alnum plan).line = [] ∧ (g.settle alnum plan).state = (if plan then .move else .speak) ∧
      (g.settle alnum plan).told = if plan then g.told.move body else g.told.speak line := by
  unfold ReplyGuard.settle
  dsimp only
  rw [hg]
  cases plan with
  | false =>
    obtain ⟨ht, hl, hs⟩ := told_speak alnum { g with line := [], state := .speak } line
    exact ⟨hl, hs, ht⟩
  | true =>
    have hstrip : ((trimStart line).reverse.dropWhile (· == '\n')).reverse = trimStart body := by
      rcases hline with rfl | rfl
      · exact strip_line (not_mem_trimStart hbody)
      · rw [trimStart_append (hplan rfl)]
        exact strip_newline (not_mem_trimStart hbody)
    refine ⟨rfl, rfl, ?_⟩
    unfold ReplyGuard.moveText ReplyGuard.told Told.move
    dsimp only
    rw [hstrip]
    cases g.reasoningOut with
    | true => simp
    | false => simp

/-- one more piece of the line -/
theorem At.piece (h : At s₀ last g) (alnum : Char → Bool) (hlast : '\n' ∉ last) (hp : '\n' ∉ p) :
    At s₀ (last ++ p) (g.pushPiece alnum (p, false)) := by
  have hboth : '\n' ∉ last ++ p := fun hmem => (mem_append.mp hmem).elim hlast hp
  unfold ReplyGuard.pushPiece
  dsimp only
  rw [if_neg Bool.false_ne_true, h.state]
  cases hd : planning last false with
  | some b =>
    have hd' := planning_append hd p false
    have hline := h.line
    have htold := h.told
    rw [hd, if_neg (by simp)] at hline
    unfold Told.start at htold
    rw [hd] at htold
    cases b with
    | true =>
      dsimp only at htold ⊢
      refine ⟨?_, ?_, ?_⟩
      · rw [hd', if_neg (by simp)]
        exact hline
      · rw [hd']
        exact h.state.trans (by rw [hd])
      · unfold Told.start
        rw [hd']
        unfold ReplyGuard.moveText ReplyGuard.told at *
        dsimp only at htold ⊢
        rw [strip_line hp]
        unfold Told.move at htold ⊢
        simp only [Told.mk.injEq] at htold ⊢
        rw [trimStart_append (trimStart_ne_nil hd)]
        simp [htold]
    | false =>
      dsimp only at htold ⊢
      obtain ⟨ht, hl, hs⟩ := told_speak alnum g p
      refine ⟨?_, ?_, ?_⟩
      · rw [hl, hd', if_neg (by simp)]
        exact hline
      · rw [hs, hd']
        exact h.state.trans (by rw [hd])
      · unfold Told.start
        rw [ht, hd', htold]
        unfold Told.speak
        simp [Bool.or_assoc]
  | none =>
    have hline := h.line
    have htold := h.told
    rw [hd, if_pos rfl] at hline
    unfold Told.start at htold
    rw [hd] at htold
    dsimp only at htold ⊢
    rw [hline, strip_line hboth]
    cases hd' : planning (last ++ p) false with
    | none =>
      refine ⟨?_, ?_, ?_⟩
      · rw [hd', if_pos rfl]
      · rw [hd']
      · unfold Told.start
        rw [hd']
        exact htold
    | some b =>
      dsimp only
      obtain ⟨hl, hs, ht⟩ := settle_spec alnum { g with line := last ++ p, state := .undecided } b rfl hboth
        (.inl rfl) fun _ => trimStart_ne_nil hd'
      refine ⟨?_, ?_, ?_⟩
      · rw [hl, hd', if_neg (by simp)]
      · rw [hs, hd']
        cases b <;> rfl
      · unfold Told.start
        rw [ht, hd']
        have hsame : ({ g with line := last ++ p, state := .undecided } : ReplyGuard).told = s₀ := htold
        rw [hsame]
        cases b <;> rfl

theorem At.next {s : Told} (hline : g.line = []) (hstate : g.state = .undecided) (htold : g.told = s) : At s [] g where
  line := hline.trans (if_pos rfl).symm
  state := hstate
  told := htold

theorem tell_line (s : Told) (body : Text) : s.tell (body ++ ['\n'], true) =
    if planning body true = some true then s.move body else s.speak (body ++ ['\n']) := by
  unfold Told.tell bodyOf
  rw [if_pos rfl, dropLast_concat]

/-- the rest of the line, with its newline -/
theorem At.ended (h : At s₀ last g) (alnum : Char → Bool) (hlast : '\n' ∉ last) (hp : '\n' ∉ p) :
    At (s₀.tell (last ++ p ++ ['\n'], true)) [] (g.pushPiece alnum (p ++ ['\n'], true)) := by
  have hboth : '\n' ∉ last ++ p := fun hmem => (mem_append.mp hmem).elim hlast hp
  unfold ReplyGuard.pushPiece
  dsimp only
  rw [if_pos rfl, h.state, tell_line]
  have hline := h.line
  have htold := h.told
  unfold Told.start at htold
  cases hd : planning last false with
  | some b =>
    have hd' := planning_append hd p true
    rw [hd, if_neg (by simp)] at hline
    rw [hd] at htold
    cases b with
    | true =>
      rw [if_pos hd']
      refine At.next hline rfl ?_
      unfold ReplyGuard.moveText ReplyGuard.told at *
      dsimp only at htold ⊢
      rw [strip_newline hp]
      unfold Told.move at htold ⊢
      simp only [Told.mk.injEq] at htold ⊢
      rw [trimStart_append (trimStart_ne_nil hd)]
      simp [htold]
    | false =>
      rw [if_neg (by rw [hd']; simp)]
      obtain ⟨ht, hl, -⟩ := told_speak alnum g (p ++ ['\n'])
      refine At.next (hl.trans hline) rfl ?_
      show (g.speak alnum (p ++ ['\n'])).told = _
      rw [ht, htold]
      unfold Told.speak
      simp [Bool.or_assoc]
  | none =>
    rw [hd, if_pos rfl] at hline
    rw [hd] at htold
    dsimp only
    rw [hline, ← append_assoc, strip_newline hboth]
    obtain ⟨b, hd'⟩ := planning_complete (last ++ p)
    rw [hd']
    dsimp only
    obtain ⟨hl, -, ht⟩ := settle_spec alnum { g with line := last ++ p ++ ['\n'], state := .undecided } b rfl hboth
      (.inr rfl) fun hb => trimStart_of_plan (hb ▸ hd')
    refine At.next hl rfl ?_
    have hsame : ({ g with line := last ++ p ++ ['\n'], state := .undecided } : ReplyGuard).told = s₀ := htold
    rw [hsame] at ht
    refine ht.trans ?_
    cases b <;> rfl

/-! ### Pieces -/

theorem pieces_cons_newline (t : Text) : pieces ('\n' :: t) = (['\n'], true) :: pieces t := by
  rw [pieces, if_pos rfl]

/-- what stands before a newline, and what stands behind the last one -/
theorem pieces_spec (t : Text) : (pieces t).flatMap (·.1) = t ∧
    ∀ x ∈ pieces t, (x.2 = false ∧ '\n' ∉ x.1) ∨ x.2 = true ∧ ∃ p, x.1 = p ++ ['\n'] ∧ '\n' ∉ p := by
  induction t with
  | nil => exact ⟨rfl, fun _ => nofun⟩
  | cons c t ih =>
    obtain ⟨hflat, hall⟩ := ih
    unfold pieces
    split
    · next hc =>
      subst hc
      refine ⟨congrArg _ hflat, fun x hx => ?_⟩
      rcases mem_cons.mp hx with rfl | hx
      · exact .inr ⟨rfl, [], rfl, not_mem_nil⟩
      · exact hall x hx
    · next hc =>
      have hnot : '\n' ∉ [c] := fun hmem => hc (mem_singleton.mp hmem).symm
      split
      · next hnil =>
        rw [hnil] at hflat
        obtain rfl : t = [] := hflat.symm
        refine ⟨rfl, fun x hx => .inl ?_⟩
        obtain rfl := mem_singleton.mp hx
        exact ⟨rfl, hnot⟩
      · next p nl rest hcons =>
        rw [hcons] at hflat hall
        refine ⟨congrArg (c :: ·) hflat, fun x hx => ?_⟩
        rcases mem_cons.mp hx with rfl | hx
        · rcases hall (p, nl) mem_cons_self with ⟨hnl, hp⟩ | ⟨hnl, q, hq, hp⟩
          · exact .inl ⟨hnl, fun hmem => (mem_cons.mp hmem).elim (fun h => hc h.symm) hp⟩
          · refine .inr ⟨hnl, c :: q, congrArg (c :: ·) hq, fun hmem => ?_⟩
            exact (mem_cons.mp hmem).elim (fun h => hc h.symm) hp
        · exact hall x (mem_cons_of_mem _ hx)

theorem pieces_line (h : '\n' ∉ p) (t : Text) : pieces (p ++ '\n' :: t) = (p ++ ['\n'], true) :: pieces t := by
  induction p with
  | nil => exact pieces_cons_newline t
  | cons c p ih =>
    have hc : c ≠ '\n' := fun h0 => h (h0 ▸ mem_cons_self)
    rw [cons_append, pieces, if_neg hc, ih fun hmem => h (mem_cons_of_mem _ hmem)]
    rfl

theorem pieces_last (h : '\n' ∉ p) : pieces p = if p = [] then [] else [(p, false)] := by
  induction p with
  | nil => rfl
  | cons c p ih =>
    have hc : c ≠ '\n' := fun h0 => h (h0 ▸ mem_cons_self)
    rw [pieces, if_neg hc, ih fun hmem => h (mem_cons_of_mem _ hmem)]
    cases p <;> rfl

theorem pieces_lines {lines : List Text} (hl : ∀ l ∈ lines, '\n' ∉ l) (hlast : '\n' ∉ last) :
    pieces (lines.flatMap (· ++ ['\n']) ++ last) =
      lines.map (fun l => (l ++ ['\n'], true)) ++ if last = [] then [] else [(last, false)] := by
  induction lines with
  | nil => exact pieces_last hlast
  | cons l lines ih =>
    have hcut : (l :: lines).flatMap (· ++ ['\n']) ++ last = l ++ '\n' :: (lines.flatMap (· ++ ['\n']) ++ last) := by
      simp
    rw [hcut, pieces_line (hl l mem_cons_self), ih fun m hm => hl m (mem_cons_of_mem _ hm)]
    rfl

/-! ### The whole text -/

/-- The guard has read the text: its lines, and the start of the next one. -/
def Reads (s₀ : Told) (text : Text) (g : ReplyGuard) : Prop :=
  ∃ (lines : List Text) (last : Text), text = lines.flatMap (· ++ ['\n']) ++ last ∧ (∀ l ∈ lines, '\n' ∉ l) ∧
    '\n' ∉ last ∧ At ((lines.map fun l => (l ++ ['\n'], true)).foldl Told.tell s₀) last g

variable {text : Text} {x : Char}

theorem Reads.piece (h : Reads s₀ text g) (alnum : Char → Bool) {x : Text × Bool}
    (hx : (x.2 = false ∧ '\n' ∉ x.1) ∨ x.2 = true ∧ ∃ p, x.1 = p ++ ['\n'] ∧ '\n' ∉ p) :
    Reads s₀ (text ++ x.1) (g.pushPiece alnum x) := by
  obtain ⟨lines, last, rfl, hlines, hlast, hat⟩ := h
  obtain ⟨q, nl⟩ := x
  rcases hx with ⟨rfl, hq⟩ | ⟨rfl, p, rfl, hp⟩
  · have hboth : '\n' ∉ last ++ q := fun hmem => (mem_append.mp hmem).elim hlast hq
    exact ⟨lines, last ++ q, append_assoc .., hlines, hboth, hat.piece alnum hlast hq⟩
  · have hboth : '\n' ∉ last ++ p := fun hmem => (mem_append.mp hmem).elim hlast hp
    refine ⟨lines ++ [last ++ p], [], by simp, fun l hl => ?_, not_mem_nil, ?_⟩
    · rcases mem_append.mp hl with hl | hl
      · exact hlines l hl
      · exact mem_singleton.mp hl ▸ hboth
    · rw [map_append, foldl_append]
      exact hat.ended alnum hlast hp

theorem Reads.push (h : Reads s₀ text g) (alnum : Char → Bool) (t : Text) : Reads s₀ (text ++ t) (g.push alnum t) := by
  obtain ⟨hflat, hall⟩ := pieces_spec t
  have hfold : ∀ (xs : List (Text × Bool)) (text : Text) (g : ReplyGuard), Reads s₀ text g →
      (∀ x ∈ xs, (x.2 = false ∧ '\n' ∉ x.1) ∨ x.2 = true ∧ ∃ p, x.1 = p ++ ['\n'] ∧ '\n' ∉ p) →
        Reads s₀ (text ++ xs.flatMap (·.1)) (xs.foldl (ReplyGuard.pushPiece alnum) g) := by
    intro xs
    induction xs with
    | nil =>
      intro text g h _
      rwa [flatMap_nil, append_nil]
    | cons x xs ih =>
      intro text g h hxs
      have hstep := ih _ _ (h.piece alnum (hxs x mem_cons_self)) fun y hy =>
        hxs y (mem_cons_of_mem _ hy)
      rwa [append_assoc] at hstep
  have hend := hfold (pieces t) text g h hall
  rwa [hflat] at hend

theorem Reads.pushes (h : Reads s₀ text g) (alnum : Char → Bool) (texts : List Text) :
    Reads s₀ (text ++ texts.flatten) (texts.foldl (ReplyGuard.push alnum) g) := by
  induction texts generalizing text g with
  | nil => rwa [flatten_nil, append_nil]
  | cons t texts ih =>
    have hstep := ih (h.push alnum t)
    rwa [append_assoc] at hstep

def ReplyGuard.settled (alnum : Char → Bool) (g : ReplyGuard) : ReplyGuard :=
  if g.state = .undecided ∧ g.line ≠ [] then g.settle alnum ((planning g.line true).getD false) else g

theorem Reads.settled (h : Reads s₀ text g) (alnum : Char → Bool) : (g.settled alnum).told = (pieces text).foldl Told.tell s₀ := by
  obtain ⟨lines, last, rfl, hlines, hlast, hat⟩ := h
  rw [pieces_lines hlines hlast, foldl_append]
  generalize (lines.map fun l => (l ++ ['\n'], true)).foldl Told.tell s₀ = s at hat ⊢
  have htell : ∀ b, planning last true = some b → s.tell (last, false) = if b then s.move last else s.speak last := by
    intro b hb
    unfold Told.tell bodyOf
    dsimp only
    rw [if_neg Bool.false_ne_true, hb]
    cases b <;> rfl
  have hline := hat.line
  have hstate := hat.state
  have htold := hat.told
  unfold Told.start at htold
  unfold ReplyGuard.settled
  cases hd : planning last false with
  | some b =>
    have hne : last ≠ [] := by
      intro h0
      subst h0
      cases hd
    rw [hd] at hstate htold
    have hno : ¬ (g.state = .undecided ∧ g.line ≠ []) := by
      rw [hstate]
      cases b <;> exact fun h => by cases h.1
    rw [if_neg hno, if_neg hne, foldl_cons, foldl_nil, htell b (by
      have := planning_append hd [] true
      rwa [append_nil] at this)]
    cases b <;> exact htold
  | none =>
    rw [hd, if_pos rfl] at hline
    rw [hd] at hstate htold
    by_cases hne : last = []
    · rw [if_neg fun h => h.2 (hline.trans hne), if_pos hne]
      exact htold
    · obtain ⟨b, hb⟩ := planning_complete last
      rw [if_pos ⟨hstate, fun h0 => hne (hline.symm.trans h0)⟩, if_neg hne, foldl_cons, foldl_nil, htell b hb,
        hline, hb]
      obtain ⟨-, -, ht⟩ := settle_spec alnum g b hline hlast (.inl rfl) fun hp => trimStart_of_plan (hp ▸ hb)
      show (g.settle alnum b).told = _
      rw [ht, htold]

/-- the reasoning, the reply, whether lines moved, and the fallback that a response ends with -/
def Told.finish (s : Told) (calls : Bool) : Told × Option Fallback :=
  if s.spoke || calls then (s, none)
  else
    match ReplyGuard.fallback s.movedText s.wait s.goodbye with
    | some (line, kind) => ({ s with c := s.c ++ line, spoke := true }, some kind)
    | none => (s, none)

theorem finish_told (alnum : Char → Bool) (g : ReplyGuard) (calls : Bool) :
    ((g.finish alnum calls).1.told, (g.finish alnum calls).2) = (g.settled alnum).told.finish calls := by
  unfold ReplyGuard.finish ReplyGuard.settled
  dsimp only
  generalize (if g.state = .undecided ∧ g.line ≠ [] then g.settle alnum ((planning g.line true).getD false) else g) = g'
  unfold Told.finish
  show _ = if g'.spoke || calls then _ else _
  split
  · rfl
  · show _ = match ReplyGuard.fallback g'.movedText g'.wait g'.goodbye with
      | some (line, kind) => _
      | none => _
    cases ReplyGuard.fallback g'.movedText g'.wait g'.goodbye <;> rfl

/-- what a response starts with -/
def Told.new (lines : Option GuardLines) (caller : Text) (trace : Bool) : Told :=
  ⟨[], [], trace, false, [], false, lines.bind fun l => pick l.wait (callerScript caller),
    lines.bind fun l => pick l.goodbye (callerScript caller)⟩

theorem respond_tells (alnum : Char → Bool) (lines : Option GuardLines) (caller : Text) (trace calls : Bool)
    (texts : List Text) :
    ((respond alnum lines caller trace calls texts).1.told, (respond alnum lines caller trace calls texts).2) =
      ((pieces texts.flatten).foldl Told.tell (Told.new lines caller trace)).finish calls := by
  unfold respond
  rw [finish_told]
  have hstart : Reads (Told.new lines caller trace) []
      (if trace then (ReplyGuard.new lines (callerScript caller)).noteReasoning
        else ReplyGuard.new lines (callerScript caller)) := by
    refine ⟨[], [], rfl, fun _ => nofun, not_mem_nil, ?_⟩
    cases trace <;> exact ⟨rfl, rfl, rfl⟩
  have hend := (hstart.pushes alnum texts).settled alnum
  rw [nil_append] at hend
  rw [hend]

/-! ### What becomes of the lines -/

def planned (piece : Text × Bool) : Bool := planning (bodyOf piece) true = some true

/-- texts, each on a line of its own; `out`: something stands before them -/
def joined : Bool → List Text → Text
  | _, [] => []
  | out, b :: bs => (if out then ['\n'] else []) ++ b ++ joined true bs

theorem foldl_tell (s : Told) (xs : List (Text × Bool)) :
    (xs.foldl Told.tell s).r = s.r ++ joined s.reasoningOut ((xs.filter planned).map fun x => trimStart (bodyOf x)) ∧
      (xs.foldl Told.tell s).c = s.c ++ (xs.filter fun x => !planned x).flatMap (·.1) ∧
        (xs.foldl Told.tell s).moved = (s.moved || xs.any planned) := by
  induction xs generalizing s with
  | nil => simp [joined]
  | cons x xs ih =>
    obtain ⟨hr, hc, hm⟩ := ih (s.tell x)
    rw [foldl_cons, hr, hc, hm]
    unfold Told.tell
    by_cases hx : planning (bodyOf x) true = some true
    · have hp : planned x = true := decide_eq_true hx
      rw [if_pos hx]
      simp [hp, joined, Told.move]
    · have hp : planned x = false := decide_eq_false hx
      rw [if_neg hx]
      simp [hp, Told.speak]

section

variable (hx : isWhitespace x = false)
include hx

theorem count_trimStart (t : Text) : (trimStart t).count x = t.count x := by
  unfold trimStart
  conv_rhs => rw [← takeWhile_append_dropWhile (p := isWhitespace) (l := t)]
  have hnone : (t.takeWhile isWhitespace).count x = 0 := by
    refine count_eq_zero.mpr fun hmem => ?_
    have hws := mem_takeWhile_imp hmem
    rw [hx] at hws
    cases hws
  rw [count_append, hnone, Nat.zero_add]

theorem count_joined (out : Bool) (bs : List Text) :
    (joined out bs).count x = (bs.map (count x)).sum := by
  have hnl : (['\n'] : Text).count x = 0 := by
    refine count_eq_zero.mpr fun hmem => ?_
    rw [mem_singleton.mp hmem] at hx
    exact absurd hx (by decide)
  induction bs generalizing out with
  | nil => rfl
  | cons b bs ih =>
    unfold joined
    rw [count_append, count_append, ih, map_cons, sum_cons]
    cases out with
    | true => rw [if_pos rfl, hnl, Nat.zero_add]
    | false => rw [if_neg Bool.false_ne_true, count_nil, Nat.zero_add]

theorem count_body {piece : Text × Bool}
    (h : (piece.2 = false ∧ '\n' ∉ piece.1) ∨ piece.2 = true ∧ ∃ p, piece.1 = p ++ ['\n'] ∧ '\n' ∉ p) :
    (bodyOf piece).count x = piece.1.count x := by
  unfold bodyOf
  rcases h with ⟨h, -⟩ | ⟨h, p, hp, -⟩
  · rw [h, if_neg Bool.false_ne_true]
  · have hne : x ≠ '\n' := by
      intro h0
      rw [h0] at hx
      exact absurd hx (by decide)
    rw [h, if_pos rfl, hp, dropLast_concat, count_append, count_singleton, if_neg (by simpa using hne.symm),
      Nat.add_zero]

theorem count_told (out : Bool) (text : Text) :
    text.count x = (joined out (((pieces text).filter planned).map fun y => trimStart (bodyOf y))).count x +
      (((pieces text).filter fun y => !planned y).flatMap (·.1)).count x := by
  obtain ⟨hflat, hall⟩ := pieces_spec text
  rw [count_joined hx]
  conv_lhs => rw [← hflat]
  generalize pieces text = xs at hall
  induction xs with
  | nil => rfl
  | cons y xs ih =>
    have hrest := ih fun z hz => hall z (mem_cons_of_mem _ hz)
    have hbody := count_body hx (hall y mem_cons_self)
    rw [flatMap_cons, count_append, hrest]
    cases hp : planned y with
    | true =>
      rw [filter_cons, if_pos hp, filter_cons, if_neg (by simp [hp]), map_cons, map_cons,
        sum_cons, count_trimStart hx, hbody]
      omega
    | false =>
      rw [filter_cons, if_neg (by simp [hp]), filter_cons, if_pos (by simp [hp]), flatMap_cons,
        count_append]
      omega

end

theorem Told.finish_spec (s : Told) (calls : Bool) : (s.finish calls).1.r = s.r ∧ (s.finish calls).1.moved = s.moved ∧
    ∃ line, (s.finish calls).1.c = s.c ++ line ∧ ((s.finish calls).2 = none → line = []) := by
  unfold Told.finish
  split
  · exact ⟨rfl, rfl, [], (append_nil _).symm, fun _ => rfl⟩
  · split
    · exact ⟨rfl, rfl, _, rfl, nofun⟩
    · exact ⟨rfl, rfl, [], (append_nil _).symm, fun _ => rfl⟩

/-- However its text is cut, a response has the same reasoning, reply and fallback.  Its planning lines are
the reasoning, each on a line of its own and without the white space before it, and its other lines, whole and
in order, are the reply; a fallback line follows them.  No other character is lost or there twice. -/
theorem guard_chunks (alnum : Char → Bool) (lines : Option GuardLines) (caller : Text) (trace calls : Bool)
    (texts : List Text) :
    let split := respond alnum lines caller trace calls texts
    let whole := respond alnum lines caller trace calls [texts.flatten]
    let spoken := ((pieces texts.flatten).filter fun x => !planned x).flatMap (·.1)
    (split.1.r = whole.1.r ∧ split.1.c = whole.1.c ∧ split.1.moved = whole.1.moved ∧ split.2 = whole.2) ∧
      split.1.r = joined trace (((pieces texts.flatten).filter planned).map fun x => trimStart (bodyOf x)) ∧
      (∃ line, split.1.c = spoken ++ line ∧ (split.2 = none → line = [])) ∧
      (split.1.moved = (pieces texts.flatten).any planned) ∧
      ∀ x, isWhitespace x = false → texts.flatten.count x = split.1.r.count x + spoken.count x := by
  intro split whole spoken
  have hsplit := respond_tells alnum lines caller trace calls texts
  have hwhole := respond_tells alnum lines caller trace calls [texts.flatten]
  rw [flatten_singleton] at hwhole
  obtain ⟨htold, hkind⟩ := Prod.mk.inj (hsplit.trans hwhole.symm)
  obtain ⟨hr, hc, hm⟩ := foldl_tell (Told.new lines caller trace) (pieces texts.flatten)
  obtain ⟨hfr, hfm, line, hfc, hnone⟩ :=
    ((pieces texts.flatten).foldl Told.tell (Told.new lines caller trace)).finish_spec calls
  have hsr : split.1.r = joined trace (((pieces texts.flatten).filter planned).map fun x => trimStart (bodyOf x)) :=
    (congrArg (fun x : Told × Option Fallback => x.1.r) hsplit).trans (hfr.trans hr)
  refine ⟨⟨congrArg Told.r htold, congrArg Told.c htold, congrArg Told.moved htold, hkind⟩, hsr, ⟨line, ?_, fun h => ?_⟩,
    ?_, fun x hx => ?_⟩
  · refine (congrArg (fun x : Told × Option Fallback => x.1.c) hsplit).trans (hfc.trans ?_)
    rw [hc]
    rfl
  · exact hnone ((congrArg Prod.snd hsplit).symm.trans h)
  · exact (congrArg (fun x : Told × Option Fallback => x.1.moved) hsplit).trans (hfm.trans hm)
  · rw [hsr]
    exact count_told hx trace texts.flatten

/-- A moved line loses its newline; and the first word of what is spoken is read in the text that it begins
in. -/
theorem guard_chunks_differ : (¬ ∀ (texts : List Text) (x : Char), texts.flatten.count x =
      ((respond Char.isAlphanum none [] false false texts).1.r ++
        (respond Char.isAlphanum none [] false false texts).1.c).count x) ∧
    ¬ ∀ texts : List Text, (respond Char.isAlphanum none [] false false texts).1.answerReasoning =
      (respond Char.isAlphanum none [] false false [texts.flatten]).1.answerReasoning := by
  constructor
  · exact fun h => absurd (h ["*a\nb".toList] '\n') (by decide +kernel)
  · exact fun h => absurd (h ["'wa".toList, "it, what?".toList]) (by decide +kernel)

end Plow.Reply
