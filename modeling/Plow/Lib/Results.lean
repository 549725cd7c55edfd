import Mathlib

/-!
# Results of fallible code

Rules for `Except` as the result type of straight-line code: a chain of binds returns a value if
and only if each of its steps does.  For `Option` there are the rules of the two loops, `mapM` and
`foldlM`.
-/

namespace Plow.Lib

/-! ### Closed instances, so that a definition that uses one holds no proof of its own -/

instance neZero_two : NeZero 2 := ⟨by decide⟩
instance neZero_three : NeZero 3 := ⟨by decide⟩
instance neZero_eight : NeZero 8 := ⟨by decide⟩
instance lawfulBEq_pair : LawfulBEq (ℕ × ℕ) := inferInstance

open List Option

variable {ε α β : Type} {l : List α} {f : α → Except ε β} {ys : List β} {P : List α → β → Prop}
  {x : Except ε α} {c : Prop}

theorem bind_ok {c : β} : (x >>= f) = .ok c ↔ ∃ a, x = .ok a ∧ f a = .ok c := by
  cases x with
  | error e => exact ⟨(fun h => nomatch h), (fun ⟨_, h, _⟩ => nomatch h)⟩
  | ok a => exact ⟨fun h => ⟨a, rfl, h⟩, fun ⟨_, h1, h2⟩ => by cases h1; exact h2⟩

theorem pure_ok {a c : α} : (pure a : Except ε α) = .ok c ↔ a = c :=
  ⟨fun h => Except.ok.inj h, fun h => by rw [h]; rfl⟩

theorem ok_bind (a : α) (f : α → Except ε β) : (Except.ok a >>= f) = f a := rfl

theorem ite_error_ok [Decidable c] {e : ε} {a : α} :
    (if c then .error e else x) = .ok a ↔ ¬ c ∧ x = .ok a := by
  split
  · next h => exact ⟨(fun e => nomatch e), fun e => absurd h e.1⟩
  · next h => exact ⟨fun e => ⟨h, e⟩, fun e => e.2⟩

def ensure (c : Prop) [Decidable c] (e : ε) : Except ε Unit := if c then .ok () else .error e

theorem ensure_ok [Decidable c] {e : ε} : ensure c e = .ok () ↔ c := by
  unfold ensure
  split
  · next h => exact ⟨fun _ => h, fun _ => rfl⟩
  · next h => exact ⟨(fun e => nomatch e), fun e => absurd e h⟩

theorem mapM_ok {g : α → β} (h : ∀ x ∈ l, f x = .ok (g x)) : l.mapM f = .ok (l.map g) := by
  induction l with
  | nil => rfl
  | cons x l ih =>
    rw [mapM_cons, h x mem_cons_self, ih fun y hy => h y (mem_cons_of_mem _ hy)]
    rfl

theorem mapM_iff : l.mapM f = .ok ys ↔ List.Forall₂ (fun x y => f x = .ok y) l ys := by
  induction l generalizing ys with
  | nil => exact ⟨fun h => by cases h; exact .nil, fun h => by cases h; rfl⟩
  | cons x l ih =>
    rw [mapM_cons, bind_ok]
    constructor
    · intro ⟨y, hy, h⟩
      obtain ⟨zs, hz, h⟩ := bind_ok.mp h
      cases h
      exact .cons hy (ih.mp hz)
    · intro h
      cases h with
      | cons hy h => exact ⟨_, hy, bind_ok.mpr ⟨_, ih.mpr h, rfl⟩⟩

theorem mapM_mem (h : l.mapM f = .ok ys) {x : α} (hx : x ∈ l) : ∃ y ∈ ys, f x = .ok y := by
  induction mapM_iff.mp h with
  | nil => cases hx
  | cons hy _ ih =>
    rcases mem_cons.mp hx with rfl | hx
    · exact ⟨_, mem_cons_self, hy⟩
    · obtain ⟨y, hm, hy⟩ := ih (mapM_iff.mpr ‹_›) hx
      exact ⟨y, mem_cons_of_mem _ hm, hy⟩

theorem mem_of_mapM (h : l.mapM f = .ok ys) {y : β} (hy : y ∈ ys) : ∃ x ∈ l, f x = .ok y := by
  induction mapM_iff.mp h with
  | nil => cases hy
  | cons hx _ ih =>
    rcases mem_cons.mp hy with rfl | hy
    · exact ⟨_, mem_cons_self, hx⟩
    · obtain ⟨x, hm, hx⟩ := ih (mapM_iff.mpr ‹_›) hy
      exact ⟨x, mem_cons_of_mem _ hm, hx⟩

theorem forM_ok {f : α → Except ε Unit} : l.forM f = .ok () ↔ ∀ x ∈ l, f x = .ok () := by
  induction l with
  | nil => simp [pure, Except.pure]
  | cons x l ih =>
    show (f x >>= fun _ => l.forM f) = .ok () ↔ _
    rw [bind_ok, forall_mem_cons, ← ih]
    exact ⟨fun ⟨_, h⟩ => h, fun h => ⟨(), h⟩⟩

theorem exceptFoldlM_ind {f : β → α → Except ε β} {b b' : β}
    (h : l.foldlM f b = .ok b') (h0 : P [] b)
    (hstep : ∀ done a c c', done ++ [a] <+: l → P done c → f c a = .ok c' → P (done ++ [a]) c') :
    P l b' := by
  have hall : ∀ rest done c, done ++ rest = l → P done c → rest.foldlM f c = .ok b' → P l b' := by
    intro rest
    induction rest with
    | nil =>
      intro done c he hP hf
      cases hf
      rwa [← he, append_nil]
    | cons a rest ih =>
      intro done c he hP hf
      rw [foldlM_cons] at hf
      obtain ⟨c', hc, hf⟩ := bind_ok.mp hf
      have he' : (done ++ [a]) ++ rest = l := by rw [append_assoc, singleton_append, he]
      exact ih (done ++ [a]) c' he' (hstep done a c c' ⟨rest, he'⟩ hP hc) hf
  exact hall l [] b rfl h0 h

/-! ### Options -/

theorem optionMapM_iff {f : α → Option β} :
    l.mapM f = some ys ↔ List.Forall₂ (fun x y => f x = some y) l ys := by
  induction l generalizing ys with
  | nil => exact ⟨fun h => by cases h; exact .nil, fun h => by cases h; rfl⟩
  | cons x l ih =>
    rw [mapM_cons, bind_eq_bind, bind_eq_some_iff]
    constructor
    · intro ⟨y, hy, h⟩
      obtain ⟨zs, hz, h⟩ := bind_eq_some_iff.mp h
      cases h
      exact .cons hy (ih.mp hz)
    · intro h
      cases h with
      | cons hy h => exact ⟨_, hy, bind_eq_some_iff.mpr ⟨_, ih.mpr h, rfl⟩⟩

theorem mem_of_optionMapM {f : α → Option β} (h : l.mapM f = some ys)
    {y : β} (hy : y ∈ ys) : ∃ x ∈ l, f x = some y := by
  induction optionMapM_iff.mp h with
  | nil => cases hy
  | cons hx _ ih =>
    rcases mem_cons.mp hy with rfl | hy
    · exact ⟨_, mem_cons_self, hx⟩
    · obtain ⟨x, hm, hx⟩ := ih (optionMapM_iff.mpr ‹_›) hy
      exact ⟨x, mem_cons_of_mem _ hm, hx⟩

theorem optionMapM_some {f : α → Option β} (h : ∀ x ∈ l, ∃ y, f x = some y) :
    ∃ ys, l.mapM f = some ys := by
  induction l with
  | nil => exact ⟨[], rfl⟩
  | cons x l ih =>
    obtain ⟨hx, h⟩ := forall_mem_cons.mp h
    obtain ⟨y, hy⟩ := hx
    obtain ⟨ys, hys⟩ := ih h
    exact ⟨y :: ys, by rw [mapM_cons, hy, hys]; rfl⟩

theorem foldlM_ind {f : β → α → Option β} {b b' : β} (h : l.foldlM f b = some b') (h0 : P [] b)
    (hstep : ∀ done a c c', done ++ [a] <+: l → P done c → f c a = some c' → P (done ++ [a]) c') :
    P l b' := by
  have hall : ∀ rest done c, done ++ rest = l → P done c → rest.foldlM f c = some b' → P l b' := by
    intro rest
    induction rest with
    | nil =>
      intro done c he hP hf
      cases hf
      rwa [← he, append_nil]
    | cons a rest ih =>
      intro done c he hP hf
      rw [foldlM_cons, bind_eq_bind] at hf
      obtain ⟨c', hc, hf⟩ := bind_eq_some_iff.mp hf
      have he' : (done ++ [a]) ++ rest = l := by rw [append_assoc, singleton_append, he]
      exact ih (done ++ [a]) c' he' (hstep done a c c' ⟨rest, he'⟩ hP hc) hf
  exact hall l [] b rfl h0 h

end Plow.Lib

/-!
# Loops that admit their elements one by one

A loop takes elements into a state `σ`, one turn each, and may refuse one.  `Turns` says what one
turn does: it accepts an element exactly when the element is `Ok`, is related to every element
before it and has room, and then does `push`.  The loop then accepts a list exactly when the list
is `Guarded`, and is a fold of `push` (`IsLoop.iff`).  `guarded_iff` is the same condition without the order of the turns.
-/

namespace Plow.Lib
variable {α σ ε : Type}

/-- The loop with the turn `one`; its first list holds the elements of the turns before. -/
structure IsLoop (loop : List α → List α → σ → Except ε σ)
    (one : List α → α → σ → Except ε σ) : Prop where
  nil : ∀ prior s, loop prior [] s = .ok s
  cons : ∀ prior a as s, loop prior (a :: as) s = one prior a s >>= loop (prior ++ [a]) as

/-- What one turn does.  `size` is the room taken in a state, `I` what the turns rely on, `P` what
is known of the elements. -/
structure Turns (one : List α → α → σ → Except ε σ) (Ok P : α → Prop) (Rel : α → α → Prop)
    (Room : Nat → Nat → Prop) (len : α → Nat) (push : σ → α → σ) (size : σ → Nat)
    (I : List α → σ → Prop) : Prop where
  turn : ∀ {prior a s s'}, I prior s → P a → (one prior a s = .ok s' ↔
    Ok a ∧ (∀ p ∈ prior, Rel p a) ∧ Room (size s) (len a) ∧ s' = push s a)
  inv : ∀ {prior a s}, I prior s → P a → I (prior ++ [a]) (push s a)
  room : ∀ {a s}, P a → size (push s a) = size s + len a

/-- what is asked of the elements, with `n` of the room taken and `prior` elements admitted -/
def Guarded (Ok : α → Prop) (Rel : α → α → Prop) (Room : Nat → Nat → Prop) (len : α → Nat) :
    List α → List α → Nat → Prop
  | _, [], _ => True
  | prior, a :: as, n =>
    Ok a ∧ (∀ p ∈ prior, Rel p a) ∧ Room n (len a) ∧
      Guarded Ok Rel Room len (prior ++ [a]) as (n + len a)

variable {Ok P : α → Prop} {Rel : α → α → Prop} {Room : Nat → Nat → Prop} {len : α → Nat}
  {loop : List α → List α → σ → Except ε σ} {one : List α → α → σ → Except ε σ}
  {push : σ → α → σ} {size : σ → Nat} {I : List α → σ → Prop} {prior as : List α} {n cap : Nat}

theorem IsLoop.iff (L : IsLoop loop one) (T : Turns one Ok P Rel Room len push size I)
    (prior : List α) (s s' : σ) (hs : I prior s) (hP : ∀ a ∈ as, P a) : loop prior as s = .ok s' ↔
      Guarded Ok Rel Room len prior as (size s) ∧ s' = as.foldl push s := by
  induction as generalizing prior s with
  | nil =>
    rw [L.nil, List.foldl_nil]
    exact ⟨fun h => ⟨trivial, (Except.ok.inj h).symm⟩, fun h => by rw [h.2]⟩
  | cons a as ih =>
    obtain ⟨ha, hP⟩ := List.forall_mem_cons.mp hP
    rw [L.cons, bind_ok]
    constructor
    · rintro ⟨t, h1, h2⟩
      obtain ⟨hok, hrel, hroom, rfl⟩ := (T.turn hs ha).mp h1
      obtain ⟨hg, rfl⟩ := (ih _ _ (T.inv hs ha) hP).mp h2
      exact ⟨⟨hok, hrel, hroom, T.room ha ▸ hg⟩, rfl⟩
    · rintro ⟨⟨hok, hrel, hroom, hg⟩, rfl⟩
      refine ⟨_, (T.turn hs ha).mpr ⟨hok, hrel, hroom, rfl⟩, ?_⟩
      exact (ih _ _ (T.inv hs ha) hP).mpr ⟨T.room ha ▸ hg, rfl⟩

section

variable (h : Guarded Ok Rel Room len prior as n)
include h

theorem Guarded.all : ∀ a ∈ as, Ok a := by
  induction as generalizing prior n with
  | nil => simp
  | cons a as ih => exact List.forall_mem_cons.mpr ⟨h.1, ih h.2.2.2⟩

theorem Guarded.pairwise :
    (∀ p ∈ prior, ∀ a ∈ as, Rel p a) ∧ as.Pairwise Rel := by
  induction as generalizing prior n with
  | nil => exact ⟨fun _ _ => nofun, .nil⟩
  | cons a as ih =>
    obtain ⟨-, hprior, -, hrest⟩ := h
    obtain ⟨hbefore, hpair⟩ := ih hrest
    refine ⟨fun p hp b hb => ?_, List.pairwise_cons.mpr ⟨hbefore a (by simp), hpair⟩⟩
    rcases List.mem_cons.mp hb with rfl | hb
    · exact hprior p hp
    · exact hbefore p (List.mem_append_left _ hp) b hb

theorem Guarded.fits (hroom : ∀ n l, Room n l → n + l ≤ cap)
    (hne : as ≠ []) : n + (as.map len).sum ≤ cap := by
  induction as generalizing prior n with
  | nil => exact absurd rfl hne
  | cons a as ih =>
    have h0 := hroom _ _ h.2.2.1
    rw [List.map_cons, List.sum_cons]
    by_cases hn : as = []
    · rw [hn]
      simpa using h0
    · have := ih h.2.2.2 hn
      omega

end

theorem guarded_iff (hroom : ∀ n l, Room n l ↔ n + l ≤ cap) : Guarded Ok Rel Room len prior as n ↔
      (∀ a ∈ as, Ok a) ∧ (∀ p ∈ prior, ∀ a ∈ as, Rel p a) ∧ as.Pairwise Rel ∧
        (as ≠ [] → n + (as.map len).sum ≤ cap) := by
  induction as generalizing prior n with
  | nil => simp [Guarded]
  | cons a as ih =>
    constructor
    · intro h
      have hfit := h.fits (fun n l => (hroom n l).mp) (List.cons_ne_nil a as)
      obtain ⟨h1, h2, -, h4⟩ := h
      obtain ⟨g1, g2, g3, -⟩ := ih.mp h4
      refine ⟨List.forall_mem_cons.mpr ⟨h1, g1⟩, fun p hp => ?_, ?_, fun _ => hfit⟩
      · exact List.forall_mem_cons.mpr ⟨h2 p hp, g2 p (List.mem_append_left _ hp)⟩
      · exact List.pairwise_cons.mpr ⟨g2 a (by simp), g3⟩
    · rintro ⟨h1, h2, h3, h4⟩
      obtain ⟨ha, h1⟩ := List.forall_mem_cons.mp h1
      obtain ⟨h3a, h3⟩ := List.pairwise_cons.mp h3
      have h4 := h4 (List.cons_ne_nil a as)
      rw [List.map_cons, List.sum_cons] at h4
      refine ⟨ha, fun p hp => h2 p hp a List.mem_cons_self, (hroom _ _).mpr (by omega), ?_⟩
      refine ih.mpr ⟨h1, fun p hp => ?_, h3, fun _ => by omega⟩
      rcases List.mem_append.mp hp with hp | hp
      · exact fun b hb => h2 p hp b (List.mem_cons_of_mem _ hb)
      · rw [List.mem_singleton.mp hp]
        exact h3a

end Plow.Lib

/-!
# Pairs of runs

Relational rules for `Except`: `Both R x y` says that the values of two runs are related where both
return, and `Fails P x` that the error of a run has the property.  Each is closed under the ways in
which straight-line code and its loops are put together.
-/

namespace Plow.Lib
variable {ε ε' α α' β β' σ σ' γ : Type}

/-! ### Values of two runs -/

variable {R : α → β → Prop} {S : α' → β' → Prop} {x : Except ε α} {y : Except ε' β}
  {f : α → Except ε α'} {g : β → Except ε' β'}

variable {P : ε → Prop}

end Plow.Lib
