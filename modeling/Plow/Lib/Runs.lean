import Mathlib

/-!
# Runs of a machine

A machine is a partial step function: `step s o = some s'` when the operation `o` is possible in `s`.
`exec step s os` does the operations `os` one after the other; `Each step cond s os` says that every
one of them meets `cond` in the state it starts from.

* `exec_inv`      what each step keeps, a run keeps;
* `exec_inv_of`   the same for the runs whose steps all meet a condition.

A condition that can be decided can be decided for a whole run.
-/

namespace Plow.Lib

variable {S O : Type*} (step : S → O → Option S)

def exec : S → List O → Option S
  | s, [] => some s
  | s, o :: os => (step s o).bind (fun s' => exec s' os)

def Each (cond : S → O → Prop) : S → List O → Prop
  | _, [] => True
  | s, o :: os => cond s o ∧ ∀ s', step s o = some s' → Each cond s' os

variable {step} {P : S → Prop} {cond cond' : S → O → Prop} {os : List O} {s s' : S}

theorem exec_cons {o : O} (h : exec step s (o :: os) = some s') :
    ∃ t, step s o = some t ∧ exec step t os = some s' := Option.bind_eq_some_iff.mp h

theorem exec_inv_of (hP : ∀ s o s', P s → cond s o → step s o = some s' → P s')
    (h : P s) (hc : Each step cond s os) (he : exec step s os = some s') : P s' := by
  induction os generalizing s with
  | nil =>
    cases he
    exact h
  | cons o os ih =>
    obtain ⟨t, ht, he'⟩ := exec_cons he
    exact ih (hP s o t h hc.1 ht) (hc.2 t ht) he'

theorem Each.and (h : Each step cond s os)
    (h' : Each step cond' s os) : Each step (fun s o => cond s o ∧ cond' s o) s os := by
  induction os generalizing s with
  | nil => exact trivial
  | cons o os ih => exact ⟨⟨h.1, h'.1⟩, fun t ht => ih (h.2 t ht) (h'.2 t ht)⟩

instance Each.decidable [∀ s o, Decidable (cond s o)] :
    ∀ (s : S) (os : List O), Decidable (Each step cond s os)
  | _, [] => .isTrue trivial
  | s, o :: os =>
    match h : step s o with
    | none => decidable_of_iff (cond s o)
        ⟨fun hc => ⟨hc, fun s' hs => by rw [h] at hs; cases hs⟩, And.left⟩
    | some t =>
      have := Each.decidable t os
      decidable_of_iff (cond s o ∧ Each step cond t os)
        ⟨fun hc => ⟨hc.1, fun s' hs => Option.some.inj (h.symm.trans hs) ▸ hc.2⟩,
          fun hc => ⟨hc.1, hc.2 t h⟩⟩

theorem each_true (s : S) (os : List O) : Each step (fun _ _ => True) s os := by
  induction os generalizing s with
  | nil => exact trivial
  | cons o os ih => exact ⟨trivial, fun s' _ => ih s'⟩

theorem each_of_forall {cond : O → Prop} (h : ∀ o ∈ os, cond o) :
    Each step (fun _ o => cond o) s os := by
  induction os generalizing s with
  | nil => exact trivial
  | cons o os ih =>
    exact ⟨h o List.mem_cons_self, fun _ _ => ih fun o' ho => h o' (List.mem_cons_of_mem _ ho)⟩

theorem exec_inv (hP : ∀ s o s', P s → step s o = some s' → P s') (h : P s)
    (he : exec step s os = some s') : P s' :=
  exec_inv_of (fun s o s' h _ => hP s o s' h) h (each_true s os) he

end Plow.Lib
