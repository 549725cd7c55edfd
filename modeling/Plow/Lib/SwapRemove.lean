import Mathlib

/-!
# Removal by swapping

`swapRemove l i` takes the element at `i` out of `l` and puts the last one in its place: but for the
order, the rest of the list stays.
-/

namespace Plow.Lib

open List

/-- `Vec::swap_remove` -/
def swapRemove {α : Type} (l : List α) (i : Nat) : List α :=
  match l.getLast? with
  | none => []
  | some last => (l.set i last).dropLast

theorem swapRemove_subperm {α : Type} (l : List α) (i : Nat) : Subperm (swapRemove l i) l := by
  rcases eq_nil_or_concat l with rfl | ⟨init, last, rfl⟩
  · exact Subperm.refl _
  · unfold swapRemove
    rw [concat_eq_append, getLast?_concat]
    show Subperm ((init ++ [last]).set i last).dropLast (init ++ [last])
    rw [set_append]
    split
    · next hi =>
      rw [dropLast_concat]
      have hperm : (init.set i last).Perm (last :: init.eraseIdx i) := by
        rw [set_eq_take_append_cons_drop, if_pos hi, eraseIdx_eq_take_drop_succ]
        exact perm_middle
      have hsub : (last :: init.eraseIdx i).Subperm (last :: init) :=
        (Sublist.cons_cons last (eraseIdx_sublist init i)).subperm
      exact (hperm.subperm.trans hsub).trans (perm_append_singleton last init).symm.subperm
    · rw [dropLast_append_of_ne_nil (by simp)]
      have : ([last].set (i - init.length) last).dropLast = [] := by
        cases i - init.length <;> rfl
      rw [this, append_nil]
      exact (sublist_append_left init [last]).subperm

theorem swapRemove_perm {α : Type} {l : List α} {i : Nat} {a : α} (h : l[i]? = some a) :
    (a :: swapRemove l i).Perm l := by
  rcases eq_nil_or_concat l with rfl | ⟨init, last, rfl⟩
  · cases h
  · rw [concat_eq_append] at *
    obtain ⟨hi, rfl⟩ := List.getElem?_eq_some_iff.mp h
    unfold swapRemove
    rw [getLast?_concat]
    show (_ :: ((init ++ [last]).set i last).dropLast).Perm (init ++ [last])
    rw [set_append]
    split
    · next hlt =>
      have hset : (init[i] :: init.set i last).Perm (last :: init) := by
        rw [set_eq_take_append_cons_drop, if_pos hlt]
        have hl : init = init.take i ++ init[i] :: init.drop (i + 1) := by
          rw [getElem_cons_drop, take_append_drop]
        have h1 : (last :: init).Perm (last :: init[i] :: (init.take i ++ init.drop (i + 1))) := by
          refine Perm.cons _ ?_
          conv_lhs => rw [hl]
          exact perm_middle
        have h2 : (init.take i ++ last :: init.drop (i + 1)).Perm
            (last :: (init.take i ++ init.drop (i + 1))) := perm_middle
        exact ((h2.cons _).trans (Perm.swap _ _ _)).trans h1.symm
      rw [dropLast_concat, getElem_append_left hlt]
      exact hset.trans (perm_append_singleton last init).symm
    · next hge =>
      have hlen : i = init.length := by
        rw [length_append, length_singleton] at hi
        omega
      subst hlen
      rw [getElem_append_right (Nat.le_refl _)]
      simp only [Nat.sub_self, set_cons_zero, getElem_cons_zero, dropLast_concat]
      exact (perm_append_singleton last init).symm

end Plow.Lib
