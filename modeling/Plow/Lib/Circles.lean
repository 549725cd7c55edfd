import Mathlib

/-!
# Relations without circles

`noCircle_or_iff` takes a relation apart: where `R` has no circle, `R` and `M` together have none when
no circle is made of one step of `M` and then steps of `R`, over and over.  A relation without circles
gives the nodes of a list ranks below its length (`countBefore`).  The order of a list is read from its
sublists of two.
-/

namespace Plow.Lib
open Relation List

variable {α : Type} {R S M Q : α → α → Prop} {a b c : α} {l l' : List α}

def NoCircle (R : α → α → Prop) : Prop := ∀ x, ¬ TransGen R x x

theorem NoCircle.mono (h : NoCircle S) (hR : ∀ a b, R a b → TransGen S a b) : NoCircle R :=
  fun x hx => h x (TransGen.closed hR x x hx)

theorem NoCircle.irrefl (h : NoCircle R) : ¬ R a a := fun hr => h a (.single hr)

/-- one step of `M`, then steps of `R` -/
def Crosses (R M : α → α → Prop) (a b : α) : Prop := ∃ y, M a y ∧ ReflTransGen R y b

theorem transGen_or (h : TransGen (fun a b => R a b ∨ M a b) a b) :
    TransGen R a b ∨ ∃ c, ReflTransGen R a c ∧ TransGen (Crosses R M) c b := by
  induction h using TransGen.head_induction_on with
  | single h =>
    rcases h with h | h
    · exact .inl (.single h)
    · exact .inr ⟨_, .refl, .single ⟨_, h, .refl⟩⟩
  | head h _ ih =>
    rcases h with h | h <;> rcases ih with ih | ⟨d, hd, ih⟩
    · exact .inl (.head h ih)
    · exact .inr ⟨d, .head h hd, ih⟩
    · exact .inr ⟨_, .refl, .single ⟨_, h, ih.to_reflTransGen⟩⟩
    · exact .inr ⟨_, .refl, .head ⟨_, h, hd⟩ ih⟩

theorem Crosses.trans (h : Crosses R M a b) (hb : ReflTransGen R b c) : Crosses R M a c := by
  obtain ⟨y, hy, hr⟩ := h
  exact ⟨y, hy, hr.trans hb⟩

theorem Crosses.transGen (h : Crosses R M a b) : TransGen (fun a b => R a b ∨ M a b) a b := by
  obtain ⟨y, hy, hr⟩ := h
  exact .head' (.inr hy) (ReflTransGen.mono (fun _ _ => Or.inl) y b hr)

theorem noCircle_or_iff (hR : NoCircle R) :
    NoCircle (fun a b => R a b ∨ M a b) ↔ NoCircle (Crosses R M) := by
  constructor
  · exact fun h => h.mono fun _ _ hc => hc.transGen
  · intro h x hx
    rcases transGen_or hx with hx | ⟨c, hxc, hcx⟩
    · exact hR x hx
    · -- the last crossing goes on to where the first one begins
      obtain ⟨e, hce, hex⟩ := TransGen.tail'_iff.mp hcx
      exact h c (.tail' hce (hex.trans hxc))

/-! ### Ranks -/

section
variable [DecidableEq α]

open Classical in
/-- how many nodes come before -/
noncomputable def countBefore (R : α → α → Prop) (nodes : List α) (t : α) : Nat :=
  (nodes.toFinset.filter fun s => TransGen R s t).card

variable {nodes : List α} {s t : α}

theorem countBefore_lt (hR : NoCircle R) (hs : s ∈ nodes) (h : R s t) :
    countBefore R nodes s < countBefore R nodes t := by
  classical
  unfold countBefore
  apply Finset.card_lt_card
  rw [Finset.ssubset_iff_of_subset]
  · refine ⟨s, Finset.mem_filter.mpr ⟨mem_toFinset.mpr hs, .single h⟩, fun hmem => ?_⟩
    exact hR s (Finset.mem_filter.mp hmem).2
  · intro q hq
    obtain ⟨hq, hqs⟩ := Finset.mem_filter.mp hq
    exact Finset.mem_filter.mpr ⟨hq, hqs.tail h⟩

theorem countBefore_lt_length (hR : NoCircle R) (ht : t ∈ nodes) :
    countBefore R nodes t < nodes.length := by
  classical
  unfold countBefore
  have hsub : (nodes.toFinset.filter fun s => TransGen R s t) ⊂ nodes.toFinset := by
    rw [Finset.ssubset_iff_of_subset (Finset.filter_subset _ _)]
    exact ⟨t, mem_toFinset.mpr ht, fun hmem => hR t (Finset.mem_filter.mp hmem).2⟩
  exact Nat.lt_of_lt_of_le (Finset.card_lt_card hsub) (toFinset_card_le nodes)

end

/-! ### The order of a list -/

/-- `a` comes before `b` in the list -/
def InOrder (l : List α) (a b : α) : Prop := [a, b].Sublist l

theorem InOrder.mem (h : InOrder l a b) : a ∈ l ∧ b ∈ l := by
  have hsub := h.subset
  exact ⟨hsub mem_cons_self, hsub (mem_cons_of_mem _ mem_cons_self)⟩

theorem pairwise_before : l.Pairwise (InOrder l) :=
  pairwise_iff_forall_sublist.mpr fun h => h

theorem before_or (ha : a ∈ l) (hb : b ∈ l) (hne : a ≠ b) : InOrder l a b ∨ InOrder l b a := by
  obtain ⟨p, q, rfl⟩ := append_of_mem ha
  rcases mem_append.mp hb with hb | hb
  · exact .inr ((singleton_sublist.mpr hb).append (singleton_sublist.mpr mem_cons_self))
  · rcases mem_cons.mp hb with rfl | hb
    · exact absurd rfl hne
    · exact .inl (((singleton_sublist.mpr hb).cons_cons a).trans (sublist_append_right p _))

theorem InOrder.rel (h : InOrder l a b) (hl : l.Pairwise Q) : Q a b :=
  pairwise_iff_forall_sublist.mp hl h

theorem InOrder.asymm (hl : l.Nodup) (h : InOrder l a b) : ¬ InOrder l b a := by
  intro h'
  induction l with
  | nil => cases h
  | cons x l ih =>
    obtain ⟨hx, hl⟩ := nodup_cons.mp hl
    cases h with
    | cons _ h =>
      cases h' with
      | cons _ h' => exact ih hl h h'
      | cons_cons _ h' => exact hx (h.subset (mem_cons_of_mem _ mem_cons_self))
    | cons_cons _ h =>
      cases h' with
      | cons _ h' => exact hx (h'.subset (mem_cons_of_mem _ mem_cons_self))
      | cons_cons _ _ => exact hx (singleton_sublist.mp h)

theorem before_of_lt {i j : Nat} (ha : l[i]? = some a) (hb : l[j]? = some b) (h : i < j) : InOrder l a b := by
  obtain ⟨hi, rfl⟩ := List.getElem?_eq_some_iff.mp ha
  obtain ⟨hj, rfl⟩ := List.getElem?_eq_some_iff.mp hb
  exact pairwise_iff_getElem.mp pairwise_before i j hi hj h

theorem before_iff_idx (hl : l.Nodup) {i j : Nat} (ha : l[i]? = some a) (hb : l[j]? = some b) :
    InOrder l a b ↔ i < j := by
  refine ⟨fun h => ?_, before_of_lt ha hb⟩
  by_contra hle
  rcases Nat.lt_or_eq_of_le (Nat.le_of_not_lt hle) with hji | rfl
  · exact h.asymm hl (before_of_lt hb ha hji)
  · rw [ha] at hb
    cases hb
    exact h.asymm hl h

theorem before_of_pairwise (hl : l.Pairwise Q) (hQ : ∀ a b, Q a b → ¬ Q b a)
    (ha : a ∈ l) (hb : b ∈ l) (h : Q a b) : InOrder l a b := by
  rcases before_or ha hb (fun he => hQ a b h (he ▸ h)) with hab | hba
  · exact hab
  · exact absurd (hba.rel hl) (hQ a b h)

theorem before_filter_iff {p : α → Bool} : InOrder (l.filter p) a b ↔ InOrder l a b ∧ p a ∧ p b := by
  unfold InOrder
  rw [sublist_filter_iff]
  constructor
  · rintro ⟨l', hl', he⟩
    have ha : p a := by
      have := mem_filter.mp (he ▸ mem_cons_self : a ∈ l'.filter p)
      exact this.2
    have hb : p b := by
      have := mem_filter.mp (he ▸ mem_cons_of_mem _ mem_cons_self : b ∈ l'.filter p)
      exact this.2
    exact ⟨he ▸ (filter_sublist.trans hl'), ha, hb⟩
  · rintro ⟨h, ha, hb⟩
    exact ⟨[a, b], h, by simp [ha, hb]⟩

theorem first_difference (hlen : l.length = l'.length) (hne : l ≠ l') :
    ∃ p a b q r, l = p ++ a :: q ∧ l' = p ++ b :: r ∧ a ≠ b := by
  induction l generalizing l' with
  | nil => exact absurd (length_eq_zero_iff.mp hlen.symm).symm hne
  | cons x l ih =>
    cases l' with
    | nil => cases hlen
    | cons y l' =>
      by_cases hxy : x = y
      · subst hxy
        obtain ⟨p, a, b, q, r, rfl, rfl, hab⟩ := ih (Nat.succ.inj hlen) fun h => hne (by rw [h])
        exact ⟨x :: p, a, b, q, r, rfl, rfl, hab⟩
      · exact ⟨[], x, y, l, l', rfl, rfl, hxy⟩

end Plow.Lib
