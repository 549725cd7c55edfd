import Mathlib

/-!
# Ledgers: every slot of a pool is in exactly one place

A pool of slots `S` hands slots to users `U`.  A slot is free, in the hands of one user, or in
transit (taken, and not yet given to a user or put back).  `Ledger live free use out`: with
`free s` the number of times `s` is on the free lists, `use u` the slot of the user `u` and `out`
the slots in transit,

* a live slot is in exactly one of the three places, exactly once;
* a slot that is not live is in none.

The rules move one slot at a time: `take`, `put`, `assign`, `detach`, `move`.  `grow` makes new
slots live and free, `retire` ends slots that are all free.  Every rule states the new free counts
and users pointwise, so that any representation of them can be used.
-/

namespace Plow.Lib

open List Function Option

variable {S U : Type*} [DecidableEq S]

structure Ledger (live : S → Prop) (free : S → Nat) (use : U → Option S) (out : List S) : Prop where
  once : ∀ s, free s + out.count s ≤ 1
  used : ∀ u s, use u = some s → free s = 0 ∧ s ∉ out
  inj : ∀ u v s, use u = some s → use v = some s → u = v
  full : ∀ s, live s → free s = 1 ∨ s ∈ out ∨ ∃ u, use u = some s
  dead : ∀ s, ¬ live s → free s = 0 ∧ s ∉ out ∧ ∀ u, use u ≠ some s

namespace Ledger
variable {live live' : S → Prop} {free free' : S → Nat} {use use' : U → Option S}
  {out out' : List S} {s : S} {u : U}

theorem of_empty (hl : ∀ s, ¬ live s) (hf : ∀ s, free s = 0) (hu : ∀ u, use u = none) :
    Ledger live free use [] where
  once s := by simp [hf s]
  used u s h := by simp [hu u] at h
  inj u v s h := by simp [hu u] at h
  full s h := absurd h (hl s)
  dead s _ := ⟨hf s, not_mem_nil, fun u => by simp [hu u]⟩

section

variable (L : Ledger live free use out)
include L

theorem congr (hl : ∀ s, live' s ↔ live s)
    (hf : ∀ s, free' s = free s) (hu : ∀ u, use' u = use u) (ho : out.Perm out') :
    Ledger live' free' use' out' where
  once s := by rw [hf, ← ho.count_eq]; exact L.once s
  used u s h := by
    rw [hu] at h
    rw [hf]
    exact ⟨(L.used u s h).1, fun hm => (L.used u s h).2 (ho.mem_iff.mpr hm)⟩
  inj u v s h h' := L.inj u v s (by rw [← hu]; exact h) (by rw [← hu]; exact h')
  full s h := by
    rw [hf]
    rcases L.full s ((hl s).mp h) with h1 | h1 | ⟨u, h1⟩
    · exact .inl h1
    · exact .inr (.inl (ho.mem_iff.mp h1))
    · exact .inr (.inr ⟨u, by rw [hu]; exact h1⟩)
  dead s h := by
    obtain ⟨h1, h2, h3⟩ := L.dead s (fun hc => h ((hl s).mpr hc))
    exact ⟨by rw [hf]; exact h1, fun hm => h2 (ho.mem_iff.mpr hm), fun u => by rw [hu]; exact h3 u⟩

theorem perm (ho : out.Perm out') : Ledger live free use out' :=
  L.congr (fun _ => Iff.rfl) (fun _ => rfl) (fun _ => rfl) ho

theorem free_le (s : S) : free s ≤ 1 := by
  have := L.once s
  omega

theorem live_of_free (h : free s ≠ 0) : live s := by
  by_contra hc
  exact h (L.dead s hc).1

theorem live_of_use (h : use u = some s) : live s := by
  by_contra hc
  exact (L.dead s hc).2.2 u h

theorem live_of_out (h : s ∈ out) : live s := by
  by_contra hc
  exact (L.dead s hc).2.1 h

theorem free_zero_of_out (h : s ∈ out) : free s = 0 := by
  have h1 := L.once s
  have h2 := count_pos_iff.mpr h
  omega

theorem nodup_out : out.Nodup := by
  rw [nodup_iff_count_le_one]
  intro s
  have := L.once s
  omega

theorem take (hs : free s = 1) (h0 : free' s = 0)
    (hne : ∀ x, x ≠ s → free' x = free x) : Ledger live free' use (s :: out) where
  once x := by
    have h1 := L.once x
    by_cases e : x = s
    · subst e
      rw [h0, count_cons_self]
      omega
    · rw [hne x e, count_cons_of_ne (Ne.symm e)]
      exact h1
  used v x h := by
    obtain ⟨h1, h2⟩ := L.used v x h
    have e : x ≠ s := fun e => by rw [e, hs] at h1; omega
    exact ⟨by rw [hne x e]; exact h1, fun hm => h2 ((mem_cons.mp hm).resolve_left e)⟩
  inj := L.inj
  full x h := by
    by_cases e : x = s
    · exact .inr (.inl (e ▸ mem_cons_self))
    · rw [hne x e]
      rcases L.full x h with h1 | h1 | h1
      · exact .inl h1
      · exact .inr (.inl (mem_cons_of_mem _ h1))
      · exact .inr (.inr h1)
  dead x h := by
    obtain ⟨h1, h2, h3⟩ := L.dead x h
    have e : x ≠ s := fun e => by rw [e, hs] at h1; omega
    exact ⟨by rw [hne x e]; exact h1, fun hm => h2 ((mem_cons.mp hm).resolve_left e), h3⟩

end

theorem put (L : Ledger live free use (s :: out)) (h1' : free' s = 1)
    (hne : ∀ x, x ≠ s → free' x = free x) : Ledger live free' use out where
  once x := by
    have h1 := L.once x
    by_cases e : x = s
    · subst e
      rw [count_cons_self] at h1
      rw [h1']
      omega
    · rw [count_cons_of_ne (Ne.symm e)] at h1
      rw [hne x e]
      exact h1
  used v x h := by
    obtain ⟨h1, h2⟩ := L.used v x h
    have e : x ≠ s := fun e => h2 (e ▸ mem_cons_self)
    exact ⟨by rw [hne x e]; exact h1, fun hm => h2 (mem_cons_of_mem _ hm)⟩
  inj := L.inj
  full x h := by
    by_cases e : x = s
    · exact .inl (e ▸ h1')
    · rw [hne x e]
      rcases L.full x h with h1 | h1 | h1
      · exact .inl h1
      · exact .inr (.inl ((mem_cons.mp h1).resolve_left e))
      · exact .inr (.inr h1)
  dead x h := by
    obtain ⟨h1, h2, h3⟩ := L.dead x h
    have e : x ≠ s := fun e => h2 (e ▸ mem_cons_self)
    exact ⟨by rw [hne x e]; exact h1, fun hm => h2 (mem_cons_of_mem _ hm), h3⟩

/-- a slot in transit goes to a user without one -/
theorem assign (L : Ledger live free use (s :: out)) (hu : use u = none) (hu' : use' u = some s)
    (hne : ∀ v, v ≠ u → use' v = use v) : Ledger live free use' out where
  once x := by
    have h1 := L.once x
    have h2 := count_le_count_cons (a := x) (b := s) (l := out)
    omega
  used v x h := by
    by_cases e : v = u
    · subst e
      rw [hu'] at h
      cases h
      have h1 := L.once s
      rw [count_cons_self] at h1
      exact ⟨by omega, fun hm => by have := count_pos_iff.mpr hm; omega⟩
    · rw [hne v e] at h
      obtain ⟨h1, h2⟩ := L.used v x h
      exact ⟨h1, fun hm => h2 (mem_cons_of_mem _ hm)⟩
  inj v w x h h' := by
    by_cases e : v = u <;> by_cases e' : w = u
    · rw [e, e']
    · subst e
      rw [hu'] at h
      rw [hne w e', ← h] at h'
      exact absurd mem_cons_self (L.used w s h').2
    · subst e'
      rw [hu'] at h'
      rw [hne v e, ← h'] at h
      exact absurd mem_cons_self (L.used v s h).2
    · rw [hne v e] at h
      rw [hne w e'] at h'
      exact L.inj v w x h h'
  full x h := by
    rcases L.full x h with h1 | h1 | ⟨v, h1⟩
    · exact .inl h1
    · rcases mem_cons.mp h1 with e | h2
      · exact .inr (.inr ⟨u, e ▸ hu'⟩)
      · exact .inr (.inl h2)
    · have e : v ≠ u := fun e => by rw [e, hu] at h1; cases h1
      exact .inr (.inr ⟨v, by rw [hne v e]; exact h1⟩)
  dead x h := by
    obtain ⟨h1, h2, h3⟩ := L.dead x h
    refine ⟨h1, fun hm => h2 (mem_cons_of_mem _ hm), fun v hv => ?_⟩
    by_cases e : v = u
    · subst e
      rw [hu'] at hv
      exact h2 (some.inj hv ▸ mem_cons_self)
    · exact h3 v (by rw [← hne v e]; exact hv)

/-- a user gives its slot up: the slot is in transit -/
theorem detach (L : Ledger live free use out) (hu : use u = some s) (hu' : use' u = none)
    (hne : ∀ v, v ≠ u → use' v = use v) : Ledger live free use' (s :: out) where
  once x := by
    by_cases e : x = s
    · subst e
      obtain ⟨h1, h2⟩ := L.used u x hu
      have h0 := count_eq_zero.mpr h2
      rw [count_cons_self]
      omega
    · rw [count_cons_of_ne (Ne.symm e)]
      exact L.once x
  used v x h := by
    have ev : v ≠ u := fun e => by rw [e, hu'] at h; cases h
    rw [hne v ev] at h
    obtain ⟨h1, h2⟩ := L.used v x h
    have e : x ≠ s := fun e => ev (L.inj v u s (e ▸ h) hu)
    exact ⟨h1, fun hm => h2 ((mem_cons.mp hm).resolve_left e)⟩
  inj v w x h h' := by
    have ev : v ≠ u := fun e => by rw [e, hu'] at h; cases h
    have ew : w ≠ u := fun e => by rw [e, hu'] at h'; cases h'
    rw [hne v ev] at h
    rw [hne w ew] at h'
    exact L.inj v w x h h'
  full x h := by
    rcases L.full x h with h1 | h1 | ⟨v, h1⟩
    · exact .inl h1
    · exact .inr (.inl (mem_cons_of_mem _ h1))
    · by_cases e : v = u
      · rw [e, hu] at h1
        exact .inr (.inl (some.inj h1 ▸ mem_cons_self))
      · exact .inr (.inr ⟨v, by rw [hne v e]; exact h1⟩)
  dead x h := by
    obtain ⟨h1, h2, h3⟩ := L.dead x h
    have e : x ≠ s := fun e => h3 u (e ▸ hu)
    refine ⟨h1, fun hm => h2 ((mem_cons.mp hm).resolve_left e), fun v hv => ?_⟩
    have ev : v ≠ u := fun e => by rw [e, hu'] at hv; cases hv
    exact h3 v (by rw [← hne v ev]; exact hv)

theorem assign_update [DecidableEq U] (L : Ledger live free use (s :: out)) (hu : use u = none) :
    Ledger live free (update use u (some s)) out :=
  L.assign hu (update_self u _ _) (fun _ hv => update_of_ne hv _ _)

theorem detach_update [DecidableEq U] (L : Ledger live free use out) (hu : use u = some s) :
    Ledger live free (update use u none) (s :: out) :=
  L.detach hu (update_self u _ _) (fun _ hv => update_of_ne hv _ _)

theorem grow (L : Ledger live free use out) (hl : ∀ x, live x → live' x ∧ free' x = free x)
    (hn : ∀ x, ¬ live x → live' x → free' x = 1) (hd : ∀ x, ¬ live' x → free' x = 0) :
    Ledger live' free' use out where
  once x := by
    by_cases h : live x
    · rw [(hl x h).2]
      exact L.once x
    · obtain ⟨h1, h2, _⟩ := L.dead x h
      rw [count_eq_zero.mpr h2]
      by_cases h' : live' x
      · have := hn x h h'
        omega
      · have := hd x h'
        omega
  used v x h := by
    have hx := L.live_of_use h
    rw [(hl x hx).2]
    exact L.used v x h
  inj := L.inj
  full x h := by
    by_cases h' : live x
    · rw [(hl x h').2]
      exact L.full x h'
    · exact .inl (hn x h' h)
  dead x h := by
    have hx : ¬ live x := fun hc => h (hl x hc).1
    exact ⟨hd x h, (L.dead x hx).2⟩

theorem retire (L : Ledger live free use out) (hl : ∀ x, live' x → live x ∧ free' x = free x)
    (hd : ∀ x, ¬ live' x → free' x = 0) (hn : ∀ x, live x → ¬ live' x → free x = 1) :
    Ledger live' free' use out where
  once x := by
    by_cases h : live' x
    · rw [(hl x h).2]
      exact L.once x
    · have := L.once x
      rw [hd x h]
      omega
  used v x h := by
    obtain ⟨h1, h2⟩ := L.used v x h
    have hx : live' x := by
      by_contra hc
      rw [hn x (L.live_of_use h) hc] at h1
      omega
    exact ⟨by rw [(hl x hx).2]; exact h1, h2⟩
  inj := L.inj
  full x h := by
    rw [(hl x h).2]
    exact L.full x (hl x h).1
  dead x h := by
    refine ⟨hd x h, fun hm => ?_, fun u hu => ?_⟩
    · have h1 := hn x (L.live_of_out hm) h
      rw [L.free_zero_of_out hm] at h1
      omega
    · have h1 := hn x (L.live_of_use hu) h
      rw [(L.used u x hu).1] at h1
      omega

end Ledger

/-! ## tables of owners -/

/-- `own s` is the user of `s` -/
def Inverse (own : S → Option U) (use : U → Option S) : Prop :=
  ∀ s u, own s = some u ↔ use u = some s

namespace Inverse
variable {own : S → Option U} {use : U → Option S} {s : S} {u : U}

omit [DecidableEq S] in
theorem eq_none (h : Inverse own use) (hs : ∀ v, use v ≠ some s) : own s = none := by
  cases e : own s with
  | none => rfl
  | some v => exact absurd ((h s v).mp e) (hs v)

theorem set [DecidableEq U] (h : Inverse own use) (hs : ∀ v, use v ≠ some s) (hu : use u = none) :
    Inverse (update own s (some u)) (update use u (some s)) := by
  intro x v
  by_cases ex : x = s
  · subst ex
    rw [update_self]
    by_cases ev : v = u
    · rw [ev, update_self]
      simp
    · rw [update_of_ne ev]
      exact ⟨fun e => absurd (some.inj e).symm ev, fun e => absurd e (hs v)⟩
  · rw [update_of_ne ex, h]
    by_cases ev : v = u
    · rw [ev, update_self, hu]
      exact ⟨fun e => absurd e (by simp), fun e => absurd (some.inj e).symm ex⟩
    · rw [update_of_ne ev]

theorem clear [DecidableEq U] (h : Inverse own use) (hu : use u = some s) :
    Inverse (update own s none) (update use u none) := by
  intro x v
  by_cases ex : x = s
  · subst ex
    rw [update_self]
    by_cases ev : v = u
    · rw [ev, update_self]
      simp
    · rw [update_of_ne ev]
      refine ⟨fun e => absurd e (by simp), fun e => absurd ?_ ev⟩
      exact some.inj (((h x v).mpr e).symm.trans ((h x u).mpr hu))
  · rw [update_of_ne ex, h]
    by_cases ev : v = u
    · rw [ev, update_self, hu]
      exact ⟨fun e => absurd (some.inj e).symm ex, fun e => absurd e (by simp)⟩
    · rw [update_of_ne ev]

theorem clear_free (h : Inverse own use) (hs : ∀ v, use v ≠ some s) :
    Inverse (update own s none) use := by
  rw [← h.eq_none hs, update_eq_self]
  exact h

end Inverse
end Plow.Lib
