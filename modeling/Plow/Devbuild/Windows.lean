import Plow.Devbuild.Entries

/-!
# The window table

The queue is sorted by window and rank, entries of one rank staying in the order of the operations
(`sortByKey_pairwise`).  `windowBounds` enters the bound of a window when it meets the first entry
at or behind it, so the bounds behind the last window that has an entry stay zero, but for the last
one of the table.  They are right exactly if the last window has an entry or there is none at all
(`bounds_exact_iff`).
-/

namespace Plow.Devbuild

open List

/-! ### Sorted lists -/

section
variable {K α : Type} {l : List α}

/-- A stable sort keeps the order of what has one key. -/
theorem pairwise_insertionSort_stable [LinearOrder K] (key : α → K) {R : α → α → Prop}
    (h : l.Pairwise R) : (l.insertionSort fun a b => key a ≤ key b).Pairwise
      fun a b => key a < key b ∨ key a = key b ∧ R a b := by
  induction l with
  | nil => exact .nil
  | cons a l ih =>
    obtain ⟨hal, hl⟩ := pairwise_cons.mp h
    have hmem : ∀ b ∈ l.insertionSort (fun a b => key a ≤ key b), R a b :=
      fun b hb => hal b ((perm_insertionSort _ l).subset hb)
    have hs := ih hl
    rw [insertionSort_cons]
    generalize l.insertionSort (fun a b => key a ≤ key b) = s at hmem hs
    induction s with
    | nil => exact pairwise_singleton _ _
    | cons b s ihs =>
      obtain ⟨hbs, hss⟩ := pairwise_cons.mp hs
      rw [orderedInsert_cons]
      split
      next hab =>
        refine pairwise_cons.mpr ⟨fun c hc => ?_, hs⟩
        rcases mem_cons.mp hc with rfl | hc
        · rcases lt_or_eq_of_le hab with hlt | heq
          · exact .inl hlt
          · exact .inr ⟨heq, hmem c mem_cons_self⟩
        · rcases hbs c hc with hlt | ⟨heq, -⟩
          · exact .inl (lt_of_le_of_lt hab hlt)
          · rcases lt_or_eq_of_le hab with hlt | heq'
            · exact .inl (heq ▸ hlt)
            · exact .inr ⟨heq'.trans heq, hmem c (mem_cons_of_mem _ hc)⟩
      next hab =>
        refine pairwise_cons.mpr ⟨fun c hc => ?_, ihs (fun c hc => hmem c
          (mem_cons_of_mem _ hc)) hss⟩
        rcases mem_cons.mp ((perm_orderedInsert _ a s).subset hc) with rfl | hc
        · exact .inl (not_le.mp hab)
        · exact hbs c hc

theorem sortByKey_pairwise {K : Type} [LinearOrder K] (key : StreamEnt → K)
    {l : List StreamEnt} {R : StreamEnt → StreamEnt → Prop} (h : l.Pairwise R) :
    (sortByKey key l).Pairwise fun a b => key a < key b ∨ key a = key b ∧ R a b :=
  pairwise_insertionSort_stable key h

theorem lt_countP_iff {keys : List ℕ} (h : keys.Pairwise (· ≤ ·)) (w i : ℕ) :
    i < keys.countP (· < w) ↔ ∃ k, keys[i]? = some k ∧ k < w := by
  induction keys generalizing i with
  | nil => simp
  | cons a keys ih =>
    obtain ⟨ha, hk⟩ := pairwise_cons.mp h
    rw [countP_cons]
    cases i with
    | zero =>
      by_cases haw : a < w
      · simp [haw]
      · have hnone : keys.countP (· < w) = 0 := by
          rw [countP_eq_zero]
          intro b hb
          have := ha b hb
          simp only [decide_eq_true_eq]
          omega
        simp [haw, hnone]
    | succ i =>
      rw [getElem?_cons_succ, ← ih hk i]
      by_cases haw : a < w
      · simp [haw]
      · have hnone : keys.countP (· < w) = 0 := by
          rw [countP_eq_zero]
          intro b hb
          have := ha b hb
          simp only [decide_eq_true_eq]
          omega
        simp [haw, hnone]

end

/-! ### The cursor -/

/-- the table after the windows up to `s` have been closed: `top` is the last window entered -/
structure Closed (nSeg : ℕ) (keys : List ℕ) (st : ℕ × List ℕ) : Prop where
  length : st.2.length = nSeg + 1
  top : ∀ k ∈ keys, k ≤ st.1
  reached : st.1 = 0 ∨ st.1 ∈ keys
  bound : ∀ w, w ≤ st.1 → st.2[w]? = some (keys.countP (· < w))
  rest : ∀ w, st.1 < w → w ≤ nSeg → st.2[w]? = some 0

theorem closeUpTo_spec (key i : ℕ) : ∀ (fuel s : ℕ) (ofs : List ℕ), key - s ≤ fuel →
    (closeUpTo key i fuel (s, ofs)).1 = max s key ∧
    (closeUpTo key i fuel (s, ofs)).2.length = ofs.length ∧
    ∀ w < ofs.length, (closeUpTo key i fuel (s, ofs)).2[w]? =
      if s < w ∧ w ≤ key then some i else ofs[w]? := by
  intro fuel
  induction fuel with
  | zero =>
    intro s ofs hle
    refine ⟨?_, rfl, fun w _ => ?_⟩
    · show s = max s key
      omega
    · rw [if_neg (by omega)]
      rfl
  | succ fuel ih =>
    intro s ofs hle
    unfold closeUpTo
    split
    next hlt =>
      obtain ⟨h1, h2, h3⟩ := ih (s + 1) (ofs.set (s + 1) i) (by omega)
      refine ⟨h1.trans (by omega), h2.trans length_set, fun w hw => ?_⟩
      rw [h3 w (by rw [length_set]; exact hw)]
      by_cases hws : w = s + 1
      · subst hws
        rw [if_neg (by omega), if_pos (by omega), getElem?_set_self hw]
      · rw [getElem?_set_ne (Ne.symm hws)]
        by_cases hc : s + 1 < w ∧ w ≤ key
        · rw [if_pos hc, if_pos (by omega)]
        · rw [if_neg hc, if_neg (by omega)]
    next hge =>
      refine ⟨?_, rfl, fun w _ => ?_⟩
      · show s = max s key
        omega
      · rw [if_neg (by omega)]

variable {keys : List ℕ} {nSeg : ℕ}

theorem Closed.step {k : ℕ} {st : ℕ × List ℕ} (h : Closed nSeg keys st)
    (hk : ∀ k' ∈ keys, k' ≤ k) (hlt : k < nSeg) :
    Closed nSeg (keys ++ [k]) (closeUpTo k keys.length k st) := by
  obtain ⟨s, ofs⟩ := st
  obtain ⟨hlen, htop, hreached, hbound, hrest⟩ := h
  simp only at hlen htop hreached hbound hrest
  obtain ⟨h1, h2, h3⟩ := closeUpTo_spec k keys.length k s ofs (Nat.sub_le _ _)
  have hsk : s ≤ k := by
    rcases hreached with rfl | hs
    · exact Nat.zero_le k
    · exact hk s hs
  rw [max_eq_right hsk] at h1
  refine ⟨h2.trans hlen, ?_, ?_, ?_, ?_⟩
  · intro x hx
    rw [h1]
    rcases mem_append.mp hx with hx | hx
    · exact hk x hx
    · exact le_of_eq (mem_singleton.mp hx)
  · rw [h1]
    exact .inr (mem_append_right _ (mem_singleton.mpr rfl))
  · intro w hw
    rw [h1] at hw
    have hlast : (keys ++ [k]).countP (· < w) = keys.countP (· < w) := by
      rw [countP_append, countP_singleton, if_neg (by simpa using hw), add_zero]
    rw [h3 w (by omega), hlast]
    by_cases hsw : s < w
    · -- all the entries so far stand in front of the window
      rw [if_pos ⟨hsw, hw⟩]
      have hall : keys.countP (· < w) = keys.length := by
        rw [countP_eq_length]
        intro x hx
        have := htop x hx
        simp only [decide_eq_true_eq]
        omega
      rw [hall]
    · rw [if_neg (by omega)]
      exact hbound w (by omega)
  · intro w hw hwn
    rw [h1] at hw
    rw [h3 w (by omega), if_neg (by omega)]
    exact hrest w (by omega) hwn

theorem closed_foldl (l : List ℕ) : ∀ (keys : List ℕ) (st : ℕ × List ℕ),
    (keys ++ l).Pairwise (· ≤ ·) → (∀ k ∈ l, k < nSeg) → Closed nSeg keys st →
    Closed nSeg (keys ++ l) ((l.zipIdx keys.length).foldl (fun st k => closeUpTo k.1 k.2 k.1 st) st) := by
  induction l with
  | nil =>
    intro keys st _ _ h
    rw [append_nil]
    exact h
  | cons k l ih =>
    intro keys st hs hlt h
    rw [zipIdx_cons, foldl_cons]
    have hk : ∀ k' ∈ keys, k' ≤ k := fun k' hk' =>
      (pairwise_append.mp hs).2.2 k' hk' k mem_cons_self
    have := ih (keys ++ [k]) _ (by simpa using hs) (fun x hx => hlt x (mem_cons_of_mem _ hx))
      (h.step hk (hlt k mem_cons_self))
    simpa using this

/-- the table: where a window is closed its bound is right, the others are zero, and the last one
is the number of entries -/
theorem windowBounds_spec (hs : keys.Pairwise (· ≤ ·))
    (hlt : ∀ k ∈ keys, k < nSeg) : ∃ top, (∀ k ∈ keys, k ≤ top) ∧ (top = 0 ∨ top ∈ keys) ∧
      (windowBounds nSeg keys).length = nSeg + 1 ∧
      (windowBounds nSeg keys)[nSeg]? = some keys.length ∧
      (∀ w ≤ top, w < nSeg → (windowBounds nSeg keys)[w]? = some (keys.countP (· < w))) ∧
      ∀ w, top < w → w < nSeg → (windowBounds nSeg keys)[w]? = some 0 := by
  have h0 : Closed nSeg [] (0, List.replicate (nSeg + 1) 0) := by
    refine ⟨length_replicate, nofun, .inl rfl, ?_, ?_⟩
    · intro w hw
      rw [Nat.le_zero.mp hw]
      rfl
    · intro w _ hw
      rw [getElem?_replicate, if_pos (by omega)]
  have h := closed_foldl keys [] _ hs hlt h0
  rw [nil_append, length_nil] at h
  unfold windowBounds
  generalize (keys.zipIdx.foldl (fun st k => closeUpTo k.1 k.2 k.1 st)
    (0, List.replicate (nSeg + 1) 0)) = st at h
  obtain ⟨top, ofs⟩ := st
  obtain ⟨hlen, htop, hreached, hbound, hrest⟩ := h
  simp only at hlen htop hreached hbound hrest ⊢
  refine ⟨top, htop, hreached, length_set.trans hlen, ?_, ?_, ?_⟩
  · exact getElem?_set_self (by omega)
  · intro w hw hwn
    rw [getElem?_set_ne (by omega)]
    exact hbound w hw
  · intro w hw hwn
    rw [getElem?_set_ne (by omega)]
    exact hrest w hw (le_of_lt hwn)

/-! ### Exact windows -/

/-- The bounds start at zero, never decrease and end at the number of entries, and a window holds
the entries that carry its key. -/
structure BoundsExact (nSeg : ℕ) (keys ofs : List ℕ) : Prop where
  first : ofs[0]? = some 0
  mono : ofs.Pairwise (· ≤ ·)
  last : ofs.getLast? = some keys.length
  window : ∀ w < nSeg, ∃ lo hi, ofs[w]? = some lo ∧ ofs[w + 1]? = some hi ∧
    ∀ i, lo ≤ i ∧ i < hi ↔ keys[i]? = some w

theorem bounds_exact_iff (hs : keys.Pairwise (· ≤ ·))
    (hlt : ∀ k ∈ keys, k < nSeg) (hpos : 0 < nSeg) :
    BoundsExact nSeg keys (windowBounds nSeg keys) ↔ keys = [] ∨ nSeg - 1 ∈ keys := by
  obtain ⟨top, htop, hreached, hlen, hlast, hclosed, hrest⟩ := windowBounds_spec hs hlt
  have hget : ∀ i, ∀ k, keys[i]? = some k → i < keys.length := fun i k h =>
    (List.getElem?_eq_some_iff.mp h).1
  constructor
  · -- an entry of the last window in use would stand behind the zero that follows
    intro h
    by_contra hno
    rw [not_or] at hno
    obtain ⟨hne, htopn⟩ := hno
    have hin : top ∈ keys := by
      rcases hreached with rfl | hin
      · obtain ⟨k, hk⟩ := exists_mem_of_ne_nil _ hne
        have := htop k hk
        rwa [Nat.le_zero.mp this] at hk
      · exact hin
    have htn := hlt top hin
    have hne' : top ≠ nSeg - 1 := fun heq => htopn (heq ▸ hin)
    obtain ⟨lo, hi, -, hhi, hw⟩ := h.window top htn
    obtain ⟨i, hi'⟩ := mem_iff_getElem?.mp hin
    have h0 := hrest (top + 1) (Nat.lt_succ_self _) (by omega)
    rw [hhi] at h0
    cases h0
    exact Nat.not_lt_zero i ((hw i).mpr hi').2
  · intro h
    -- every bound is the number of entries in front of its window
    have hb : ∀ w, w ≤ nSeg → (windowBounds nSeg keys)[w]? = some (keys.countP (· < w)) := by
      intro w hw
      rcases lt_or_eq_of_le hw with hw | rfl
      · by_cases hwt : w ≤ top
        · exact hclosed w hwt hw
        · rcases h with rfl | hin
          · rw [hrest w (by omega) hw]
            rfl
          · have := htop _ hin
            omega
      · rw [hlast]
        congr 1
        symm
        rw [countP_eq_length]
        intro k hk
        simpa using hlt k hk
    have hmono : ∀ v w, v ≤ w → keys.countP (· < v) ≤ keys.countP (· < w) := by
      intro v w hvw
      apply countP_mono_left
      intro k _ hk
      simp only [decide_eq_true_eq] at hk ⊢
      omega
    refine ⟨?_, ?_, ?_, fun w hw => ⟨_, _, hb w (le_of_lt hw), hb (w + 1) hw, fun i => ?_⟩⟩
    · rw [hb 0 (Nat.zero_le _)]
      simp
    · rw [pairwise_iff_getElem]
      intro i j hi hj hij
      have h1 := hb i (by omega)
      have h2 := hb j (by omega)
      rw [getElem?_eq_getElem hi] at h1
      rw [getElem?_eq_getElem hj] at h2
      rw [Option.some.inj h1, Option.some.inj h2]
      exact hmono i j (le_of_lt hij)
    · rw [getLast?_eq_getElem?, hlen]
      exact hlast
    · rw [← not_lt, lt_countP_iff hs, lt_countP_iff hs]
      constructor
      · rintro ⟨h1, k, hk, hkw⟩
        have : ¬ k < w := fun hlt => h1 ⟨k, hk, hlt⟩
        rw [hk]
        congr 1
        omega
      · intro hi
        refine ⟨?_, w, hi, Nat.lt_succ_self w⟩
        rintro ⟨k, hk, hkw⟩
        rw [hi] at hk
        cases hk
        exact lt_irrefl _ hkw

end Plow.Devbuild
