import Plow.Rings.Model

/-!
# The units of a slot

A slot uses the units of a window that its bytes meet (`mem_slotUnits`), each once.  How often a
unit is referred to (`VmmRings.uses`) is how many slots that are mapped or parked use it.
-/

namespace Plow.Rings

open List

/-- the shape of the windows -/
structure RingWindow.Shaped (batch : ℕ) (w : RingWindow) : Prop where
  slot_pos : 0 < w.slotBytes
  map_pos : 0 < w.mapBytes
  room : w.slotBytes * batch ≤ w.units * w.mapBytes

namespace VmmRings
variable {r : VmmRings} {x : ℕ × ℕ} {i u slot a : ℕ} {w : RingWindow}

def Shaped (r : VmmRings) : Prop := ∀ w ∈ r.windows, w.Shaped r.batch

def Meets (w : RingWindow) (slot u : ℕ) : Prop :=
  slot * w.slotBytes < (u + 1) * w.mapBytes ∧ u * w.mapBytes < (slot + 1) * w.slotBytes

instance (w : RingWindow) (slot u : ℕ) : Decidable (Meets w slot u) :=
  inferInstanceAs (Decidable (_ ∧ _))

theorem mem_units : (i, u) ∈ r.units ↔ ∃ w, r.windows[i]? = some w ∧ u < w.units := by
  unfold units unitsOf
  rw [mem_flatMap]
  constructor
  · rintro ⟨⟨w, j⟩, hw, h⟩
    obtain ⟨v, hv, he⟩ := mem_map.mp h
    cases he
    exact ⟨w, mem_zipIdx_iff_getElem?.mp hw, mem_range.mp hv⟩
  · rintro ⟨w, hw, hu⟩
    exact ⟨(w, i), mem_zipIdx_iff_getElem?.mpr hw,
      mem_map.mpr ⟨u, mem_range.mpr hu, rfl⟩⟩

theorem window_eq (hw : r.windows[i]? = some w) : r.window i = w := by
  unfold window
  rw [getD_eq_getElem?_getD, hw]
  rfl

theorem nodup_flatMap_zipIdx {A : Type} (l : List A) (k : ℕ) (f : A × ℕ → List (ℕ × ℕ))
    (hf : ∀ p, (f p).Nodup) (hi : ∀ p, ∀ x ∈ f p, x.1 = p.2) : ((l.zipIdx k).flatMap f).Nodup := by
  induction l generalizing k with
  | nil => exact nodup_nil
  | cons a l ih =>
    rw [zipIdx_cons, flatMap_cons]
    refine Nodup.append (hf _) (ih _) fun x hx hx' => ?_
    obtain ⟨p, hp, hxp⟩ := mem_flatMap.mp hx'
    have h1 := hi _ x hx
    have h2 := hi _ x hxp
    have h3 := (mem_zipIdx hp).1
    simp only at h1
    omega

theorem nodup_units (r : VmmRings) : r.units.Nodup := by
  refine nodup_flatMap_zipIdx _ _ _ (fun p => ?_) fun p x hx => ?_
  · exact Nodup.map (fun a b h => (Prod.mk.inj h).2) nodup_range
  · obtain ⟨v, -, rfl⟩ := mem_map.mp hx
    rfl

theorem nodup_slotUnits (r : VmmRings) (slot : ℕ) : (r.slotUnits slot).Nodup := by
  refine nodup_flatMap_zipIdx _ _ _ (fun p => ?_) fun p x hx => ?_
  · unfold windowUnits
    split
    · exact nodup_nil
    · exact Nodup.map (fun a b h => (Prod.mk.inj h).2) nodup_range'
  · unfold windowUnits at hx
    split at hx
    · cases hx
    · obtain ⟨v, -, rfl⟩ := mem_map.mp hx
      rfl

theorem between_iff {batch : ℕ} (h : w.Shaped batch) :
    (slot * w.slotBytes / w.mapBytes ≤ u ∧ u < slot * w.slotBytes / w.mapBytes +
        (((slot + 1) * w.slotBytes + w.mapBytes - 1) / w.mapBytes - slot * w.slotBytes / w.mapBytes)) ↔
      Meets w slot u := by
  have hpos := h.map_pos
  have hle : slot * w.slotBytes / w.mapBytes ≤
      ((slot + 1) * w.slotBytes + w.mapBytes - 1) / w.mapBytes := by
    refine Nat.div_le_div_right ?_
    rw [Nat.succ_mul]
    omega
  have hfirst : slot * w.slotBytes / w.mapBytes ≤ u ↔ slot * w.slotBytes < (u + 1) * w.mapBytes := by
    rw [← Nat.lt_succ_iff, Nat.div_lt_iff_lt_mul hpos]
  have hlast : u < ((slot + 1) * w.slotBytes + w.mapBytes - 1) / w.mapBytes ↔
      u * w.mapBytes < (slot + 1) * w.slotBytes := by
    rw [← Nat.succ_le_iff, Nat.le_div_iff_mul_le hpos, Nat.succ_mul]
    omega
  unfold Meets
  rw [← hfirst, ← hlast]
  omega

theorem mem_slotUnits (hr : r.Shaped) : (i, u) ∈ r.slotUnits slot ↔
    ∃ w, r.windows[i]? = some w ∧ w.pinned = false ∧ Meets w slot u := by
  unfold slotUnits
  rw [mem_flatMap]
  constructor
  · rintro ⟨⟨w, j⟩, hw, h⟩
    have hw := mem_zipIdx_iff_getElem?.mp hw
    unfold windowUnits at h
    split at h
    · cases h
    · next hp =>
      obtain ⟨v, hv, he⟩ := mem_map.mp h
      cases he
      refine ⟨w, hw, by simpa using hp, ?_⟩
      exact (between_iff (hr w (mem_of_getElem? hw))).mp (mem_range'_1.mp hv)
  · rintro ⟨w, hw, hp, hm⟩
    refine ⟨(w, i), mem_zipIdx_iff_getElem?.mpr hw, ?_⟩
    unfold windowUnits
    rw [hp, if_neg Bool.false_ne_true]
    refine mem_map.mpr ⟨u, mem_range'_1.mpr ?_, rfl⟩
    exact (between_iff (hr w (mem_of_getElem? hw))).mpr hm

theorem slotUnits_subset (hr : r.Shaped) (hs : slot < r.batch) : ∀ x ∈ r.slotUnits slot, x ∈ r.units := by
  rintro ⟨i, u⟩ hx
  obtain ⟨w, hw, -, -, hm⟩ := (mem_slotUnits hr).mp hx
  refine mem_units.mpr ⟨w, hw, ?_⟩
  have h := hr w (mem_of_getElem? hw)
  have hle : (slot + 1) * w.slotBytes ≤ w.units * w.mapBytes := by
    refine le_trans ?_ h.room
    rw [mul_comm]
    exact Nat.mul_le_mul_left _ hs
  exact Nat.lt_of_mul_lt_mul_right (lt_of_lt_of_le hm hle)

/-! ### How often a unit is used -/

def uses (r : VmmRings) (x : ℕ × ℕ) : ℕ :=
  (List.range r.batch).countP fun s => (r.mapped s || r.parked s) && decide (x ∈ r.slotUnits s)

theorem countP_range_add {n : ℕ} (P Q : ℕ → Bool) (ha : a < n) (hP : P a = false)
    (hQ : ∀ b, b ≠ a → Q b = P b) :
    (range n).countP Q = (range n).countP P + if Q a then 1 else 0 := by
  induction n with
  | zero => omega
  | succ n ih =>
    rw [range_succ, countP_append, countP_append, countP_singleton,
      countP_singleton]
    by_cases han : a = n
    · subst han
      have hsame : (range a).countP Q = (range a).countP P := by
        apply countP_congr
        intro b hb
        rw [hQ b (ne_of_lt (mem_range.mp hb))]
      rw [hsame, hP]
      simp
    · rw [ih (by omega), hQ n (Ne.symm han)]
      omega

variable {r' : VmmRings}

theorem uses_add (ha : a < r.batch) (hw : r'.windows = r.windows) (hb : r'.batch = r.batch)
    (hno : (r.mapped a || r.parked a) = false) (hyes : (r'.mapped a || r'.parked a) = true)
    (hsame : ∀ s, s ≠ a → (r'.mapped s || r'.parked s) = (r.mapped s || r.parked s)) (x : ℕ × ℕ) :
    r'.uses x = r.uses x + (r.slotUnits a).count x := by
  have hslot : ∀ s, r'.slotUnits s = r.slotUnits s := by
    intro s
    unfold slotUnits
    rw [hw]
  unfold uses
  rw [hb, countP_range_add (fun s => (r.mapped s || r.parked s) && decide (x ∈ r.slotUnits s))
    (fun s => (r'.mapped s || r'.parked s) && decide (x ∈ r'.slotUnits s)) ha]
  · congr 1
    show (if ((r'.mapped a || r'.parked a) && decide (x ∈ r'.slotUnits a)) = true then 1 else 0) = _
    rw [hyes, hslot]
    by_cases hx : x ∈ r.slotUnits a
    · rw [count_eq_one_of_mem (nodup_slotUnits r a) hx]
      simp [hx]
    · rw [count_eq_zero_of_not_mem hx]
      simp [hx]
  · rw [hno]
    rfl
  · intro s hs
    rw [hsame s hs, hslot]

theorem uses_congr (hw : r'.windows = r.windows) (hb : r'.batch = r.batch)
    (hsame : ∀ s, (r'.mapped s || r'.parked s) = (r.mapped s || r.parked s)) : r'.uses = r.uses := by
  funext x
  unfold uses slotUnits
  rw [hw, hb]
  simp only [hsame]

theorem uses_eq_zero (hno : ∀ s, (r.mapped s || r.parked s) = false) (x : ℕ × ℕ) : r.uses x = 0 := by
  unfold uses
  rw [countP_eq_zero]
  intro s _
  simp [hno s]

end VmmRings

end Plow.Rings
