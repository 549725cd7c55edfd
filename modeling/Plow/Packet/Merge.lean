import Mathlib

/-!
# Merging the partial attentions of shards

A shard's partial is the greatest score of its rows, the sum of their powers of two below it and the
sum of the values so weighted. The merge scales each shard by the power that is left to the greatest
score of all (`weight_mass`), so what it adds up are the sums over all rows, in whatever parts and
order they come; arithmetic is exact here.

A score at the sentinel makes a row's shard look empty, so scores lie above it.
-/

namespace Plow.Packet

open List

def DCP_NEG_INF : ℤ := -3 * 10 ^ 38

structure Partial where
  m : ℤ
  l : ℚ
  acc : List ℚ

def Partial.isDead (p : Partial) : Bool := p.m = DCP_NEG_INF || p.l = 0

def exp2 (x : ℤ) : ℚ := 2 ^ x

/-- `w` times the second list is added to the first as far as both go -/
def addScaled (w : ℚ) : List ℚ → List ℚ → List ℚ
  | o :: os, v :: vs => (o + w * v) :: addScaled w os vs
  | os, _ => os

def stepMax (gm : ℤ) (p : Partial) : ℤ := if ¬ p.isDead ∧ gm < p.m then p.m else gm

def weight (gm : ℤ) (p : Partial) : ℚ := if p.isDead then 0 else exp2 (p.m - gm)

def addPart (gm : ℤ) (s : ℚ × List ℚ) (p : Partial) : ℚ × List ℚ :=
  let w := weight gm p
  if w = 0 then s else (s.1 + w * p.l, addScaled w s.2 p.acc)

/-- the greatest score and the sum, and the output -/
def mergePartials (parts : List Partial) (out : List ℚ) : (ℤ × ℚ) × List ℚ :=
  let zero := out.map fun _ => 0
  let gm := parts.foldl stepMax DCP_NEG_INF
  if gm = DCP_NEG_INF then ((DCP_NEG_INF, 0), zero)
  else
    let s := parts.foldl (addPart gm) (0, zero)
    let inv := if 0 < s.1 then 1 / s.1 else 0
    ((gm, s.1), s.2.map (· * inv))

/-! ### Scored rows -/

structure Row where
  score : ℤ
  value : List ℚ

variable (d : ℕ) (rows : List Row)

def maxScore : ℤ := (rows.map Row.score).foldl max DCP_NEG_INF

def mass (g : ℤ) : ℚ := (rows.map fun r => exp2 (r.score - g)).sum

def moment (g : ℤ) (j : ℕ) : ℚ := (rows.map fun r => exp2 (r.score - g) * r.value.getD j 0).sum

def partialOf : Partial :=
  ⟨maxScore rows, mass rows (maxScore rows), (List.range d).map (moment rows (maxScore rows))⟩

def Represents (rows : List Row) (p : Partial) : Prop :=
  if rows = [] then p.isDead = true else p = partialOf d rows

def softmaxAverage : List ℚ :=
  (List.range d).map fun j =>
    (rows.map fun r => exp2 r.score / (rows.map fun r => exp2 r.score).sum * r.value.getD j 0).sum

def merged : (ℤ × ℚ) × List ℚ :=
  if rows = [] then ((DCP_NEG_INF, 0), List.replicate d 0)
  else ((maxScore rows, mass rows (maxScore rows)), softmaxAverage d rows)

variable {d rows} {g gm : ℤ} {p : Partial} {parts ps : List Partial} {pieces : List (List Row)}
  {rows' : List Row}

theorem exp2_pos (x : ℤ) : 0 < exp2 x := zpow_pos two_pos x

theorem exp2_add (x y : ℤ) : exp2 (x + y) = exp2 x * exp2 y := zpow_add₀ two_ne_zero x y

theorem mass_pos (h : rows ≠ []) : 0 < mass rows g :=
  sum_pos _ (fun _ hx => by
    obtain ⟨r, -, rfl⟩ := mem_map.mp hx
    exact exp2_pos _) (mt map_eq_nil_iff.mp h)

theorem exp2_mul_mass (g g' : ℤ) (rows : List Row) : exp2 (g' - g) * mass rows g' = mass rows g := by
  rw [mass, ← sum_map_mul_left]
  refine congrArg sum (map_congr_left fun r _ => ?_)
  rw [← exp2_add]
  congr 1
  ring

theorem exp2_mul_moment (g g' : ℤ) (rows : List Row) (j : ℕ) :
    exp2 (g' - g) * moment rows g' j = moment rows g j := by
  rw [moment, ← sum_map_mul_left]
  refine congrArg sum (map_congr_left fun r _ => ?_)
  rw [← mul_assoc, ← exp2_add]
  congr 2
  ring

theorem mass_flatten (pieces : List (List Row)) :
    mass pieces.flatten g = (pieces.map fun rows => mass rows g).sum := by
  induction pieces with
  | nil => rfl
  | cons rows pieces ih =>
    rw [map_cons, sum_cons, ← ih, mass, flatten_cons, map_append, sum_append]
    rfl

theorem moment_flatten (pieces : List (List Row)) (j : ℕ) :
    moment pieces.flatten g j = (pieces.map fun rows => moment rows g j).sum := by
  induction pieces with
  | nil => rfl
  | cons rows pieces ih =>
    rw [map_cons, sum_cons, ← ih, moment, flatten_cons, map_append, sum_append]
    rfl

theorem average_eq (h : rows ≠ []) (g : ℤ) :
    softmaxAverage d rows = (range d).map fun j => moment rows g j / mass rows g := by
  refine map_congr_left fun j _ => ?_
  have hsum : (rows.map fun r => exp2 r.score).sum = mass rows 0 := by
    simp only [mass, sub_zero]
  rw [hsum, ← exp2_mul_mass 0 g, ← exp2_mul_moment g 0 rows j, eq_div_iff (mass_pos h).ne']
  have hm := (@mass_pos rows g h).ne'
  have hterm : (fun r : Row => exp2 r.score / (exp2 (g - 0) * mass rows g) * r.value.getD j 0) =
      fun r => (exp2 (g - 0) * mass rows g)⁻¹ * (exp2 (r.score - 0) * r.value.getD j 0) := by
    funext r
    rw [sub_zero]
    ring
  rw [hterm, sum_map_mul_left, ← moment]
  have hcancel : exp2 (0 - g) * exp2 (g - 0) = 1 := by
    rw [← exp2_add, show (0 - g + (g - 0) : ℤ) = 0 by ring]
    exact zpow_zero 2
  rw [mul_inv, show (exp2 (g - 0))⁻¹ = exp2 (0 - g) from (eq_inv_of_mul_eq_one_left hcancel).symm]
  field_simp

/-! ### The greatest score -/

theorem foldl_max (g b : ℤ) (l : List ℤ) : l.foldl max (max g b) = max g (l.foldl max b) :=
  foldl_assoc

theorem le_maxScore (rows : List Row) : DCP_NEG_INF ≤ maxScore rows := by
  rw [maxScore, ← max_self DCP_NEG_INF, foldl_max]
  exact le_max_left _ _

theorem maxScore_append (rows rows' : List Row) :
    maxScore (rows ++ rows') = max (maxScore rows) (maxScore rows') := by
  calc maxScore (rows ++ rows') = (rows'.map Row.score).foldl max (maxScore rows) := by
        rw [maxScore, map_append, foldl_append, ← maxScore]
    _ = (rows'.map Row.score).foldl max (max (maxScore rows) DCP_NEG_INF) := by
        rw [max_eq_left (le_maxScore rows)]
    _ = max (maxScore rows) (maxScore rows') := foldl_max ..

theorem lt_maxScore (h : rows ≠ []) (hs : ∀ r ∈ rows, DCP_NEG_INF < r.score) :
    DCP_NEG_INF < maxScore rows := by
  cases rows with
  | nil => exact absurd rfl h
  | cons r rows =>
    rw [maxScore, map_cons, foldl_cons, max_comm, foldl_max]
    exact (hs r mem_cons_self).trans_le (le_max_left _ _)

theorem maxScore_perm (h : rows.Perm rows') : maxScore rows = maxScore rows' :=
  (h.map _).foldl_eq _

theorem partialOf_live (h : rows ≠ []) (hs : ∀ r ∈ rows, DCP_NEG_INF < r.score) :
    (partialOf d rows).isDead = false := by
  rw [Partial.isDead, Bool.or_eq_false_iff]
  exact ⟨decide_eq_false (lt_maxScore h hs).ne', decide_eq_false (mass_pos h).ne'⟩

theorem foldl_stepMax (h : Forall₂ (Represents d) pieces parts)
    (hs : ∀ r ∈ pieces.flatten, DCP_NEG_INF < r.score) (hg : DCP_NEG_INF ≤ g) :
    parts.foldl stepMax g = max g (maxScore pieces.flatten) := by
  induction h generalizing g with
  | nil => exact (max_eq_left hg).symm
  | @cons rows p pieces parts hp _ ih =>
    rw [flatten_cons] at hs ⊢
    obtain ⟨hr, hrs⟩ := forall_mem_append.mp hs
    have hstep : stepMax g p = max g (maxScore rows) := by
      unfold Represents at hp
      split_ifs at hp with hnil
      · subst hnil
        rw [stepMax, if_neg fun hc => hc.1 hp]
        exact (max_eq_left hg).symm
      · subst hp
        have hlive : (partialOf d rows).isDead = false := partialOf_live hnil hr
        show (if ¬ (partialOf d rows).isDead ∧ g < maxScore rows then maxScore rows else g) = _
        rw [hlive]
        by_cases hlt : g < maxScore rows
        · rw [if_pos ⟨Bool.false_ne_true, hlt⟩, max_eq_right hlt.le]
        · rw [if_neg fun hc => hlt hc.2, max_eq_left (not_lt.mp hlt)]
    rw [foldl_cons, hstep, ih hrs (hg.trans (le_max_left _ _)), max_assoc]
    rw [maxScore_append]

/-! ### The sums -/

theorem weight_mass (h : Represents d rows p) (hs : ∀ r ∈ rows, DCP_NEG_INF < r.score) (g : ℤ) :
    weight g p * p.l = mass rows g ∧ ∀ j < d, weight g p * p.acc.getD j 0 = moment rows g j := by
  unfold Represents at h
  split_ifs at h with hnil
  · subst hnil
    rw [weight, if_pos h]
    simp only [zero_mul, mass, moment, map_nil, sum_nil, implies_true, and_self]
  · subst h
    rw [weight, partialOf_live hnil hs, if_neg Bool.false_ne_true]
    refine ⟨exp2_mul_mass g _ rows, fun j hj => ?_⟩
    have hget : (partialOf d rows).acc.getD j 0 = moment rows (maxScore rows) j := by
      simp [partialOf, getD_eq_getElem?_getD, hj]
    rw [hget]
    exact exp2_mul_moment g _ rows j

theorem addScaled_eq (w : ℚ) (os vs : List ℚ) :
    addScaled w os vs = os.mapIdx fun j o => o + w * vs.getD j 0 := by
  induction os generalizing vs with
  | nil => rfl
  | cons o os ih =>
    cases vs with
    | nil =>
      have hid : os.mapIdx (fun _ o => o) = os := ext_getElem (by simp) (by simp)
      simp [addScaled, hid]
    | cons v vs => simp [addScaled, ih]

theorem addPart_eq (g : ℤ) (x : ℚ) (f : ℕ → ℚ) (p : Partial) :
    addPart g (x, (range d).map f) p =
      (x + weight g p * p.l, (range d).map fun j => f j + weight g p * p.acc.getD j 0) := by
  rw [addPart]
  dsimp only
  split_ifs with hw
  · simp only [hw, zero_mul, add_zero]
  · rw [addScaled_eq]
    congr 1
    apply ext_getElem
    · simp
    · intro j _ _
      simp

theorem foldl_addPart (h : Forall₂ (Represents d) pieces parts)
    (hs : ∀ r ∈ pieces.flatten, DCP_NEG_INF < r.score) (g : ℤ) (x : ℚ) (f : ℕ → ℚ) :
    parts.foldl (addPart g) (x, (range d).map f) = (x + mass pieces.flatten g,
      (range d).map fun j => f j + moment pieces.flatten g j) := by
  induction h generalizing x f with
  | nil => simp only [foldl_nil, flatten_nil, mass, moment, map_nil, sum_nil, add_zero]
  | @cons rows p pieces parts hp _ ih =>
    rw [flatten_cons] at hs
    obtain ⟨hr, hrs⟩ := forall_mem_append.mp hs
    obtain ⟨h1, h2⟩ := weight_mass hp hr g
    rw [foldl_cons, addPart_eq, ih hrs, h1, mass_flatten, mass_flatten, map_cons, sum_cons,
      add_assoc]
    congr 1
    refine map_congr_left fun j hj => ?_
    rw [h2 j (mem_range.mp hj), moment_flatten, moment_flatten, map_cons, sum_cons, add_assoc]

theorem merge_flatten (h : Forall₂ (Represents d) pieces parts)
    (hs : ∀ r ∈ pieces.flatten, DCP_NEG_INF < r.score) {out : List ℚ} (hout : out.length = d) :
    mergePartials parts out = merged d pieces.flatten := by
  have hzero : (out.map fun _ => (0 : ℚ)) = (range d).map fun _ => 0 := by
    rw [map_const', map_const', hout, length_range]
  rw [mergePartials, merged, hzero, foldl_stepMax h hs le_rfl, max_eq_right (le_maxScore _)]
  dsimp only
  by_cases hnil : pieces.flatten = []
  · have hmax : maxScore pieces.flatten = DCP_NEG_INF := by
      rw [hnil]
      rfl
    rw [if_pos hmax, if_pos hnil, map_const', length_range]
  · rw [if_neg (lt_maxScore hnil hs).ne', if_neg hnil, foldl_addPart h hs, average_eq hnil (maxScore pieces.flatten)]
    simp only [zero_add, if_pos (mass_pos hnil), map_map, one_div]
    rfl

theorem merged_perm (h : rows.Perm rows') : merged d rows = merged d rows' := by
  have hmass (g : ℤ) : mass rows g = mass rows' g := (h.map _).sum_eq
  by_cases hnil : rows = []
  · subst hnil
    rw [h.nil_eq]
  · have hnil' : rows' ≠ [] := fun he => hnil (by rw [he] at h; exact h.eq_nil)
    rw [merged, merged, if_neg hnil, if_neg hnil', maxScore_perm h, hmass, average_eq hnil 0,
      average_eq hnil' 0, hmass]
    congr 1
    exact map_congr_left fun j _ => congrArg (· / _) (h.map _).sum_eq

theorem merge_live (parts : List Partial) (out : List ℚ) :
    mergePartials (parts.filter (!·.isDead)) out = mergePartials parts out := by
  have hmax (parts : List Partial) (g : ℤ) :
      (parts.filter (!·.isDead)).foldl stepMax g = parts.foldl stepMax g := by
    induction parts generalizing g with
    | nil => rfl
    | cons p parts ih =>
      cases hp : p.isDead with
      | true =>
        have : stepMax g p = g := if_neg fun hc => hc.1 hp
        rw [filter_cons_of_neg (by simp [hp]), foldl_cons, this, ih]
      | false => rw [filter_cons_of_pos (by simp [hp]), foldl_cons, foldl_cons, ih]
  have hadd (parts : List Partial) (g : ℤ) (s : ℚ × List ℚ) :
      (parts.filter (!·.isDead)).foldl (addPart g) s = parts.foldl (addPart g) s := by
    induction parts generalizing s with
    | nil => rfl
    | cons p parts ih =>
      cases hp : p.isDead with
      | true =>
        have : addPart g s p = s := if_pos (if_pos hp)
        rw [filter_cons_of_neg (by simp [hp]), foldl_cons, this, ih]
      | false => rw [filter_cons_of_pos (by simp [hp]), foldl_cons, foldl_cons, ih]
  simp only [mergePartials, hmax, hadd]

theorem merge_dead (h : ∀ p ∈ ps, p.isDead) (out : List ℚ) :
    mergePartials ps out = ((DCP_NEG_INF, 0), replicate out.length 0) := by
  have hnone : ps.filter (!·.isDead) = [] := filter_eq_nil_iff.mpr fun p hp => by simp [h p hp]
  have hmax : ([] : List Partial).foldl stepMax DCP_NEG_INF = DCP_NEG_INF := rfl
  rw [← merge_live, hnone, mergePartials]
  dsimp only
  rw [if_pos hmax, map_const']

theorem merge_partition (hs : ∀ r ∈ rows, DCP_NEG_INF < r.score) (hperm : pieces.flatten.Perm rows)
    (h : List.Forall₂ (Represents d) pieces parts) {single : Partial} (hsingle : Represents d rows single)
    {out : List ℚ} (hout : out.length = d) :
    mergePartials parts out = mergePartials [single] out ∧ mergePartials parts out = merged d rows ∧
      (∀ ps : List Partial, mergePartials (ps.filter (!·.isDead)) out = mergePartials ps out) ∧
      ∀ ps : List Partial, (∀ p ∈ ps, p.isDead) →
        mergePartials ps out = ((DCP_NEG_INF, 0), List.replicate d 0) := by
  have hparts : mergePartials parts out = merged d rows :=
    (merge_flatten h (fun r hr => hs r (hperm.mem_iff.mp hr)) hout).trans (merged_perm hperm)
  have hone : mergePartials [single] out = merged d rows := by
    have := merge_flatten (.cons hsingle .nil) (by simpa using hs) hout
    simpa using this
  exact ⟨hparts.trans hone.symm, hparts, fun ps => merge_live ps out, fun ps hdead => hout ▸ merge_dead hdead out⟩

theorem represents_partialOf (h : rows ≠ []) : Represents d rows (partialOf d rows) := by
  rw [Represents, if_neg h]

theorem merge_partition_two :
    mergePartials [partialOf 1 [⟨3, [5]⟩], ⟨DCP_NEG_INF, 7, [9]⟩, partialOf 1 [⟨1, [2]⟩]] [0] =
      merged 1 [⟨1, [2]⟩, ⟨3, [5]⟩] := by
  have hidle : Represents 1 [] ⟨DCP_NEG_INF, 7, [9]⟩ := by
    rw [Represents, if_pos rfl, Partial.isDead, decide_eq_true rfl, Bool.true_or]
  exact (@merge_partition 1 [⟨1, [2]⟩, ⟨3, [5]⟩] _ [[⟨3, [5]⟩], [], [⟨1, [2]⟩]] (by decide) (Perm.swap ..)
    (.cons (represents_partialOf (cons_ne_nil _ _)) (.cons hidle
      (.cons (represents_partialOf (cons_ne_nil _ _)) .nil))) _
    (represents_partialOf (cons_ne_nil _ _)) [0] rfl).2.1

theorem average_single (score : ℤ) (v : ℚ) : softmaxAverage 1 [⟨score, [v]⟩] = [v] := by
  have := (exp2_pos score).ne'
  simp [softmaxAverage, this]

theorem merge_at_sentinel : (mergePartials [partialOf 1 [⟨DCP_NEG_INF, [1]⟩]] [0]).2 = [0] ∧
    softmaxAverage 1 [⟨DCP_NEG_INF, [1]⟩] = [1] := by
  have hdead : (partialOf 1 [⟨DCP_NEG_INF, [1]⟩]).isDead = true := by
    simp [Partial.isDead, partialOf, maxScore]
  exact ⟨congrArg Prod.snd (merge_dead (forall_mem_singleton.mpr hdead) [0]), average_single _ _⟩

end Plow.Packet
