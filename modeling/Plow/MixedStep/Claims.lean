import Plow.MixedStep.Dense

/-!
# The rows of the slot band

In the slot band a decode request and the last token of a completing prompt claim the row of their
slot; the other tokens of the chunks follow the band.  After every turn the band holds the claims so
far and is parked elsewhere (`Framed`), and the claims with the bodies are the scheduled rows
(`keys_perm`).
-/

namespace Plow.MixedStep
open Plow.Lib List
open Plow.TokenBatch (Plans PrefillSpan checkedAdd checkedAdd_some okOrErr okOrErr_ok)

variable {env : Env} {band : Nat} {ds : List DecodeRequest} {ps : List PrefillRequest}
  {d : DecodeRequest} {p : PrefillRequest} {out out' : Plan} {C : List Row} {r : Row} {t : Nat}

/-! ### Claims -/

def rowAt (C : List Row) (t : Nat) : Row :=
  (C.find? fun r => r.slot = t).getD ⟨0, t, t, 0, 1, .parked⟩

def claimed (C : List Row) (t : Nat) : Bool := t ∈ C.map (·.slot)

def bitAt (C : List Row) (t : Nat) : Nat := if claimed C t then 0 else 1

def terminalOf (p : PrefillRequest) : Row :=
  ⟨p.tokens.getLastD 0, p.slot, p.stateSlot, stopOf p - 1, stopOf p, .decode⟩

def claimOf (p : PrefillRequest) : List Row :=
  if completing true p then [terminalOf p] else []

def bodyOf (p : PrefillRequest) : PrefillRequest :=
  { p with tokens := if completing true p then p.tokens.dropLast else p.tokens }

def claims (env : Env) (ds : List DecodeRequest) (ps : List PrefillRequest) : List Row :=
  ds.map (decodeRow env) ++ ps.flatMap claimOf

def bodies (ps : List PrefillRequest) : List PrefillRequest :=
  (ps.map bodyOf).filter fun p => p.tokens ≠ []

theorem rowAt_of_not_mem (h : t ∉ C.map (·.slot)) : rowAt C t = ⟨0, t, t, 0, 1, .parked⟩ := by
  have hnone : (C.find? fun r => decide (r.slot = t)) = none := by
    rw [find?_eq_none]
    intro r hr hrt
    exact h (of_decide_eq_true hrt ▸ mem_map_of_mem hr)
  rw [rowAt, hnone]
  rfl

theorem rowAt_of_mem (h : t ∈ C.map (·.slot)) : rowAt C t ∈ C ∧ (rowAt C t).slot = t := by
  obtain ⟨r, hr, hrt⟩ := mem_map.mp h
  obtain ⟨r', h1⟩ : ∃ r', (C.find? fun r => decide (r.slot = t)) = some r' := by
    rw [← Option.isSome_iff_exists, find?_isSome]
    exact ⟨r, hr, decide_eq_true hrt⟩
  rw [rowAt, h1]
  have hslot := find?_some h1
  exact ⟨mem_of_find?_eq_some h1, of_decide_eq_true hslot⟩

theorem rowAt_slot (t : Nat) : (rowAt C t).slot = t := by
  by_cases h : t ∈ C.map (·.slot)
  · exact (rowAt_of_mem h).2
  · rw [rowAt_of_not_mem h]

theorem rowAt_self (h : (C.map (·.slot)).Nodup) (hr : r ∈ C) : rowAt C r.slot = r := by
  obtain ⟨h1, h2⟩ := rowAt_of_mem (mem_map_of_mem hr)
  exact inj_on_of_nodup_map h h1 hr h2

theorem rowAt_concat (hr : r.slot ∉ C.map (·.slot)) (t : Nat) :
    rowAt (C ++ [r]) t = if t = r.slot then r else rowAt C t := by
  unfold rowAt
  rw [find?_append]
  by_cases h : t = r.slot
  · have hnone : (C.find? fun q => decide (q.slot = t)) = none := by
      rw [find?_eq_none]
      intro q hq hqt
      exact hr (h ▸ of_decide_eq_true hqt ▸ mem_map_of_mem hq)
    rw [hnone, if_pos h, h]
    simp
  · have hne : ¬r.slot = t := fun hc => h hc.symm
    rw [if_neg h]
    simp [hne]

theorem set_map_range {α : Type} {f g : Nat → α} {a : α} {s : Nat} (hs : g s = a)
    (h : ∀ i, i ≠ s → g i = f i) : ((range band).map f).set s a = (range band).map g := by
  apply ext_getElem?
  intro i
  rw [getElem?_set, getElem?_map, length_map, length_range, getElem?_map]
  by_cases hi : i < band
  · rw [getElem?_range hi, Option.map_some, Option.map_some]
    by_cases hsi : s = i
    · rw [if_pos hsi, if_pos (hsi ▸ hi), ← hsi, hs]
    · rw [if_neg hsi, h i fun hc => hsi hc.symm]
  · rw [getElem?_eq_none (by simpa using hi)]
    by_cases hsi : s = i
    · rw [if_pos hsi, if_neg (hsi ▸ hi)]
      rfl
    · rw [if_neg hsi]
      rfl

theorem set_rowAt (hr : r.slot ∉ C.map (·.slot)) :
    ((range band).map (rowAt C)).set r.slot r = (range band).map (rowAt (C ++ [r])) := by
  apply set_map_range
  · rw [rowAt_concat hr, if_pos rfl]
  · intro i hi
    rw [rowAt_concat hr, if_neg hi]

theorem set_bitAt :
    ((range band).map (bitAt C)).set r.slot 0 = (range band).map (bitAt (C ++ [r])) := by
  apply set_map_range
  · simp [bitAt, claimed]
  · intro i hi
    simp [bitAt, claimed, hi]

theorem perm_claimed (h : (C.map (·.slot)).Nodup) (hb : ∀ r ∈ C, r.slot < band) :
    (((range band).filter (claimed C)).map (rowAt C)).Perm C := by
  have hslots : (((range band).filter (claimed C)).map (rowAt C)).map (·.slot) =
      (range band).filter (claimed C) := by
    rw [map_map]
    exact (map_congr_left fun t _ => rowAt_slot t).trans (map_id _)
  have hnodup : (((range band).filter (claimed C)).map (rowAt C)).Nodup := by
    refine Nodup.of_map (·.slot) ?_
    rw [hslots]
    exact nodup_range.filter _
  rw [perm_ext_iff_of_nodup hnodup h.of_map]
  intro r
  constructor
  · intro hr
    obtain ⟨t, ht, rfl⟩ := mem_map.mp hr
    exact (rowAt_of_mem (of_decide_eq_true (mem_filter.mp ht).2)).1
  · intro hr
    refine mem_map.mpr ⟨r.slot, ?_, rowAt_self h hr⟩
    rw [mem_filter]
    exact ⟨mem_range.mpr (hb r hr), decide_eq_true (mem_map_of_mem hr)⟩

/-! ### Claims and bodies -/

theorem keys_chunk (hp : 0 < p.tokens.length) :
    ((chunkOf (bodyOf p)).map Row.key ++ (claimOf p).map Row.key) = (chunkOf p).map Row.key := by
  have hne : p.tokens ≠ [] := length_pos_iff.mp hp
  unfold claimOf bodyOf
  by_cases hc : completing true p = true
  · rw [if_pos hc, if_pos hc, ← map_append]
    have hsplit : chunkOf p = chunkRows p.slot p.stateSlot p.start p.tokens.dropLast ++
        [⟨p.tokens.getLast hne, p.slot, p.stateSlot, p.start + p.tokens.dropLast.length,
          p.start + p.tokens.dropLast.length + 1, .prefill⟩] := by
      rw [← chunkRows_concat, dropLast_concat_getLast]
      rfl
    have hstop : stopOf p = p.start + p.tokens.dropLast.length + 1 := by
      rw [length_dropLast]
      unfold stopOf
      omega
    have hlast : p.tokens.getLastD 0 = p.tokens.getLast hne := by
      rw [getLastD_eq_getLast?, getLast?_eq_some_getLast hne]
      rfl
    rw [hsplit, map_append, map_append]
    congr 1
    unfold terminalOf
    rw [hstop, hlast]
    rfl
  · rw [if_neg hc, if_neg hc]
    exact append_nil _

theorem flatMap_bodies (ps : List PrefillRequest) :
    (bodies ps).flatMap chunkOf = ps.flatMap fun p => chunkOf (bodyOf p) := by
  induction ps with
  | nil => rfl
  | cons p ps ih =>
    unfold bodies at ih ⊢
    rw [map_cons, filter_cons, flatMap_cons, ← ih]
    split
    · rw [flatMap_cons]
    · next h =>
      have hnil : (bodyOf p).tokens = [] := by simpa using h
      have hchunk : chunkOf (bodyOf p) = [] := by
        unfold chunkOf
        rw [hnil]
        rfl
      rw [hchunk, nil_append]

theorem keys_perm (hp : ∀ p ∈ ps, 0 < p.tokens.length) :
    ((claims env ds ps ++ (bodies ps).flatMap chunkOf).map Row.key).Perm
      ((scheduled env ds ps).map Row.key) := by
  have hkeys : ((ps.flatMap fun p => chunkOf (bodyOf p) ++ claimOf p).map Row.key) =
      (ps.flatMap chunkOf).map Row.key := by
    rw [map_flatMap, map_flatMap]
    refine flatMap_congr fun p h => ?_
    rw [map_append, keys_chunk (hp p h)]
  have hscheduled : (ds.map (decodeRow env) ++ ps.flatMap chunkOf).map Row.key =
      (ds.map (decodeRow env)).map Row.key ++ (ps.flatMap chunkOf).map Row.key := map_append
  unfold claims scheduled
  rw [hscheduled, ← hkeys, flatMap_bodies, append_assoc, map_append]
  apply Perm.append_left
  refine Perm.map _ (perm_append_comm.trans ?_)
  exact flatMap_append_perm ps _ _

theorem claims_concat_decode : claims env (ds ++ [d]) [] = claims env ds [] ++ [decodeRow env d] := by
  simp [claims]

theorem claims_concat : claims env ds (ps ++ [p]) = claims env ds ps ++ claimOf p := by
  simp [claims]

theorem bodies_concat : bodies (ps ++ [p]) =
    bodies ps ++ if (bodyOf p).tokens ≠ [] then [bodyOf p] else [] := by
  unfold bodies
  rw [map_append, filter_append, map_singleton]
  congr 1
  by_cases h : (bodyOf p).tokens = []
  · rw [if_neg (not_not.mpr h)]
    simp [h]
  · rw [if_pos h]
    simp [h]

theorem claims_sublist : ((claims env ds ps).map (·.slot)).Sublist
    (ds.map (·.slot) ++ ps.map (·.slot)) := by
  unfold claims
  rw [map_append, map_map]
  refine Sublist.append_left ?_ _
  rw [map_flatMap]
  induction ps with
  | nil => exact .refl _
  | cons p ps ih =>
    rw [flatMap_cons, map_cons]
    have hclaim : ((claimOf p).map (·.slot)).Sublist [p.slot] := by
      unfold claimOf
      split
      · exact .refl _
      · exact nil_sublist _
    exact hclaim.append ih

end Plow.MixedStep
