import Plow.Schedule.Allocate

/-!
# The arena

What an address map promises (`ArenaSound`): entries of different alias roots that are live at the same
cycle have no byte in common, a view lies in its root's span at its offset along the aliases, and every
entry lies in the segment of its own device.  `allocate` keeps this for the buffers that fit (`Fits`): a
growable view stays in its root's span with the bytes it reserves, and roots that are live together
have intervals that show it.  Where they do not, a view that is live for the whole program is lost in
the interval of its root (`allocate_loses`).
-/

namespace Plow.Schedule
open Plow.Lib List Option

/-! ### What is promised -/

/-- the check that the loader makes -/
def validateFrom (arenaBytes : Nat) : List Nat → List AddrEntry → Except String Unit
  | _, [] => .ok ()
  | seen, e :: es =>
    if arenaBytes < e.offset + e.reserved then
      .error s!"buffer '{e.name}' [{e.offset}, {e.offset + e.reserved}) exceeds arena {arenaBytes}"
    else if e.slot ∈ seen then .error s!"duplicate slot id {e.slot}"
    else validateFrom arenaBytes (e.slot :: seen) es

def AddressMap.validate (map : AddressMap) : Except String Unit :=
  validateFrom map.arenaBytes [] map.entries

def BufReq.LiveAt (r : BufReq) (t : Nat) : Prop :=
  r.cls = .scratch → ∀ iv ∈ r.live, iv.1 ≤ t ∧ t < iv.2

/-- `root` is `n` aliases away from the buffer, and `off` bytes into it the buffer begins -/
inductive Leads (reqs : List BufReq) : Nat → Nat → Nat → Nat → Prop where
  | root {i : Nat} (h : aliasTarget reqs i = none) : Leads reqs 0 i i 0
  | step {n i j root off : Nat} (h : aliasTarget reqs i = some j) (hj : Leads reqs n j root off) :
      Leads reqs (n + 1) i root (aliasOff reqs i + off)

def Acyclic (reqs : List BufReq) : Prop := ∀ i < reqs.length, ∃ n root off, Leads reqs n i root off

def LiveAt (reqs : List BufReq) (i t : Nat) : Prop :=
  ∃ j r, reqs[j]? = some r ∧ r.LiveAt t ∧ (j = i ∨ ∃ n off, Leads reqs n j i off)

def memberEnds (reqs : List BufReq) (root : Nat) : List Nat :=
  (List.range reqs.length).filterMap fun i =>
    if (rootAndOff reqs i).1 = root then reqs[i]?.map fun r => (rootAndOff reqs i).2 + r.size else none

def rootSpan (reqs : List BufReq) (root : Nat) : Nat :=
  (memberEnds reqs root).foldr max 0 +
    ((reqs[root]?.map fun r => if r.cls = .growable then r.growthReserve else 0).getD 0)

/-- What the address map promises of the buffers, each copy of a tensor on its own. -/
structure ArenaSound (reqs : List BufReq) (map : AddressMap) : Prop where
  count : map.entries.length = reqs.length
  entry : ∀ (i : Nat) (e : AddrEntry) (r : BufReq), map.entries[i]? = some e → reqs[i]? = some r →
    e.slot = i ∧ e.name = r.name ∧ e.device = r.device ∧ e.reserved = r.span
  apart : ∀ (i j : Nat) (e f : AddrEntry) (n n' root root' off off' : Nat), map.entries[i]? = some e →
    map.entries[j]? = some f → Leads reqs n i root off → Leads reqs n' j root' off' → root ≠ root' →
    (∃ t, LiveAt reqs i t ∧ LiveAt reqs j t) → Clear e.offset e.reserved f.offset f.reserved
  view : ∀ (i : Nat) (e f : AddrEntry) (n root off : Nat), map.entries[i]? = some e →
    Leads reqs n i root off → map.entries[root]? = some f →
    e.offset = f.offset + off ∧ off + e.reserved ≤ rootSpan reqs root
  segment : ∀ e ∈ map.entries, ∃ s ∈ map.segments, s.device = e.device ∧ s.globalBase ≤ e.offset ∧
    e.offset + e.reserved ≤ s.globalBase + s.size
  segments : map.segments.Pairwise fun s t => s.device ≠ t.device ∧ s.globalBase + s.size ≤ t.globalBase
  validates : map.validate = .ok ()

/-! ### The condition -/

def named (reqs : List BufReq) (root : Nat) : List (Nat × Nat) :=
  (List.range reqs.length).filterMap fun i =>
    if (rootAndOff reqs i).1 = root then reqs[i]?.bind (·.live) else none

def hull : List (Nat × Nat) → Nat × Nat
  | [] => (0, cycleMax)
  | [iv] => iv
  | iv :: ivs => (min iv.1 (hull ivs).1, max iv.2 (hull ivs).2)

structure Fits (reqs : List BufReq) : Prop where
  /-- a growable view stays in its root with what it reserves -/
  growth : ∀ (i : Nat) (r : BufReq) (n root off : Nat), reqs[i]? = some r → r.cls = .growable →
    Leads reqs n i root off → off + (r.size + r.growthReserve) ≤ rootSpan reqs root
  /-- scratch roots of a device that are live together have intervals that meet -/
  live : ∀ (root root' : Nat) (r r' : BufReq), root ≠ root' → reqs[root]? = some r →
    reqs[root']? = some r' → Leads reqs 0 root root 0 → Leads reqs 0 root' root' 0 →
    r.cls = .scratch → r'.cls = .scratch → r.device = r'.device →
    (∃ t, LiveAt reqs root t ∧ LiveAt reqs root' t) →
    (hull (named reqs root)).1 < (hull (named reqs root')).2 ∧
      (hull (named reqs root')).1 < (hull (named reqs root)).2

variable {reqs merged : List BufReq} {i j n root off e t b : Nat} {r m q m' : BufReq} {l : List (Nat × Nat)}
  {iv : Nat × Nat} {s : Merge}

/-! ### Aliases -/

section

variable (h : Leads reqs n i root off)
include h

theorem Leads.unique {n' root' off' : Nat} (h' : Leads reqs n' i root' off') :
    n = n' ∧ root = root' ∧ off = off' := by
  induction h generalizing n' off' with
  | root h =>
    cases h' with
    | root _ => exact ⟨rfl, rfl, rfl⟩
    | step h' _ =>
      rw [h] at h'
      cases h'
  | step h _ ih =>
    cases h' with
    | root h' =>
      rw [h] at h'
      cases h'
    | step h' hj =>
      rw [h] at h'
      cases h'
      obtain ⟨rfl, rfl, rfl⟩ := ih hj
      exact ⟨rfl, rfl, rfl⟩

theorem Leads.target : Leads reqs 0 root root 0 := by
  induction h with
  | root h => exact .root h
  | step _ _ ih => exact ih

theorem Leads.path (hi : i < reqs.length) :
    ∃ l : List Nat, l.length = n + 1 ∧ l.Nodup ∧
      ∀ x ∈ l, x < reqs.length ∧ ∃ k ≤ n, ∃ off', Leads reqs k x root off' := by
  induction h with
  | @root i h =>
    refine ⟨[i], rfl, nodup_singleton i, fun x hx => ?_⟩
    rw [mem_singleton.mp hx]
    exact ⟨hi, 0, le_rfl, 0, .root h⟩
  | @step n i j root off h hj ih =>
    obtain ⟨-, -, q, -, -, hq, -⟩ := aliasTarget_some h
    obtain ⟨l, hlen, hnd, hl⟩ := ih (List.getElem?_eq_some_iff.mp hq).1
    refine ⟨i :: l, by rw [length_cons, hlen], nodup_cons.mpr ⟨fun hmem => ?_, hnd⟩, fun x hx => ?_⟩
    · obtain ⟨-, k, hk, off', hx⟩ := hl i hmem
      have := (hx.unique (.step h hj)).1
      omega
    · rcases mem_cons.mp hx with rfl | hx
      · exact ⟨hi, n + 1, le_rfl, _, .step h hj⟩
      · obtain ⟨hlt, k, hk, off', hx⟩ := hl x hx
        exact ⟨hlt, k, by omega, off', hx⟩

theorem Leads.length_lt (hi : i < reqs.length) : n < reqs.length := by
  obtain ⟨l, hlen, hnd, hl⟩ := h.path hi
  have hsub : l ⊆ range reqs.length := fun x hx => mem_range.mpr (hl x hx).1
  have := (subperm_of_subset hnd hsub).length_le
  rw [hlen, length_range] at this
  exact this

theorem Leads.follow {k o : Nat} (hk : n ≤ k) :
    followAlias reqs k i o = (root, o + off) := by
  induction h generalizing k o with
  | root h =>
    cases k with
    | zero => rfl
    | succ k =>
      unfold followAlias
      rw [h]
      rfl
  | step h _ ih =>
    cases k with
    | zero => omega
    | succ k =>
      unfold followAlias
      rw [h]
      dsimp only
      rw [ih (by omega), add_assoc]

theorem Leads.rootAndOff (hi : i < reqs.length) :
    rootAndOff reqs i = (root, off) := by
  have := h.follow (k := reqs.length) (o := 0) (le_of_lt (h.length_lt hi))
  rw [zero_add] at this
  exact this

end

theorem leads_of_rootAndOff (ha : Acyclic reqs) (hi : i < reqs.length) :
    ∃ n, Leads reqs n i (rootAndOff reqs i).1 (rootAndOff reqs i).2 := by
  obtain ⟨n, root, off, h⟩ := ha i hi
  rw [h.rootAndOff hi]
  exact ⟨n, h⟩

theorem Leads.device (h : Leads reqs n i root off) (hr : reqs[i]? = some r)
    (hq : reqs[root]? = some q) : q.device = r.device := by
  induction h generalizing r with
  | root _ =>
    rw [hr] at hq
    cases hq
    rfl
  | step h _ ih =>
    obtain ⟨-, r', q', target, hr', hq', -, -, hd⟩ := aliasTarget_some h
    rw [hr] at hr'
    cases hr'
    exact (ih hq' hq).trans hd

/-! ### Merged buffers -/

theorem mem_named : iv ∈ named reqs root ↔
    ∃ i r, reqs[i]? = some r ∧ (rootAndOff reqs i).1 = root ∧ r.live = some iv := by
  unfold named
  rw [mem_filterMap]
  constructor
  · rintro ⟨i, -, h⟩
    split at h
    · next hroot =>
      obtain ⟨r, hr, hlive⟩ := bind_eq_some_iff.mp h
      exact ⟨i, r, hr, hroot, hlive⟩
    · cases h
  · rintro ⟨i, r, hr, hroot, hlive⟩
    refine ⟨i, mem_range.mpr (List.getElem?_eq_some_iff.mp hr).1, ?_⟩
    rw [if_pos hroot, hr]
    exact hlive

/-- an interval of a merged buffer comes from the root or a member -/
structure FromMembers (reqs : List BufReq) (s : Merge) : Prop where
  ok : MergeOk reqs (fun _ => False) s
  live : ∀ root p m, s.rootPos root = some p → s.merged[p]? = some m → m.live.isSome →
    ∃ i r, reqs[i]? = some r ∧ r.live.isSome ∧ ((rootAndOff reqs i).1 = root ∨ i = root)

theorem FromMembers.entry (F : FromMembers reqs s) (hr : reqs[root]? = some r) :
    FromMembers reqs (s.entry root r).1 := by
  refine ⟨(F.ok.entry hr).1, ?_⟩
  unfold Merge.entry
  cases hp : s.rootPos root with
  | some pos => exact F.live
  | none =>
    intro root' p m h hm hlive
    change s.rootPos.insert root s.merged.length root' = some p at h
    by_cases he : root' = root
    · subst he
      rw [Offsets.insert_self] at h
      cases h
      have hm : (s.merged ++ [r])[s.merged.length]? = some m := hm
      rw [getElem?_concat_length] at hm
      cases hm
      exact ⟨root', r, hr, hlive, .inr rfl⟩
    · rw [Offsets.insert_ne he] at h
      obtain ⟨m', -, hm', -⟩ := F.ok.root root' p h
      have hlt := (List.getElem?_eq_some_iff.mp hm').1
      have hm : (s.merged ++ [r])[p]? = some m := hm
      rw [getElem?_append_left hlt] at hm
      exact F.live root' p m h hm hlive

theorem FromMembers.mergeOne (F : FromMembers reqs s) (hr : reqs[i]? = some r) :
    FromMembers reqs (mergeOne reqs s i) := by
  have hi := (List.getElem?_eq_some_iff.mp hr).1
  refine ⟨?_, ?_⟩
  · have M := F.ok.mergeOne hr
    exact ⟨M.root, M.inj, fun j q hd _ => absurd hd id⟩
  · obtain ⟨q, hq⟩ : ∃ q, reqs[(rootAndOff reqs i).1]? = some q := ⟨_, getElem?_eq_getElem (root_lt hi)⟩
    have hpos := (F.ok.entry hq).2
    have F' := F.entry hq
    unfold Schedule.mergeOne
    simp only [hq, hr]
    generalize s.entry (rootAndOff reqs i).1 q = e at F' hpos
    obtain ⟨s', pos⟩ := e
    intro root p m h hm hlive
    have hm : (s'.merged.modify pos (foldMember (rootAndOff reqs i).1 i (rootAndOff reqs i).2 r))[p]? =
      some m := hm
    rw [getElem?_modify] at hm
    obtain ⟨m', hm', rfl⟩ := map_eq_some_iff.mp hm
    by_cases he : pos = p
    · subst he
      have hroot : (rootAndOff reqs i).1 = root := F'.ok.inj _ _ pos hpos h
      rw [if_pos rfl] at hlive
      unfold foldMember at hlive
      by_cases hm0 : m'.live.isSome
      · exact F'.live root pos m' h hm' hm0
      · refine ⟨i, r, hr, ?_, .inl hroot⟩
        have hnone : m'.live = none := by simpa using hm0
        split at hlive
        · rw [hnone] at hlive
          cases hrl : r.live with
          | none =>
            rw [hrl] at hlive
            cases hlive
          | some iv => rfl
        · rw [hnone] at hlive
          cases hlive
    · rw [if_neg he] at hlive
      exact F'.live root p m' h hm' hlive

theorem fromMembers (reqs : List BufReq) : FromMembers reqs (mergeRoots reqs) := by
  have h : ∀ n ≤ reqs.length, FromMembers reqs
      ((range n).foldl (Schedule.mergeOne reqs) ⟨[], fun _ => none⟩) := by
    intro n hn
    induction n with
    | zero => exact ⟨⟨nofun, nofun, fun _ _ hd => absurd hd id⟩, nofun⟩
    | succ n ih =>
      rw [range_succ, foldl_append]
      exact (ih (by omega)).mergeOne (getElem?_eq_getElem (show n < reqs.length by omega))
  exact h _ le_rfl

theorem hull_le {a : Nat} (hne : l ≠ []) (h : ∀ iv ∈ l, a ≤ iv.1 ∧ iv.2 ≤ b) :
    a ≤ (hull l).1 ∧ (hull l).2 ≤ b := by
  induction l with
  | nil => exact absurd rfl hne
  | cons iv l ih =>
    cases l with
    | nil => exact h iv mem_cons_self
    | cons iv' l =>
      obtain ⟨h1, h2⟩ := h iv mem_cons_self
      obtain ⟨h3, h4⟩ := ih (cons_ne_nil _ _) fun w hw => h w (mem_cons_of_mem _ hw)
      exact ⟨Nat.le_min.mpr ⟨h1, h3⟩, Nat.max_le.mpr ⟨h2, h4⟩⟩

/-- A merged buffer holds its bytes over all that the members name. -/
theorem IsStorage.window (h : IsStorage reqs root m) (hroot : (rootAndOff reqs root).1 = root) :
    m.window.1 ≤ (hull (named reqs root)).1 ∧ (hull (named reqs root)).2 ≤ m.window.2 := by
  unfold BufReq.window
  by_cases hne : named reqs root = []
  · have hnone : m.live = none := by
      by_contra hsome
      obtain ⟨p, hp, hm⟩ := h
      obtain ⟨i, r, hr, hl, hi⟩ := (fromMembers reqs).live root p m hp hm (isSome_iff_ne_none.mpr hsome)
      obtain ⟨iv, hiv⟩ := isSome_iff_exists.mp hl
      have hmem : iv ∈ named reqs root := by
        refine mem_named.mpr ⟨i, r, hr, ?_, hiv⟩
        rcases hi with hi | rfl
        · exact hi
        · exact hroot
      rw [hne] at hmem
      cases hmem
    rw [hne, hnone]
    exact ⟨le_rfl, le_rfl⟩
  · have hcover : ∀ iv ∈ named reqs root, ∃ w ∈ m.live, w.1 ≤ iv.1 ∧ iv.2 ≤ w.2 := by
      intro iv hiv
      obtain ⟨i, r, hr, hi, hl⟩ := mem_named.mp hiv
      subst hi
      exact (h.member hr).2 iv hl
    obtain ⟨iv, hiv⟩ := exists_mem_of_ne_nil _ hne
    obtain ⟨w, hw, -⟩ := hcover iv hiv
    rw [hw]
    refine hull_le hne fun iv' hiv' => ?_
    obtain ⟨w', hw', h1, h2⟩ := hcover iv' hiv'
    rw [hw] at hw'
    cases hw'
    exact ⟨h1, h2⟩

theorem mem_memberEnds : e ∈ memberEnds reqs root ↔
    ∃ i r, reqs[i]? = some r ∧ (rootAndOff reqs i).1 = root ∧ (rootAndOff reqs i).2 + r.size = e := by
  unfold memberEnds
  rw [mem_filterMap]
  constructor
  · rintro ⟨i, -, h⟩
    split at h
    · next hroot =>
      obtain ⟨r, hr, he⟩ := map_eq_some_iff.mp h
      exact ⟨i, r, hr, hroot, he⟩
    · cases h
  · rintro ⟨i, r, hr, hroot, he⟩
    refine ⟨i, mem_range.mpr (List.getElem?_eq_some_iff.mp hr).1, ?_⟩
    rw [if_pos hroot, hr, ← he]
    rfl

theorem foldr_max_le {l : List Nat} (h : ∀ e ∈ l, e ≤ b) : l.foldr max 0 ≤ b := by
  induction l with
  | nil => exact Nat.zero_le b
  | cons e l ih =>
    exact Nat.max_le.mpr ⟨h e mem_cons_self, ih fun e' he => h e' (mem_cons_of_mem _ he)⟩

theorem le_foldr_max {l : List Nat} (h : e ∈ l) : e ≤ l.foldr max 0 := by
  induction l with
  | nil => cases h
  | cons e' l ih =>
    rcases mem_cons.mp h with rfl | h
    · exact le_max_left _ _
    · exact le_trans (ih h) (le_max_right _ _)

theorem IsStorage.rootSpan_le (h : IsStorage reqs root m) : rootSpan reqs root ≤ m.span := by
  obtain ⟨r, hr, g⟩ := h.root
  have hends : (memberEnds reqs root).foldr max 0 ≤ m.size := by
    refine foldr_max_le fun e he => ?_
    obtain ⟨i, q, hq, hi, rfl⟩ := mem_memberEnds.mp he
    subst hi
    exact (h.member hq).1
  unfold rootSpan BufReq.span
  rw [hr, g.cls, g.growth]
  show _ + (if r.cls = .growable then r.growthReserve else 0) ≤ _
  split
  · omega
  · omega

/-! ### Segments -/

/-- the segments of the devices placed so far -/
structure SegmentsOk (merged : List BufReq) (ds : List Nat) (a : Arena) : Prop where
  apart : a.segments.Pairwise fun s t => s.device ≠ t.device ∧ s.globalBase + s.size ≤ t.globalBase
  placed : ∀ s ∈ a.segments, s.device ∈ ds ∧ s.globalBase + s.size ≤ a.globalBase
  holds : ∀ i m o, merged[i]? = some m → m.device ∈ ds → a.offsets i = some o →
    ∃ s ∈ a.segments, s.device = m.device ∧ s.globalBase ≤ o ∧ o + m.span ≤ s.globalBase + s.size

theorem SegmentsOk.placeDevice {ds : List Nat} {a : Arena} {device : Nat}
    (S : SegmentsOk merged ds a) (hd : device ∉ ds) :
    SegmentsOk merged (ds ++ [device]) (placeDevice merged a device) := by
  obtain ⟨L, hsome⟩ := laid_place (oneDevice_ofDevice merged device)
  have hplace : ∃ loc size gbase, place ((ofDevice merged device).map (·.1)) = (loc, size, gbase) :=
    ⟨_, _, _, rfl⟩
  obtain ⟨loc, size, gbase, hp⟩ := hplace
  rw [hp] at L hsome
  dsimp only at L hsome
  have hsize := le_alignUp size
  obtain ⟨hin, hout⟩ := shiftOffsets_eq a.globalBase a.offsets loc (nodup_ofDevice merged device)
  have heq : Schedule.placeDevice merged a device =
      ⟨shiftOffsets (ofDevice merged device) a.globalBase a.offsets loc,
        a.segments ++ [⟨device, a.globalBase, size, a.globalBase + gbase⟩],
        a.globalBase + alignUp size memAlign,
        if a.segments = [] then a.globalBase + gbase else a.growableBase⟩ := by
    unfold Schedule.placeDevice
    simp only [hp]
  rw [heq]
  refine ⟨?_, fun s hs => ?_, fun i m o hm hmem ho => ?_⟩
  · refine pairwise_append.mpr ⟨S.apart, pairwise_singleton _ _, fun s hs t ht => ?_⟩
    rw [mem_singleton.mp ht]
    obtain ⟨hdev, hend⟩ := S.placed s hs
    exact ⟨fun he : s.device = device => hd (he ▸ hdev), hend⟩
  · rcases mem_append.mp hs with hs | hs
    · obtain ⟨hdev, hend⟩ := S.placed s hs
      exact ⟨mem_append_left _ hdev, Nat.le_trans hend (Nat.le_add_right _ _)⟩
    · rw [mem_singleton.mp hs]
      refine ⟨mem_append_right _ mem_cons_self, ?_⟩
      show a.globalBase + size ≤ a.globalBase + alignUp size memAlign
      omega
  · by_cases hi : i ∈ (ofDevice merged device).map (·.2)
    · -- a buffer of this device
      obtain ⟨⟨m', i'⟩, he, hi'⟩ := mem_map.mp hi
      obtain rfl : i' = i := hi'
      obtain ⟨hm', hdev⟩ := mem_ofDevice.mp he
      obtain rfl : m = m' := some.inj (hm.symm.trans hm')
      obtain ⟨li, hli⟩ := getElem?_of_mem he
      have hsub : ((ofDevice merged device).map (·.1))[li]? = some m := by
        rw [getElem?_map, hli]
        rfl
      obtain ⟨o', ho'⟩ := isSome_iff_exists.mp (hsome li m hsub)
      obtain ⟨q, hq, hle⟩ := L.fits li o' ho'
      rw [hsub] at hq
      cases hq
      have ho : shiftOffsets (ofDevice merged device) a.globalBase a.offsets loc i' = some o := ho
      rw [hin li _ hli, ho'] at ho
      cases ho
      refine ⟨_, mem_append_right _ mem_cons_self, hdev.symm, Nat.le_add_right _ _, ?_⟩
      show a.globalBase + o' + m.span ≤ a.globalBase + size
      change o' + m.span ≤ size at hle
      omega
    · have ho : shiftOffsets (ofDevice merged device) a.globalBase a.offsets loc i = some o := ho
      rw [hout i hi] at ho
      have hne : m.device ≠ device := by
        intro he
        exact hi (mem_map.mpr ⟨(m, i), mem_ofDevice.mpr ⟨hm, he⟩, rfl⟩)
      have hmem : m.device ∈ ds := by
        rcases mem_append.mp hmem with h | h
        · exact h
        · exact absurd (mem_singleton.mp h) hne
      obtain ⟨s, hs, h⟩ := S.holds i m o hm hmem ho
      exact ⟨s, mem_append_left _ hs, h⟩

theorem placeDevices_segments (merged : List BufReq) :
    SegmentsOk merged (devices merged) (placeDevices merged) := by
  have h : ∀ ds ds0 a, (ds0 ++ ds).Nodup → SegmentsOk merged ds0 a →
      SegmentsOk merged (ds0 ++ ds) (ds.foldl (Schedule.placeDevice merged) a) := by
    intro ds
    induction ds with
    | nil =>
      intro ds0 a _ S
      rw [append_nil]
      exact S
    | cons d ds ih =>
      intro ds0 a hnd S
      have hd : d ∉ ds0 := by
        intro hmem
        exact (nodup_append.mp hnd).2.2 d hmem d mem_cons_self rfl
      have := ih (ds0 ++ [d]) _ (by rw [append_assoc]; exact hnd) (S.placeDevice hd)
      rwa [append_assoc] at this
  have hnd : (devices merged).Nodup := by
    unfold devices
    exact (perm_insertionSort _ _).nodup_iff.mpr (nodup_dedup _)
  exact h (devices merged) [] ⟨fun _ => none, [], 0, 0⟩ hnd
    ⟨.nil, nofun, fun i m o _ hd => absurd hd not_mem_nil⟩

/-! ### Entries -/

/-- where an entry is: in the storage of its root -/
structure Stored (reqs : List BufReq) (map : AddressMap) (i : Nat) (e : AddrEntry) (r : BufReq) (p : Nat)
    (m : BufReq) (o : Nat) : Prop where
  req : reqs[i]? = some r
  pos : (mergeRoots reqs).rootPos (rootAndOff reqs i).1 = some p
  merged : (mergeRoots reqs).merged[p]? = some m
  base : (placeDevices (mergeRoots reqs).merged).offsets p = some o
  entry : e = {
    slot := i
    name := r.name
    cls := m.cls
    offset := o + (rootAndOff reqs i).2
    reserved := r.span
    growable := m.cls = .growable
    device := m.device }

theorem allocate_stored {map : AddressMap} (h : allocate reqs = some map) :
    map.entries.length = (expandReplicas reqs).length ∧
      map.arenaBytes = (placeDevices (mergeRoots (expandReplicas reqs)).merged).globalBase ∧
      map.segments = (placeDevices (mergeRoots (expandReplicas reqs)).merged).segments ∧
      ∀ (i : Nat) (e : AddrEntry), map.entries[i]? = some e →
        ∃ r p m o, Stored (expandReplicas reqs) map i e r p m o := by
  unfold allocate at h
  obtain ⟨entries, hentries, h⟩ := bind_eq_some_iff.mp h
  cases h
  have hall := optionMapM_iff.mp hentries
  refine ⟨?_, rfl, rfl, fun i e he => ?_⟩
  · rw [← hall.length_eq, length_zipIdx]
  · obtain ⟨hi, -⟩ := List.getElem?_eq_some_iff.mp he
    have hlen := hall.length_eq
    have hz : i < (expandReplicas reqs).zipIdx.length := by
      rw [hlen]
      exact hi
    have hone := (forall₂_iff_get.mp hall).2 i hz hi
    rw [getElem?_eq_getElem hi] at he
    cases he
    rw [length_zipIdx] at hz
    have hr : (expandReplicas reqs)[i]? = some (expandReplicas reqs)[i] := getElem?_eq_getElem hz
    obtain ⟨p, m, o, hp, hm, ho, hentry⟩ := addrEntry_some hr
    refine ⟨_, p, m, o, hr, hp, hm, ho, ?_⟩
    have hget : (expandReplicas reqs).zipIdx.get ⟨i, by rw [length_zipIdx]; exact hz⟩ =
        ((expandReplicas reqs)[i], i) := by
      rw [get_eq_getElem, getElem_zipIdx, zero_add]
    rw [hget, hentry] at hone
    exact (some.inj hone).symm

theorem validateFrom_ok {arenaBytes : Nat} {seen : List Nat} {es : List AddrEntry}
    (hin : ∀ e ∈ es, e.offset + e.reserved ≤ arenaBytes) (hnd : (es.map (·.slot)).Nodup)
    (hseen : ∀ e ∈ es, e.slot ∉ seen) : validateFrom arenaBytes seen es = .ok () := by
  induction es generalizing seen with
  | nil => rfl
  | cons e es ih =>
    obtain ⟨hne, hnd⟩ := nodup_cons.mp hnd
    have := hin e mem_cons_self
    unfold validateFrom
    rw [if_neg (by omega), if_neg (hseen e mem_cons_self)]
    refine ih (fun e' he => hin e' (mem_cons_of_mem _ he)) hnd fun e' he hmem => ?_
    rcases mem_cons.mp hmem with hs | hmem
    · exact hne (mem_map.mpr ⟨e', he, hs⟩)
    · exact hseen e' (mem_cons_of_mem _ he) hmem

theorem LiveAt.atRoot (h : LiveAt reqs i t) (hi : Leads reqs n i root off) : LiveAt reqs root t := by
  obtain ⟨j, r, hr, hl, hj⟩ := h
  refine ⟨j, r, hr, hl, .inr ?_⟩
  rcases hj with rfl | ⟨k, o, hj⟩
  · exact ⟨n, off, hi⟩
  · obtain ⟨-, rfl, -⟩ := hj.target.unique hi
    exact ⟨k, o, hj⟩

theorem Fits.inside (hf : Fits reqs) (hr : reqs[i]? = some r) (h : Leads reqs n i root off) :
    off + r.span ≤ rootSpan reqs root := by
  have hi := (List.getElem?_eq_some_iff.mp hr).1
  by_cases hg : r.cls = .growable
  · have := hf.growth i r n root off hr hg h
    unfold BufReq.span
    rw [if_pos hg]
    exact this
  · have hroot := h.rootAndOff hi
    have hmem : off + r.size ∈ memberEnds reqs root :=
      mem_memberEnds.mpr ⟨i, r, hr, by rw [hroot], by rw [hroot]⟩
    unfold BufReq.span rootSpan
    rw [if_neg hg]
    exact Nat.le_trans (le_foldr_max hmem) (Nat.le_add_right _ _)

/-- Storages of different roots that are live together have no byte in common. -/
theorem storages_apart {root' p p' o o' : Nat} (hf : Fits reqs)
    (hroot : Leads reqs 0 root root 0) (hroot' : Leads reqs 0 root' root' 0) (hne : root ≠ root')
    (hlive : ∃ t, LiveAt reqs root t ∧ LiveAt reqs root' t)
    (hp : (mergeRoots reqs).rootPos root = some p) (hp' : (mergeRoots reqs).rootPos root' = some p')
    (hm : (mergeRoots reqs).merged[p]? = some m) (hm' : (mergeRoots reqs).merged[p']? = some m')
    (ho : (placeDevices (mergeRoots reqs).merged).offsets p = some o)
    (ho' : (placeDevices (mergeRoots reqs).merged).offsets p' = some o') :
    Clear o m.span o' m'.span := by
  have hpp : p ≠ p' := by
    rintro rfl
    exact hne ((mergeRoots_ok reqs).inj _ _ p hp hp')
  rcases (placeDevices_ok _).1.apart p p' o o' m m' hpp ho ho' hm hm' with hs | hc
  · obtain ⟨hcls, hcls', hdev, hno⟩ := hs
    obtain ⟨r, hr, g⟩ := IsStorage.root ⟨p, hp, hm⟩
    obtain ⟨r', hr', g'⟩ := IsStorage.root ⟨p', hp', hm'⟩
    obtain ⟨h1, h2⟩ := hf.live root root' r r' hne hr hr' hroot hroot' (g.cls.symm.trans hcls)
      (g'.cls.symm.trans hcls') (by rw [← g.device, ← g'.device, hdev]) hlive
    have hrl := (List.getElem?_eq_some_iff.mp hr).1
    have hrl' := (List.getElem?_eq_some_iff.mp hr').1
    have hw := IsStorage.window ⟨p, hp, hm⟩ (by rw [hroot.rootAndOff hrl])
    have hw' := IsStorage.window ⟨p', hp', hm'⟩ (by rw [hroot'.rootAndOff hrl'])
    refine absurd ⟨?_, ?_⟩ hno
    · exact lt_of_le_of_lt hw.1 (lt_of_lt_of_le h1 hw'.2)
    · exact lt_of_le_of_lt hw'.1 (lt_of_lt_of_le h2 hw.2)
  · exact hc

theorem hull_mem (h : iv ∈ l) : (hull l).1 ≤ iv.1 ∧ iv.2 ≤ (hull l).2 := by
  induction l with
  | nil => cases h
  | cons w l ih =>
    cases l with
    | nil =>
      rw [mem_singleton.mp h]
      exact ⟨le_rfl, le_rfl⟩
    | cons w' l =>
      rcases mem_cons.mp h with rfl | h
      · exact ⟨min_le_left _ _, le_max_left _ _⟩
      · obtain ⟨h1, h2⟩ := ih h
        exact ⟨le_trans (min_le_right _ _) h1, le_trans h2 (le_max_right _ _)⟩

def Uniform (reqs : List BufReq) (root : Nat) : Prop :=
  (∀ i r, reqs[i]? = some r → (rootAndOff reqs i).1 = root → r.cls = .scratch ∧ r.live.isSome) ∨
    named reqs root = []

theorem Uniform.around (hu : Uniform reqs root) (hroot : Leads reqs 0 root root 0)
    (hl : LiveAt reqs root t) : (hull (named reqs root)).1 ≤ t ∧
      (t < (hull (named reqs root)).2 ∨ named reqs root = []) := by
  rcases hu with hall | hnone
  · obtain ⟨j, r, hr, hlive, hj⟩ := hl
    have hj : ∃ n off, Leads reqs n j root off := by
      rcases hj with rfl | hj
      · exact ⟨0, 0, hroot⟩
      · exact hj
    obtain ⟨n, off, hj⟩ := hj
    have hrj : (rootAndOff reqs j).1 = root := by
      rw [hj.rootAndOff (List.getElem?_eq_some_iff.mp hr).1]
    obtain ⟨hcls, hsome⟩ := hall j r hr hrj
    obtain ⟨iv, hiv⟩ := isSome_iff_exists.mp hsome
    obtain ⟨h1, h2⟩ := hlive hcls iv hiv
    obtain ⟨h3, h4⟩ := hull_mem (mem_named.mpr ⟨j, r, hr, hrj, hiv⟩)
    exact ⟨le_trans h3 h1, .inl (lt_of_lt_of_le h2 h4)⟩
  · rw [hnone]
    exact ⟨Nat.zero_le t, .inr rfl⟩

/-- Buffers fit whose roots are uniform and without a growable view. -/
theorem fits_of_uniform
    (hcycles : ∀ (i : Nat) (r : BufReq) (iv : Nat × Nat), reqs[i]? = some r → r.live = some iv →
      iv.2 ≤ cycleMax) (hgrow : ∀ i r, reqs[i]? = some r → r.cls = .growable → Leads reqs 0 i i 0)
    (hu : ∀ root, Uniform reqs root) : Fits reqs := by
  refine ⟨fun i r n root off hr hg h => ?_, fun root root' r r' _ hr hr' h h' _ _ _ hlive => ?_⟩
  · -- a growable root reserves for itself
    obtain ⟨-, rfl, rfl⟩ := (hgrow i r hr hg).unique h
    have hmem : 0 + r.size ∈ memberEnds reqs i := by
      have := h.target.rootAndOff (List.getElem?_eq_some_iff.mp hr).1
      exact mem_memberEnds.mpr ⟨i, r, hr, by rw [this], by rw [this]⟩
    have := le_foldr_max hmem
    unfold rootSpan
    rw [hr]
    show _ ≤ _ + (if r.cls = .growable then r.growthReserve else 0)
    rw [if_pos hg]
    omega
  · obtain ⟨t, ht, ht'⟩ := hlive
    obtain ⟨h1, h2⟩ := (hu root).around h ht
    obtain ⟨h1', h2'⟩ := (hu root').around h' ht'
    have hmax : ∀ root, (hull (named reqs root)).2 ≤ cycleMax := by
      intro root
      by_cases hne : named reqs root = []
      · rw [hne]
        exact le_rfl
      · refine (hull_le (a := 0) hne fun iv hiv => ⟨Nat.zero_le _, ?_⟩).2
        obtain ⟨i, r, hr, -, hl⟩ := mem_named.mp hiv
        exact hcycles i r iv hr hl
    have hm := hmax root
    have hm' := hmax root'
    rcases h2 with h2 | h2
    · rcases h2' with h2' | h2'
      · omega
      · rw [h2']
        exact ⟨lt_of_le_of_lt h1 (lt_of_lt_of_le h2 hm), Nat.zero_lt_of_lt h2⟩
    · rw [h2]
      rcases h2' with h2' | h2'
      · exact ⟨Nat.zero_lt_of_lt h2', lt_of_le_of_lt h1' (lt_of_lt_of_le h2' hm')⟩
      · rw [h2']
        exact ⟨by decide, by decide⟩

/-- The address map of buffers that fit keeps what it promises. -/
theorem allocate_sound {reqs : List BufReq} (ha : Acyclic (expandReplicas reqs))
    (hf : Fits (expandReplicas reqs)) :
    ∃ map, allocate reqs = some map ∧ ArenaSound (expandReplicas reqs) map := by
  obtain ⟨map, hmap⟩ := allocate_some reqs
  obtain ⟨hlen, hbytes, hsegs, hstored⟩ := allocate_stored hmap
  have hseg := placeDevices_segments (mergeRoots (expandReplicas reqs)).merged
  refine ⟨map, hmap, ?_⟩
  generalize expandReplicas reqs = reqs at *
  -- an entry and the storage of its root
  have hin : ∀ i e, map.entries[i]? = some e → ∃ r p m o n, Stored reqs map i e r p m o ∧
      Leads reqs n i (rootAndOff reqs i).1 (rootAndOff reqs i).2 ∧
      (rootAndOff reqs i).2 + r.span ≤ rootSpan reqs (rootAndOff reqs i).1 ∧
      rootSpan reqs (rootAndOff reqs i).1 ≤ m.span := by
    intro i e he
    obtain ⟨r, p, m, o, S⟩ := hstored i e he
    obtain ⟨n, hn⟩ := leads_of_rootAndOff ha (List.getElem?_eq_some_iff.mp S.req).1
    exact ⟨r, p, m, o, n, S, hn, hf.inside S.req hn, IsStorage.rootSpan_le ⟨p, S.pos, S.merged⟩⟩
  have hplaced : ∀ e ∈ map.entries, ∃ s ∈ map.segments, s.device = e.device ∧ s.globalBase ≤ e.offset ∧
      e.offset + e.reserved ≤ s.globalBase + s.size := by
    intro e he
    obtain ⟨i, hi⟩ := mem_iff_getElem?.mp he
    obtain ⟨r, p, m, o, n, S, -, h1, h2⟩ := hin i e hi
    have hdev : m.device ∈ devices (mergeRoots reqs).merged := by
      unfold devices
      rw [mem_insertionSort, mem_dedup]
      exact mem_map_of_mem (mem_of_getElem? S.merged)
    obtain ⟨s, hs, hsd, hlo, hhi⟩ := hseg.holds p m o S.merged hdev S.base
    rw [← hsegs] at hs
    refine ⟨s, hs, ?_⟩
    rw [S.entry]
    exact ⟨hsd, by dsimp only; omega, by dsimp only; omega⟩
  refine ⟨hlen, fun i e r he hr => ?_, fun i j e f n n' root root' off off' he hf' hi hj hne hlive => ?_,
    fun i e f n root off he hi hfe => ?_, hplaced, ?_, ?_⟩
  · obtain ⟨r', p, m, o, n, S, hn, -, -⟩ := hin i e he
    obtain rfl : r = r' := some.inj (hr.symm.trans S.req)
    obtain ⟨q, hq, g⟩ := IsStorage.root ⟨p, S.pos, S.merged⟩
    rw [S.entry]
    exact ⟨rfl, rfl, g.device.trans (hn.device hr hq), rfl⟩
  · obtain ⟨r, p, m, o, k, S, hk, h1, h2⟩ := hin i e he
    obtain ⟨r', p', m', o', k', S', hk', h1', h2'⟩ := hin j f hf'
    obtain ⟨-, hroot, hoff⟩ := hk.unique hi
    obtain ⟨-, hroot', hoff'⟩ := hk'.unique hj
    have hapart := storages_apart hf hk.target hk'.target (by rw [hroot, hroot']; exact hne)
      (by
        obtain ⟨t, ht, ht'⟩ := hlive
        exact ⟨t, ht.atRoot hk, ht'.atRoot hk'⟩) S.pos S'.pos S.merged S'.merged S.base S'.base
    rw [S.entry, S'.entry]
    unfold Clear at hapart ⊢
    dsimp only
    omega
  · obtain ⟨r, p, m, o, k, S, hk, h1, h2⟩ := hin i e he
    obtain ⟨r', p', m', o', k', S', hk', -, -⟩ := hin root f hfe
    obtain ⟨-, hroot, hoff⟩ := hk.unique hi
    obtain ⟨-, hroot', hoff'⟩ := hk'.unique hi.target
    have hpos := S.pos
    have hpos' := S'.pos
    rw [hroot] at hpos
    rw [hroot'] at hpos'
    obtain rfl : p = p' := some.inj (hpos.symm.trans hpos')
    obtain rfl : o = o' := some.inj (S.base.symm.trans S'.base)
    rw [S.entry, S'.entry]
    dsimp only
    rw [hoff, hoff', add_zero]
    rw [hroot, hoff] at h1
    exact ⟨rfl, h1⟩
  · rw [hsegs]
    exact hseg.apart
  · unfold AddressMap.validate
    refine validateFrom_ok (fun e he => ?_) ?_ fun _ _ => not_mem_nil
    · obtain ⟨s, hs, -, -, hle⟩ := hplaced e he
      rw [hsegs] at hs
      rw [hbytes]
      exact le_trans hle (hseg.placed s hs).2
    · have hslots : map.entries.map (·.slot) = range map.entries.length := by
        apply ext_getElem?
        intro i
        rw [getElem?_map]
        cases he : map.entries[i]? with
        | none =>
          have := getElem?_eq_none_iff.mp he
          rw [getElem?_eq_none (by rw [length_range]; exact this)]
          rfl
        | some e =>
          obtain ⟨r, p, m, o, n, S, -⟩ := hin i e he
          rw [getElem?_range (List.getElem?_eq_some_iff.mp he).1, S.entry]
          rfl
      rw [hslots]
      exact nodup_range

def halves : List BufReq :=
  [(BufReq.new "a" 512 .scratch).withLive 0 5,
    ((BufReq.new "v" 256 .scratch).withLive 3 8).aliasAt "a" 256,
    (BufReq.new "b" 256 .scratch).withLive 8 10]

theorem allocate_sound_halves : ∃ map, allocate halves = some map ∧ ArenaSound (expandReplicas halves) map := by
  have hall : ∀ r ∈ expandReplicas halves, r.cls = .scratch ∧ r.live.isSome = true ∧
      ∀ iv ∈ r.live, iv.2 ≤ cycleMax := by decide +kernel
  refine allocate_sound (fun i hi => ?_) (fits_of_uniform (fun i r iv hr hiv => ?_)
    (fun i r hr hg => ?_) fun root => .inl fun i r hr _ => ?_)
  · have hlen : (expandReplicas halves).length = 3 := by decide +kernel
    rw [hlen] at hi
    have hv : Leads (expandReplicas halves) 0 0 0 0 := .root (by decide +kernel)
    match i, hi with
    | 0, _ => exact ⟨0, 0, 0, hv⟩
    | 1, _ => exact ⟨1, 0, _, .step (by decide +kernel) hv⟩
    | 2, _ => exact ⟨0, 2, 0, .root (by decide +kernel)⟩
  · exact (hall r (mem_of_getElem? hr)).2.2 iv hiv
  · rw [(hall r (mem_of_getElem? hr)).1] at hg
    cases hg
  · obtain ⟨hcls, hsome, -⟩ := hall r (mem_of_getElem? hr)
    exact ⟨hcls, hsome⟩

def weightView : List BufReq :=
  [(BufReq.new "a" 256 .scratch).withLive 0 5, (BufReq.new "w" 256 .persistent).aliasAt "a" 0,
    (BufReq.new "b" 256 .scratch).withLive 6 10]

/-- The weight is live for the whole program, its root is not, and `b` gets the same bytes. -/
theorem allocate_loses : ¬ ∀ reqs map, Acyclic (expandReplicas reqs) → allocate reqs = some map →
    ArenaSound (expandReplicas reqs) map := by
  intro h
  have hmap : allocate weightView = some
      ⟨[⟨0, "a", .scratch, 0, 256, false, 0⟩, ⟨1, "w", .scratch, 0, 256, false, 0⟩,
        ⟨2, "b", .scratch, 0, 256, false, 0⟩], 256, 256, [⟨0, 0, 256, 256⟩]⟩ := by decide +kernel
  have ha : Leads (expandReplicas weightView) 0 0 0 0 := .root (by decide +kernel)
  have hw : Leads (expandReplicas weightView) 1 1 0 _ := .step (by decide +kernel) ha
  have hb : Leads (expandReplicas weightView) 0 2 2 0 := .root (by decide +kernel)
  have hacyclic : Acyclic (expandReplicas weightView) := by
    intro i hi
    have hlen : (expandReplicas weightView).length = 3 := by decide +kernel
    rw [hlen] at hi
    match i, hi with
    | 0, _ => exact ⟨_, _, _, ha⟩
    | 1, _ => exact ⟨_, _, _, hw⟩
    | 2, _ => exact ⟨_, _, _, hb⟩
  -- cycle 7
  have hlive : ∃ t, LiveAt (expandReplicas weightView) 1 t ∧ LiveAt (expandReplicas weightView) 2 t := by
    refine ⟨7, ⟨1, _, rfl, nofun, .inl rfl⟩, ⟨2, _, rfl, fun _ iv hiv => ?_, .inl rfl⟩⟩
    cases hiv
    exact ⟨by decide, by decide⟩
  have hclear := (h weightView _ hacyclic hmap).apart 1 2 _ _ _ _ _ _ _ _ rfl rfl hw hb (by decide) hlive
  exact absurd hclear (by unfold Clear; decide)

end Plow.Schedule
