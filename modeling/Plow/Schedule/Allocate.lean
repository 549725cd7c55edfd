import Plow.Lib.Results
import Plow.Schedule.Memory

/-!
# Where the buffers are

`place` keeps any two buffers of a device apart, unless both are scratch buffers whose windows do
not meet (`laid_place`).  `allocate` keeps two entries of different roots apart in the same way,
by the windows of the roots (`allocate_apart`).
-/

namespace Plow.Schedule
open Plow.Lib List Option

theorem le_alignUp (n : Nat) : n ≤ alignUp n memAlign := by
  unfold alignUp memAlign
  omega

/-! ### One device -/

namespace BufReq

def span (r : BufReq) : Nat := if r.cls = .growable then r.size + r.growthReserve else r.size

def Meets (r q : BufReq) : Prop := r.window.1 < q.window.2 ∧ q.window.1 < r.window.2

def Shares (r q : BufReq) : Prop :=
  r.cls = .scratch ∧ q.cls = .scratch ∧ r.device = q.device ∧ ¬ r.Meets q

theorem Meets.symm {r q : BufReq} (h : r.Meets q) : q.Meets r := ⟨h.2, h.1⟩

theorem Shares.symm {r q : BufReq} (h : r.Shares q) : q.Shares r :=
  ⟨h.2.1, h.1, h.2.2.1.symm, fun hm => h.2.2.2 hm.symm⟩

end BufReq

def Clear (o n p m : Nat) : Prop := o + n ≤ p ∨ p + m ≤ o

theorem Clear.symm {o n p m : Nat} (h : Clear o n p m) : Clear p m o n := Or.symm h

variable {reqs : List BufReq} {offs offs' : Offsets} {c c' i j o p base : Nat} {r q m : BufReq}
  {e : BufReq × Nat} {rs es : List (BufReq × Nat)} {s : Scratch} {len : BufReq → Nat}
  {cls : BufClass}

@[simp] theorem Offsets.insert_self : offs.insert i o i = some o := if_pos rfl

theorem Offsets.insert_ne (h : j ≠ i) : offs.insert i o j = offs j := if_neg h

/-- The buffers that have an offset lie below `c`, and are apart. -/
structure Laid (reqs : List BufReq) (offs : Offsets) (c : Nat) : Prop where
  fits : ∀ i o, offs i = some o → ∃ r, reqs[i]? = some r ∧ o + r.span ≤ c
  apart : ∀ i j o p r q, i ≠ j → offs i = some o → offs j = some p → reqs[i]? = some r →
    reqs[j]? = some q → r.Shares q ∨ Clear o r.span p q.span

namespace Laid

theorem empty (reqs : List BufReq) (c : Nat) : Laid reqs (fun _ => none) c where
  fits _ _ h := nomatch h
  apart _ _ _ _ _ _ _ h := nomatch h

theorem mono (L : Laid reqs offs c) (h : c ≤ c') : Laid reqs offs c' where
  fits i o ho := by
    obtain ⟨r, hr, hle⟩ := L.fits i o ho
    exact ⟨r, hr, le_trans hle h⟩
  apart := L.apart

theorem insert (L : Laid reqs offs c) (hr : reqs[i]? = some r) (ho : c ≤ o) :
    Laid reqs (offs.insert i o) (o + r.span) := by
  have hbehind : ∀ j p q, j ≠ i → offs j = some p → reqs[j]? = some q → p + q.span ≤ o := by
    intro j p q hj hp hq
    obtain ⟨q', hq', hle⟩ := L.fits j p hp
    rw [hq] at hq'
    cases hq'
    omega
  constructor
  · intro j p hp
    by_cases hj : j = i
    · subst hj
      rw [Offsets.insert_self] at hp
      cases hp
      exact ⟨r, hr, le_rfl⟩
    · rw [Offsets.insert_ne hj] at hp
      obtain ⟨q, hq, hle⟩ := L.fits j p hp
      exact ⟨q, hq, by omega⟩
  · intro j k p p' q q' hne hp hp' hq hq'
    by_cases hj : j = i
    · subst hj
      rw [Offsets.insert_self] at hp
      cases hp
      rw [Offsets.insert_ne (Ne.symm hne)] at hp'
      exact .inr (.inr (hbehind k p' q' (Ne.symm hne) hp' hq'))
    · rw [Offsets.insert_ne hj] at hp
      by_cases hk : k = i
      · subst hk
        rw [Offsets.insert_self] at hp'
        cases hp'
        exact .inr (.inl (hbehind j p q hj hp hq))
      · rw [Offsets.insert_ne hk] at hp'
        exact L.apart j k p p' q q' hne hp hp' hq hq'

theorem extend (L : Laid reqs offs c) (L' : Laid reqs offs' c') (hc : c ≤ base)
    (hb : ∀ i o, offs' i = some o → base ≤ o) (hle : c ≤ c') :
    Laid reqs (offs.extend offs') c' := by
  have hcases : ∀ i o, offs.extend offs' i = some o → offs' i = some o ∨ offs i = some o := by
    intro i o h
    unfold Offsets.extend at h
    cases hm : offs' i with
    | none => rw [hm] at h; exact .inr h
    | some o' => rw [hm] at h; exact .inl h
  constructor
  · intro i o ho
    rcases hcases i o ho with h | h
    · exact L'.fits i o h
    · exact (L.mono hle).fits i o h
  · intro i j o p r q hne ho hp hr hq
    have hbelow : ∀ i o r, offs i = some o → reqs[i]? = some r → o + r.span ≤ base := by
      intro i o r ho hr
      obtain ⟨r', hr', h⟩ := L.fits i o ho
      rw [hr] at hr'
      cases hr'
      omega
    rcases hcases i o ho with h | h <;> rcases hcases j p hp with h' | h'
    · exact L'.apart i j o p r q hne h h' hr hq
    · have h1 := hb i o h
      have h2 := hbelow j p q h' hq
      exact .inr (.inr (by omega))
    · have h1 := hb j p h'
      have h2 := hbelow i o r h hr
      exact .inr (.inl (by omega))
    · exact L.apart i j o p r q hne h h' hr hq

end Laid

theorem laid_packClass
    (hrs : ∀ e ∈ rs, reqs[e.2]? = some e.1) (hlen : ∀ r, r.cls = cls → len r = r.span)
    (L : Laid reqs offs c) :
    Laid reqs (packClass cls len rs (offs, c)).1 (packClass cls len rs (offs, c)).2 ∧
      c ≤ (packClass cls len rs (offs, c)).2 := by
  induction rs generalizing offs c with
  | nil => exact ⟨L, le_rfl⟩
  | cons e rs ih =>
    obtain ⟨r, i⟩ := e
    obtain ⟨hr, hrs⟩ := forall_mem_cons.mp hrs
    unfold packClass
    split
    · next h =>
      dsimp only
      rw [hlen r h]
      obtain ⟨h1, h2⟩ := ih hrs (L.insert hr (le_alignUp c))
      exact ⟨h1, Nat.le_trans (le_alignUp c) (Nat.le_trans (Nat.le_add_right _ _) h2)⟩
    · exact ih hrs L

theorem isSome_packClass (h : (offs i).isSome ∨ ∃ r, (r, i) ∈ rs ∧ r.cls = cls) :
    ((packClass cls len rs (offs, c)).1 i).isSome := by
  induction rs generalizing offs c with
  | nil =>
    rcases h with h | ⟨r, hr, -⟩
    · exact h
    · cases hr
  | cons e rs ih =>
    obtain ⟨r', j⟩ := e
    unfold packClass
    split
    · next hcls =>
      by_cases hij : i = j
      · subst hij
        exact ih (.inl (by simp))
      · refine ih ?_
        rw [Offsets.insert_ne hij]
        rcases h with h | ⟨r, hr, hr'⟩
        · exact .inl h
        · rcases mem_cons.mp hr with he | hr
          · cases he
            exact absurd rfl hij
          · exact .inr ⟨r, hr, hr'⟩
    · next hcls =>
      refine ih ?_
      rcases h with h | ⟨r, hr, hr'⟩
      · exact .inl h
      · rcases mem_cons.mp hr with he | hr
        · cases he
          exact absurd hr' hcls
        · exact .inr ⟨r, hr, hr'⟩

/-! ### Scratch -/

def BufReq.hold (r : BufReq) (off : Nat) : Hold :=
  ⟨off, alignUp r.size memAlign, r.window.1, r.window.2⟩

/-- The scratch planner's state: every offset is a hold, and the buffers are apart. -/
structure ScratchOk (reqs : List BufReq) (base : Nat) (s : Scratch) : Prop where
  laid : Laid reqs s.offsets s.peak
  placed : ∀ i o, s.offsets i = some o → ∃ r, reqs[i]? = some r ∧ r.cls = .scratch ∧
    r.hold o ∈ s.placed ∧ base ≤ o
  base : base ≤ s.peak

def OneDevice (reqs : List BufReq) : Prop :=
  ∀ (i j : Nat) (r q : BufReq), reqs[i]? = some r → reqs[j]? = some q → r.device = q.device

theorem span_scratch (h : r.cls = .scratch) : r.span = r.size := by
  unfold BufReq.span
  rw [if_neg]
  rw [h]
  decide

theorem scratchOne_ok (hd : OneDevice reqs) (S : ScratchOk reqs base s)
    (hr : reqs[i]? = some r) (hc : r.cls = .scratch) :
    ScratchOk reqs base (scratchOne base s (r, i)) := by
  have hup : ∀ n, n ≤ alignUp n memAlign := le_alignUp
  let off := freeAt (alignUp · memAlign) base s.placed (alignUp r.size memAlign) r.window.1 r.window.2
  have he : scratchOne base s (r, i) = ⟨s.placed ++ [r.hold off], s.offsets.insert i off,
      max s.peak (off + alignUp r.size memAlign)⟩ := rfl
  have hbase : base ≤ off := le_freeAt hup
  have hsize := le_alignUp r.size
  have hspan := span_scratch hc
  -- the new buffer is apart from those whose window it meets
  have hnew : ∀ j p q, s.offsets j = some p → reqs[j]? = some q →
      r.Shares q ∨ Clear off r.span p q.span := by
    intro j p q hp hq
    obtain ⟨q', hq', hqc, hmem, -⟩ := S.placed j p hp
    rw [hq] at hq'
    cases hq'
    by_cases hm : q.Meets r
    · have hqsize := le_alignUp q.size
      have hqspan := span_scratch hqc
      have hmeets : (q.hold p).meets r.window.1 r.window.2 = true := by
        unfold Hold.meets
        rw [Bool.and_eq_true]
        exact ⟨decide_eq_true hm.1, decide_eq_true hm.2⟩
      have hapart : p + alignUp q.size memAlign ≤ off ∨ off + alignUp r.size memAlign ≤ p :=
        freeAt_apart hup hmem hmeets
      right
      rcases hapart with h | h
      · exact .inr (by omega)
      · exact .inl (by omega)
    · exact .inl ⟨hc, hqc, hd i j r q hr hq, fun h => hm h.symm⟩
  rw [he]
  refine ⟨⟨fun j p hp => ?_, fun j k p p' q q' hne hp hp' hq hq' => ?_⟩, fun j p hp => ?_, ?_⟩
  · change s.offsets.insert i off j = some p at hp
    by_cases hj : j = i
    · subst hj
      rw [Offsets.insert_self] at hp
      cases hp
      exact ⟨r, hr, by dsimp only; omega⟩
    · rw [Offsets.insert_ne hj] at hp
      obtain ⟨q, hq, hle⟩ := S.laid.fits j p hp
      exact ⟨q, hq, by dsimp only; omega⟩
  · change s.offsets.insert i off j = some p at hp
    change s.offsets.insert i off k = some p' at hp'
    by_cases hj : j = i
    · subst hj
      rw [Offsets.insert_self] at hp
      cases hp
      rw [Offsets.insert_ne (Ne.symm hne)] at hp'
      rw [hr] at hq
      cases hq
      exact hnew k p' q' hp' hq'
    · rw [Offsets.insert_ne hj] at hp
      by_cases hk : k = i
      · subst hk
        rw [Offsets.insert_self] at hp'
        cases hp'
        rw [hr] at hq'
        cases hq'
        rcases hnew j p q hp hq with h | h
        · exact .inl h.symm
        · exact .inr h.symm
      · rw [Offsets.insert_ne hk] at hp'
        exact S.laid.apart j k p p' q q' hne hp hp' hq hq'
  · change s.offsets.insert i off j = some p at hp
    by_cases hj : j = i
    · subst hj
      rw [Offsets.insert_self] at hp
      cases hp
      exact ⟨r, hr, hc, mem_append_right _ (mem_singleton_self _), hbase⟩
    · rw [Offsets.insert_ne hj] at hp
      obtain ⟨q, hq, hqc, hmem, hb⟩ := S.placed j p hp
      exact ⟨q, hq, hqc, mem_append_left _ hmem, hb⟩
  · have := S.base
    dsimp only
    omega

theorem foldl_scratchOne (hd : OneDevice reqs)
    (hes : ∀ e ∈ es, reqs[e.2]? = some e.1 ∧ e.1.cls = .scratch) (S : ScratchOk reqs base s) :
    ScratchOk reqs base (es.foldl (scratchOne base) s) := by
  induction es generalizing s with
  | nil => exact S
  | cons e es ih =>
    obtain ⟨h, hes⟩ := forall_mem_cons.mp hes
    exact ih hes (scratchOne_ok hd S h.1 h.2)

theorem isSome_foldl_scratchOne (h : (s.offsets i).isSome ∨ ∃ r, (r, i) ∈ es) :
    ((es.foldl (scratchOne base) s).offsets i).isSome := by
  induction es generalizing s with
  | nil =>
    rcases h with h | ⟨r, hr⟩
    · exact h
    · cases hr
  | cons e es ih =>
    refine ih ?_
    show (s.offsets.insert e.2 _ i).isSome ∨ _
    by_cases hi : i = e.2
    · subst hi
      exact .inl (by simp)
    · rw [Offsets.insert_ne hi]
      rcases h with h | ⟨r, hr⟩
      · exact .inl h
      · rcases mem_cons.mp hr with he | hr
        · exact absurd (congrArg Prod.snd he) hi
        · exact .inr ⟨r, hr⟩

theorem mem_zipIdx : e ∈ reqs.zipIdx ↔ reqs[e.2]? = some e.1 :=
  mem_zipIdx_iff_getElem?

theorem mem_scratchOrder : e ∈ scratchOrder reqs ↔ reqs[e.2]? = some e.1 ∧ e.1.cls = .scratch := by
  unfold scratchOrder
  rw [mem_insertionSort, mem_filter, mem_zipIdx, decide_eq_true_eq]

theorem planScratch_ok (hd : OneDevice reqs) (base : Nat) :
    ScratchOk reqs base (planScratch reqs base) :=
  foldl_scratchOne hd (fun _ he => mem_scratchOrder.mp he)
    ⟨Laid.empty _ _, (fun _ _ h => nomatch h), le_rfl⟩

theorem place_eq (reqs : List BufReq) : ∃ s1 s2 s3 s5 : Offsets × Nat,
    packClass .persistent (·.size) reqs.zipIdx (fun _ => none, 0) = s1 ∧
    packClass .static (·.size) reqs.zipIdx (s1.1, s1.2) = s2 ∧
    packClass .requestIo (·.size) reqs.zipIdx (s2.1, s2.2) = s3 ∧
    packClass .growable (fun r => r.size + r.growthReserve) reqs.zipIdx
      (s3.1.extend (planScratch reqs (alignUp s3.2 memAlign)).offsets,
        alignUp (planScratch reqs (alignUp s3.2 memAlign)).peak memAlign) = s5 ∧
    place reqs = (s5.1, s5.2, alignUp (planScratch reqs (alignUp s3.2 memAlign)).peak memAlign) :=
  ⟨_, _, _, _, rfl, rfl, rfl, rfl, rfl⟩

/-- Every buffer has an offset, and any two are apart unless they may share their bytes. -/
theorem laid_place (hd : OneDevice reqs) : Laid reqs (place reqs).1 (place reqs).2.1 ∧
    ∀ i r, reqs[i]? = some r → ((place reqs).1 i).isSome := by
  have hzip : ∀ e ∈ reqs.zipIdx, reqs[e.2]? = some e.1 := fun e he => mem_zipIdx.mp he
  have hlen : ∀ cls : BufClass, cls ≠ .growable → ∀ r : BufReq, r.cls = cls → r.size = r.span := by
    intro cls hne r h
    unfold BufReq.span
    rw [if_neg]
    rw [h]
    exact hne
  obtain ⟨s1, s2, s3, s5, h1, h2, h3, h5, he⟩ := place_eq reqs
  have L1 := laid_packClass hzip (hlen .persistent (by decide)) (Laid.empty reqs 0)
  rw [h1] at L1
  have L2 := laid_packClass hzip (hlen .static (by decide)) L1.1
  rw [h2] at L2
  have L3 := laid_packClass hzip (hlen .requestIo (by decide)) L2.1
  rw [h3] at L3
  have S := planScratch_ok hd (alignUp s3.2 memAlign)
  have hbase := le_alignUp s3.2
  have L4 := L3.1.extend S.laid hbase (fun i o h => (S.placed i o h).choose_spec.2.2.2)
    (le_trans hbase S.base)
  have hgrow : ∀ r : BufReq, r.cls = .growable → r.size + r.growthReserve = r.span := by
    intro r h
    rw [BufReq.span, if_pos h]
  have L5 := laid_packClass hzip hgrow (L4.mono (le_alignUp _))
  rw [h5] at L5
  rw [he]
  refine ⟨L5.1, fun i r hr => ?_⟩
  have hmem : (r, i) ∈ reqs.zipIdx := mem_zipIdx.mpr hr
  -- the pass of the buffer's class gives the offset, the later ones keep it
  have hkeep : ((s3.1.extend (planScratch reqs (alignUp s3.2 memAlign)).offsets) i).isSome ∨
      r.cls = .growable := by
    have hs3 : (s3.1 i).isSome ∨ r.cls = .scratch ∨ r.cls = .growable := by
      cases hc : r.cls with
      | scratch => exact .inr (.inl rfl)
      | growable => exact .inr (.inr rfl)
      | persistent =>
        left
        rw [← h3]
        refine isSome_packClass (.inl ?_)
        rw [← h2]
        refine isSome_packClass (.inl ?_)
        rw [← h1]
        exact isSome_packClass (.inr ⟨r, hmem, hc⟩)
      | static =>
        left
        rw [← h3]
        refine isSome_packClass (.inl ?_)
        rw [← h2]
        exact isSome_packClass (.inr ⟨r, hmem, hc⟩)
      | requestIo =>
        left
        rw [← h3]
        exact isSome_packClass (.inr ⟨r, hmem, hc⟩)
    unfold Offsets.extend
    rcases hs3 with h | h | h
    · left
      rw [isSome_or, h, Bool.or_true]
    · left
      have : ((planScratch reqs (alignUp s3.2 memAlign)).offsets i).isSome :=
        isSome_foldl_scratchOne (.inr ⟨r, mem_scratchOrder.mpr ⟨hr, h⟩⟩)
      rw [isSome_or, this, Bool.true_or]
    · exact .inr h
  dsimp only
  rw [← h5]
  refine isSome_packClass ?_
  rcases hkeep with h | h
  · exact .inl h
  · exact .inr ⟨r, hmem, h⟩

/-! ### Roots -/

section
variable {root : Nat} {m : BufReq} {s : Merge}

theorem bufIdx_some {name : String} {device : Nat} (h : bufIdx reqs name device = some i) :
    ∃ r, reqs[i]? = some r ∧ r.name = name ∧ r.device = device := by
  unfold bufIdx at h
  obtain ⟨e, he, h⟩ := exists_of_findSome?_eq_some h
  obtain ⟨r, j⟩ := e
  have hr := mem_zipIdx.mp (mem_reverse.mp he)
  dsimp only at h
  split at h
  · next hn =>
    cases h
    exact ⟨r, hr, hn⟩
  · cases h

theorem aliasTarget_some (h : aliasTarget reqs i = some j) : j ≠ i ∧ ∃ r q target,
    reqs[i]? = some r ∧ reqs[j]? = some q ∧ r.aliasOf = some target ∧ q.name = target ∧
      q.device = r.device := by
  unfold aliasTarget at h
  obtain ⟨r, hr, h⟩ := bind_eq_some_iff.mp h
  obtain ⟨target, ht, h⟩ := bind_eq_some_iff.mp h
  obtain ⟨n, hn, h⟩ := bind_eq_some_iff.mp h
  split at h
  · next hne =>
    cases h
    obtain ⟨q, hq, hname, hdev⟩ := bufIdx_some hn
    exact ⟨hne, r, q, target, hr, hq, ht, hname, hdev⟩
  · cases h

theorem followAlias_inv {P : Nat → Prop} {k cur off : Nat} (h0 : P cur)
    (hstep : ∀ i j, P i → aliasTarget reqs i = some j → P j) : P (followAlias reqs k cur off).1 := by
  induction k generalizing cur off with
  | zero => exact h0
  | succ k ih =>
    unfold followAlias
    split
    · next n hn => exact ih (hstep _ _ h0 hn)
    · exact h0

theorem root_lt (h : i < reqs.length) : (rootAndOff reqs i).1 < reqs.length := by
  refine followAlias_inv (P := fun i => i < reqs.length) h fun i j _ hj => ?_
  obtain ⟨-, r, q, target, -, hq, -⟩ := aliasTarget_some hj
  exact (List.getElem?_eq_some_iff.mp hq).1

def Covers (big small : Option (Nat × Nat)) : Prop :=
  ∀ iv ∈ small, ∃ w ∈ big, w.1 ≤ iv.1 ∧ iv.2 ≤ w.2

theorem Covers.refl (l : Option (Nat × Nat)) : Covers l l :=
  fun iv h => ⟨iv, h, le_rfl, le_rfl⟩

theorem Covers.trans {a b c : Option (Nat × Nat)} (h : Covers a b) (h' : Covers b c) : Covers a c := by
  intro iv hiv
  obtain ⟨w, hw, h1, h2⟩ := h' iv hiv
  obtain ⟨w', hw', h3, h4⟩ := h w hw
  exact ⟨w', hw', le_trans h3 h1, le_trans h2 h4⟩

theorem covers_unionLive_left (a b : Option (Nat × Nat)) : Covers (unionLive a b) a := by
  intro iv hiv
  cases hiv
  cases b with
  | none => exact ⟨iv, rfl, le_rfl, le_rfl⟩
  | some q => exact ⟨_, rfl, min_le_left _ _, le_max_left _ _⟩

theorem covers_unionLive_right (a b : Option (Nat × Nat)) : Covers (unionLive a b) b := by
  intro iv hiv
  cases hiv
  cases a with
  | none => exact ⟨iv, rfl, le_rfl, le_rfl⟩
  | some q => exact ⟨_, rfl, min_le_right _ _, le_max_right _ _⟩

/-- `m` is a buffer of the root `r` that has taken in members -/
structure Grown (r m : BufReq) : Prop where
  cls : m.cls = r.cls
  device : m.device = r.device
  growth : m.growthReserve = r.growthReserve
  size : r.size ≤ m.size
  live : Covers m.live r.live

theorem Grown.refl (r : BufReq) : Grown r r := ⟨rfl, rfl, rfl, le_rfl, Covers.refl _⟩

theorem Grown.trans {a b c : BufReq} (h : Grown a b) (h' : Grown b c) : Grown a c :=
  ⟨h'.cls.trans h.cls, h'.device.trans h.device, h'.growth.trans h.growth,
    le_trans h.size h'.size, h'.live.trans h.live⟩

theorem grown_foldMember (root i off : Nat) (member m : BufReq) :
    Grown m (foldMember root i off member m) := by
  unfold foldMember
  by_cases h : i ≠ root
  · simp only [if_pos h]
    exact ⟨rfl, rfl, rfl, le_max_left _ _, covers_unionLive_left _ _⟩
  · simp only [if_neg h]
    exact ⟨rfl, rfl, rfl, le_max_left _ _, Covers.refl _⟩

theorem size_foldMember (root i off : Nat) (member m : BufReq) :
    off + member.size ≤ (foldMember root i off member m).size := by
  unfold foldMember
  split
  · exact le_max_right _ _
  · exact le_max_right _ _

theorem live_foldMember {off : Nat} {member : BufReq} (h : i ≠ root) :
    Covers (foldMember root i off member m).live member.live := by
  unfold foldMember
  simp only [if_pos h]
  exact covers_unionLive_right _ _

/-- The merged buffers after the members `done`. -/
structure MergeOk (reqs : List BufReq) (done : Nat → Prop) (s : Merge) : Prop where
  root : ∀ root p, s.rootPos root = some p →
    ∃ m r, s.merged[p]? = some m ∧ reqs[root]? = some r ∧ Grown r m
  inj : ∀ root root' p, s.rootPos root = some p → s.rootPos root' = some p → root = root'
  member : ∀ i r, done i → reqs[i]? = some r → ∃ p m, s.rootPos (rootAndOff reqs i).1 = some p ∧
    s.merged[p]? = some m ∧ (rootAndOff reqs i).2 + r.size ≤ m.size ∧ Covers m.live r.live

variable {done : Nat → Prop}

theorem MergeOk.entry (M : MergeOk reqs done s) (hr : reqs[root]? = some r) :
    MergeOk reqs done (s.entry root r).1 ∧
      (s.entry root r).1.rootPos root = some (s.entry root r).2 := by
  unfold Merge.entry
  cases hp : s.rootPos root with
  | some pos => exact ⟨M, hp⟩
  | none =>
    have hold : ∀ root' p, s.rootPos root' = some p → root' ≠ root ∧ p < s.merged.length := by
      intro root' p h
      obtain ⟨m, -, hm, -⟩ := M.root root' p h
      refine ⟨fun he => ?_, (List.getElem?_eq_some_iff.mp hm).1⟩
      rw [he, hp] at h
      cases h
    refine ⟨⟨fun root' p h => ?_, fun root' root'' p h h' => ?_, fun i q hd hq => ?_⟩, ?_⟩
    · change s.rootPos.insert root s.merged.length root' = some p at h
      by_cases he : root' = root
      · subst he
        rw [Offsets.insert_self] at h
        cases h
        exact ⟨r, r, getElem?_concat_length, hr, Grown.refl r⟩
      · rw [Offsets.insert_ne he] at h
        obtain ⟨m, q, hm, hq, g⟩ := M.root root' p h
        refine ⟨m, q, ?_, hq, g⟩
        rw [getElem?_append_left (hold root' p h).2, hm]
    · change s.rootPos.insert root s.merged.length root' = some p at h
      change s.rootPos.insert root s.merged.length root'' = some p at h'
      by_cases he : root' = root <;> by_cases he' : root'' = root
      · rw [he, he']
      · subst he
        rw [Offsets.insert_self] at h
        cases h
        rw [Offsets.insert_ne he'] at h'
        exact absurd (hold _ _ h').2 (lt_irrefl _)
      · subst he'
        rw [Offsets.insert_self] at h'
        cases h'
        rw [Offsets.insert_ne he] at h
        exact absurd (hold _ _ h).2 (lt_irrefl _)
      · rw [Offsets.insert_ne he] at h
        rw [Offsets.insert_ne he'] at h'
        exact M.inj root' root'' p h h'
    · obtain ⟨p, m, hpos, hm, hsize, hlive⟩ := M.member i q hd hq
      refine ⟨p, m, ?_, ?_, hsize, hlive⟩
      · show s.rootPos.insert root s.merged.length _ = some p
        rw [Offsets.insert_ne (hold _ _ hpos).1, hpos]
      · rw [getElem?_append_left (hold _ _ hpos).2, hm]
    · exact Offsets.insert_self

theorem MergeOk.mergeOne (M : MergeOk reqs done s) (hr : reqs[i]? = some r) :
    MergeOk reqs (fun j => done j ∨ j = i) (mergeOne reqs s i) := by
  have hi := (List.getElem?_eq_some_iff.mp hr).1
  generalize hroot : rootAndOff reqs i = ro
  obtain ⟨root, off⟩ := ro
  have hlt : root < reqs.length := by
    have := root_lt hi
    rwa [hroot] at this
  obtain ⟨q, hq⟩ : ∃ q, reqs[root]? = some q := ⟨_, getElem?_eq_getElem hlt⟩
  obtain ⟨M', hpos⟩ := M.entry hq
  unfold Schedule.mergeOne
  simp only [hroot, hq, hr]
  generalize s.entry root q = e at M' hpos
  obtain ⟨s', pos⟩ := e
  dsimp only at M' hpos ⊢
  -- a merged buffer only grows
  have hgrow : ∀ p m, s'.merged[p]? = some m →
      ∃ m', (s'.merged.modify pos (foldMember root i off r))[p]? = some m' ∧ Grown m m' ∧
        (p = pos → m' = foldMember root i off r m) := by
    intro p m hm
    rw [getElem?_modify, hm]
    by_cases he : pos = p
    · exact ⟨_, by simp [he], grown_foldMember root i off r m, fun _ => rfl⟩
    · exact ⟨m, by simp [he], Grown.refl m, fun h => absurd h.symm he⟩
  refine ⟨fun root' p h => ?_, M'.inj, fun j q' hd hq' => ?_⟩
  · obtain ⟨m, q', hm, hq', g⟩ := M'.root root' p h
    obtain ⟨m', hm', g', -⟩ := hgrow p m hm
    exact ⟨m', q', hm', hq', g.trans g'⟩
  · rcases hd with hd | rfl
    · obtain ⟨p, m, hp, hm, hsize, hlive⟩ := M'.member j q' hd hq'
      obtain ⟨m', hm', g', -⟩ := hgrow p m hm
      exact ⟨p, m', hp, hm', le_trans hsize g'.size, g'.live.trans hlive⟩
    · rw [hr] at hq'
      cases hq'
      obtain ⟨m, q', hm, hq', g⟩ := M'.root root pos hpos
      obtain ⟨m', hm', g', he⟩ := hgrow pos m hm
      refine ⟨pos, m', by rw [hroot]; exact hpos, hm', ?_, ?_⟩
      · rw [he rfl, hroot]
        exact size_foldMember root j off r m
      · by_cases hj : j = root
        · subst hj
          rw [hr] at hq'
          cases hq'
          exact g'.live.trans g.live
        · rw [he rfl]
          exact live_foldMember hj

theorem mergeRoots_ok (reqs : List BufReq) :
    MergeOk reqs (fun i => i < reqs.length) (mergeRoots reqs) := by
  have h : ∀ n ≤ reqs.length, MergeOk reqs (fun i => i < n)
      ((range n).foldl (Schedule.mergeOne reqs) ⟨[], fun _ => none⟩) := by
    intro n hn
    induction n with
    | zero => exact ⟨(fun _ _ h => nomatch h), (fun _ _ _ h => nomatch h), fun i r h => absurd h (Nat.not_lt_zero i)⟩
    | succ n ih =>
      have M := (ih (by omega)).mergeOne (getElem?_eq_getElem (show n < reqs.length by omega))
      rw [range_succ, foldl_append]
      refine ⟨M.root, M.inj, fun i r hi hr => M.member i r (by omega) hr⟩
  exact h _ le_rfl

end

/-! ### All devices -/

section
variable {merged : List BufReq} {device : Nat} {sub : List (BufReq × Nat)} {loc : Offsets}

theorem mem_ofDevice :
    e ∈ ofDevice merged device ↔ merged[e.2]? = some e.1 ∧ e.1.device = device := by
  unfold ofDevice
  rw [mem_filter, mem_zipIdx, decide_eq_true_eq]

theorem oneDevice_ofDevice (merged : List BufReq) (device : Nat) :
    OneDevice ((ofDevice merged device).map (·.1)) := by
  have h : ∀ (i : Nat) (r : BufReq), ((ofDevice merged device).map (·.1))[i]? = some r →
      r.device = device := by
    intro i r hr
    obtain ⟨e, he, rfl⟩ := mem_map.mp (mem_of_getElem? hr)
    exact (mem_ofDevice.mp he).2
  exact fun i j r q hr hq => (h i r hr).trans (h j q hq).symm

theorem nodup_ofDevice (merged : List BufReq) (device : Nat) : ((ofDevice merged device).map (·.2)).Nodup := by
  have h : (merged.zipIdx.map (·.2)).Nodup := by
    rw [zipIdx_map_snd]
    exact nodup_range' ..
  exact h.sublist (filter_sublist.map _)

/-- the shift gives the buffers of the device their offsets and keeps the others -/
theorem shiftOffsets_eq (base : Nat) (offs loc : Offsets) (hd : (sub.map (·.2)).Nodup) :
    (∀ li e, sub[li]? = some e → shiftOffsets sub base offs loc e.2 = some (base + (loc li).getD 0)) ∧
      ∀ i, i ∉ sub.map (·.2) → shiftOffsets sub base offs loc i = offs i := by
  unfold shiftOffsets
  induction sub using reverseRecOn with
  | nil => exact ⟨fun li e h => by simp at h, fun i _ => rfl⟩
  | append_singleton sub e ih =>
    rw [map_append, nodup_append] at hd
    obtain ⟨hd, -, hne⟩ := hd
    obtain ⟨ih1, ih2⟩ := ih hd
    rw [zipIdx_append, foldl_append]
    constructor
    · intro li e' h
      by_cases hli : li < sub.length
      · rw [getElem?_append_left hli] at h
        have hmem : e'.2 ∈ sub.map (·.2) := mem_map_of_mem (mem_of_getElem? h)
        have hne' : e'.2 ≠ e.2 := hne _ hmem _ (mem_singleton_self _)
        rw [← ih1 li e' h]
        exact Offsets.insert_ne hne'
      · have hli' : li = sub.length := by
          have := (List.getElem?_eq_some_iff.mp h).1
          rw [length_append, length_singleton] at this
          omega
        subst hli'
        rw [getElem?_concat_length] at h
        cases h
        simp
    · intro i hi
      rw [map_append, mem_append, not_or] at hi
      rw [← ih2 i hi.1]
      exact Offsets.insert_ne fun h => hi.2 (mem_singleton.mpr h)

/-- The devices of `ds` are placed. -/
structure ArenaOk (merged : List BufReq) (ds : List Nat) (a : Arena) : Prop where
  laid : Laid merged a.offsets a.globalBase
  total : ∀ i m, merged[i]? = some m → m.device ∈ ds → (a.offsets i).isSome

theorem ArenaOk.placeDevice {ds : List Nat} {a : Arena} (device : Nat) (A : ArenaOk merged ds a) :
    ArenaOk merged (ds ++ [device]) (placeDevice merged a device) := by
  obtain ⟨L, hsome⟩ := laid_place (oneDevice_ofDevice merged device)
  generalize hp : place ((ofDevice merged device).map (·.1)) = pl at L hsome
  obtain ⟨loc, size, gbase⟩ := pl
  dsimp only at L hsome
  have hin := fun offs => (shiftOffsets_eq a.globalBase offs loc (nodup_ofDevice merged device)).1
  have hout := fun offs => (shiftOffsets_eq a.globalBase offs loc (nodup_ofDevice merged device)).2
  have hsub : ∀ (li : Nat) (e : BufReq × Nat), (ofDevice merged device)[li]? = some e →
      ((ofDevice merged device).map (·.1))[li]? = some e.1 := by
    intro li e h
    rw [getElem?_map, h]
    rfl
  -- the offsets of this device alone
  have hnew : ∀ i o, shiftOffsets (ofDevice merged device) a.globalBase (fun _ => none) loc i = some o →
      ∃ li m o', (ofDevice merged device)[li]? = some (m, i) ∧ merged[i]? = some m ∧ loc li = some o' ∧
        o = a.globalBase + o' := by
    intro i o h
    by_cases hi : i ∈ (ofDevice merged device).map (·.2)
    · obtain ⟨e, he, rfl⟩ := mem_map.mp hi
      obtain ⟨li, hli⟩ := getElem?_of_mem he
      rw [hin _ li e hli] at h
      obtain ⟨o', ho'⟩ := isSome_iff_exists.mp (hsome li e.1 (hsub li e hli))
      rw [ho'] at h
      cases h
      exact ⟨li, e.1, o', hli, (mem_ofDevice.mp he).1, ho', rfl⟩
    · rw [hout _ i hi] at h
      cases h
  have hlaid : Laid merged (shiftOffsets (ofDevice merged device) a.globalBase (fun _ => none) loc)
      (a.globalBase + size) := by
    constructor
    · intro i o h
      obtain ⟨li, m, o', hli, hm, ho', rfl⟩ := hnew i o h
      obtain ⟨r, hr, hle⟩ := L.fits li o' ho'
      rw [hsub li _ hli] at hr
      cases hr
      dsimp only at hle
      exact ⟨m, hm, by omega⟩
    · intro i j o p r q hne ho hp hr hq
      obtain ⟨li, m, o', hli, hm, ho', rfl⟩ := hnew i o ho
      obtain ⟨lj, n, p', hlj, hn, hp', rfl⟩ := hnew j p hp
      rw [hr] at hm
      rw [hq] at hn
      cases hm
      cases hn
      have hne' : li ≠ lj := by
        intro h
        subst h
        rw [hli] at hlj
        cases hlj
        exact hne rfl
      rcases L.apart li lj o' p' r q hne' ho' hp' (hsub li _ hli) (hsub lj _ hlj) with h | h
      · exact .inl h
      · right
        unfold Clear at h ⊢
        omega
  have hext : ∀ i, shiftOffsets (ofDevice merged device) a.globalBase a.offsets loc i =
      a.offsets.extend (shiftOffsets (ofDevice merged device) a.globalBase (fun _ => none) loc) i := by
    intro i
    unfold Offsets.extend
    by_cases hi : i ∈ (ofDevice merged device).map (·.2)
    · obtain ⟨e, he, rfl⟩ := mem_map.mp hi
      obtain ⟨li, hli⟩ := getElem?_of_mem he
      rw [hin _ li e hli, hin _ li e hli]
      rfl
    · rw [hout _ i hi, hout _ i hi]
      rfl
  have hplace : Schedule.placeDevice merged a device =
      ⟨a.offsets.extend (shiftOffsets (ofDevice merged device) a.globalBase (fun _ => none) loc),
        a.segments ++ [⟨device, a.globalBase, size, a.globalBase + gbase⟩],
        a.globalBase + alignUp size memAlign,
        if a.segments = [] then a.globalBase + gbase else a.growableBase⟩ := by
    unfold Schedule.placeDevice
    simp only [hp]
    congr 1
    funext i
    exact hext i
  rw [hplace]
  have hsize := le_alignUp size
  refine ⟨(A.laid.extend hlaid le_rfl (fun i o h => ?_) (by omega)).mono (by dsimp only; omega),
    fun i m hm hd => ?_⟩
  · obtain ⟨li, m, o', -, -, -, rfl⟩ := hnew i o h
    omega
  · show (a.offsets.extend _ i).isSome
    rw [← hext]
    by_cases hi : i ∈ (ofDevice merged device).map (·.2)
    · obtain ⟨e, he, rfl⟩ := mem_map.mp hi
      obtain ⟨li, hli⟩ := getElem?_of_mem he
      rw [hin _ li e hli]
      rfl
    · rw [hout _ i hi]
      refine A.total i m hm ?_
      rcases mem_append.mp hd with hd | hd
      · exact hd
      · refine absurd (mem_map.mpr ⟨(m, i), mem_ofDevice.mpr ⟨hm, ?_⟩, rfl⟩) hi
        exact mem_singleton.mp hd

theorem placeDevices_ok (merged : List BufReq) : Laid merged (placeDevices merged).offsets
    (placeDevices merged).globalBase ∧
      ∀ i m, merged[i]? = some m → ((placeDevices merged).offsets i).isSome := by
  have h : ∀ ds ds0 a, ArenaOk merged ds0 a →
      ArenaOk merged (ds0 ++ ds) (ds.foldl (Schedule.placeDevice merged) a) := by
    intro ds
    induction ds with
    | nil =>
      intro ds0 a A
      rw [append_nil]
      exact A
    | cons d ds ih =>
      intro ds0 a A
      have := ih (ds0 ++ [d]) _ (A.placeDevice d)
      rwa [append_assoc] at this
  have A := h (devices merged) [] ⟨fun _ => none, [], 0, 0⟩
    ⟨Laid.empty _ _, fun i m _ hd => nomatch hd⟩
  refine ⟨A.laid, fun i m hm => A.total i m hm ?_⟩
  rw [nil_append]
  unfold devices
  rw [mem_insertionSort, mem_dedup]
  exact mem_map_of_mem (mem_of_getElem? hm)

end

/-! ### The entries -/

def IsStorage (reqs : List BufReq) (root : Nat) (m : BufReq) : Prop :=
  ∃ p, (mergeRoots reqs).rootPos root = some p ∧ (mergeRoots reqs).merged[p]? = some m

theorem IsStorage.root {root : Nat} (h : IsStorage reqs root m) :
    ∃ r, reqs[root]? = some r ∧ Grown r m := by
  obtain ⟨p, hp, hm⟩ := h
  obtain ⟨m', r, hm', hr, g⟩ := (mergeRoots_ok reqs).root root p hp
  rw [hm] at hm'
  cases hm'
  exact ⟨r, hr, g⟩

theorem IsStorage.member (h : IsStorage reqs (rootAndOff reqs i).1 m)
    (hr : reqs[i]? = some r) : (rootAndOff reqs i).2 + r.size ≤ m.size ∧ Covers m.live r.live := by
  obtain ⟨p, hp, hm⟩ := h
  obtain ⟨p', m', hp', hm', hsize, hlive⟩ :=
    (mergeRoots_ok reqs).member i r (List.getElem?_eq_some_iff.mp hr).1 hr
  rw [hp] at hp'
  cases hp'
  rw [hm] at hm'
  cases hm'
  exact ⟨hsize, hlive⟩

theorem addrEntry_some (hr : reqs[i]? = some r) :
    ∃ p m o, (mergeRoots reqs).rootPos (rootAndOff reqs i).1 = some p ∧
      (mergeRoots reqs).merged[p]? = some m ∧
      (placeDevices (mergeRoots reqs).merged).offsets p = some o ∧
      addrEntry reqs (mergeRoots reqs) (placeDevices (mergeRoots reqs).merged).offsets (r, i) =
        some {
          slot := i
          name := r.name
          cls := m.cls
          offset := o + (rootAndOff reqs i).2
          reserved := if r.cls = .growable then r.size + r.growthReserve else r.size
          growable := m.cls = .growable
          device := m.device } := by
  obtain ⟨p, m, hp, hm, -⟩ :=
    (mergeRoots_ok reqs).member i r (List.getElem?_eq_some_iff.mp hr).1 hr
  obtain ⟨o, ho⟩ := isSome_iff_exists.mp
    ((placeDevices_ok (mergeRoots reqs).merged).2 p m hm)
  refine ⟨p, m, o, hp, hm, ho, ?_⟩
  unfold addrEntry
  simp only [hp, hm, ho, bind_eq_bind, bind_some]

theorem allocate_some (reqs : List BufReq) : ∃ map, allocate reqs = some map := by
  unfold allocate
  have h : ∃ entries, (expandReplicas reqs).zipIdx.mapM
      (addrEntry (expandReplicas reqs) (mergeRoots (expandReplicas reqs))
        (placeDevices (mergeRoots (expandReplicas reqs)).merged).offsets) = some entries := by
    refine optionMapM_some fun e he => ?_
    obtain ⟨p, m, o, -, -, -, hentry⟩ := addrEntry_some (mem_zipIdx.mp he)
    exact ⟨_, hentry⟩
  obtain ⟨entries, h⟩ := h
  exact ⟨_, by simp only [h]; rfl⟩

/-- Entries of different roots are apart, unless their storages may share bytes. -/
theorem allocate_apart {map : AddressMap} {e f : AddrEntry} (h : allocate reqs = some map)
    (he : e ∈ map.entries) (hf : f ∈ map.entries) :
    ∃ r q m n, (expandReplicas reqs)[e.slot]? = some r ∧ (expandReplicas reqs)[f.slot]? = some q ∧
      (e.name = r.name ∧ e.reserved = r.span) ∧ (f.name = q.name ∧ f.reserved = q.span) ∧
      IsStorage (expandReplicas reqs) (rootAndOff (expandReplicas reqs) e.slot).1 m ∧
      IsStorage (expandReplicas reqs) (rootAndOff (expandReplicas reqs) f.slot).1 n ∧
      ((rootAndOff (expandReplicas reqs) e.slot).1 ≠ (rootAndOff (expandReplicas reqs) f.slot).1 →
        m.Shares n ∨ Clear e.offset r.size f.offset q.size) := by
  unfold allocate at h
  obtain ⟨entries, hentries, h⟩ := bind_eq_some_iff.mp h
  cases h
  obtain ⟨⟨r, i⟩, hr, hre⟩ := mem_of_optionMapM hentries he
  obtain ⟨⟨q, j⟩, hq, hqf⟩ := mem_of_optionMapM hentries hf
  have hr : (expandReplicas reqs)[i]? = some r := mem_zipIdx.mp hr
  have hq : (expandReplicas reqs)[j]? = some q := mem_zipIdx.mp hq
  obtain ⟨p, m, o, hp, hm, ho, hentry⟩ := addrEntry_some hr
  obtain ⟨p', n, o', hp', hn, ho', hentry'⟩ := addrEntry_some hq
  rw [hentry] at hre
  rw [hentry'] at hqf
  cases hre
  cases hqf
  refine ⟨r, q, m, n, hr, hq, ⟨rfl, rfl⟩, ⟨rfl, rfl⟩, ⟨p, hp, hm⟩, ⟨p', hp', hn⟩, fun hroot => ?_⟩
  have hpp : p ≠ p' := by
    intro h
    subst h
    exact hroot ((mergeRoots_ok _).inj _ _ p hp hp')
  have hmsize := (IsStorage.member ⟨p, hp, hm⟩ hr).1
  have hnsize := (IsStorage.member ⟨p', hp', hn⟩ hq).1
  have hspan : ∀ b : BufReq, b.size ≤ b.span := by
    intro b
    unfold BufReq.span
    split
    · omega
    · exact le_rfl
  rcases (placeDevices_ok _).1.apart p p' o o' m n hpp ho ho' hm hn with h | h
  · exact .inl h
  · right
    have := hspan m
    have := hspan n
    unfold Clear at h ⊢
    dsimp only
    omega

end Plow.Schedule
