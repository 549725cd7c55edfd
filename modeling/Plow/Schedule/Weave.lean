import Plow.Lib.Circles
import Plow.Schedule.Prefetch

/-!
# One stream, woven again

The new order of a stream sorts its tasks by slot, and the DMA-ins of one slot by their old places
(`before_reorder`).  An anchor is one behind the last task that the DMA-in is held by (`anchors_gt`,
`anchors_held`), so every pair of the new order follows from three kinds of pairs: the data edges, the
pairs that stay as they were (`Kept`) and those of a DMA-in and a task that it is put ahead of
(`PutAhead`).
-/

namespace Plow.Schedule
open Plow.Lib Relation List Option

/-- The DMA-in depends on a task of its stream that is none, directly or through DMA-ins of the stream. -/
inductive Held (tg : TaskGraph) (ids : List Nat) (x : Nat) : Nat → Prop where
  | direct {d : Nat} (h : (x, d) ∈ tg.edges) (hx : x ∈ ids) (hk : isDmaIn tg x = false) : Held tg ids x d
  | through {e d : Nat} (h : (e, d) ∈ tg.edges) (he : e ∈ ids) (hk : isDmaIn tg e = true)
      (hx : Held tg ids x e) : Held tg ids x d

/-- the tasks that hold the DMA-in come before `y`, which is no DMA-in -/
def PutAhead (tg : TaskGraph) (ids : List Nat) (d y : Nat) : Prop :=
  (d ∈ ids ∧ isDmaIn tg d = true) ∧ (y ∈ ids ∧ isDmaIn tg y = false) ∧
    ∀ x, Held tg ids x d → InOrder ids x y

/-- pairs that stay in order: of two tasks that are no DMA-ins, and of two DMA-ins that are put ahead of
the same tasks -/
def Kept (tg : TaskGraph) (ids : List Nat) (a b : Nat) : Prop :=
  InOrder ids a b ∧ ((isDmaIn tg a = false ∧ isDmaIn tg b = false) ∨
    (isDmaIn tg a = true ∧ isDmaIn tg b = true ∧ ∀ y, PutAhead tg ids a y ↔ PutAhead tg ids b y))

def Edge (tg : TaskGraph) (a b : Nat) : Prop := (a, b) ∈ tg.edges

variable {tg : TaskGraph} {ids l ts : List Nat} {a b d x y i j k : Nat} {ins : List Insertion}
  {V S : Nat → Nat}

/-! ### Places -/

theorem lastIdx_iff (hl : l.Nodup) : lastIdx l a = some i ↔ l[i]? = some a := by
  have hmem : ∀ e, e ∈ l.zipIdx.reverse ↔ l[e.2]? = some e.1 := by
    intro e
    rw [mem_reverse, mem_zipIdx_iff_getElem?]
  unfold lastIdx
  constructor
  · intro h
    obtain ⟨e, he, rfl⟩ := map_eq_some_iff.mp h
    have ha : e.1 = a := by simpa using find?_some he
    rw [← ha]
    exact (hmem e).mp (mem_of_find?_eq_some he)
  · intro h
    have hfound : (l.zipIdx.reverse.find? fun e => decide (e.1 = a)).isSome :=
      find?_isSome.mpr ⟨(a, i), (hmem (a, i)).mpr h, decide_eq_true rfl⟩
    obtain ⟨e, he⟩ := isSome_iff_exists.mp hfound
    have ha : e.1 = a := by simpa using find?_some he
    have hi := (hmem e).mp (mem_of_find?_eq_some he)
    rw [ha, ← h] at hi
    rw [he, map_some]
    exact congrArg some ((getElem?_inj (List.getElem?_eq_some_iff.mp (hi.trans h)).1 hl).mp hi)

theorem exists_lastIdx (hl : l.Nodup) (ha : a ∈ l) : ∃ i, lastIdx l a = some i := by
  obtain ⟨i, hi⟩ := mem_iff_getElem?.mp ha
  exact ⟨i, (lastIdx_iff hl).mpr hi⟩

theorem before_iff_lt (hl : l.Nodup) (ha : lastIdx l a = some i) (hb : lastIdx l b = some j) :
    InOrder l a b ↔ i < j := before_iff_idx hl ((lastIdx_iff hl).mp ha) ((lastIdx_iff hl).mp hb)

/-! ### The tasks that are no DMA-ins -/

theorem mem_nonDma : a ∈ nonDma tg ids ↔ a ∈ ids ∧ isDmaIn tg a = false := by
  unfold nonDma
  rw [mem_filter, Bool.not_eq_true']

theorem before_nonDma : InOrder (nonDma tg ids) a b ↔
    InOrder ids a b ∧ isDmaIn tg a = false ∧ isDmaIn tg b = false := by
  unfold nonDma
  rw [before_filter_iff, Bool.not_eq_true', Bool.not_eq_true']

theorem nonDma_nodup (hl : ids.Nodup) : (nonDma tg ids).Nodup := hl.filter _

theorem Held.mem (h : Held tg ids x d) : x ∈ ids ∧ isDmaIn tg x = false := by
  induction h with
  | direct _ hx hk => exact ⟨hx, hk⟩
  | through _ _ _ _ ih => exact ih

theorem Held.reach (h : Held tg ids x d) : TransGen (Edge tg) x d := by
  induction h with
  | direct h _ _ => exact .single h
  | through h _ _ _ ih => exact ih.tail h

/-! ### The anchors -/

def raisers (tg : TaskGraph) (ids : List Nat) (d : Nat) : List Nat :=
  (tg.preds d).filter fun p => p ∈ ids.filter (isDmaIn tg)

theorem mem_raisers : a ∈ raisers tg ids d ↔ (a, d) ∈ tg.edges ∧ a ∈ ids ∧ isDmaIn tg a = true := by
  unfold raisers
  rw [mem_filter, mem_preds, decide_eq_true_iff, mem_filter]

theorem mem_direct (hl : ids.Nodup) :
    k ∈ (((tg.preds d).filter fun p => !isDmaIn tg p).filterMap fun p =>
      (lastIdx (nonDma tg ids) p).map (· + 1)) ↔
    ∃ x i, Held tg ids x d ∧ (x, d) ∈ tg.edges ∧ lastIdx (nonDma tg ids) x = some i ∧ k = i + 1 := by
  rw [mem_filterMap]
  constructor
  · rintro ⟨x, hx, hk⟩
    obtain ⟨i, hi, rfl⟩ := map_eq_some_iff.mp hk
    obtain ⟨hx, -⟩ := mem_filter.mp hx
    have hmem := mem_nonDma.mp (mem_of_getElem? ((lastIdx_iff (nonDma_nodup hl)).mp hi))
    exact ⟨x, i, .direct (mem_preds.mp hx) hmem.1 hmem.2, mem_preds.mp hx, hi, rfl⟩
  · rintro ⟨x, i, hheld, hx, hi, rfl⟩
    have hk : (!isDmaIn tg x) = true := by rw [hheld.mem.2, Bool.not_false]
    exact ⟨x, mem_filter.mpr ⟨mem_preds.mpr hx, hk⟩, by rw [hi, map_some]⟩

theorem directAnchor_gt (hl : ids.Nodup) (h : (x, d) ∈ tg.edges) (hx : x ∈ ids) (hk : isDmaIn tg x = false)
    (hi : lastIdx (nonDma tg ids) x = some i) : i < directAnchor tg ids d :=
  le_foldl_max ((mem_direct hl).mpr ⟨x, i, .direct h hx hk, h, hi, rfl⟩)

def Behind (tg : TaskGraph) (ids : List Nat) (d k : Nat) : Prop :=
  k = 0 ∨ ∃ x i, Held tg ids x d ∧ lastIdx (nonDma tg ids) x = some i ∧ k = i + 1

theorem directAnchor_behind (hl : ids.Nodup) : Behind tg ids d (directAnchor tg ids d) := by
  rcases foldl_max_eq (m := 0) with h | h
  · exact .inl h
  · obtain ⟨x, i, hheld, -, hi, hk⟩ := (mem_direct hl).mp h
    exact .inr ⟨x, i, hheld, hi, hk⟩

theorem raiseAnchor_ge : V d ≤ raiseAnchor tg (ids.filter (isDmaIn tg)) V d ∧
    ∀ e ∈ raisers tg ids d, V e ≤ raiseAnchor tg (ids.filter (isDmaIn tg)) V d := by
  have h := foldl_max_le_iff.mp (le_refl (raiseAnchor tg (ids.filter (isDmaIn tg)) V d))
  exact ⟨h.1, fun e he => h.2 _ (mem_map_of_mem he)⟩

theorem raiseAnchor_eq : raiseAnchor tg (ids.filter (isDmaIn tg)) V d = V d ∨
    ∃ e ∈ raisers tg ids d, raiseAnchor tg (ids.filter (isDmaIn tg)) V d = V e := by
  rcases foldl_max_eq (m := V d) with h | h
  · exact .inl h
  · obtain ⟨e, he, hk⟩ := mem_map.mp h
    exact .inr ⟨e, he, hk.symm⟩

theorem raise_ranked (hg : NoCircle (Edge tg)) :
    Ranked (raiseAnchor tg (ids.filter (isDmaIn tg))) (countBefore (Edge tg) (ids.filter (isDmaIn tg))) where
  reads V V' d hlt hd := by
    have hmap : (raisers tg ids d).map V = (raisers tg ids d).map V' := by
      refine map_congr_left fun e he => hlt e ?_
      obtain ⟨hed, hmem, hk⟩ := mem_raisers.mp he
      exact countBefore_lt hg (mem_filter.mpr ⟨hmem, hk⟩) hed
    show ((raisers tg ids d).map V).foldl max (V d) = ((raisers tg ids d).map V').foldl max (V' d)
    rw [hmap, hd]
  again V d := by
    have hmap : (raisers tg ids d).map (Function.update V d (raiseAnchor tg (ids.filter (isDmaIn tg)) V d)) =
        (raisers tg ids d).map V := by
      refine map_congr_left fun e he => Function.update_of_ne ?_ _ _
      rintro rfl
      exact hg.irrefl (mem_raisers.mp he).1
    show ((raisers tg ids d).map (Function.update V d _)).foldl max (Function.update V d _ d) = _
    rw [hmap, Function.update_self]
    apply le_antisymm
    · exact foldl_max_le_iff.mpr ⟨le_rfl, fun k hk => le_foldl_max hk⟩
    · exact (foldl_max_le_iff.mp le_rfl).1

theorem anchors_fit (hg : NoCircle (Edge tg)) (hd : d ∈ ids) (hk : isDmaIn tg d = true) :
    raiseAnchor tg (ids.filter (isDmaIn tg)) (anchors tg ids) d = anchors tg ids d := by
  refine settle_fits (raise_ranked hg) (fun e he => ?_) (mem_filter.mpr ⟨hd, hk⟩)
  exact Nat.lt_succ_of_le ((countBefore_lt_length hg he).le.trans (length_filter_le _ ids))

theorem anchors_ge_direct : directAnchor tg ids d ≤ anchors tg ids d := by
  refine settle_keeps (P := fun V => directAnchor tg ids d ≤ V d) (fun V e _ h => ?_) le_rfl
  by_cases hed : d = e
  · rw [← hed, Function.update_self]
    exact h.trans raiseAnchor_ge.1
  · rwa [Function.update_of_ne hed]

theorem anchors_gt (hl : ids.Nodup) (hg : NoCircle (Edge tg)) (h : Held tg ids x d) (hd : d ∈ ids)
    (hk : isDmaIn tg d = true) (hi : lastIdx (nonDma tg ids) x = some i) : i < anchors tg ids d := by
  induction h with
  | direct h hx hxk => exact (directAnchor_gt hl h hx hxk hi).trans_le anchors_ge_direct
  | through h he hek _ ih =>
    refine (ih he hek).trans_le ?_
    rw [← anchors_fit hg hd hk]
    exact raiseAnchor_ge.2 _ (mem_raisers.mpr ⟨h, he, hek⟩)

theorem anchors_behind (hl : ids.Nodup) : Behind tg ids d (anchors tg ids d) := by
  refine settle_keeps (P := fun V => ∀ d, Behind tg ids d (V d)) (fun V t _ h d => ?_)
    (fun d => directAnchor_behind hl) d
  by_cases hdt : d = t
  · rw [← hdt, Function.update_self]
    rcases raiseAnchor_eq (V := V) (d := d) with heq | ⟨e, he, heq⟩
    · rw [heq]
      exact h d
    · rw [heq]
      obtain ⟨hed, hmem, hk⟩ := mem_raisers.mp he
      rcases h e with h0 | ⟨x, i, hx, hi, hki⟩
      · exact .inl h0
      · exact .inr ⟨x, i, .through hed hmem hk hx, hi, hki⟩
  · rw [Function.update_of_ne hdt]
    exact h d

theorem putAhead_iff (hl : ids.Nodup) (hg : NoCircle (Edge tg)) (hd : d ∈ ids) (hk : isDmaIn tg d = true)
    (hi : lastIdx (nonDma tg ids) y = some i) : PutAhead tg ids d y ↔ anchors tg ids d ≤ i := by
  have hnd : (nonDma tg ids).Nodup := nonDma_nodup hl
  have hy := mem_nonDma.mp (mem_of_getElem? ((lastIdx_iff hnd).mp hi))
  constructor
  · rintro ⟨-, -, hall⟩
    rcases (anchors_behind hl : Behind tg ids d (anchors tg ids d)) with h0 | ⟨x, j, hx, hj, hkj⟩
    · rw [h0]
      exact Nat.zero_le i
    · rw [hkj]
      exact (before_iff_lt hnd hj hi).mp (before_nonDma.mpr ⟨hall x hx, hx.mem.2, hy.2⟩)
  · refine fun hle => ⟨⟨hd, hk⟩, hy, fun x hx => ?_⟩
    obtain ⟨j, hj⟩ := exists_lastIdx hnd (mem_nonDma.mpr hx.mem)
    exact (before_nonDma.mp ((before_iff_lt hnd hj hi).mpr
      ((anchors_gt hl hg hx hd hk hj).trans_le hle))).1

/-! ### The new order -/

/-- the slot of a task: the DMA-ins of anchor `k` come between the tasks `k - 1` and `k` -/
def slot (tg : TaskGraph) (ids : List Nat) (t : Nat) : Nat :=
  if isDmaIn tg t then 2 * anchors tg ids t else 2 * (lastIdx (nonDma tg ids) t).getD 0 + 1

def placeIn (ids : List Nat) (t : Nat) : Nat := (lastIdx ids t).getD 0

def Earlier (tg : TaskGraph) (ids : List Nat) (a b : Nat) : Prop :=
  slot tg ids a < slot tg ids b ∨ (slot tg ids a = slot tg ids b ∧ placeIn ids a < placeIn ids b)

theorem Earlier.asymm (h : Earlier tg ids a b) : ¬ Earlier tg ids b a := by
  unfold Earlier at *
  omega

theorem slot_dma (hk : isDmaIn tg d = true) : slot tg ids d = 2 * anchors tg ids d := if_pos hk

theorem slot_other (hk : isDmaIn tg x = false) (hi : lastIdx (nonDma tg ids) x = some i) :
    slot tg ids x = 2 * i + 1 := by
  unfold slot
  rw [hk, if_neg Bool.false_ne_true, hi, getD_some]

theorem placeIn_eq (hi : lastIdx ids a = some i) : placeIn ids a = i := by
  unfold placeIn
  rw [hi, getD_some]

theorem weave_perm : (weave k ts ins).Perm (ts ++ ins.map (·.dma)) := by
  induction ts generalizing k ins with
  | nil => exact .refl _
  | cons t ts ih =>
    unfold weave
    refine (perm_middle.trans ?_)
    rw [cons_append]
    refine .cons t ((ih.append_left _).trans ?_)
    rw [← append_assoc]
    refine (perm_append_comm.append_right _).trans ?_
    rw [append_assoc, ← map_append, takeWhile_append_dropWhile]

theorem dropWhile_later (hs : ins.Pairwise fun a b => a.anchor ≤ b.anchor)
    (hk : ∀ e ∈ ins, k ≤ e.anchor) : ∀ e ∈ ins.dropWhile (fun e => e.anchor = k), k + 1 ≤ e.anchor := by
  induction ins with
  | nil => exact nofun
  | cons e ins ih =>
    obtain ⟨hle, hs⟩ := pairwise_cons.mp hs
    have hek := hk e mem_cons_self
    rw [dropWhile_cons]
    split
    · exact ih hs fun e he => hk e (mem_cons_of_mem _ he)
    · next he =>
      have hne : e.anchor ≠ k := fun h => he (decide_eq_true h)
      refine fun e' he' => ?_
      rcases mem_cons.mp he' with rfl | he'
      · omega
      · have := hle e' he'
        omega

/-- Insertions in order, woven into tasks with a slot each, come out in order. -/
theorem weave_pairwise {Q : Nat → Nat → Prop} (hQ : ∀ a b, S a < S b → Q a b)
    (hts : ∀ (j t : Nat), ts[j]? = some t → S t = 2 * (k + j) + 1)
    (hins : ∀ e ∈ ins, k ≤ e.anchor ∧ S e.dma = 2 * e.anchor)
    (hs : ins.Pairwise fun a b => a.anchor ≤ b.anchor ∧ Q a.dma b.dma) : (weave k ts ins).Pairwise Q := by
  induction ts generalizing k ins with
  | nil => exact pairwise_map.mpr (hs.imp fun h => h.2)
  | cons t ts ih =>
    unfold weave
    have ht : S t = 2 * k + 1 := hts 0 t rfl
    have htake : ∀ e ∈ ins.takeWhile (fun e => e.anchor = k), S e.dma = 2 * k := by
      intro e he
      have hek : e.anchor = k := of_decide_eq_true (all_eq_true.mp all_takeWhile e he)
      rw [(hins e (takeWhile_subset _ he)).2, hek]
    have hlater := dropWhile_later (hs.imp fun h => h.1) fun e he => (hins e he).1
    have hdrop : ∀ e ∈ ins.dropWhile (fun e => e.anchor = k), k + 1 ≤ e.anchor ∧ S e.dma = 2 * e.anchor :=
      fun e he => ⟨hlater e he, (hins e ((dropWhile_sublist _).subset he)).2⟩
    have hrest : ∀ a ∈ weave (k + 1) ts (ins.dropWhile fun e => e.anchor = k), 2 * (k + 1) ≤ S a := by
      intro a ha
      rcases mem_append.mp (weave_perm.mem_iff.mp ha) with ha | ha
      · obtain ⟨j, hj⟩ := mem_iff_getElem?.mp ha
        rw [hts (j + 1) a hj]
        omega
      · obtain ⟨e, he, rfl⟩ := mem_map.mp ha
        obtain ⟨hle, hS⟩ := hdrop e he
        rw [hS]
        omega
    refine pairwise_append.mpr ⟨?_, pairwise_cons.mpr ⟨fun a ha => hQ t a ?_, ?_⟩, ?_⟩
    · exact pairwise_map.mpr ((hs.sublist (takeWhile_sublist _)).imp fun h => h.2)
    · have := hrest a ha
      omega
    · refine ih (fun j u hu => ?_) hdrop (hs.sublist (dropWhile_sublist _))
      rw [hts (j + 1) u hu]
      omega
    · intro a ha b hb
      obtain ⟨e, he, rfl⟩ := mem_map.mp ha
      have hS := htake e he
      refine hQ _ b ?_
      rcases mem_cons.mp hb with rfl | hb
      · omega
      · have := hrest b hb
        omega

theorem mem_insertions (hl : ids.Nodup) {e : Insertion} (he : e ∈ insertions tg ids) : e.dma ∈ ids ∧
    isDmaIn tg e.dma = true ∧ e.anchor = anchors tg ids e.dma ∧ e.originalIdx = placeIn ids e.dma := by
  obtain ⟨p, hp, rfl⟩ := mem_map.mp ((perm_insertionSort _ _).mem_iff.mp he)
  obtain ⟨hp, hk⟩ := mem_filter.mp hp
  have hget := mem_zipIdx_iff_getElem?.mp hp
  exact ⟨mem_of_getElem? hget, hk, rfl, (placeIn_eq ((lastIdx_iff hl).mpr hget)).symm⟩

theorem map_zipIdx_filter {n : Nat} {p : Nat → Bool} :
    ((l.zipIdx n).filter fun e => p e.1).map (·.1) = l.filter p := by
  induction l generalizing n with
  | nil => rfl
  | cons a l ih =>
    rw [zipIdx_cons, filter_cons, filter_cons]
    split
    · rw [map_cons, ih]
    · exact ih

theorem insertions_perm : ((insertions tg ids).map (·.dma)).Perm (ids.filter (isDmaIn tg)) := by
  refine ((perm_insertionSort _ _).map _).trans ?_
  rw [List.map_map]
  exact .of_eq map_zipIdx_filter

theorem reorder_perm : (reorder tg ids).Perm ids := by
  refine weave_perm.trans ((insertions_perm.append_left _).trans (perm_append_comm.trans ?_))
  exact filter_append_perm _ ids

theorem insertions_sorted : (insertions tg ids).Pairwise fun a b =>
    a.anchor < b.anchor ∨ (a.anchor = b.anchor ∧ a.originalIdx ≤ b.originalIdx) := by
  have htotal : Std.Total fun a b : Insertion =>
      a.anchor < b.anchor ∨ (a.anchor = b.anchor ∧ a.originalIdx ≤ b.originalIdx) :=
    ⟨fun a b => by omega⟩
  have htrans : IsTrans Insertion fun a b =>
      a.anchor < b.anchor ∨ (a.anchor = b.anchor ∧ a.originalIdx ≤ b.originalIdx) :=
    ⟨fun a b c h h' => by omega⟩
  exact pairwise_insertionSort _ _

section

variable (hl : ids.Nodup)
include hl

theorem reorder_pairwise : (reorder tg ids).Pairwise (Earlier tg ids) := by
  have hnd : (nonDma tg ids).Nodup := nonDma_nodup hl
  refine weave_pairwise (S := slot tg ids) (fun a b h => .inl h) (fun j t hj => ?_) (fun e he => ?_) ?_
  · rw [slot_other (mem_nonDma.mp (mem_of_getElem? hj)).2 ((lastIdx_iff hnd).mpr hj), zero_add]
  · obtain ⟨-, hk, ha, -⟩ := mem_insertions hl he
    exact ⟨Nat.zero_le _, by rw [slot_dma hk, ha]⟩
  · -- the DMA-ins are distinct, so no two of them have one place
    have hne : (insertions tg ids).Pairwise fun a b => a.dma ≠ b.dma :=
      pairwise_map.mp (insertions_perm.nodup_iff.mpr (hl.filter _))
    refine (insertions_sorted.and hne).imp_of_mem fun {e f} he hf h => ?_
    obtain ⟨hmem, hk, ha, hp⟩ := mem_insertions hl he
    obtain ⟨hmem', hk', ha', hp'⟩ := mem_insertions hl hf
    obtain ⟨i, hi⟩ := exists_lastIdx hl hmem
    obtain ⟨j, hj⟩ := exists_lastIdx hl hmem'
    have hij : i ≠ j := by
      rintro rfl
      have h1 := (lastIdx_iff hl).mp hi
      rw [(lastIdx_iff hl).mp hj] at h1
      exact h.2 (some.inj h1).symm
    rw [placeIn_eq hi] at hp
    rw [placeIn_eq hj] at hp'
    unfold Earlier
    rw [slot_dma hk, slot_dma hk', placeIn_eq hi, placeIn_eq hj]
    omega

theorem before_reorder (ha : a ∈ ids) (hb : b ∈ ids) :
    InOrder (reorder tg ids) a b ↔ Earlier tg ids a b := by
  have hs : (reorder tg ids).Pairwise (Earlier tg ids) := reorder_pairwise hl
  exact ⟨fun h => h.rel hs, fun h => before_of_pairwise hs (fun _ _ h => h.asymm)
    (reorder_perm.mem_iff.mpr ha) (reorder_perm.mem_iff.mpr hb) h⟩

/-! ### Where the pairs of the new order come from -/

theorem PutAhead.earlier (hg : NoCircle (Edge tg)) (h : PutAhead tg ids d y) :
    Earlier tg ids d y := by
  obtain ⟨i, hi⟩ := exists_lastIdx (nonDma_nodup hl) (mem_nonDma.mpr h.2.1)
  have hle := (putAhead_iff hl hg h.1.1 h.1.2 hi).mp h
  unfold Earlier
  rw [slot_dma h.1.2, slot_other h.2.1.2 hi]
  omega

theorem anchors_le : anchors tg ids d ≤ (nonDma tg ids).length := by
  rcases (anchors_behind hl : Behind tg ids d (anchors tg ids d)) with h0 | ⟨x, i, -, hi, hk⟩
  · rw [h0]
    exact Nat.zero_le _
  · rw [hk]
    exact (List.getElem?_eq_some_iff.mp ((lastIdx_iff (nonDma_nodup hl)).mp hi)).1

theorem anchors_le_of_putAhead (hg : NoCircle (Edge tg)) (ha : a ∈ ids)
    (hka : isDmaIn tg a = true) (hb : b ∈ ids) (hkb : isDmaIn tg b = true)
    (h : ∀ y, PutAhead tg ids a y → PutAhead tg ids b y) : anchors tg ids b ≤ anchors tg ids a := by
  by_contra hlt
  have hbound : anchors tg ids a < (nonDma tg ids).length := by
    have : anchors tg ids b ≤ (nonDma tg ids).length := anchors_le hl
    omega
  have hi := (lastIdx_iff (nonDma_nodup hl)).mpr (getElem?_eq_getElem hbound)
  have hput := h _ ((putAhead_iff hl hg ha hka hi).mpr le_rfl)
  have := (putAhead_iff hl hg hb hkb hi).mp hput
  omega

theorem Kept.earlier (hg : NoCircle (Edge tg)) (h : Kept tg ids a b) :
    Earlier tg ids a b := by
  obtain ⟨hab, ⟨hka, hkb⟩ | ⟨hka, hkb, hall⟩⟩ := h
  · have hnd : (nonDma tg ids).Nodup := nonDma_nodup hl
    have hbef : InOrder (nonDma tg ids) a b := before_nonDma.mpr ⟨hab, hka, hkb⟩
    obtain ⟨i, hi⟩ := exists_lastIdx hnd hbef.mem.1
    obtain ⟨j, hj⟩ := exists_lastIdx hnd hbef.mem.2
    have := (before_iff_lt hnd hi hj).mp hbef
    unfold Earlier
    rw [slot_other hka hi, slot_other hkb hj]
    omega
  · obtain ⟨ha, hb⟩ := hab.mem
    obtain ⟨i, hi⟩ := exists_lastIdx hl ha
    obtain ⟨j, hj⟩ := exists_lastIdx hl hb
    have hle := anchors_le_of_putAhead hl hg hb hkb ha hka fun y => (hall y).mpr
    have hge := anchors_le_of_putAhead hl hg ha hka hb hkb fun y => (hall y).mp
    have := (before_iff_lt hl hi hj).mp hab
    unfold Earlier
    rw [slot_dma hka, slot_dma hkb, placeIn_eq hi, placeIn_eq hj]
    omega

theorem holder_of_lt (hi : lastIdx (nonDma tg ids) a = some i)
    (h : i < anchors tg ids d) : ∃ x, Held tg ids x d ∧ (a = x ∨ InOrder ids a x) := by
  have hnd : (nonDma tg ids).Nodup := nonDma_nodup hl
  rcases (anchors_behind hl : Behind tg ids d (anchors tg ids d)) with h0 | ⟨x, j, hx, hj, hk⟩
  · omega
  · refine ⟨x, hx, ?_⟩
    rcases lt_or_eq_of_le (Nat.le_of_lt_succ (h.trans_eq hk)) with hij | rfl
    · exact .inr (before_nonDma.mp ((before_iff_lt hnd hi hj).mpr hij)).1
    · have h1 := (lastIdx_iff hnd).mp hi
      rw [(lastIdx_iff hnd).mp hj] at h1
      exact .inl (some.inj h1).symm

end

/-- Every pair of the new order follows from edges, kept pairs and DMA-ins put ahead. -/
theorem Earlier.reach {S : Nat → Nat → Prop} (hE : ∀ a b, Edge tg a b → S a b)
    (hK : ∀ a b, Kept tg ids a b → S a b) (hP : ∀ a b, PutAhead tg ids a b → S a b) (hl : ids.Nodup)
    (hg : NoCircle (Edge tg)) (ha : a ∈ ids) (hb : b ∈ ids) (h : Earlier tg ids a b) : TransGen S a b := by
  have hnd : (nonDma tg ids).Nodup := nonDma_nodup hl
  have hheld : ∀ x d, Held tg ids x d → TransGen S x d := fun x d hx => TransGen.mono hE x d hx.reach
  cases hka : isDmaIn tg a with
  | false =>
    obtain ⟨i, hi⟩ := exists_lastIdx hnd (mem_nonDma.mpr ⟨ha, hka⟩)
    cases hkb : isDmaIn tg b with
    | false =>
      obtain ⟨j, hj⟩ := exists_lastIdx hnd (mem_nonDma.mpr ⟨hb, hkb⟩)
      have hlt : i < j ∨ i = j ∧ placeIn ids a < placeIn ids b := by
        unfold Earlier at h
        rw [slot_other hka hi, slot_other hkb hj] at h
        omega
      rcases hlt with hij | ⟨rfl, hp⟩
      · exact .single (hK a b ⟨(before_nonDma.mp ((before_iff_lt hnd hi hj).mpr hij)).1, .inl ⟨hka, hkb⟩⟩)
      · have h1 := (lastIdx_iff hnd).mp hi
        rw [(lastIdx_iff hnd).mp hj] at h1
        rw [some.inj h1] at hp
        exact absurd hp (lt_irrefl _)
    | true =>
      have hlt : i < anchors tg ids b := by
        unfold Earlier at h
        rw [slot_other hka hi, slot_dma hkb] at h
        omega
      obtain ⟨x, hx, rfl | hax⟩ := holder_of_lt hl hi hlt
      · exact hheld a b hx
      · exact (hheld x b hx).head (hK a x ⟨hax, .inl ⟨hka, hx.mem.2⟩⟩)
  | true =>
    cases hkb : isDmaIn tg b with
    | false =>
      obtain ⟨j, hj⟩ := exists_lastIdx hnd (mem_nonDma.mpr ⟨hb, hkb⟩)
      refine .single (hP a b ((putAhead_iff hl hg ha hka hj).mpr ?_))
      unfold Earlier at h
      rw [slot_dma hka, slot_other hkb hj] at h
      omega
    | true =>
      by_cases heq : anchors tg ids a = anchors tg ids b
      · -- of one anchor: the old order is kept
        obtain ⟨i, hi⟩ := exists_lastIdx hl ha
        obtain ⟨j, hj⟩ := exists_lastIdx hl hb
        have hij : i < j := by
          unfold Earlier at h
          rw [slot_dma hka, slot_dma hkb, placeIn_eq hi, placeIn_eq hj] at h
          omega
        refine .single (hK a b ⟨(before_iff_lt hl hi hj).mpr hij, .inr ⟨hka, hkb, fun y => ?_⟩⟩)
        constructor
        · intro hy
          obtain ⟨k, hk⟩ := exists_lastIdx hnd (mem_nonDma.mpr hy.2.1)
          exact (putAhead_iff hl hg hb hkb hk).mpr (heq ▸ (putAhead_iff hl hg ha hka hk).mp hy)
        · intro hy
          obtain ⟨k, hk⟩ := exists_lastIdx hnd (mem_nonDma.mpr hy.2.1)
          exact (putAhead_iff hl hg ha hka hk).mpr (heq ▸ (putAhead_iff hl hg hb hkb hk).mp hy)
      · -- the first one is put ahead of the last task that the second one is held by
        have hlt : anchors tg ids a < anchors tg ids b := by
          unfold Earlier at h
          rw [slot_dma hka, slot_dma hkb] at h
          omega
        rcases (anchors_behind hl : Behind tg ids b (anchors tg ids b)) with h0 | ⟨x, j, hx, hj, hk⟩
        · omega
        · exact (hheld x b hx).head (hP a x ((putAhead_iff hl hg ha hka hj).mpr (by omega)))

/-! ### Streams without a hoisted DMA-in -/

theorem mem_hoisted (hd : d ∈ ids) (hk : isDmaIn tg d = true)
    (h : (lastIdx (reorder tg ids) d).getD 0 < (lastIdx ids d).getD 0) : d ∈ hoisted tg ids := by
  obtain ⟨e, he, rfl⟩ := mem_map.mp (insertions_perm.mem_iff.mpr (mem_filter.mpr ⟨hd, hk⟩))
  exact mem_filterMap.mpr ⟨e, he, if_pos h⟩

/-- Where the old order fits the edges and nothing is hoisted, nothing changes at all. -/
theorem reorder_eq (hl : ids.Nodup) (hg : NoCircle fun a b => Edge tg a b ∨ InOrder ids a b)
    (h : hoisted tg ids = []) : reorder tg ids = ids := by
  by_contra hne
  have hnew : (reorder tg ids).Nodup := reorder_perm.nodup_iff.mpr hl
  obtain ⟨p, a, b, q, r, hp, hids, hab⟩ := first_difference reorder_perm.length_eq hne
  have hat : ∀ (c : Nat) (s : List Nat), (p ++ c :: s)[p.length]? = some c := fun c s => by
    rw [getElem?_append_right le_rfl, Nat.sub_self, getElem?_cons_zero]
  have hapos : lastIdx (reorder tg ids) a = some p.length := (lastIdx_iff hnew).mpr (by rw [hp, hat])
  have hbpos : lastIdx ids b = some p.length := (lastIdx_iff hl).mpr (by rw [hids, hat])
  -- `a` is found later in the old stream, and `b` in the new one
  have ha : a ∈ ids := reorder_perm.mem_iff.mp (hp ▸ mem_append_right p mem_cons_self)
  have hb : b ∈ ids := hids ▸ mem_append_right p mem_cons_self
  have hba : InOrder ids b a := by
    refine (before_or hb ha (Ne.symm hab)).resolve_right fun h => ?_
    obtain ⟨i, hi⟩ := exists_lastIdx hl ha
    have hlt := (before_iff_lt hl hi hbpos).mp h
    have hmem : a ∈ p := by
      have hget := (lastIdx_iff hl).mp hi
      rw [hids, getElem?_append_left hlt] at hget
      exact mem_of_getElem? hget
    rw [hp] at hnew
    exact (nodup_append.mp hnew).2.2 a hmem a mem_cons_self rfl
  have hlater : Earlier tg ids a b := by
    refine (before_reorder hl ha hb).mp ((before_or (reorder_perm.mem_iff.mpr ha)
      (reorder_perm.mem_iff.mpr hb) hab).resolve_right fun h => ?_)
    obtain ⟨j, hj⟩ := exists_lastIdx hnew (reorder_perm.mem_iff.mpr hb)
    have hlt := (before_iff_lt hnew hj hapos).mp h
    have hmem : b ∈ p := by
      have hget := (lastIdx_iff hnew).mp hj
      rw [hp, getElem?_append_left hlt] at hget
      exact mem_of_getElem? hget
    rw [hids] at hl
    exact (nodup_append.mp hl).2.2 b hmem b mem_cons_self rfl
  have hnd : (nonDma tg ids).Nodup := nonDma_nodup hl
  cases hka : isDmaIn tg a with
  | true =>
    obtain ⟨i, hi⟩ := exists_lastIdx hl ha
    have hlt := (before_iff_lt hl hbpos hi).mp hba
    have hmem : a ∈ hoisted tg ids := mem_hoisted ha hka (by rw [hapos, hi]; exact hlt)
    rw [h] at hmem
    cases hmem
  | false =>
    obtain ⟨i, hi⟩ := exists_lastIdx hnd (mem_nonDma.mpr ⟨ha, hka⟩)
    unfold Earlier at hlater
    rw [slot_other hka hi] at hlater
    cases hkb : isDmaIn tg b with
    | false =>
      obtain ⟨j, hj⟩ := exists_lastIdx hnd (mem_nonDma.mpr ⟨hb, hkb⟩)
      have hlt := (before_iff_lt hnd hj hi).mp (before_nonDma.mpr ⟨hba, hkb, hka⟩)
      rw [slot_other hkb hj] at hlater
      omega
    | true =>
      rw [slot_dma hkb] at hlater
      obtain ⟨x, hx, hax⟩ := holder_of_lt hl hi (show i < anchors tg ids b by omega)
      have hreach : TransGen (fun a b => Edge tg a b ∨ InOrder ids a b) a b := by
        have hxb : TransGen (fun a b => Edge tg a b ∨ InOrder ids a b) x b :=
          TransGen.mono (fun _ _ => Or.inl) x b hx.reach
        rcases hax with rfl | hax
        · exact hxb
        · exact hxb.head (.inr hax)
      exact hg b (hreach.head (.inr hba))

end Plow.Schedule
