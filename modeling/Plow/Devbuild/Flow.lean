import Plow.Devbuild.Served
import Plow.Lib.Gated

/-!
# Running a program

The entries of a program start when the segments before theirs are done, the counters on their wait
lists have reached their thresholds, and, in the pairs that raw launches run, the operations before
theirs are done (`Program.flow`).  Told of the slices, that is an order (`Ctx.Ordered`): an entry
starts only when those ordered before it are done (`flow_respects`), and, where the maps name slices
that there are, once they are (`flow_ordered`).
-/

namespace Plow.Devbuild

open List

/-! ### The run -/

namespace Program
variable (cx : Ctx) (p : Program)

def bump (e : StreamEnt) (c : ℕ) : ℕ :=
  if cx.signals e.inst && decide (c = e.inst) then 0 else (p.succsOf e).count c

def signalled (done : Finset (ℕ × ℕ)) (c : ℕ) : ℕ :=
  if cx.signals c && decide (∀ s < cx.slices c, (c, s) ∈ done) then cx.slices c else 0

def counter (done : Finset (ℕ × ℕ)) (c : ℕ) : ℕ :=
  ((p.gqStream.filter fun e => decide (e.place ∈ done)).map fun e => p.bump cx e c).sum +
    signalled cx done c

/-- the entries, by operation and slice -/
def flow : Lib.Gated (ℕ × ℕ) where
  items := (p.gqStream.map StreamEnt.place).toFinset
  enabled done x := ∀ e ∈ p.gqStream, e.place = x →
    (∀ f ∈ p.gqStream, f.seg < e.seg → f.place ∈ done) ∧
    (∀ f ∈ p.gqStream, f.seg = e.seg → cx.rawPairEdge e.inst f.inst = true → f.inst < e.inst →
      f.place ∈ done) ∧
    ∀ w ∈ p.waitsOf e, w.threshold ≤ p.counter cx done w.id

end Program

/-! ### The order of the slices -/

namespace Ctx
variable (cx : Ctx)

/-- `y` is done before `x` starts -/
def Ordered (y x : ℕ × ℕ) : Prop :=
  cx.Waits x y ∨ (y ∈ cx.places ∧ x ∈ cx.places ∧
    (cx.entSeg y.1 < cx.entSeg x.1 ∨
      cx.entSeg y.1 = cx.entSeg x.1 ∧ cx.rawPairEdge x.1 y.1 = true ∧ y.1 < x.1))

variable {cx} {x y : ℕ × ℕ} {nCu : ℕ}

theorem Ordered.places (h : cx.Ordered y x) : y ∈ cx.places ∧ x ∈ cx.places := by
  rcases h with ⟨hx, hy, -⟩ | ⟨hy, hx, -⟩
  · exact ⟨hy, hx⟩
  · exact ⟨hy, hx⟩

def bumps (cx : Ctx) (x : ℕ × ℕ) (c : ℕ) : ℕ :=
  if cx.signals x.1 && decide (c = x.1) then 0
  else (cx.ops[x.1]?.map fun op => (cx.entrySuccs x.1 op x.2).count c).getD 0

theorem slices_pos (h : cx.Placed nCu) {c : ℕ} {op : Op} (hop : cx.ops[c]? = some op) :
    0 < cx.slices c := by
  have hs : cx.slices c = op.cus.length := slicesOf_some hop
  rw [hs]
  exact length_pos_iff.mpr (h.formed c op hop).inhabited

theorem sum_indicator {α : Type} (l : List α) (f : α → ℕ) (P : α → Bool)
    (hf : ∀ x ∈ l, f x = if P x then 1 else 0) : (l.map f).sum = l.countP P := by
  induction l with
  | nil => rfl
  | cons x l ih =>
    rw [map_cons, sum_cons, hf x mem_cons_self,
      ih fun y hy => hf y (mem_cons_of_mem x hy), countP_cons, add_comm]

theorem countP_le_filter_iff {α : Type} (l : List α) (P Q : α → Bool) :
    l.countP P ≤ (l.filter Q).countP P ↔ ∀ x ∈ l, P x = true → Q x = true := by
  induction l with
  | nil => simp
  | cons x l ih =>
    have hle : (l.filter Q).countP P ≤ l.countP P := List.Sublist.countP_le filter_sublist
    rw [forall_mem_cons, ← ih, countP_cons, filter_cons]
    cases hQ : Q x with
    | true =>
      rw [if_pos rfl, countP_cons]
      simp
    | false =>
      cases hP : P x with
      | true =>
        simp
        omega
      | false => simp

/-- A counter at its threshold has seen everything that bumps it, and only then. -/
theorem counter_iff (h : cx.Placed nCu) (done : Finset (ℕ × ℕ)) {op : Op}
    (hop : cx.ops[x.1]? = some op) {w : Wait} (hw : w ∈ cx.entryWaits x.1 op x.2)
    (ht : w.threshold = cx.bumpers w.id) :
    w.threshold ≤ ((cx.places.filter fun y => decide (y ∈ done)).map fun y => cx.bumps y w.id).sum +
        Program.signalled cx done w.id ↔
      ∀ y ∈ cx.places, ∀ op', cx.ops[y.1]? = some op' → w.id ∈ cx.entrySuccs y.1 op' y.2 →
        y ∈ done := by
  have hcount : ∀ y ∈ cx.places, ∀ op', cx.ops[y.1]? = some op' →
      (cx.signals y.1 && decide (w.id = y.1)) = false →
      cx.bumps y w.id = if w.id ∈ cx.entrySuccs y.1 op' y.2 then 1 else 0 := by
    intro y _ op' hop' hno
    unfold bumps
    rw [hno, hop', ← count_succs h hop']
    rfl
  cases hsig : cx.signals w.id with
  | true =>
    -- a signalling router, whose slices add nothing to its counter
    have hlt : ∃ op', cx.ops[w.id]? = some op' := by
      unfold signals at hsig
      cases hw' : cx.ops[w.id]? with
      | none =>
        rw [hw'] at hsig
        cases hsig
      | some op' => exact ⟨op', rfl⟩
    obtain ⟨r, hr⟩ := hlt
    have hrl := (List.getElem?_eq_some_iff.mp hr).1
    rcases mem_fineWaits.mp (mem_entryWaits hw) with ⟨c, hd, hsame, rfl⟩ | ⟨p, map, hd, -, ps, -, rfl⟩
    · have hbump : ∀ (y : ℕ × ℕ) (op' : Op), cx.ops[y.1]? = some op' →
          (c ∈ cx.entrySuccs y.1 op' y.2 ↔ y.1 = c) := fun y op' hy => coarse_bumped h hop hd hsame hy
      have hzero : ((cx.places.filter fun y => decide (y ∈ done)).map fun y => cx.bumps y c).sum = 0 := by
        rw [sum_indicator _ _ (fun _ => false) fun y hy => ?_]
        · simp
        · obtain ⟨op', hop', -⟩ := mem_places.mp (mem_filter.mp hy).1
          show cx.bumps y c = 0
          by_cases hyc : y.1 = c
          · unfold bumps
            rw [hyc]
            change cx.signals c = true at hsig
            rw [hsig]
            simp
          · rw [hcount y (mem_filter.mp hy).1 op' hop' (by simp [Ne.symm hyc])]
            exact if_neg fun hc => hyc ((hbump y op' hop').mp hc)
      show cx.slices c ≤ _ + _ ↔ _
      rw [hzero, zero_add]
      change cx.ops[c]? = some r at hr
      have hpos := slices_pos h hr
      have hsl : cx.slices c = r.cus.length := slicesOf_some hr
      have hall : (∀ s < cx.slices c, (c, s) ∈ done) ↔
          ∀ y ∈ cx.places, ∀ op', cx.ops[y.1]? = some op' → c ∈ cx.entrySuccs y.1 op' y.2 →
            y ∈ done := by
        constructor
        · rintro hall ⟨yi, ys⟩ hy op' hop' hc
          have hyc : yi = c := (hbump _ op' hop').mp hc
          subst hyc
          obtain ⟨op2, hop2, hlt⟩ := mem_places.mp hy
          rw [hr] at hop2
          cases hop2
          exact hall ys (hsl ▸ hlt)
        · intro hall s hs
          exact hall (c, s) (mem_places.mpr ⟨r, hr, hsl ▸ hs⟩) r hr ((hbump _ r hr).mpr rfl)
      rw [← hall]
      unfold Program.signalled
      change cx.signals c = true at hsig
      by_cases hdone : ∀ s < cx.slices c, (c, s) ∈ done
      · rw [hsig, decide_eq_true hdone]
        exact ⟨fun _ => hdone, fun _ => le_refl _⟩
      · rw [hsig, decide_eq_false hdone]
        exact ⟨fun hle => absurd hle (by simpa using hpos.ne'), fun hd => absurd hd hdone⟩
    · -- the counter of a router is not a fine one
      exfalso
      obtain ⟨base, hbase⟩ := Option.isSome_iff_exists.mp
        (h.based op (mem_of_getElem? hop) _ hd rfl)
      have := h.low p base hbase
      rw [show cx.fineBase p = some base from hbase] at hrl
      change base + ps < _ at hrl
      omega
  | false =>
    let P : ℕ × ℕ → Bool := fun y =>
      ((cx.ops[y.1]?).map fun op' => decide (w.id ∈ cx.entrySuccs y.1 op' y.2)).getD false
    have hP : ∀ y op', cx.ops[y.1]? = some op' → (w.id ∈ cx.entrySuccs y.1 op' y.2 ↔ P y = true) := by
      intro y op' hop'
      show _ ↔ ((cx.ops[y.1]?).map fun op' => decide (w.id ∈ cx.entrySuccs y.1 op' y.2)).getD false = true
      rw [hop']
      exact decide_eq_true_iff.symm
    have hsum : ((cx.places.filter fun y => decide (y ∈ done)).map fun y => cx.bumps y w.id).sum =
        (cx.places.filter fun y => decide (y ∈ done)).countP P := by
      refine sum_indicator _ _ P fun y hy => ?_
      have hy := (mem_filter.mp hy).1
      obtain ⟨op', hop', -⟩ := mem_places.mp hy
      rw [hcount y hy op' hop' ?_]
      · exact if_congr (hP y op' hop') rfl rfl
      · by_cases hyc : w.id = y.1
        · rw [← hyc, hsig]
          rfl
        · simp [hyc]
    have hzero : Program.signalled cx done w.id = 0 := by
      unfold Program.signalled
      rw [hsig]
      rfl
    rw [hsum, hzero, add_zero, ht,
      bumpers_eq h P fun y op' _ hop' => hP y op' hop', countP_le_filter_iff]
    constructor
    · intro hall y hy op' hop' hc
      exact of_decide_eq_true (hall y hy ((hP y op' hop').mp hc))
    · intro hall y hy hPy
      obtain ⟨op', hop', -⟩ := mem_places.mp hy
      exact decide_eq_true (hall y hy op' hop' ((hP y op' hop').mpr hPy))

end Ctx

/-! ### A finished program -/

namespace Queued
variable {cx : Ctx} {rank : ℕ → ℕ} {p : Program} {nCu : ℕ} {x y : ℕ × ℕ}

theorem mem_items (h : Queued cx rank p) : x ∈ (p.flow cx).items ↔ x ∈ cx.places := by
  show x ∈ (p.gqStream.map StreamEnt.place).toFinset ↔ _
  rw [mem_toFinset]
  exact h.perm.mem_iff

theorem counter_eq (h : Queued cx rank p) (done : Finset (ℕ × ℕ)) (c : ℕ) : p.counter cx done c =
      ((cx.places.filter fun y => decide (y ∈ done)).map fun y => cx.bumps y c).sum +
        Program.signalled cx done c := by
  unfold Program.counter
  congr 1
  have hbump : ∀ e ∈ p.gqStream, p.bump cx e c = cx.bumps e.place c := by
    intro e he
    obtain ⟨op, hop, -, hs, -⟩ := h.entry e he
    unfold Program.bump Ctx.bumps
    rw [hs]
    show _ = if cx.signals e.inst && decide (c = e.inst) then 0
      else (cx.ops[e.inst]?.map fun op => (cx.entrySuccs e.inst op e.slice).count c).getD 0
    rw [hop]
    rfl
  have hperm := (h.perm.filter fun y => decide (y ∈ done)).map fun y => cx.bumps y c
  rw [filter_map, map_map] at hperm
  rw [← hperm.sum_eq]
  congr 1
  apply map_congr_left
  intro e he
  exact hbump e (mem_filter.mp he).1

theorem flow_respects (h : Queued cx rank p) (hs : cx.Placed nCu) :
    (p.flow cx).Respects cx.Ordered := by
  intro done _ x hx hen y hy
  rw [h.mem_items] at hx
  obtain ⟨op, hop, hlt⟩ := Ctx.mem_places.mp hx
  obtain ⟨e, he, rfl⟩ := mem_map.mp (h.perm.symm.subset hx)
  obtain ⟨hseg, hpair, hwait⟩ := hen e he rfl
  obtain ⟨op2, hop2, hw, -, -⟩ := h.entry e he
  have hop' : cx.ops[e.inst]? = some op := hop
  rw [hop'] at hop2
  cases hop2
  rcases hy with ⟨-, hyp, opx, opy, hopx, hopy, w, hwx, hwy⟩ | ⟨hyp, -, hcase⟩
  · rw [hop] at hopx
    cases hopx
    obtain ⟨_, hopy2, hyl⟩ := Ctx.mem_places.mp hyp
    rw [hopy] at hopy2
    cases hopy2
    have hle := hwait w (hw ▸ hwx)
    rw [h.counter_eq] at hle
    have ht := Ctx.threshold_of_bumped hs hop hwx hopy hyl hwy
    exact (Ctx.counter_iff hs done hop hwx ht).mp hle y hyp opy hopy hwy
  · obtain ⟨f, hf, rfl⟩ := mem_map.mp (h.perm.symm.subset hyp)
    rcases hcase with hcase | ⟨hcase, hedge, hlt⟩
    · refine hseg f hf ?_
      rw [h.seg e he, h.seg f hf]
      exact hcase
    · refine hpair f hf ?_ hedge hlt
      rw [h.seg e he, h.seg f hf]
      exact hcase

theorem flow_ordered (h : Queued cx rank p) (hs : cx.Sound nCu) :
    (p.flow cx).OrderedBy cx.Ordered := by
  intro done hd x hx
  refine ⟨h.flow_respects hs.toPlaced done hd x hx, ?_⟩
  rw [h.mem_items] at hx
  obtain ⟨op, hop, hlt⟩ := Ctx.mem_places.mp hx
  intro hdone e he hex
  subst hex
  obtain ⟨op2, hop2, hw, -, -⟩ := h.entry e he
  have hop' : cx.ops[e.inst]? = some op := hop
  rw [hop'] at hop2
  cases hop2
  have hplace : ∀ f ∈ p.gqStream, f.place ∈ cx.places := fun f hf =>
    h.perm.subset (mem_map_of_mem hf)
  refine ⟨fun f hf hseg => ?_, fun f hf hseg hedge hlt => ?_, fun w hwm => ?_⟩
  · rw [h.seg e he, h.seg f hf] at hseg
    exact hdone _ (Or.inr ⟨hplace f hf, hx, Or.inl hseg⟩)
  · rw [h.seg e he, h.seg f hf] at hseg
    exact hdone _ (Or.inr ⟨hplace f hf, hx, Or.inr ⟨hseg, hedge, hlt⟩⟩)
  · rw [hw] at hwm
    rw [h.counter_eq]
    have ht := Ctx.threshold_eq hs hop hlt hwm
    exact (Ctx.counter_iff hs.toPlaced done hop hwm ht).mpr fun y hy op' hop' hc =>
      hdone y (Or.inl ⟨hx, hy, op, op', hop, hop', w, hwm, hc⟩)

end Queued

end Plow.Devbuild
