import Plow.Devbuild.Flatten

/-!
# The operations of a builder

What holds of the operations of every builder (`Reach.formed`) and what the passes of `finish` keep
of it: an operation bumps the counter of its position, runs on compute units of the machine and
depends on operations before it.
-/

namespace Plow.Devbuild

open List Option

structure Op.Formed (nCu i : ℕ) (op : Op) : Prop where
  counter : op.counter = i
  inhabited : op.cus ≠ []
  cus_lt : ∀ cu ∈ op.cus, cu < nCu
  dep_lt : ∀ d ∈ op.deps, d.producer < i
  fits : ∀ d ∈ op.deps, d.Fits op.cus.length

def Formed (nCu : ℕ) (ops : List Op) : Prop :=
  ∀ i, ∀ op : Op, ops[i]? = some op → op.Formed nCu i

variable {nCu i : ℕ} {ops : List Op} {op : Op}

theorem Op.Formed.congr {x : Op} (h : op.Formed nCu i)
    (hx : x.cus = op.cus ∧ x.deps = op.deps ∧ x.counter = op.counter) : x.Formed nCu i := by
  obtain ⟨hcus, hdeps, hcounter⟩ := hx
  refine ⟨hcounter.trans h.counter, hcus ▸ h.inhabited, hcus ▸ h.cus_lt, hdeps ▸ h.dep_lt, ?_⟩
  rw [hdeps, hcus]
  exact h.fits

theorem Formed.nil : Formed nCu [] := by
  intro i op h
  simp at h

theorem Formed.push (h : Formed nCu ops) (hop : op.Formed nCu ops.length) :
    Formed nCu (ops ++ [op]) := by
  intro i x hx
  rcases Nat.lt_trichotomy i ops.length with hi | rfl | hi
  · rw [getElem?_append_left hi] at hx
    exact h i x hx
  · rw [getElem?_concat_length] at hx
    cases hx
    exact hop
  · rw [getElem?_eq_none (by simp; omega)] at hx
    cases hx

theorem Formed.take (h : Formed nCu ops) (n : ℕ) : Formed nCu (ops.take n) := by
  intro i x hx
  rw [getElem?_take] at hx
  split at hx
  · exact h i x hx
  · cases hx

theorem Formed.modify (h : Formed nCu ops) {c : ℕ} {f : Op → Op}
    (hf : ∀ x : Op, x.Formed nCu c → (f x).Formed nCu c) : Formed nCu (ops.modify c f) := by
  intro i x hx
  rw [getElem?_modify] at hx
  obtain ⟨y, hy, rfl⟩ := map_eq_some_iff.mp hx
  split
  next hci =>
    subst hci
    exact hf y (h _ y hy)
  next => exact h i y hy

theorem Formed.mapIdx (h : Formed nCu ops) {f : Op × ℕ → Op}
    (hf : ∀ x : Op, ∀ i, x.Formed nCu i → (f (x, i)).Formed nCu i) :
    Formed nCu (ops.zipIdx.map f) := by
  intro i x hx
  rw [getElem?_map, getElem?_zipIdx, Nat.zero_add] at hx
  obtain ⟨p, hp, rfl⟩ := map_eq_some_iff.mp hx
  obtain ⟨y, hy, rfl⟩ := map_eq_some_iff.mp hp
  exact hf y i (h i y hy)

/-! ### Builders -/

/-- The builders that a sequence of calls makes, dependencies naming earlier operations. -/
inductive Reach : Builder → Prop where
  | new (nCu : ℕ) (opts : Options) : Reach (.new nCu opts)
  | emit {b b' : Builder} {c op : ℕ} {cus deps : List ℕ} {f : DevInst → DevInst} (h : Reach b)
      (earlier : ∀ d ∈ deps, d < b.ops.length) (he : b.emit op cus deps f = some (b', c)) :
      Reach b'
  | emitDep {b b' : Builder} {c op : ℕ} {cus : List ℕ} {deps : List Dep} {f : DevInst → DevInst}
      (h : Reach b) (earlier : ∀ d ∈ deps, d.producer < b.ops.length)
      (he : b.emitDep op cus deps f = some (b', c)) : Reach b'
  | emitDepWork {b b' : Builder} {c op : ℕ} {cus work : List ℕ} {deps : List Dep}
      {f : DevInst → DevInst} (h : Reach b) (earlier : ∀ d ∈ deps, d.producer < b.ops.length)
      (he : b.emitDepWork op cus deps work f = some (b', c)) : Reach b'
  | repeat {b b' : Builder} {c counter : ℕ} {deps : List Dep} {f : DevInst → DevInst}
      (h : Reach b) (earlier : ∀ d ∈ deps, d.producer < b.ops.length)
      (he : b.repeat counter deps f = some (b', c)) : Reach b'
  | isolate {b b' : Builder} {counter : ℕ} (h : Reach b) (he : b.isolate counter = some b') :
      Reach b'
  | gqHoist {b b' : Builder} {counter : ℕ} (h : Reach b) (he : b.gqHoist counter = some b') :
      Reach b'
  | keepSingleGrid {b b' : Builder} {counter : ℕ} (h : Reach b)
      (he : b.keepSingleGrid counter = some b') : Reach b'
  | patch {b b' : Builder} {counter : ℕ} {f : DevInst → DevInst} (h : Reach b)
      (he : b.patch counter f = some b') : Reach b'
  | truncateOps {b : Builder} (n : ℕ) (h : Reach b) : Reach (b.truncateOps n)
  | hostJoin {b : Builder} (h : Reach b) : Reach b.hostJoin
  | setOptions {b : Builder} (opts : Options) (h : Reach b) : Reach (b.setOptions opts)

namespace Builder
variable {b b' : Builder} {c : ℕ} {cus : List ℕ} {deps : List Dep} {f : DevInst → DevInst}

theorem wrapped_lt (hn : cus.any (b.nCu ≤ ·) → b.nCu ≠ 0) : ∀ cu ∈ b.wrapped cus, cu < b.nCu := by
  intro cu hcu
  unfold wrapped at hcu
  split at hcu
  next h =>
    obtain ⟨x, -, rfl⟩ := List.mem_map.mp hcu
    exact Nat.mod_lt _ (Nat.pos_of_ne_zero (hn h))
  next h =>
    by_contra hge
    exact h (List.any_eq_true.mpr ⟨cu, hcu, by simpa using hge⟩)

theorem wrapped_ne (h : cus ≠ []) : b.wrapped cus ≠ [] := by
  unfold wrapped
  split
  · simpa using h
  · exact h

theorem placed_eq (b : Builder) (cus : List ℕ) (deps : List Dep) :
    ∃ n, b.placed cus deps = (b.wrapped cus).take n ∧ 0 < n := by
  unfold placed
  generalize b.wrapped cus = l
  split
  next k _ =>
    simp only
    split
    · exact ⟨max k 64, rfl, by omega⟩
    · exact ⟨l.length + 1, (take_of_length_le (Nat.le_succ _)).symm, Nat.succ_pos _⟩
  next => exact ⟨l.length + 1, (take_of_length_le (Nat.le_succ _)).symm, Nat.succ_pos _⟩

theorem placed_lt (hn : cus.any (b.nCu ≤ ·) → b.nCu ≠ 0) : ∀ cu ∈ b.placed cus deps, cu < b.nCu := by
  intro cu hcu
  obtain ⟨n, h, -⟩ := placed_eq b cus deps
  rw [h] at hcu
  exact wrapped_lt hn cu (mem_of_mem_take hcu)

theorem placed_ne (h : cus ≠ []) : b.placed cus deps ≠ [] := by
  obtain ⟨n, hn, hpos⟩ := placed_eq b cus deps
  rw [hn]
  intro hnil
  rcases take_eq_nil_iff.mp hnil with h0 | h0
  · omega
  · exact wrapped_ne h h0

theorem formed_push (inst : DevInst) (h : Formed b.nCu b.ops) (hne : cus ≠ [])
    (hlt : ∀ cu ∈ cus, cu < b.nCu) (hdep : ∀ d ∈ deps, d.producer < b.ops.length)
    (hfits : ∀ d ∈ deps, d.Fits cus.length) : Formed b.nCu (b.push inst cus deps).ops :=
  Formed.push h ⟨rfl, hne, hlt, hdep, hfits⟩

theorem emitDep_spec {op : ℕ} (h : Formed b.nCu b.ops)
    (hdep : ∀ d ∈ deps, d.producer < b.ops.length) (he : b.emitDep op cus deps f = some (b', c)) :
    b'.nCu = b.nCu ∧ Formed b.nCu b'.ops ∧
      ∃ new, b'.ops = b.ops ++ new ∧ ∀ x ∈ new, x.cus = b.placed cus deps := by
  unfold emitDep at he
  simp only [bind_eq_bind, bind_eq_some_iff, guard_eq_some'] at he
  obtain ⟨⟨⟩, hne, ⟨⟩, hn, ⟨⟩, hfits, ⟨⟩, -, he⟩ := he
  have h1 := formed_push (f (blank op (b.placed cus deps).length)) h (placed_ne hne)
    (placed_lt hn) hdep hfits
  split at he
  · cases he
    refine ⟨rfl, ?_, _, append_assoc .., ?_⟩
    · refine formed_push _ h1 (placed_ne hne) (placed_lt hn) ?_ ?_
      · intro d hd
        rw [mem_singleton.mp hd]
        show b.ops.length < (b.ops ++ [_]).length
        simp
      · intro d hd
        rw [mem_singleton.mp hd]
        trivial
    · intro x hx
      rcases mem_cons.mp hx with rfl | hx
      · rfl
      · rw [mem_singleton.mp hx]
  · cases he
    refine ⟨rfl, h1, _, rfl, ?_⟩
    intro x hx
    rw [mem_singleton.mp hx]

theorem modifyOp_formed {g : Op → Op} (he : b.modifyOp c g = some b') (h : Formed b.nCu b.ops)
    (hg : ∀ x, (g x).cus = x.cus ∧ (g x).deps = x.deps ∧ (g x).counter = x.counter) :
    Formed b'.nCu b'.ops := by
  unfold modifyOp at he
  split at he
  · cases he
    exact h.modify fun x hx => hx.congr (hg x)
  · cases he

end Builder

theorem Reach.formed {b : Builder} (h : Reach b) : Formed b.nCu b.ops := by
  induction h with
  | new nCu opts => exact Formed.nil
  | @emit b b' c op cus deps f _ earlier he ih =>
    have hdep : ∀ d ∈ deps.map Dep.coarse, d.producer < b.ops.length := by
      intro d hd
      obtain ⟨x, hx, rfl⟩ := List.mem_map.mp hd
      exact earlier x hx
    obtain ⟨hn, hf, -⟩ := Builder.emitDep_spec ih hdep he
    rw [hn]
    exact hf
  | emitDep _ earlier he ih =>
    obtain ⟨hn, hf, -⟩ := Builder.emitDep_spec ih earlier he
    rw [hn]
    exact hf
  | emitDepWork _ earlier he ih =>
    unfold Builder.emitDepWork at he
    simp only [bind_eq_bind, bind_eq_some_iff, guard_eq_some'] at he
    obtain ⟨⟨⟩, -, ⟨b1, c1⟩, he1, b2, he2, he⟩ := he
    cases he
    obtain ⟨hn, hf, -⟩ := Builder.emitDep_spec ih earlier he1
    exact Builder.modifyOp_formed he2 (hn ▸ hf) fun _ => ⟨rfl, rfl, rfl⟩
  | «repeat» _ earlier he ih =>
    unfold Builder.repeat at he
    simp only [bind_eq_bind, bind_eq_some_iff] at he
    obtain ⟨src, -, ⟨b1, c1⟩, he1, b2, he2, he⟩ := he
    cases he
    obtain ⟨hn, hf, -⟩ := Builder.emitDep_spec ih earlier he1
    exact Builder.modifyOp_formed he2 (hn ▸ hf) fun _ => ⟨rfl, rfl, rfl⟩
  | isolate _ he ih =>
    exact Builder.modifyOp_formed he ih fun _ => ⟨rfl, rfl, rfl⟩
  | gqHoist _ he ih =>
    exact Builder.modifyOp_formed he ih fun _ => ⟨rfl, rfl, rfl⟩
  | keepSingleGrid _ he ih =>
    unfold Builder.keepSingleGrid at he
    simp only [bind_eq_bind, bind_eq_some_iff, guard_eq_some'] at he
    obtain ⟨op, -, ⟨⟩, -, he⟩ := he
    exact Builder.modifyOp_formed he ih fun _ => ⟨rfl, rfl, rfl⟩
  | patch _ he ih =>
    exact Builder.modifyOp_formed he ih fun _ => ⟨rfl, rfl, rfl⟩
  | truncateOps n _ ih => exact ih.take n
  | hostJoin _ ih => exact ih
  | setOptions opts _ ih => exact ih

end Plow.Devbuild
