import Plow.NnGraph.Op

/-!
# A dimension is a polynomial

`Dim.poly` is a ring's view of the normal form: each operation on dimensions is the operation on
polynomials, binding is evaluation (`poly_substitute`), and the normal form is unique (`poly_inj`).
-/

namespace Plow.NnGraph
open Lib MvPolynomial List

noncomputable section

/-! ### Monomials -/

def Vars.poly (vs : Vars) : MvPolynomial ℕ ℤ := (vs.map fun v => X v.id ^ v.pow).prod

def Vars.expo (vs : Vars) : ℕ →₀ ℕ := (vs.map fun v => Finsupp.single v.id v.pow).sum

theorem Vars.poly_eq (vs : Vars) : vs.poly = monomial vs.expo 1 := by
  induction vs with
  | nil => rfl
  | cons v vs ih =>
    unfold Vars.poly Vars.expo at *
    rw [map_cons, prod_cons, ih, map_cons, sum_cons, X_pow_eq_monomial,
      monomial_mul, one_mul]

theorem addVar_poly (vs : Vars) (v : Var) : Vars.poly (addVar vs v) = vs.poly * X v.id ^ v.pow := by
  unfold Vars.poly
  induction vs with
  | nil => simp [addVar]
  | cons u us ih =>
    unfold addVar
    split
    · next heq =>
      have h1 : Var.id (toLex (u.id, u.pow + v.pow)) = u.id := rfl
      have h2 : Var.pow (toLex (u.id, u.pow + v.pow)) = u.pow + v.pow := rfl
      rw [map_cons, prod_cons, h1, h2, map_cons, prod_cons, pow_add, ← heq]
      ring
    · rw [map_cons, prod_cons, ih, map_cons, prod_cons, mul_assoc]

theorem Vars.mul_poly (vs ws : Vars) : (vs.mul ws).poly = vs.poly * ws.poly := by
  have hloop : ∀ (ws vs : Vars), Vars.poly (ws.foldl addVar vs) = vs.poly * ws.poly := by
    intro ws
    induction ws with
    | nil => intro vs; simp [Vars.poly]
    | cons w ws ih =>
      intro vs
      have hcons : Vars.poly (w :: ws) = X w.id ^ w.pow * Vars.poly ws := by
        rw [Vars.poly, map_cons, prod_cons]
        rfl
      rw [foldl_cons, ih, addVar_poly, hcons, mul_assoc]
  have hperm := (perm_insertionSort (fun a b : Var => a.id ≤ b.id) (ws.foldl addVar vs)).map
    fun v => (X v.id ^ v.pow : MvPolynomial ℕ ℤ)
  exact hperm.prod_eq.trans (hloop ws vs)

/-- the powers of a product are what its variables say -/
theorem Vars.Ok.mem_iff {vs : Vars} (h : vs.Ok) (v : Var) :
    v ∈ vs ↔ 0 < v.pow ∧ vs.expo v.id = v.pow := by
  have hout : ∀ (vs : Vars) (i : ℕ), (∀ v ∈ vs, v.id ≠ i) → vs.expo i = 0 := by
    intro vs i
    induction vs with
    | nil => exact fun _ => rfl
    | cons u us ih =>
      intro hne
      have hu : Finsupp.single u.id u.pow i = 0 :=
        Finsupp.single_eq_of_ne (Ne.symm (hne u mem_cons_self))
      have := ih fun x hx => hne x (mem_cons_of_mem _ hx)
      unfold Vars.expo at *
      rw [map_cons, sum_cons, Finsupp.add_apply, hu, this]
  induction vs with
  | nil =>
    constructor
    · exact fun h => nomatch h
    · rintro ⟨hpos, heq⟩
      have : v.pow = 0 := heq.symm
      omega
  | cons u us ih =>
    obtain ⟨hlt, hus⟩ := pairwise_cons.mp h.sorted
    have hok : Vars.Ok us := ⟨hus, fun w hw => h.pos w (mem_cons_of_mem _ hw)⟩
    have hexpo : ∀ i, Vars.expo (u :: us) i = Finsupp.single u.id u.pow i + Vars.expo us i := by
      intro i
      unfold Vars.expo
      rw [map_cons, sum_cons, Finsupp.add_apply]
    rw [mem_cons, hexpo]
    by_cases hid : u.id = v.id
    · have hrest : Vars.expo us v.id = 0 := by
        refine hout us v.id fun w hw heq => ?_
        exact absurd (hlt w hw) (by rw [hid, heq]; exact lt_irrefl _)
      rw [hid, Finsupp.single_eq_same, hrest, add_zero]
      constructor
      · rintro (rfl | hv)
        · exact ⟨h.pos v mem_cons_self, rfl⟩
        · exact absurd (hlt v hv) (by rw [hid]; exact lt_irrefl _)
      · rintro ⟨-, heq⟩
        refine Or.inl ?_
        exact ofLex_inj.mp (Prod.ext hid.symm heq.symm)
    · rw [Finsupp.single_eq_of_ne (Ne.symm hid), zero_add]
      refine Iff.trans ?_ (ih hok)
      constructor
      · rintro (rfl | hv)
        · exact absurd rfl hid
        · exact hv
      · exact Or.inr

theorem Vars.expo_inj {vs ws : Vars} (hv : vs.Ok) (hw : ws.Ok) (h : vs.expo = ws.expo) : vs = ws := by
  refine sorted_ext (r := fun a b : Var => a.id < b.id) (fun _ => lt_irrefl _)
    (fun _ _ h => Nat.lt_asymm h) hv.sorted hw.sorted ?_
  intro v
  rw [hv.mem_iff, hw.mem_iff, h]

/-! ### Dimensions -/

namespace Dim

def termPoly (k : Vars) (c : ℤ) : MvPolynomial ℕ ℤ := C c * k.poly

def poly (d : Dim) : MvPolynomial ℕ ℤ := (d.monomials.map fun m => termPoly m.1 m.2).sum

theorem poly_canonicalize (terms : List Monomial) (h : ∀ m ∈ terms, Vars.Ok m.1) :
    (canonicalize terms h).poly = (terms.map fun m => termPoly m.1 m.2).sum := by
  refine collect_sum (fun k => ?_) (fun k a b => ?_) terms
  · rw [termPoly, C_0, zero_mul]
  · rw [termPoly, C_add, add_mul]
    rfl

theorem termPoly_eq (k : Vars) (c : ℤ) : termPoly k c = monomial k.expo c := by
  rw [termPoly, Vars.poly_eq, C_mul_monomial, mul_one]

/-- a monomial's coefficient is the polynomial's -/
theorem coeff_poly (d : Dim) {m : Monomial} (hm : m ∈ d.monomials) : coeff m.1.expo d.poly = m.2 := by
  have hsum : ∀ (ms : List Monomial), ms.Pairwise (fun a b => a.1 < b.1) →
      (∀ n ∈ ms, Vars.Ok n.1) → ∀ e, coeff e (ms.map fun m => termPoly m.1 m.2).sum =
        ((ms.find? fun n => n.1.expo = e).map Prod.snd).getD 0 := by
    intro ms
    induction ms with
    | nil => exact fun _ _ e => coeff_zero e
    | cons n ms ih =>
      intro hs hok e
      obtain ⟨hlt, hs⟩ := pairwise_cons.mp hs
      rw [map_cons, sum_cons, coeff_add, termPoly_eq, coeff_monomial,
        ih hs (fun x hx => hok x (mem_cons_of_mem _ hx)), find?_cons]
      by_cases hn : n.1.expo = e
      · have hnone : ms.find? (fun x => x.1.expo = e) = none := by
          refine find?_eq_none.mpr fun x hx hxe => ?_
          have hxe : x.1.expo = e := of_decide_eq_true hxe
          have heq := Vars.expo_inj (hok x (mem_cons_of_mem _ hx))
            (hok n mem_cons_self) (hxe.trans hn.symm)
          exact absurd (hlt x hx) (heq ▸ lt_irrefl _)
        rw [if_pos hn, hnone, decide_eq_true hn]
        exact add_zero _
      · rw [if_neg hn, decide_eq_false hn, zero_add]
  rw [poly, hsum d.monomials d.sorted d.vars]
  have hfind : d.monomials.find? (fun n => n.1.expo = m.1.expo) = some m := by
    obtain ⟨n, hn⟩ : ∃ n, d.monomials.find? (fun n => n.1.expo = m.1.expo) = some n :=
      Option.isSome_iff_exists.mp (find?_isSome.mpr ⟨m, hm, decide_eq_true rfl⟩)
    have hmem := mem_of_find?_eq_some hn
    have hexp := find?_some hn
    have heq := Vars.expo_inj (d.vars n hmem) (d.vars m hm) (of_decide_eq_true hexp)
    have hnd : (d.monomials.map Prod.fst).Nodup :=
      pairwise_map.mpr (d.sorted.imp fun h => ne_of_lt h)
    rw [hn, inj_on_of_nodup_map hnd hmem hm heq]
  rw [hfind]
  rfl

theorem mem_of_coeff (d : Dim) {e : ℕ →₀ ℕ} (h : coeff e d.poly ≠ 0) :
    ∃ m ∈ d.monomials, m.1.expo = e := by
  by_contra hn
  refine h ?_
  have hall : ∀ m ∈ d.monomials, m.1.expo ≠ e := fun m hm heq => hn ⟨m, hm, heq⟩
  unfold poly
  generalize d.monomials = ms at hall
  induction ms with
  | nil => exact coeff_zero e
  | cons n ms ih =>
    rw [map_cons, sum_cons, coeff_add, termPoly_eq, coeff_monomial,
      if_neg (hall n mem_cons_self), zero_add]
    exact ih fun m hm => hall m (mem_cons_of_mem _ hm)

theorem poly_inj {a b : Dim} (h : a.poly = b.poly) : a = b := by
  have hsub : ∀ {a b : Dim}, a.poly = b.poly → ∀ m ∈ a.monomials, m ∈ b.monomials := by
    intro a b h m hm
    have hc := a.coeff_poly hm
    rw [h] at hc
    obtain ⟨n, hn, he⟩ := b.mem_of_coeff (hc ▸ a.ne_zero m hm)
    have hv := Vars.expo_inj (b.vars n hn) (a.vars m hm) he
    have hcn := b.coeff_poly hn
    rw [he, hc] at hcn
    have heq : n = m := Prod.ext hv hcn.symm
    exact heq ▸ hn
  refine Dim.ext (sorted_ext (r := fun a b : Monomial => a.1 < b.1) (fun _ => lt_irrefl _)
    (fun _ _ h => lt_asymm h) a.sorted b.sorted ?_)
  exact fun t => ⟨hsub h t, hsub h.symm t⟩

/-! ### The operations -/

theorem poly_stat (n : ℤ) : (stat n).poly = C n := by
  unfold poly stat
  simp only
  split
  · next h =>
    rw [h, C_0]
    rfl
  · exact (add_zero _).trans (mul_one _)

theorem poly_add (a b : Dim) : (a.add b).poly = a.poly + b.poly := by
  rw [add, poly_canonicalize, map_append, sum_append]
  rfl

theorem poly_sub (a b : Dim) : (a.sub b).poly = a.poly - b.poly := by
  have hneg : ((b.monomials.map fun m => (m.1, -m.2)).map fun m => termPoly m.1 m.2).sum =
      -b.poly := by
    unfold poly
    induction b.monomials with
    | nil => exact neg_zero.symm
    | cons m ms ih =>
      rw [map_cons, map_cons, sum_cons, ih, map_cons, sum_cons, neg_add,
        termPoly, termPoly, map_neg, neg_mul]
  rw [sub, poly_canonicalize, map_append, sum_append, hneg, ← sub_eq_add_neg]
  rfl

theorem poly_mul (a b : Dim) : (a.mul b).poly = a.poly * b.poly := by
  have hterm : ∀ m n : Monomial, termPoly (m.1.mul n.1) (m.2 * n.2) =
      termPoly m.1 m.2 * termPoly n.1 n.2 := by
    intro m n
    rw [termPoly, termPoly, termPoly, C_mul, Vars.mul_poly]
    ring
  have hrow : ∀ m : Monomial,
      ((b.monomials.map fun n => (m.1.mul n.1, m.2 * n.2)).map fun t => termPoly t.1 t.2).sum =
        termPoly m.1 m.2 * b.poly := by
    intro m
    unfold poly
    induction b.monomials with
    | nil => exact (mul_zero _).symm
    | cons n ns ih =>
      rw [map_cons, map_cons, sum_cons, ih, hterm, map_cons, sum_cons,
        mul_add]
  rw [mul, poly_canonicalize, map_flatMap]
  unfold poly
  induction a.monomials with
  | nil => exact (zero_mul _).symm
  | cons m ms ih =>
    rw [flatMap_cons, sum_append, ih, hrow, map_cons, sum_cons, add_mul]
    rfl

def binding (values : Values) : MvPolynomial ℕ ℤ →ₐ[ℤ] MvPolynomial ℕ ℤ :=
  aeval fun i => match values i with
    | some x => C x
    | none => X i

theorem binding_C (values : Values) (c : ℤ) : binding values (C c) = C c :=
  (binding values).commutes c

theorem binding_X (values : Values) (i : ℕ) : binding values (X i) = match values i with
    | some x => C x
    | none => X i := aeval_X _ _

theorem binding_term (values : Values) (vs : Vars) (c : ℤ) :
    binding values (termPoly vs c) = C c * binding values vs.poly := by
  rw [termPoly, map_mul, binding_C]

theorem bindVars_poly (values : Values) (vs : Vars) (c : ℤ) :
    termPoly (bindVars values vs c).1 (bindVars values vs c).2 =
      binding values (termPoly vs c) := by
  have hcons : ∀ (v : Var) (vs : Vars) (c : ℤ),
      termPoly (v :: vs) c = X v.id ^ v.pow * termPoly vs c := by
    intro v vs c
    rw [termPoly, termPoly, Vars.poly, map_cons, prod_cons]
    exact mul_left_comm _ _ _
  induction vs generalizing c with
  | nil =>
    show termPoly [] c = _
    rw [binding_term]
    exact congrArg (C c * ·) (map_one _).symm
  | cons v vs ih =>
    unfold bindVars
    rw [hcons, map_mul, map_pow, binding_X]
    cases hx : values v.id with
    | some x =>
      simp only
      rw [ih, binding_term, binding_term, C_mul, C_pow]
      ring
    | none =>
      simp only
      rw [hcons, ih]

theorem poly_substitute (d : Dim) (values : Values) :
    (d.substitute values).poly = binding values d.poly := by
  rw [substitute, poly_canonicalize, map_map, poly, map_list_sum, map_map]
  refine congrArg List.sum (map_congr_left fun m _ => ?_)
  exact bindVars_poly values m.1 m.2

theorem poly_divStatic {a q : Dim} {d : ℤ} (h : a.divStatic d = some q) :
    d ≠ 0 ∧ C d * q.poly = a.poly := by
  unfold divStatic at h
  split at h
  · cases h
  · next hd =>
    split at h
    · cases h
    · next hdiv =>
      cases h
      refine ⟨hd, ?_⟩
      have hall : ∀ m ∈ a.monomials, d * m.2.tdiv d = m.2 := fun m hm => by
        refine Int.mul_tdiv_cancel_of_dvd (Int.dvd_of_tmod_eq_zero ?_)
        by_contra hne
        exact hdiv (any_eq_true.mpr ⟨m, hm, decide_eq_true hne⟩)
      rw [poly_canonicalize, poly]
      generalize a.monomials = ms at hall
      induction ms with
      | nil => exact mul_zero _
      | cons m ms ih =>
        rw [map_cons, map_cons, sum_cons, map_cons, sum_cons, mul_add,
          ih fun n hn => hall n (mem_cons_of_mem _ hn)]
        have hm : C d * termPoly m.1 (m.2.tdiv d) = termPoly m.1 m.2 := by
          rw [termPoly, termPoly, ← mul_assoc, ← C_mul, hall m mem_cons_self]
        rw [hm]

/-! ### Values -/

def value (v : ℕ → ℤ) (d : Dim) : ℤ := eval v d.poly

theorem value_eq (v : ℕ → ℤ) (d : Dim) : d.value v =
    (d.monomials.map fun m => m.2 * (m.1.map fun x => v x.id ^ x.pow).prod).sum := by
  rw [value, poly, map_list_sum, map_map]
  refine congrArg List.sum (map_congr_left fun m _ => ?_)
  show eval v (C m.2 * m.1.poly) = _
  rw [map_mul, eval_C, Vars.poly, map_list_prod, map_map]
  refine congrArg (fun l : List ℤ => m.2 * l.prod) (map_congr_left fun x _ => ?_)
  show eval v (X x.id ^ x.pow) = _
  rw [map_pow, eval_X]

theorem value_sub (v : ℕ → ℤ) (a b : Dim) : (a.sub b).value v = a.value v - b.value v := by
  rw [value, poly_sub, map_sub]
  rfl

theorem vars_pos {v : ℕ → ℤ} (hv : ∀ i, 0 < v i) (vs : Vars) :
    0 < (vs.map fun x => v x.id ^ x.pow).prod := by
  induction vs with
  | nil => exact Int.one_pos
  | cons x vs ih =>
    rw [map_cons, prod_cons]
    exact Int.mul_pos (Int.pow_pos (hv _)) ih

theorem sum_map_neg {α : Type} (l : List α) (f : α → ℤ) :
    (l.map fun a => -f a).sum = -(l.map f).sum := by
  induction l with
  | nil => rfl
  | cons a l ih => rw [map_cons, sum_cons, ih, map_cons, sum_cons, neg_add]

theorem provablyNe_value {a b : Dim} (h : a.provablyNe b = true) {v : ℕ → ℤ} (hv : ∀ i, 0 < v i) :
    a.value v ≠ b.value v := by
  intro heq
  have hzero : (a.sub b).value v = 0 := by rw [value_sub, heq, sub_self]
  rw [value_eq] at hzero
  unfold provablyNe at h
  simp only at h
  split at h
  · cases h
  · next hne =>
    have hnil : (a.sub b).monomials ≠ [] := fun hn => hne (List.isEmpty_iff.mpr hn)
    rcases (Bool.or_eq_true _ _).mp h with h | h
    · refine absurd hzero (ne_of_gt (sum_pos _ (fun x hx => ?_) (by simpa using hnil)))
      obtain ⟨m, hm, rfl⟩ := mem_map.mp hx
      exact Int.mul_pos (of_decide_eq_true (all_eq_true.mp h m hm)) (vars_pos hv m.1)
    · have hneg : 0 < ((a.sub b).monomials.map
          fun m => -(m.2 * (m.1.map fun x => v x.id ^ x.pow).prod)).sum := by
        refine sum_pos _ (fun x hx => ?_) (by simpa using hnil)
        obtain ⟨m, hm, rfl⟩ := mem_map.mp hx
        have hlt := of_decide_eq_true (all_eq_true.mp h m hm)
        rw [← neg_mul]
        exact Int.mul_pos (Int.neg_pos_of_neg hlt) (vars_pos hv m.1)
      rw [sum_map_neg, hzero] at hneg
      exact absurd hneg (lt_irrefl _)

def complete (values : Values) (i : ℕ) : ℤ := (values i).getD 1

theorem value_substitute (values : Values) (d : Dim) (v : ℕ → ℤ) :
    (d.substitute values).value v = d.value fun i => (values i).getD (v i) := by
  have hhom : (eval v).comp (binding values).toRingHom = eval fun i => (values i).getD (v i) := by
    refine ringHom_ext (fun c => ?_) (fun i => ?_)
    · show eval _ (binding values (C c)) = _
      rw [binding_C, eval_C, eval_C]
    · show eval _ (binding values (X i)) = _
      rw [binding_X, eval_X]
      cases values i with
      | none => exact eval_X i
      | some x => exact eval_C x
  rw [value, poly_substitute]
  exact congrArg (fun f : MvPolynomial ℕ ℤ →+* ℤ => f d.poly) hhom

end Dim

end

end Plow.NnGraph
