import Plow.KvBlocks.RoundTrip
import Plow.Lib.Results

/-!
# Published boundaries

The store gives a boundary the blocks it has under their keys and new ones for the rest, which the
publish fills.  Over any run of publishes, gathers, steps of the model, releases and evictions, every
block of rows holds the rows of the tokens that its key names (`Kept`), so a boundary gathered at any
later time is the rows its slot held when it was published (`round_trip`).
-/

set_option linter.unusedSectionVars false

namespace Plow.KvBlocks
open Plow.Lib List Option

variable {K V : Type} [DecidableEq K]

/-- A published boundary, with the tokens of its rows. -/
structure Boundary where
  toks : List Token
  rows : ℕ
  handle : Handle

structure World (K V : Type) where
  mem : Place → ℕ → V
  store : Store K
  published : List Boundary

/-- What `publish_boundary` checks of a slot at the row `toks.length` that has written rows below
`written`; a row is below the context. -/
structure Publishable (v : Serve) (toks : List Token) (written p : ℕ) : Prop where
  pos : 0 < p
  dvd : ROWS_PER_BLOCK ∣ p
  rows : p ≤ toks.length
  frontier : toks.length ≤ written
  context : toks.length ≤ v.geo.maxCtx
  state : v.present .state = true → toks.length = p
  ring : v.slide ≠ [] → written - p ≤ v.ring - v.geo.window

/-- A publish of slot `b`, whose new blocks the store had not handed out. -/
structure Publishes (v : Serve) (hs : Hashing K) (R : ℕ → ℕ → ℕ → List Token → V) (w : World K V)
    (b : ℕ) (toks : List Token) (written p : ℕ) (w' : World K V) (bd : Boundary) : Prop where
  allowed : Publishable v toks written p
  slot : SlotRows v R w.mem b toks written
  result : ∃ ids store handle m, ids.Nodup ∧ (∀ id ∈ ids, id ∉ w.store.map (·.2.2)) ∧
    v.publish hs toks b p ids w.store w.mem = some (store, handle, m) ∧
    bd = ⟨toks.take p, p, handle⟩ ∧ w' = ⟨m, store, bd :: w.published⟩

inductive Step (v : Serve) (hs : Hashing K) (R : ℕ → ℕ → ℕ → List Token → V) :
    World K V → World K V → Prop
  | publish {w w'} (b : ℕ) (toks : List Token) (written p : ℕ) (bd : Boundary)
      (h : Publishes v hs R w b toks written p w' bd) : Step v hs R w w'
  | gather {w} (b : ℕ) (bd : Boundary) (h : bd ∈ w.published) :
      Step v hs R w { w with mem := v.gather b bd.handle w.mem }
  /-- model kernels see only the tensors -/
  | compute {w} (m : Place → ℕ → V) (h : ∀ id o, m (.block id) o = w.mem (.block id) o) :
      Step v hs R w { w with mem := m }
  | release {w} (published : List Boundary) (h : published ⊆ w.published) :
      Step v hs R w { w with published }
  /-- only blocks of no boundary are given up -/
  | evict {w} (store : Store K) (h : store.Sublist w.store)
      (used : ∀ bd ∈ w.published, ∀ e ∈ bd.handle, ∀ k, (e.1, k, e.2.2) ∈ w.store →
        (e.1, k, e.2.2) ∈ store) : Step v hs R w { w with store }

def Reachable (v : Serve) (hs : Hashing K) (R : ℕ → ℕ → ℕ → List Token → V) (w : World K V) : Prop :=
  ∃ m, Relation.ReflTransGen (Step v hs R) ⟨m, [], []⟩ w

variable {v : Serve} {hs : Hashing K} {R : ℕ → ℕ → ℕ → List Token → V} {w w' w₁ w₂ : World K V}
  {bd : Boundary} {store store' : Store K} {ids : List ℕ} {handle fills : Handle}
  {plan plan' : List (Class × ℕ × BlockKey K)} {toks : List Token} {b written p : ℕ} {c : Class}

/-! ### Acquiring blocks -/

/-- what `acquireAll` gives -/
structure Acquired (store : Store K) (ids : List ℕ) (plan : List (Class × ℕ × BlockKey K))
    (store' : Store K) (handle fills : Handle) : Prop where
  grown : store ⊆ store'
  handle : List.Forall₂ (fun y x => x.1 = y.1 ∧ x.2.1 = y.2.1 ∧ (y.1, y.2.2, x.2.2) ∈ store') plan handle
  new : ∀ e ∈ store', e ∈ store ∨ ∃ x ∈ fills, ∃ y ∈ plan, x.1 = y.1 ∧ x.2.1 = y.2.1 ∧
    e = (y.1, y.2.2, x.2.2)
  placed : store'.map (·.2.2) = store.map (·.2.2) ++ fills.map (·.2.2)
  taken : (fills.map (·.2.2)).Sublist ids

theorem acquired (h : acquireAll store ids plan = some (store', handle, fills)) :
    Acquired store ids plan store' handle fills := by
  induction plan generalizing store ids handle fills with
  | nil =>
    obtain ⟨rfl, rfl, rfl⟩ : store = store' ∧ [] = handle ∧ [] = fills := by
      simpa [acquireAll] using h
    exact ⟨Subset.refl _, Forall₂.nil, fun e he => .inl he, by simp, nil_sublist _⟩
  | cons y plan ih =>
    obtain ⟨c, row0, k⟩ := y
    unfold acquireAll at h
    cases hf : store.find? fun e => decide (e.1 = c ∧ e.2.1 = k) with
    | some e =>
      rw [hf] at h
      obtain ⟨⟨s, hd, fl⟩, hrec, heq⟩ := bind_eq_some_iff.mp h
      obtain ⟨rfl, rfl, rfl⟩ : s = store' ∧ (c, row0, e.2.2) :: hd = handle ∧ fl = fills := by
        simpa using heq
      have hr := ih hrec
      have he : e = (c, k, e.2.2) := by
        have hp : e.1 = c ∧ e.2.1 = k := by simpa using find?_some hf
        exact Prod.ext hp.1 (Prod.ext hp.2 rfl)
      refine ⟨hr.grown, Forall₂.cons ⟨rfl, rfl, ?_⟩ hr.handle, fun e' he' => ?_, hr.placed, hr.taken⟩
      · have hmem := hr.grown (mem_of_find?_eq_some hf)
        rwa [he] at hmem
      · rcases hr.new e' he' with h | ⟨x, hx, y, hy, hxy⟩
        · exact .inl h
        · exact .inr ⟨x, hx, y, mem_cons_of_mem _ hy, hxy⟩
    | none =>
      rw [hf] at h
      cases ids with
      | nil => exact nomatch h
      | cons id ids =>
        obtain ⟨⟨s, hd, fl⟩, hrec, heq⟩ := bind_eq_some_iff.mp h
        obtain ⟨rfl, rfl, rfl⟩ : s = store' ∧ (c, row0, id) :: hd = handle ∧ (c, row0, id) :: fl = fills := by
          simpa using heq
        have hr := ih hrec
        refine ⟨fun e he => hr.grown (mem_append_left _ he),
          Forall₂.cons ⟨rfl, rfl, hr.grown (mem_append_right _ (mem_singleton.mpr rfl))⟩ hr.handle,
          fun e' he' => ?_, ?_, ?_⟩
        · rcases hr.new e' he' with h | ⟨x, hx, y, hy, hxy⟩
          · rcases mem_append.mp h with h | h
            · exact .inl h
            · exact .inr ⟨_, mem_cons_self, _, mem_cons_self, rfl, rfl, mem_singleton.mp h⟩
          · exact .inr ⟨x, mem_cons_of_mem _ hx, y, mem_cons_of_mem _ hy, hxy⟩
        · rw [hr.placed, map_append, append_assoc]
          rfl
        · rw [map_cons]
          exact hr.taken.cons_cons id

/-! ### The invariant -/

/-- the boundary's blocks are in the store, under the keys of its tokens -/
structure Held (v : Serve) (hs : Hashing K) (store : Store K) (bd : Boundary) : Prop where
  dvd : ROWS_PER_BLOCK ∣ bd.rows
  context : bd.rows ≤ v.geo.maxCtx
  entries : ∀ e ∈ bd.handle, ∃ i k, (e.1, e.2.1, i) ∈ v.plan bd.rows ∧ hs.key bd.toks i = some k ∧
    (e.1, k, e.2.2) ∈ store
  cover : ∀ y ∈ v.plan bd.rows, ∃ id, (y.1, y.2.1, id) ∈ bd.handle

/-- a block of rows holds the rows of tokens that have its key -/
structure Kept (v : Serve) (hs : Hashing K) (R : ℕ → ℕ → ℕ → List Token → V) (w : World K V) : Prop where
  ids : (w.store.map (·.2.2)).Nodup
  rows : ∀ e ∈ w.store, e.1.hasRows = true → ∃ toks i, hs.key toks i = some e.2.1 ∧
    BlockRows v R w.mem e.1 e.2.2 (i * ROWS_PER_BLOCK) toks
  held : ∀ bd ∈ w.published, Held v hs w.store bd

theorem BlockRows.congr {m m' : Place → ℕ → V} {id row0 : ℕ}
    (h : BlockRows v R m c id row0 toks) (hm : ∀ o, m' (.block id) o = m (.block id) o) :
    BlockRows v R m' c id row0 toks := by
  intro l hl t ht a ha hrun i hi x hx
  rw [hm]
  exact h l hl t ht a ha hrun i hi x hx

theorem gather_block (b : ℕ) (handle : Handle) (m : Place → ℕ → V) (id o : ℕ) :
    v.gather b handle m (.block id) o = m (.block id) o := by
  refine runCopies_frame fun k hk hw => ?_
  obtain ⟨c, d, -, l, -, rfl⟩ := mem_copies.mp hk
  exact nomatch hw.1

theorem planKeys
    (h : (v.plan p).mapM (fun e => (hs.key toks e.2.2).map fun k => (e.1, e.2.1, k)) = some plan') :
    Forall₂ (fun y z => z.1 = y.1 ∧ z.2.1 = y.2.1 ∧ hs.key toks y.2.2 = some z.2.2) (v.plan p) plan' := by
  refine (optionMapM_iff.mp h).imp fun y z hz => ?_
  obtain ⟨k, hk, rfl⟩ := map_eq_some_iff.mp hz
  exact ⟨rfl, rfl, hk⟩

theorem published_spec (h : Publishes v hs R w b toks written p w' bd) :
    ∃ ids plan fills, Acquired w.store ids plan w'.store bd.handle fills ∧
      Forall₂ (fun y z => z.1 = y.1 ∧ z.2.1 = y.2.1 ∧ hs.key (toks.take p) y.2.2 = some z.2.2)
        (v.plan p) plan ∧ (w'.store.map (·.2.2) = w.store.map (·.2.2) ++ fills.map (·.2.2)) ∧
      (fills.map (·.2.2)).Nodup ∧ (∀ x ∈ fills, x.2.2 ∉ w.store.map (·.2.2)) ∧
      w'.mem = v.runBlocks (v.descs b fills) true w.mem ∧ w'.published = bd :: w.published ∧
      bd.toks = toks.take p ∧ bd.rows = p := by
  obtain ⟨ids, store, handle, m, hnodup, hfresh, hpub, rfl, rfl⟩ := h.result
  unfold Serve.publish at hpub
  obtain ⟨plan, hplan, hpub⟩ := bind_eq_some_iff.mp hpub
  obtain ⟨⟨s, hd, fills⟩, hacq, heq⟩ := bind_eq_some_iff.mp hpub
  obtain ⟨rfl, rfl, rfl⟩ : s = store ∧ hd = handle ∧ v.runBlocks (v.descs b fills) true w.mem = m := by
    simpa using heq
  have hacq := acquired hacq
  refine ⟨ids, plan, fills, hacq, planKeys hplan, hacq.placed, hnodup.sublist hacq.taken, fun x hx => ?_,
    rfl, rfl, rfl, rfl⟩
  exact hfresh _ (hacq.taken.subset (mem_map_of_mem (f := fun x : Class × ℕ × ℕ => x.2.2) hx))

theorem slot_rows (hv : v.Admitted) {row0 i : ℕ} (hc : c.hasRows = true)
    (hok : Publishable v toks written p) (hslot : SlotRows v R w.mem b toks written)
    (hp : (c, row0, i) ∈ v.plan p) : ∀ t ∈ v.tracks c, ∀ h < t.heads, ∀ j < ROWS_PER_BLOCK, ∀ x < t.elem,
      w.mem (.tensor t.tensor) (t.cell b h (v.pos c row0 + j) x) =
        R t.tensor h x ((toks.take p).take (row0 + j + 1)) := by
  intro t ht h hh j hj x hx
  obtain ⟨-, hlo, hhi, -⟩ := (planned_rows hc hok.dvd).mp hp
  have hst := straight_of_planned hv hc ht hok.dvd (hok.rows.trans hok.context) hp
  have hrows := hok.rows
  rw [take_take, min_eq_left (by omega), ← hst.step j hj]
  refine hslot c hc t ht h hh x hx (row0 + j) (by omega) fun hcw => ?_
  subst hcw
  have hs := slide_of_track hv ht
  have hring := hok.ring hs
  have hwin := hv.window_le hs
  have hspan := le_windowFrom_add v p
  have hfront := hok.frontier
  change v.windowFrom p ≤ row0 at hlo
  omega

theorem kept_publish (hv : v.Admitted) (h : Publishes v hs R w b toks written p w' bd)
    (hk : Kept v hs R w) : Kept v hs R w' := by
  obtain ⟨ids, plan, fills, hacq, hplan, hplaced, hnodup, hfresh, hmem, hpub, htoks, hrows⟩ :=
    published_spec h
  have hok := h.allowed
  -- every entry of the handle is a planned block, under its key
  have hentry : ∀ x ∈ bd.handle, ∃ i k, (x.1, x.2.1, i) ∈ v.plan p ∧ hs.key (toks.take p) i = some k ∧
      (x.1, k, x.2.2) ∈ w'.store := by
    intro x hx
    obtain ⟨n, hn⟩ := mem_iff_getElem?.mp hx
    obtain ⟨hlen, hget⟩ := forall₂_iff_get.mp hacq.handle
    obtain ⟨hlen', hget'⟩ := forall₂_iff_get.mp hplan
    obtain ⟨hn₁, rfl⟩ := List.getElem?_eq_some_iff.mp hn
    have hn₂ : n < plan.length := hlen ▸ hn₁
    have hn₃ : n < (v.plan p).length := hlen' ▸ hn₂
    obtain ⟨h₁, h₂, h₃⟩ := hget n hn₂ hn₁
    obtain ⟨g₁, g₂, g₃⟩ := hget' n hn₃ hn₂
    simp only [get_eq_getElem] at h₁ h₂ h₃ g₁ g₂ g₃
    refine ⟨(v.plan p)[n].2.2, plan[n].2.2, ?_, g₃, ?_⟩
    · rw [h₁, h₂, g₁, g₂]
      exact getElem_mem hn₃
    · rw [h₁]
      exact h₃
  have hcover : ∀ y ∈ v.plan p, ∃ id, (y.1, y.2.1, id) ∈ bd.handle := by
    intro y hy
    obtain ⟨n, hn⟩ := mem_iff_getElem?.mp hy
    obtain ⟨hlen, hget⟩ := forall₂_iff_get.mp hacq.handle
    obtain ⟨hlen', hget'⟩ := forall₂_iff_get.mp hplan
    obtain ⟨hn₃, rfl⟩ := List.getElem?_eq_some_iff.mp hn
    have hn₂ : n < plan.length := hlen' ▸ hn₃
    have hn₁ : n < bd.handle.length := hlen ▸ hn₂
    obtain ⟨h₁, h₂, -⟩ := hget n hn₂ hn₁
    obtain ⟨g₁, g₂, -⟩ := hget' n hn₃ hn₂
    simp only [get_eq_getElem] at h₁ h₂ g₁ g₂
    refine ⟨bd.handle[n].2.2, ?_⟩
    rw [← g₁, ← g₂, ← h₁, ← h₂]
    exact getElem_mem hn₁
  constructor
  · rw [hplaced]
    refine nodup_append.mpr ⟨hk.ids, hnodup, fun a ha a' ha' heq => ?_⟩
    obtain ⟨x, hx, rfl⟩ := mem_map.mp ha'
    exact hfresh x hx (heq ▸ ha)
  · intro e he hc
    rcases hacq.new e he with he | ⟨x, hx, y, hy, hxy, hxy', rfl⟩
    · obtain ⟨toks', i, hkey, hblock⟩ := hk.rows e he hc
      refine ⟨toks', i, hkey, hblock.congr fun o => ?_⟩
      rw [hmem]
      refine fill_frame o fun x hx heq => hfresh x hx ?_
      rw [← Place.block.inj heq]
      exact mem_map_of_mem (f := fun e : Class × BlockKey K × ℕ => e.2.2) he
    · obtain ⟨n, hn⟩ := mem_iff_getElem?.mp hy
      obtain ⟨hlen', hget'⟩ := forall₂_iff_get.mp hplan
      obtain ⟨hn₂, rfl⟩ := List.getElem?_eq_some_iff.mp hn
      have hn₃ : n < (v.plan p).length := hlen' ▸ hn₂
      obtain ⟨g₁, g₂, g₃⟩ := hget' n hn₃ hn₂
      simp only [get_eq_getElem] at g₁ g₂ g₃
      have hplanned : (x.1, x.2.1, (v.plan p)[n].2.2) ∈ v.plan p := by
        rw [hxy, hxy', g₁, g₂]
        exact getElem_mem hn₃
      have hc' : x.1.hasRows = true := hxy ▸ hc
      obtain ⟨-, -, -, hrow⟩ := (planned_rows hc' hok.dvd).mp hplanned
      refine ⟨toks.take p, (v.plan p)[n].2.2, g₃, ?_⟩
      rw [hmem, ← hxy, ← hrow]
      exact fill_rows hnodup hx hc' (slot_rows hv hc' hok h.slot hplanned)
  · intro bd' hbd'
    rw [hpub] at hbd'
    rcases mem_cons.mp hbd' with rfl | hbd'
    · refine ⟨hrows ▸ hok.dvd, hrows ▸ hok.rows.trans hok.context, ?_, ?_⟩
      · rw [hrows, htoks]
        exact hentry
      · rw [hrows]
        exact hcover
    · obtain ⟨hdvd, hctx, hentries, hcov⟩ := hk.held bd' hbd'
      refine ⟨hdvd, hctx, fun e he => ?_, hcov⟩
      obtain ⟨i, k, hi, hk', hmem'⟩ := hentries e he
      exact ⟨i, k, hi, hk', hacq.grown hmem'⟩

theorem kept_step (hv : v.Admitted) (h : Step v hs R w w') (hk : Kept v hs R w) : Kept v hs R w' := by
  cases h with
  | publish b toks written p bd h => exact kept_publish hv h hk
  | gather b bd h =>
    refine ⟨hk.ids, fun e he hc => ?_, hk.held⟩
    obtain ⟨toks, i, hkey, hblock⟩ := hk.rows e he hc
    exact ⟨toks, i, hkey, hblock.congr fun o => gather_block b bd.handle w.mem _ o⟩
  | compute m hm =>
    refine ⟨hk.ids, fun e he hc => ?_, hk.held⟩
    obtain ⟨toks, i, hkey, hblock⟩ := hk.rows e he hc
    exact ⟨toks, i, hkey, hblock.congr fun o => hm _ o⟩
  | release published hp => exact ⟨hk.ids, hk.rows, fun bd hbd => hk.held bd (hp hbd)⟩
  | evict store hsub hused =>
    refine ⟨hk.ids.sublist (hsub.map _), fun e he hc => hk.rows e (hsub.subset he) hc, fun bd hbd => ?_⟩
    obtain ⟨hdvd, hctx, hentries, hcov⟩ := hk.held bd hbd
    refine ⟨hdvd, hctx, fun e he => ?_, hcov⟩
    obtain ⟨i, k, hi, hkey, hmem⟩ := hentries e he
    exact ⟨i, k, hi, hkey, hused bd hbd e he k hmem⟩

theorem kept_run (hv : v.Admitted) (h : Relation.ReflTransGen (Step v hs R) w w') (hk : Kept v hs R w) :
    Kept v hs R w' := by
  induction h with
  | refl => exact hk
  | tail _ hstep ih => exact kept_step hv hstep ih

theorem kept_reachable (hv : v.Admitted) (h : Reachable v hs R w) : Kept v hs R w := by
  obtain ⟨m, hrun⟩ := h
  exact kept_run hv hrun ⟨nodup_nil, fun _ => nofun, fun _ => nofun⟩

/-! ### The round trip -/

theorem no_scale {e : Class × ℕ × ℕ} (h : e ∈ v.plan p) : e.1 ≠ .scale := by
  unfold Serve.plan planBlocks at h
  rcases mem_append.mp h with h | h
  · rcases mem_append.mp h with h | h
    · rcases mem_append.mp h with h | h
      · obtain ⟨k, -, rfl⟩ := mem_map.mp (mem_ite_nil.mp h).2
        exact nofun
      · obtain ⟨k, -, rfl⟩ := mem_map.mp (mem_ite_nil.mp h).2
        exact nofun
    · exact nomatch (mem_ite_nil.mp h).1
  · rw [mem_singleton.mp (mem_ite_nil.mp h).2]
    exact nofun

/-- the blocks of a boundary hold its rows -/
theorem stored_of_kept (hv : v.Admitted) (hinj : hs.Injective) (hk : Kept v hs R w)
    (hbd : bd ∈ w.published) : ∀ e ∈ bd.handle, Stored v R w.mem bd.toks bd.rows e := by
  intro e he
  obtain ⟨hdvd, hctx, hentries, -⟩ := hk.held bd hbd
  obtain ⟨i, k, hplanned, hkey, hmem⟩ := hentries e he
  have hrows := fun hc : e.1.hasRows = true => (planned_rows hc hdvd).mp hplanned
  refine ⟨no_scale (e := (e.1, e.2.1, i)) hplanned, fun hc => ?_, fun hc => (hrows hc).2.1, fun hc => (hrows hc).2.2.1,
    fun hc t ht => straight_of_planned hv hc ht hdvd hctx hplanned⟩
  obtain ⟨toks', i', hkey', hblock⟩ := hk.rows _ hmem hc
  -- the tokens that filled the block are the boundary's, up to its last row
  have hpre := hinj bd.toks toks' i i' k hkey hkey'
  have hlen := congrArg length hpre
  rw [length_take, length_take, min_eq_left (key_some hkey),
    min_eq_left (key_some hkey')] at hlen
  obtain rfl : i = i' := by
    have := Nat.eq_of_mul_eq_mul_right (by decide) hlen
    omega
  rw [(hrows hc).2.2.2]
  intro l hl t ht h hh hrun j hj x hx
  rw [hblock l hl t ht h hh hrun j hj x hx]
  have hle : i * ROWS_PER_BLOCK + j + 1 ≤ (i + 1) * ROWS_PER_BLOCK := by
    rw [add_mul, one_mul]
    omega
  have htake := congrArg (take (i * ROWS_PER_BLOCK + j + 1)) hpre
  rw [take_take, take_take, min_eq_left hle] at htake
  rw [htake]

theorem windowFrom_le_row {r : ℕ} (hwin : v.geo.window % ROWS_PER_BLOCK ≤ 1 ∨ p ≤ v.geo.window)
    (hp : ROWS_PER_BLOCK ∣ p) (hlo : p < r + v.geo.window) : v.windowFrom p ≤ r := by
  obtain ⟨n, rfl⟩ := hp
  unfold Serve.windowFrom
  rcases le_total v.geo.window (ROWS_PER_BLOCK * n) with hle | hle
  · rw [min_eq_left hle]
    unfold ROWS_PER_BLOCK at hwin hlo hle ⊢
    omega
  · rw [Nat.min_eq_right hle, Nat.mul_div_cancel_left n (by decide), Nat.mul_comm, Nat.sub_self]
    exact Nat.zero_le r

/-- A boundary gathered into a slot, at any time after it was published and while it is, is the rows
that the publishing slot held; and two blocks of the same rows have one key exactly if the tokens up to
their last row are the same. -/
theorem round_trip (v : Serve) (hs : Hashing K) (R : ℕ → ℕ → ℕ → List Token → V) (hv : v.Admitted)
    (hinj : hs.Injective) (w w₁ w₂ : World K V) (a b : ℕ) (toks : List Token) (written p : ℕ) (bd : Boundary)
    (hw : Reachable v hs R w) (hpub : Publishes v hs R w a toks written p w₁ bd)
    (hrun : Relation.ReflTransGen (Step v hs R) w₁ w₂) (hbd : bd ∈ w₂.published) :
    (∀ t ∈ v.tracks .tail, ∀ h < t.heads, ∀ x < t.elem, ∀ r < p,
      v.gather b bd.handle w₂.mem (.tensor t.tensor) (t.cell b h r x) =
        w.mem (.tensor t.tensor) (t.cell a h r x)) ∧
    ((v.geo.window % ROWS_PER_BLOCK ≤ 1 ∨ p ≤ v.geo.window) → ∀ t ∈ v.tracks .window, ∀ h < t.heads,
      ∀ x < t.elem, ∀ r < p, p < r + v.geo.window →
      v.gather b bd.handle w₂.mem (.tensor t.tensor) (t.cell b h (r % v.ring) x) =
        w.mem (.tensor t.tensor) (t.cell a h (r % v.ring) x)) ∧
    (∀ q o, v.gather b bd.handle w₂.mem q o ≠ w₂.mem q o →
      (∃ t ∈ v.tracks .tail, ∃ h < t.heads, ∃ x < t.elem, ∃ r < p,
        q = .tensor t.tensor ∧ o = t.cell b h r x) ∨
      (∃ t ∈ v.tracks .window, ∃ h < t.heads, ∃ x < t.elem, ∃ r < p, p ≤ r + v.geo.window ∧
        q = .tensor t.tensor ∧ o = t.cell b h (r % v.ring) x) ∨
      ∃ s ∈ v.stateTensors, q = .tensor s.1 ∧ b * s.2 ≤ o ∧ o < b * s.2 + s.2) ∧
    (∀ (c : Class) (row0 i : ℕ) (toks toks' : List Token) (p p' : ℕ), c.hasRows = true → ROWS_PER_BLOCK ∣ p → ROWS_PER_BLOCK ∣ p' →
      p ≤ toks.length → p' ≤ toks'.length → (c, row0, i) ∈ v.plan p → (c, row0, i) ∈ v.plan p' →
      (hs.key (toks.take p) i = hs.key (toks'.take p') i ↔
        toks.take (row0 + ROWS_PER_BLOCK) = toks'.take (row0 + ROWS_PER_BLOCK))) := by
  have hkept := kept_run hv hrun (kept_publish hv hpub (kept_reachable hv hw))
  have hstored := stored_of_kept hv hinj hkept hbd
  obtain ⟨-, -, -, -, -, -, -, -, -, -, htoks, hrows⟩ := published_spec hpub
  have hheld := hkept.held bd hbd
  have hok := hpub.allowed
  rw [hrows, htoks] at hstored
  have hdvd := hok.dvd
  -- a gathered row is what `R` tells, and so is the slot's
  have hrow : ∀ c : Class, c.hasRows = true → ∀ t ∈ v.tracks c, ∀ h < t.heads, ∀ x < t.elem, ∀ r < p,
      v.from_ p c ≤ r → (c = .window → written ≤ r + v.ring) →
      v.gather b bd.handle w₂.mem (.tensor t.tensor) (t.cell b h (v.pos c r) x) =
        w.mem (.tensor t.tensor) (t.cell a h (v.pos c r) x) := by
    intro c hc t ht h hh x hx r hr hlo hring
    have hcover := hheld.cover _ (hrows ▸ planned_of_row hc hdvd (present_of_track hc ht hh hx) hlo hr)
    have hlen := hok.rows
    rw [gather_rows hv hstored hc ht hh hx hlo hr hcover, take_take, min_eq_left (by omega)]
    exact (hpub.slot c hc t ht h hh x hx r (by omega) hring).symm
  refine ⟨fun t ht h hh x hx r hr => ?_, fun hwin t ht h hh x hx r hr hlo => ?_, fun q o hne => ?_,
    fun c row0 i toks toks' p p' hc hd hd' hlen hlen' hp hp' => ?_⟩
  · exact hrow .tail rfl t ht h hh x hx r hr (Nat.zero_le r) nofun
  · refine hrow .window rfl t ht h hh x hx r hr (windowFrom_le_row hwin hdvd hlo) fun _ => ?_
    have hs := slide_of_track hv ht
    have hring := hok.ring hs
    have := hv.window_le hs
    omega
  · rcases gather_frame hstored b hne with ⟨c, hc, t, ht, h, hh, x, hx, r, hlo, hr, hq, ho⟩ | hstate
    · cases c with
      | window =>
        have hspan := le_windowFrom_add v p
        have hlo : v.windowFrom p ≤ r := hlo
        exact .inr (.inl ⟨t, ht, h, hh, x, hx, r, hr, by omega, hq, ho⟩)
      | tail => exact .inl ⟨t, ht, h, hh, x, hx, r, hr, hq, ho⟩
      | scale => exact nomatch hc
      | state => exact nomatch hc
    · exact .inr (.inr hstate)
  · obtain ⟨-, -, hhi, hrow0⟩ := (planned_rows hc hd).mp hp
    obtain ⟨-, -, hhi', -⟩ := (planned_rows hc hd').mp hp'
    have hend : row0 + ROWS_PER_BLOCK = (i + 1) * ROWS_PER_BLOCK := by
      rw [hrow0, add_mul, one_mul]
    rw [hend] at hhi hhi' ⊢
    have hi : (i + 1) * ROWS_PER_BLOCK ≤ (toks.take p).length := by
      rw [length_take]
      omega
    have hi' : (i + 1) * ROWS_PER_BLOCK ≤ (toks'.take p').length := by
      rw [length_take]
      omega
    have htake : ∀ (ts : List Token) (n : ℕ), (i + 1) * ROWS_PER_BLOCK ≤ n →
        (ts.take n).take ((i + 1) * ROWS_PER_BLOCK) = ts.take ((i + 1) * ROWS_PER_BLOCK) := by
      intro ts n hn
      rw [take_take, min_eq_left hn]
    constructor
    · intro heq
      have hk : hs.key (toks.take p) i = some ⟨chainAt hs.fx hs.seedChain (toks.take p) i,
          chainAt hs.sip hs.seedCheck (toks.take p) i⟩ := key_eq hi
      have hpre := hinj _ _ i i _ hk (heq ▸ hk)
      rwa [htake _ _ hhi, htake _ _ hhi'] at hpre
    · intro heq
      refine key_take hi ?_
      rw [htake _ _ hhi, htake _ _ hhi']
      exact heq

/-! ### A boundary of 32 rows -/

def keepAll : Hashing (List Token) := ⟨fun prev toks => prev ++ toks, fun prev toks => prev ++ toks, [], []⟩

theorem chainAt_keepAll (seed toks : List Token) (i : ℕ) :
    chainAt (fun prev toks => prev ++ toks) seed toks i = seed ++ toks.take ((i + 1) * ROWS_PER_BLOCK) := by
  induction i generalizing seed toks with
  | zero => rw [chainAt, zero_add, one_mul]
  | succ i ih =>
    have hsplit : (i + 1 + 1) * ROWS_PER_BLOCK = ROWS_PER_BLOCK + (i + 1) * ROWS_PER_BLOCK := by
      rw [Nat.succ_mul, add_comm]
    rw [chainAt, ih, append_assoc, hsplit, take_add]

theorem keepAll_injective : keepAll.Injective := by
  intro toks toks' i j k hk hk'
  rw [key_eq (key_some hk)] at hk
  rw [key_eq (key_some hk')] at hk'
  have hchain := congrArg BlockKey.chain (some.inj (hk.trans hk'.symm))
  change chainAt (fun prev toks => prev ++ toks) [] toks i = chainAt (fun prev toks => prev ++ toks) [] toks' j
    at hchain
  rwa [chainAt_keepAll, chainAt_keepAll] at hchain

def small (window : ℕ) : Serve where
  geo := ⟨1, 1, 1, 1, window, 1, 1, 64⟩
  slide := [(0, 1, 64)]
  slideScale := []
  fullScale := []
  tensorTracks := [2, 3]
  ring := 64
  blockRows := 64
  stateTensors := []

theorem small_admitted : (small 32).Admitted where
  ring_pow _ := ⟨6, rfl⟩
  window_le _ := by decide
  stride := by decide
  scale := nofun
  one_use := by
    intro c c' _ _
    cases c <;> cases c' <;> decide
  state := nofun

/-- the byte of the row `r` is `r + 1` in every tensor -/
def rowNumbers : ℕ → ℕ → ℕ → List Token → ℕ := fun _ _ _ toks => toks.length

def numbered : Place → ℕ → ℕ := fun q o => match q with
  | .tensor _ => o + 1
  | .block _ => 0

theorem small_publishes : ∃ w₁ bd, Publishes (small 32) keepAll rowNumbers ⟨numbered, [], []⟩ 0
    (replicate 32 7) 32 32 w₁ bd ∧ bd ∈ w₁.published := by
  refine ⟨_, _, ⟨⟨by decide, by decide, by decide, by decide, by decide, by decide, fun _ => by decide⟩, ?_,
    ⟨[0, 1, 2], _, _, _, by decide, fun _ _ => not_mem_nil, rfl, rfl, rfl⟩⟩, mem_cons_self⟩
  intro c hc t ht h hh x hx r hr _
  rw [length_replicate] at hr
  have hshape : ∀ t ∈ (small 32).tracks c, t.heads = 1 ∧ t.elem = 1 := by
    cases c <;> decide
  have hpos : (small 32).pos c r = r := by
    cases c with
    | window => exact Nat.mod_eq_of_lt (show r < 64 by omega)
    | _ => rfl
  obtain ⟨h1, h2⟩ := hshape t ht
  rw [hpos]
  show t.cell 0 h r x + 1 = ((replicate 32 7).take (r + 1)).length
  unfold Track.cell
  rw [length_take, length_replicate, h2]
  obtain rfl : h = 0 := by omega
  omega

theorem small_round_trip : ∃ w₁ bd, Publishes (small 32) keepAll rowNumbers ⟨numbered, [], []⟩ 0
    (List.replicate 32 7) 32 32 w₁ bd ∧ ∀ t ∈ (small 32).tracks .tail, ∀ h < t.heads, ∀ x < t.elem,
    ∀ r < 32, (small 32).gather 1 bd.handle w₁.mem (.tensor t.tensor) (t.cell 1 h r x) =
      numbered (.tensor t.tensor) (t.cell 0 h r x) := by
  obtain ⟨w₁, bd, hpub, hbd⟩ := small_publishes
  exact ⟨w₁, bd, hpub, (round_trip (small 32) keepAll rowNumbers small_admitted keepAll_injective _ w₁ w₁
    0 1 _ 32 32 bd ⟨numbered, .refl⟩ hpub .refl hbd).1⟩

/-- Rows 32 to 63 are the same tokens here, but the rows before them are not, and the keys differ; and
of a window of 40 rows the blocks of a boundary hold 32. -/
theorem key_of_prefix :
    (let toks := List.replicate 32 0 ++ List.replicate 32 1
    let toks' := List.replicate 32 2 ++ List.replicate 32 1
    toks.drop 32 = toks'.drop 32 ∧ keepAll.key toks 1 ≠ keepAll.key toks' 1) ∧
    ∀ e ∈ (small 40).plan 64, e.1 = .window → 25 < e.2.1 := by
  refine ⟨⟨rfl, by decide⟩, by decide⟩

end Plow.KvBlocks
