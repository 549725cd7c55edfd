import Plow.Devbuild.Queue

/-!
# The queue of a finished program

What `finish` puts into the queue (`Queued`), the queue as workers see it in terms of the slices
(`Queued.waitsFor_iff`, `Queued.precedes_iff`), and when its windows do what they are for
(`queue_windows`).
-/

namespace Plow.Devbuild

open List

def StreamEnt.place (e : StreamEnt) : ℕ × ℕ := (e.inst, e.slice)

/-! ### The entries of the queue -/

structure Queued (cx : Ctx) (rank : ℕ → ℕ) (p : Program) : Prop where
  perm : (p.gqStream.map StreamEnt.place).Perm cx.places
  entry : ∀ e ∈ p.gqStream, ∃ op, cx.ops[e.inst]? = some op ∧
    p.waitsOf e = cx.entryWaits e.inst op e.slice ∧ p.succsOf e = cx.entrySuccs e.inst op e.slice ∧
    p.windowOf e = cx.placeWindow e.place
  sorted : p.gqStream.Pairwise fun e f => p.windowOf e < p.windowOf f ∨
    p.windowOf e = p.windowOf f ∧ Ctx.Ranked rank e.place f.place
  seg : ∀ e ∈ p.gqStream, e.seg = cx.entSeg e.inst

variable {e : StreamEnt}

theorem packNper_get {gq : List StreamEnt} (h : nperFits gq = true) (he : e ∈ gq) :
    ∃ f, (if e.flags &&& seFine ≠ 0 ∨ nper gq e ≤ 1 then e
      else { e with flags := e.flags ||| (nper gq e <<< seNperShift) }) = { e with flags := f } ∧
      (f &&& seDomainMask) >>> seDomainShift = e.domain := by
  split
  next => exact ⟨e.flags, rfl, rfl⟩
  next hn =>
    refine ⟨_, rfl, domain_or ?_⟩
    rw [not_or, not_not] at hn
    have := all_eq_true.mp h e he
    rw [Bool.or_eq_true, decide_eq_true_eq, decide_eq_true_eq] at this
    have hle : nper gq e ≤ 511 := this.resolve_left (fun h => h hn.1)
    unfold seNperShift
    rw [Nat.shiftLeft_eq]
    omega

namespace Builder
variable {b : Builder} {k : Launch} {ops : List Op} {p : Program} {n : ℕ}

theorem domains_pos : 0 < (b.ctx k ops).domains := by
  show 0 < (b.l2Place.map fun l => l.domains).getD 1
  unfold l2Place
  cases b.opts.placeL2 with
  | none => exact one_pos
  | some l =>
    simp only [Option.bind_eq_bind, Option.bind_some]
    split
    · exact one_pos
    · split
      · exact one_pos
      · show 0 < l.domains
        omega

/-- A slice's entry in the queue that `finish` sorts. -/
theorem emitted_entry (h : (b.ctx k ops).Placed b.nCu)
    (h8 : (b.ctx k ops).ops = [] ∨ (b.ctx k ops).l2.all (·.domains ≤ 8) = true)
    (he : e ∈ ((b.ctx k ops).emitted b.nCu).gqStream) : ∃ op, (b.ctx k ops).ops[e.inst]? = some op ∧
      (((b.ctx k ops).emitted b.nCu).waits.drop e.waitOfs).take e.waitLen =
        (b.ctx k ops).entryWaits e.inst op e.slice ∧
      (((b.ctx k ops).emitted b.nCu).succs.drop e.succOfs).take e.succLen =
        (b.ctx k ops).entrySuccs e.inst op e.slice ∧
      windowOf (b.ctx k ops).l2 e = (b.ctx k ops).placeWindow e.place := by
  obtain ⟨op, cu, hop, hcu, hent⟩ := ((b.ctx k ops).emitted_laid b.nCu).entry e he
  refine ⟨op, hop, hent.waits.2, hent.succs.2, ?_⟩
  have hplace : (b.ctx k ops).placeDomain e.place = (b.ctx k ops).domainOf cu := by
    unfold Ctx.placeDomain StreamEnt.place
    rw [hop, Option.bind_some, hcu]
    rfl
  unfold windowOf Ctx.placeWindow
  rw [hplace, hent.seg]
  cases hl : (b.ctx k ops).l2 with
  | none =>
    show _ = _ * (b.ctx k ops).domains + _
    unfold Ctx.domains Ctx.domainOf
    rw [hl]
    exact (mul_one _).symm
  | some l =>
    have hlt := @domainOf_lt b k ops cu ((h.formed _ op hop).cus_lt cu
      (mem_of_getElem? hcu))
    have hdom : (b.ctx k ops).domains = l.domains := by
      unfold Ctx.domains
      rw [hl]
      rfl
    have hle : l.domains ≤ 8 := by
      rcases h8 with h8 | h8
      · rw [h8] at hop
        cases hop
      · rw [hl] at h8
        simpa using h8
    rw [hent.domain (by omega), hdom]
    rfl

/-- the sorted queue, entries in the order of their windows and ranks -/
theorem gqSort_pairwise :
    (gqSort (b.ctx k ops).l2 (b.asap (b.ctx k ops)) ((b.ctx k ops).emitted b.nCu).gqStream).Pairwise
      fun e f => windowOf (b.ctx k ops).l2 e < windowOf (b.ctx k ops).l2 f ∨
        windowOf (b.ctx k ops).l2 e = windowOf (b.ctx k ops).l2 f ∧
        Ctx.Ranked (b.rank (b.ctx k ops)) e.place f.place := by
  have hlaid := (b.ctx k ops).emitted_laid b.nCu
  have hbefore : ((b.ctx k ops).emitted b.nCu).gqStream.Pairwise fun e f => Before e.place f.place := by
    have := (b.ctx k ops).places_pairwise
    rw [← hlaid.places] at this
    exact pairwise_map.mp this
  unfold gqSort
  simp only
  split
  next hsort =>
    refine (sortByKey_pairwise (fun e => toLex (windowOf (b.ctx k ops).l2 e,
      ((b.asap (b.ctx k ops)).map fun a => a.getD e.inst 0).getD 0)) hbefore).imp ?_
    intro e f hef
    rcases hef with hlt | ⟨heq, hb⟩
    · rcases Prod.Lex.toLex_lt_toLex.mp hlt with hlt | ⟨heq, hlt⟩
      · exact .inl hlt
      · exact .inr ⟨heq, .inl hlt⟩
    · have := toLex.injective heq
      rw [Prod.mk.injEq] at this
      exact .inr ⟨this.1, .inr ⟨this.2, hb⟩⟩
  next hsort =>
    rw [Bool.not_eq_true, Bool.or_eq_false_iff] at hsort
    have hl : (b.ctx k ops).l2 = none := by simpa using hsort.1
    have ha : b.asap (b.ctx k ops) = none := by simpa using hsort.2
    have hrank : ∀ i, b.rank (b.ctx k ops) i = 0 := by
      intro i
      unfold rank
      rw [ha]
      rfl
    have hall : ∀ e ∈ ((b.ctx k ops).emitted b.nCu).gqStream, e.seg = (b.ctx k ops).entSeg e.inst := by
      intro e he
      obtain ⟨_, _, _, _, hent⟩ := hlaid.entry e he
      exact hent.seg
    refine (List.Pairwise.and_mem.mp hbefore).imp fun {e f} hef => ?_
    obtain ⟨he, hf, hb⟩ := hef
    unfold windowOf
    rw [hl]
    simp only
    rw [hall e he, hall f hf]
    have hle : e.inst ≤ f.inst := by
      unfold Before StreamEnt.place at hb
      omega
    rcases lt_or_eq_of_le (entSeg_mono b k ops hle) with hs | hs
    · exact .inl hs
    · exact .inr ⟨hs, .inr ⟨(hrank _).trans (hrank _).symm, hb⟩⟩

theorem gqSort_perm (l2 : Option L2Layout) (asap : Option (List ℕ)) (gq : List StreamEnt) :
    (gqSort l2 asap gq).Perm gq := by
  unfold gqSort
  simp only
  split
  · exact perm_insertionSort _ gq
  · exact .refl gq

/-- the queue of a program, its table and its lists -/
structure Built (b : Builder) (cx : Ctx) (p : Program) : Prop where
  queue : p.gqStream = if cx.l2.isSome then
      packNper (gqSort cx.l2 (b.asap cx) (cx.emitted b.nCu).gqStream)
    else gqSort cx.l2 (b.asap cx) (cx.emitted b.nCu).gqStream
  table : p.gqSegOfs =
    windowBounds (b.orderedSegments cx * cx.domains) (p.gqStream.map (Devbuild.windowOf cx.l2))
  stream : p.stream = (cx.emitted b.nCu).streams.flatten
  waits : p.waits = (cx.emitted b.nCu).waits
  succs : p.succs = (cx.emitted b.nCu).succs
  domains : p.l2Domains = (cx.l2.map fun l => l.domains).getD 0
  eight : cx.ops = [] ∨ cx.l2.all (·.domains ≤ 8) = true
  fits : cx.l2.isNone ∨
    nperFits (gqSort cx.l2 (b.asap cx) (cx.emitted b.nCu).gqStream) = true

theorem program_built {cx : Ctx} (h : b.program cx n = some p) : b.Built cx p := by
  unfold program at h
  simp only [Option.bind_eq_bind, Option.bind_eq_some_iff, Option.guard_eq_some'] at h
  obtain ⟨⟨⟩, -, ⟨⟩, -, ⟨⟩, h8, ⟨⟩, hfits, h⟩ := h
  cases h
  exact ⟨rfl, rfl, rfl, rfl, rfl, rfl, h8, by simpa using hfits⟩

theorem finish_built (hf : b.fused k = some ops) (hp : b.finish k = some p) :
    b.Built (b.ctx k (reduced k ops)) p := by
  unfold finish at hp
  rw [hf] at hp
  simp only [Option.bind_eq_bind, Option.bind_some, Option.bind_eq_some_iff,
    Option.guard_eq_some'] at hp
  obtain ⟨⟨⟩, -, hp⟩ := hp
  exact program_built hp

theorem built_queued (h : (b.ctx k ops).Placed b.nCu) (hp : b.Built (b.ctx k ops) p) :
    Queued (b.ctx k ops) (b.rank (b.ctx k ops)) p ∧
      ∀ e ∈ p.gqStream, p.windowOf e = windowOf (b.ctx k ops).l2 e := by
  have hwin : ∀ e, p.windowOf e = windowOf (b.ctx k ops).l2 e := by
    intro e
    unfold Program.windowOf windowOf
    rw [hp.domains]
    cases hl : (b.ctx k ops).l2 with
    | none => rfl
    | some l =>
      have := @domains_pos b k ops
      unfold Ctx.domains at this
      rw [hl] at this
      exact if_neg (by simpa using ne_of_gt this)
  -- the sorted queue, before the counts are packed
  obtain ⟨gq, hgq⟩ : ∃ gq, gq = gqSort (b.ctx k ops).l2 (b.asap (b.ctx k ops))
    ((b.ctx k ops).emitted b.nCu).gqStream := ⟨_, rfl⟩
  have hperm : gq.Perm ((b.ctx k ops).emitted b.nCu).gqStream := hgq ▸ gqSort_perm _ _ _
  have hsorted := @gqSort_pairwise b k ops
  rw [← hgq] at hsorted
  -- what packing changes: the flags, but not the domain
  obtain ⟨g, hg, hsame⟩ : ∃ g : StreamEnt → StreamEnt, p.gqStream = gq.map g ∧
      ∀ e ∈ gq, ∃ f, g e = { e with flags := f } ∧
        (f &&& seDomainMask) >>> seDomainShift = e.domain := by
    have hq := hp.queue
    rw [← hgq] at hq
    split at hq
    next hl =>
      refine ⟨_, hq, fun e he => packNper_get ?_ he⟩
      have := hp.fits
      rw [← hgq] at this
      refine this.resolve_left fun hn => ?_
      rw [Option.isNone_iff_eq_none.mp hn] at hl
      cases hl
    next => exact ⟨id, by rw [hq, map_id], fun e he => ⟨e.flags, rfl, rfl⟩⟩
  have hplace : ∀ e ∈ gq, (g e).place = e.place := by
    intro e he
    obtain ⟨f, hf, -⟩ := hsame e he
    rw [hf]
    rfl
  have hwindow : ∀ e ∈ gq, windowOf (b.ctx k ops).l2 (g e) = windowOf (b.ctx k ops).l2 e := by
    intro e he
    obtain ⟨f, hf, hd⟩ := hsame e he
    rw [hf]
    unfold windowOf
    split
    · show e.seg * _ + (f &&& seDomainMask) >>> seDomainShift = _
      rw [hd]
    · rfl
  refine ⟨⟨?_, ?_, ?_, ?_⟩, fun e _ => hwin e⟩
  · rw [hg, map_map, ← ((b.ctx k ops).emitted_laid b.nCu).places]
    have : gq.map (StreamEnt.place ∘ g) = gq.map StreamEnt.place :=
      map_congr_left fun e he => hplace e he
    rw [this]
    exact hperm.map _
  · intro e' he'
    rw [hg] at he'
    obtain ⟨e, he, rfl⟩ := mem_map.mp he'
    obtain ⟨op, hop, h1, h2, h3⟩ := emitted_entry h hp.eight (hperm.subset he)
    obtain ⟨f, hf, -⟩ := hsame e he
    refine ⟨op, ?_, ?_, ?_, ?_⟩
    · rw [hf]
      exact hop
    · rw [hf]
      unfold Program.waitsOf
      rw [hp.waits]
      exact h1
    · rw [hf]
      unfold Program.succsOf
      rw [hp.succs]
      exact h2
    · rw [hwin, hwindow e he, h3, hplace e he]
  · rw [hg, pairwise_map]
    refine (List.Pairwise.and_mem.mp hsorted).imp fun {e f} hef => ?_
    obtain ⟨he, hf, hlt⟩ := hef
    rw [hwin, hwin, hwindow e he, hwindow f hf, hplace e he, hplace f hf]
    exact hlt
  · intro e' he'
    rw [hg] at he'
    obtain ⟨e, he, rfl⟩ := mem_map.mp he'
    obtain ⟨_, _, _, _, hent⟩ := ((b.ctx k ops).emitted_laid b.nCu).entry e (hperm.subset he)
    obtain ⟨f, hf, -⟩ := hsame e he
    rw [hf]
    exact hent.seg

end Builder

/-! ### The queue in terms of the slices -/

namespace Queued
variable {cx : Ctx} {rank : ℕ → ℕ} {p : Program} {i j nCu : ℕ} {x y : ℕ × ℕ} {f : StreamEnt}

section

variable (h : Queued cx rank p)
include h

theorem exists_position (hx : x ∈ cx.places) :
    ∃ (i : ℕ) (e : StreamEnt), p.gqStream[i]? = some e ∧ e.place = x := by
  obtain ⟨e, he, rfl⟩ := mem_map.mp (h.perm.symm.subset hx)
  obtain ⟨i, hi⟩ := mem_iff_getElem?.mp he
  exact ⟨i, e, hi, rfl⟩

theorem place_mem (he : p.gqStream[i]? = some e) : e.place ∈ cx.places :=
  h.perm.subset (mem_map_of_mem (mem_of_getElem? he))

theorem waitsFor_iff (he : p.gqStream[i]? = some e)
    (hf : p.gqStream[j]? = some f) : p.queue.WaitsFor i j ↔ cx.Waits e.place f.place := by
  obtain ⟨op, hop, hw, -, -⟩ := h.entry e (mem_of_getElem? he)
  obtain ⟨op', hop', -, hs, -⟩ := h.entry f (mem_of_getElem? hf)
  have hwait : p.queue.wait i = (cx.entryWaits e.inst op e.slice).map fun w => (w.id, w.threshold) := by
    show ((p.gqStream[i]?.map p.waitsOf).getD []).map _ = _
    rw [he, ← hw]
    rfl
  have hbump : p.queue.bump j = cx.entrySuccs f.inst op' f.slice := by
    show (p.gqStream[j]?.map p.succsOf).getD [] = _
    rw [hf, ← hs]
    rfl
  unfold Lib.WindowQueue.WaitsFor Ctx.Waits
  rw [hwait, hbump]
  constructor
  · rintro ⟨-, -, c, hc, hcs⟩
    obtain ⟨w, hw, rfl⟩ := mem_map.mp hc
    exact ⟨h.place_mem he, h.place_mem hf, op, op', hop, hop', w, hw, hcs⟩
  · rintro ⟨-, -, _, _, hop2, hop2', w, hw, hws⟩
    rw [StreamEnt.place, hop] at hop2
    rw [StreamEnt.place, hop'] at hop2'
    cases hop2
    cases hop2'
    exact ⟨(List.getElem?_eq_some_iff.mp he).1, (List.getElem?_eq_some_iff.mp hf).1, _,
      mem_map.mpr ⟨w, hw, rfl⟩, hws⟩

theorem ranked_iff (he : p.gqStream[i]? = some e)
    (hf : p.gqStream[j]? = some f) (hw : p.windowOf e = p.windowOf f) :
    i < j ↔ Ctx.Ranked rank e.place f.place := by
  have hlt : ∀ {i j : ℕ} {e f : StreamEnt}, p.gqStream[i]? = some e → p.gqStream[j]? = some f →
      p.windowOf e = p.windowOf f → i < j → Ctx.Ranked rank e.place f.place := by
    intro i j e f he hf hw hij
    obtain ⟨hi, rfl⟩ := List.getElem?_eq_some_iff.mp he
    obtain ⟨hj, rfl⟩ := List.getElem?_eq_some_iff.mp hf
    rcases pairwise_iff_getElem.mp h.sorted i j hi hj hij with hlt | ⟨-, hr⟩
    · omega
    · exact hr
  refine ⟨hlt he hf hw, fun hr => ?_⟩
  rcases lt_trichotomy i j with hij | rfl | hij
  · exact hij
  · rw [he] at hf
    cases hf
    exact absurd hr (Ctx.not_ranked_self _)
  · exact absurd (Ctx.ranked_trans hr (hlt hf he hw.symm hij)) (Ctx.not_ranked_self _)

theorem balanced (hs : cx.Sound nCu) : p.queue.Balanced := by
  have hbumps : ∀ c, p.queue.bumps (Finset.range p.queue.size) c = cx.bumpers c := by
    intro c
    have hsum : p.queue.bumps (Finset.range p.queue.size) c =
        (p.gqStream.map fun e => (p.succsOf e).count c).sum := by
      unfold Lib.WindowQueue.bumps
      show ∑ i ∈ Finset.range p.gqStream.length, _ = _
      rw [Finset.sum_range, ← Fin.sum_univ_fun_getElem]
      apply Finset.sum_congr rfl
      intro i _
      show ((p.gqStream[i.1]?.map p.succsOf).getD []).count c = _
      rw [getElem?_eq_getElem i.2]
      rfl
    rw [hsum]
    unfold Ctx.bumpers
    rw [← (h.perm.map _).sum_eq, map_map]
    congr 1
    apply map_congr_left
    intro e he
    obtain ⟨op, hop, -, hs, -⟩ := h.entry e he
    show _ = ((cx.ops[e.inst]?.map fun op => cx.entrySuccs e.inst op e.slice).getD []).count c
    rw [hop, hs]
    rfl
  intro i hi c hc
  have he : p.gqStream[i]? = some _ := getElem?_eq_getElem hi
  obtain ⟨op, hop, hw, -, -⟩ := h.entry _ (mem_of_getElem? he)
  have hwait : p.queue.wait i = (p.waitsOf p.gqStream[i]).map fun w => (w.id, w.threshold) := by
    show ((p.gqStream[i]?.map p.waitsOf).getD []).map _ = _
    rw [he]
    rfl
  rw [hwait, hw] at hc
  obtain ⟨w, hw, rfl⟩ := mem_map.mp hc
  obtain ⟨op', hop', hlt⟩ := Ctx.mem_places.mp (h.place_mem he)
  rw [StreamEnt.place, hop] at hop'
  cases hop'
  rw [hbumps]
  exact Ctx.threshold_eq hs hop hlt hw

theorem windows_mono : (p.gqStream.map p.windowOf).Pairwise (· ≤ ·) := by
  rw [pairwise_map]
  exact h.sorted.imp fun hef => by omega

end

theorem in_iff (hx : BoundsExact (p.gqSegOfs.length - 1) (p.gqStream.map p.windowOf) p.gqSegOfs)
    {w : ℕ} : p.queue.In w i ↔
      w < p.gqSegOfs.length - 1 ∧ p.gqStream[i]?.map p.windowOf = some w := by
  unfold Lib.WindowQueue.In
  refine and_congr_right fun hw => ?_
  obtain ⟨lo, hi, hlo, hhi, hall⟩ := hx.window w hw
  have hi' := hall i
  rw [getElem?_map] at hi'
  rw [← hi']
  show p.gqSegOfs.getD w 0 ≤ i ∧ i < p.gqSegOfs.getD (w + 1) 0 ↔ _
  rw [getD_eq_getElem?_getD, getD_eq_getElem?_getD, hlo, hhi]
  rfl

theorem tiled (hx : BoundsExact (p.gqSegOfs.length - 1) (p.gqStream.map p.windowOf) p.gqSegOfs)
    (hin : ∀ e ∈ p.gqStream, p.windowOf e < p.gqSegOfs.length - 1) : p.queue.Tiled where
  covers i hi := by
    have he : p.gqStream[i]? = some _ := getElem?_eq_getElem hi
    refine ⟨p.windowOf p.gqStream[i], (in_iff hx).mpr ⟨hin _ (getElem_mem hi), ?_⟩⟩
    rw [he]
    rfl
  apart v w i hv hw := by
    have h1 := ((in_iff hx).mp hv).2
    rw [((in_iff hx).mp hw).2] at h1
    exact (Option.some.inj h1).symm
  inside w i hw := by
    obtain ⟨e, he, -⟩ := Option.map_eq_some_iff.mp ((in_iff hx).mp hw).2
    exact (List.getElem?_eq_some_iff.mp he).1
  ordered w hw := by
    obtain ⟨lo, hi, hlo, hhi, -⟩ := hx.window w hw
    show p.gqSegOfs.getD w 0 ≤ p.gqSegOfs.getD (w + 1) 0
    rw [getD_eq_getElem?_getD, getD_eq_getElem?_getD, hlo, hhi]
    obtain ⟨h1, rfl⟩ := List.getElem?_eq_some_iff.mp hlo
    obtain ⟨h2, rfl⟩ := List.getElem?_eq_some_iff.mp hhi
    exact pairwise_iff_getElem.mp hx.mono w (w + 1) h1 h2 (Nat.lt_succ_self w)

/-- What comes first in the queue is what comes first of the slices. -/
theorem precedes_iff (h : Queued cx rank p)
    (hx : BoundsExact (p.gqSegOfs.length - 1) (p.gqStream.map p.windowOf) p.gqSegOfs)
    (hin : ∀ e ∈ p.gqStream, p.windowOf e < p.gqSegOfs.length - 1)
    (hdom : max p.l2Domains 1 = cx.domains) (hlt : ∀ x ∈ cx.places, cx.placeDomain x < cx.domains)
    (he : p.gqStream[i]? = some e) (hf : p.gqStream[j]? = some f) :
    p.queue.Precedes j i ↔ cx.First rank f.place e.place := by
  obtain ⟨-, -, -, -, hwe⟩ := h.entry e (mem_of_getElem? he)
  obtain ⟨-, -, -, -, hwf⟩ := h.entry f (mem_of_getElem? hf)
  have hseg : ∀ w, p.queue.seg w = w / cx.domains := by
    intro w
    rw [← hdom]
    rfl
  have hin_e : p.queue.In (p.windowOf e) i := (in_iff hx).mpr
    ⟨hin e (mem_of_getElem? he), by rw [he]; rfl⟩
  have hin_f : p.queue.In (p.windowOf f) j := (in_iff hx).mpr
    ⟨hin f (mem_of_getElem? hf), by rw [hf]; rfl⟩
  unfold Lib.WindowQueue.Precedes Ctx.First
  refine or_congr (h.waitsFor_iff he hf) ⟨?_, ?_⟩
  · rintro ⟨v, w, hv, hw, hor⟩
    have hv' : v = p.windowOf f := (tiled hx hin).apart v _ j hv hin_f
    have hw' : w = p.windowOf e := (tiled hx hin).apart w _ i hw hin_e
    subst hv' hw'
    refine ⟨h.place_mem hf, h.place_mem he, ?_⟩
    rw [hseg, hseg, hwe, hwf, Ctx.placeWindow_div (hlt _ (h.place_mem he)),
      Ctx.placeWindow_div (hlt _ (h.place_mem hf))] at hor
    rcases hor with hlt | ⟨heq, hji⟩
    · exact .inl hlt
    · refine .inr ⟨heq, (h.ranked_iff hf he ?_).mp hji⟩
      rw [hwe, hwf]
      exact heq
  · rintro ⟨-, -, hor⟩
    refine ⟨_, _, hin_f, hin_e, ?_⟩
    rw [hseg, hseg, hwe, hwf, Ctx.placeWindow_div (hlt _ (h.place_mem he)),
      Ctx.placeWindow_div (hlt _ (h.place_mem hf))]
    rcases hor with hlt | ⟨heq, hr⟩
    · exact .inl hlt
    · exact .inr ⟨heq, (h.ranked_iff hf he (by rw [hwe, hwf]; exact heq)).mpr hr⟩

/-- The queue has no cycle exactly if the slices have none. -/
theorem acyclic_iff (h : Queued cx rank p)
    (hx : BoundsExact (p.gqSegOfs.length - 1) (p.gqStream.map p.windowOf) p.gqSegOfs)
    (hin : ∀ e ∈ p.gqStream, p.windowOf e < p.gqSegOfs.length - 1)
    (hdom : max p.l2Domains 1 = cx.domains) (hlt : ∀ x ∈ cx.places, cx.placeDomain x < cx.domains) :
    (∀ i, ¬ Relation.TransGen p.queue.Precedes i i) ↔ cx.NoCycle rank := by
  have hT := tiled hx hin
  constructor
  · intro hA x hcyc
    -- a position for each slice
    have hmem : ∀ x y, cx.First rank x y → x ∈ cx.places ∧ y ∈ cx.places := by
      rintro x y (⟨hy, hx, -⟩ | ⟨hx, hy, -⟩)
      · exact ⟨hx, hy⟩
      · exact ⟨hx, hy⟩
    have hpos : ∀ x, ∃ i : ℕ, x ∈ cx.places → ∃ e : StreamEnt, p.gqStream[i]? = some e ∧ e.place = x := by
      intro x
      by_cases hx : x ∈ cx.places
      · obtain ⟨i, e, hi, he⟩ := h.exists_position hx
        exact ⟨i, fun _ => ⟨e, hi, he⟩⟩
      · exact ⟨0, fun hx' => absurd hx' hx⟩
    choose pos hpos using hpos
    refine hA (pos x) (hcyc.lift pos fun y z hyz => ?_)
    obtain ⟨hy, hz⟩ := hmem y z hyz
    obtain ⟨e, he, hey⟩ := hpos y hy
    obtain ⟨f, hf, hfz⟩ := hpos z hz
    refine (h.precedes_iff hx hin hdom hlt hf he).mpr ?_
    rw [hey, hfz]
    exact hyz
  · intro hN i hcyc
    refine hN _ (hcyc.lift (fun i => (p.gqStream[i]?.map StreamEnt.place).getD (0, 0)) fun j i hji => ?_)
    obtain ⟨hj, hi⟩ := hji.lt hT
    have he : p.gqStream[i]? = some _ := getElem?_eq_getElem hi
    have hf : p.gqStream[j]? = some _ := getElem?_eq_getElem hj
    have hxy := (h.precedes_iff hx hin hdom hlt he hf).mp hji
    show cx.First rank ((p.gqStream[j]?.map StreamEnt.place).getD (0, 0))
      ((p.gqStream[i]?.map StreamEnt.place).getD (0, 0))
    rw [he, hf]
    exact hxy

end Queued

/-! ### When the windows are right -/

namespace Builder
variable {b : Builder} {k : Launch} {ops : List Op} {p : Program}

theorem entSeg_lt {i : ℕ} (hi : i < (b.ctx k ops).ops.length) :
    (b.ctx k ops).entSeg i < b.orderedSegments (b.ctx k ops) := by
  unfold Ctx.entSeg orderedSegments
  show (if (b.l2Place.isSome && !b.opts.unisegDenied) = true then 0 else _) <
    if (b.l2Place.isSome && !b.opts.unisegDenied) = true then 1 else _
  split
  · exact one_pos
  · exact Nat.lt_succ_of_le (segAt_mono _ _ _ _ (by omega))

theorem windows_length (hp : b.Built (b.ctx k ops) p)
    (hmono : (p.gqStream.map (Devbuild.windowOf (b.ctx k ops).l2)).Pairwise (· ≤ ·))
    (hlt : ∀ w ∈ p.gqStream.map (Devbuild.windowOf (b.ctx k ops).l2),
      w < b.orderedSegments (b.ctx k ops) * (b.ctx k ops).domains) :
    p.gqSegOfs.length - 1 = b.orderedSegments (b.ctx k ops) * (b.ctx k ops).domains := by
  obtain ⟨_, -, -, hlen, -⟩ := windowBounds_spec hmono hlt
  rw [hp.table, hlen, Nat.add_sub_cancel]

theorem lastWindow_iff (h : (b.ctx k ops).Placed b.nCu) (hq : Queued (b.ctx k ops)
    (b.rank (b.ctx k ops)) p) : p.gqStream.map p.windowOf = [] ∨
      b.orderedSegments (b.ctx k ops) * (b.ctx k ops).domains - 1 ∈ p.gqStream.map p.windowOf ↔
    b.LastWindow (b.ctx k ops) := by
  unfold LastWindow
  refine or_congr ?_ ⟨?_, ?_⟩
  · rw [map_eq_nil_iff]
    constructor
    · intro hnil
      by_contra hne
      obtain ⟨op, hop⟩ := exists_mem_of_ne_nil _ hne
      obtain ⟨i, hi⟩ := mem_iff_getElem?.mp hop
      have hx : (i, 0) ∈ (b.ctx k ops).places := Ctx.mem_places.mpr
        ⟨op, hi, length_pos_iff.mpr (h.formed i op hi).inhabited⟩
      obtain ⟨j, e, hj, -⟩ := hq.exists_position hx
      rw [hnil] at hj
      cases hj
    · intro hnil
      by_contra hne
      obtain ⟨e, he⟩ := exists_mem_of_ne_nil _ hne
      obtain ⟨op, hop, -⟩ := hq.entry e he
      rw [hnil] at hop
      cases hop
  · intro hmem
    obtain ⟨e, he, hw⟩ := mem_map.mp hmem
    obtain ⟨j, hj⟩ := mem_iff_getElem?.mp he
    have hx := hq.place_mem hj
    obtain ⟨op, hop, -, -, hwe⟩ := hq.entry e he
    have hd := placeDomain_lt h hx
    have hs := entSeg_lt (List.getElem?_eq_some_iff.mp hop).1
    rw [hwe] at hw
    refine ⟨e.place, hx, ?_, ?_⟩ <;> unfold Ctx.placeWindow at hw
    · by_contra hne
      have hle : (b.ctx k ops).entSeg e.place.1 + 2 ≤ b.orderedSegments (b.ctx k ops) := by
        change (b.ctx k ops).entSeg e.inst + 2 ≤ _
        change ¬ (b.ctx k ops).entSeg e.inst + 1 = _ at hne
        omega
      have := Nat.mul_le_mul_right (b.ctx k ops).domains hle
      rw [add_mul] at this
      omega
    · have hle := Nat.mul_le_mul_right (b.ctx k ops).domains (Nat.succ_le_of_lt hs)
      rw [Nat.succ_mul] at hle
      change (b.ctx k ops).entSeg e.place.1 * _ + _ ≤ _ at hle
      omega
  · rintro ⟨x, hx, hs, hd⟩
    obtain ⟨j, e, hj, rfl⟩ := hq.exists_position hx
    obtain ⟨op, hop, -, -, hwe⟩ := hq.entry e (mem_of_getElem? hj)
    refine mem_map.mpr ⟨e, mem_of_getElem? hj, ?_⟩
    rw [hwe, ← hs, Nat.succ_mul]
    unfold Ctx.placeWindow
    omega

/-- The windows of a finished program's queue do what they are for exactly if the last window has
an entry and nothing comes before itself, which it does not where placement leaves the segments
apart that the ranks are relative to. -/
theorem queue_windows (hb : Reach b) (hf : b.fused k = some ops) (hr : InRange ops)
    (hp : b.finish k = some p) : p.QueueOk ↔ b.LastWindow (b.ctx k (reduced k ops)) ∧
      (b.Apart (b.ctx k (reduced k ops)) ∨
        (b.ctx k (reduced k ops)).NoCycle (b.rank (b.ctx k (reduced k ops)))) := by
  have hs : (b.ctx k (reduced k ops)).Sound b.nCu := ctx_sound (fused_formed hb.formed hf) hr
  have hbuilt := finish_built hf hp
  obtain ⟨hq, hwin⟩ := built_queued hs.toPlaced hbuilt
  have hmap : p.gqStream.map (Devbuild.windowOf (b.ctx k (reduced k ops)).l2) =
      p.gqStream.map p.windowOf := map_congr_left fun e he => (hwin e he).symm
  have hlt : ∀ w ∈ p.gqStream.map p.windowOf,
      w < b.orderedSegments (b.ctx k (reduced k ops)) * (b.ctx k (reduced k ops)).domains := by
    intro w hw
    obtain ⟨e, he, rfl⟩ := mem_map.mp hw
    obtain ⟨j, hj⟩ := mem_iff_getElem?.mp he
    obtain ⟨op, hop, -, -, hwe⟩ := hq.entry e he
    have hd := placeDomain_lt hs.toPlaced (hq.place_mem hj)
    have hle := Nat.mul_le_mul_right (b.ctx k (reduced k ops)).domains
      (Nat.succ_le_of_lt (entSeg_lt (List.getElem?_eq_some_iff.mp hop).1))
    rw [hwe]
    unfold Ctx.placeWindow
    rw [Nat.succ_mul] at hle
    change (b.ctx k (reduced k ops)).entSeg e.place.1 * _ + _ ≤ _ at hle
    omega
  have hlen : p.gqSegOfs.length - 1 =
      b.orderedSegments (b.ctx k (reduced k ops)) * (b.ctx k (reduced k ops)).domains :=
    windows_length hbuilt (hmap ▸ hq.windows_mono) (hmap ▸ hlt)
  have hpos : 0 < b.orderedSegments (b.ctx k (reduced k ops)) * (b.ctx k (reduced k ops)).domains := by
    refine Nat.mul_pos ?_ domains_pos
    unfold orderedSegments
    split <;> omega
  have htable : p.gqSegOfs = windowBounds (p.gqSegOfs.length - 1) (p.gqStream.map p.windowOf) := by
    rw [hlen, ← hmap]
    exact hbuilt.table
  have hin : ∀ e ∈ p.gqStream, p.windowOf e < p.gqSegOfs.length - 1 := fun e he => by
    rw [hlen]
    exact hlt _ (mem_map_of_mem he)
  have hexact : BoundsExact (p.gqSegOfs.length - 1) (p.gqStream.map p.windowOf) p.gqSegOfs ↔
      b.LastWindow (b.ctx k (reduced k ops)) := by
    rw [← lastWindow_iff hs.toPlaced hq, ← hlen, ← bounds_exact_iff hq.windows_mono (hlen ▸ hlt) (hlen ▸ hpos),
      ← htable]
  have hdom : max p.l2Domains 1 = (b.ctx k (reduced k ops)).domains := by
    have := @domains_pos b k (reduced k ops)
    rw [hbuilt.domains]
    unfold Ctx.domains at this ⊢
    cases hl : (b.ctx k (reduced k ops)).l2 with
    | none => rfl
    | some l =>
      rw [hl] at this
      exact max_eq_left this
  have hplace : ∀ x ∈ (b.ctx k (reduced k ops)).places,
      (b.ctx k (reduced k ops)).placeDomain x < (b.ctx k (reduced k ops)).domains :=
    fun x hx => placeDomain_lt hs.toPlaced hx
  constructor
  · intro h
    refine ⟨hexact.mp h.exact, .inr ?_⟩
    rw [← hq.acyclic_iff h.exact hin hdom hplace]
    exact Lib.WindowQueue.acyclic_of_live (Queued.tiled h.exact hin) (hq.balanced hs) h.live
  · rintro ⟨hlast, hor⟩
    have hx := hexact.mpr hlast
    have hN : (b.ctx k (reduced k ops)).NoCycle (b.rank (b.ctx k (reduced k ops))) :=
      hor.elim (noCycle_of_apart hs) id
    have hA := (hq.acyclic_iff hx hin hdom hplace).mpr hN
    have hT := Queued.tiled hx hin
    refine ⟨hin, hx, fun i j hij hsame => ?_, ?_⟩
    · -- an entry that came later than one waiting for it would come before itself
      have hrev : Relation.TransGen p.queue.Precedes j i := by
        exact Relation.TransGen.mono (fun y z hyz => .inl hyz) _ _ hij.swap
      have hlts : i < p.queue.size ∧ j < p.queue.size := by
        obtain ⟨m, him, -⟩ := Relation.TransGen.head'_iff.mp hij
        obtain ⟨m', -, hmj⟩ := Relation.TransGen.tail'_iff.mp hij
        exact ⟨him.1, hmj.2.1⟩
      obtain ⟨w, hw⟩ := hT.covers i hlts.1
      have hwj : p.queue.In w j := (Queued.in_iff hx).mpr
        ⟨((Queued.in_iff hx).mp hw).1, hsame ▸ ((Queued.in_iff hx).mp hw).2⟩
      by_contra hge
      rcases lt_or_eq_of_le (Nat.not_lt.mp hge) with hlt' | rfl
      · exact hA i (.head (.inr ⟨w, w, hw, hwj, .inr ⟨rfl, hlt'⟩⟩) hrev)
      · exact hA i hrev
    · exact Lib.WindowQueue.live_of_acyclic hT (hq.balanced hs) hA

theorem emit_counter_lt {op : ℕ} {cus deps : List ℕ} {f : DevInst → DevInst}
    (he : b.emit op cus deps f = some (b', c)) : c < b'.ops.length := by
  unfold emit emitDep at he
  simp only [Option.bind_eq_bind, Option.bind_eq_some_iff, Option.guard_eq_some'] at he
  obtain ⟨⟨⟩, -, ⟨⟩, -, ⟨⟩, -, ⟨⟩, -, he⟩ := he
  split at he
  · cases he
    simp [push]
  · cases he
    simp [push]

/-- one wave class, nothing raw or marked -/
def plainLaunch : Launch where
  uniseg := false
  fuseXrAttnres := false
  fineForce := false
  segPerOp := false
  sliceMode := 0
  segSliceAll := false
  native _ _ := false
  waveClass _ _ := 8
  raw _ := false
  decodeGroupedMoe _ := false
  decodeW8a8Moe _ := false
  decodeMlaBf16 _ := false
  xrWaveRs _ _ := false
  kda _ _ := false
  kdaKeyfeed _ _ := false

/-- two compute units, each a domain of its own, ordered segments -/
def twoDomains : Options where
  placeL2 := some ⟨1, 2, .roundRobin⟩
  unisegDenied := true
  unisegForced := false
  gqOrderAsap := true
  gqOrderSeg := true
  fuseMaterializedResidualInputs := false
  gemvSplit := 1
  cuCap := none

/-- an operation on the compute units `cus`, and one behind it -/
def pairOn (cus : List ℕ) : Option Builder := do
  let (b, c) ← (Builder.new 2 twoDomains).emit opGemv cus [] id
  let (b, _) ← b.emit opGemv cus [c] id
  return b

theorem pairOn_reach {cus : List ℕ} (h : pairOn cus = some b) : Reach b := by
  unfold pairOn at h
  simp only [Option.bind_eq_bind, Option.bind_eq_some_iff, Option.pure_def, Option.some.injEq] at h
  obtain ⟨⟨b1, c⟩, h1, ⟨b2, c2⟩, h2, rfl⟩ := h
  refine .emit (.emit (.new 2 twoDomains) (fun _ hd => absurd hd (not_mem_nil)) h1)
    (fun d hd => ?_) h2
  rw [mem_singleton.mp hd]
  exact emit_counter_lt h1

/-- Where both operations run on both compute units the windows are right. -/
theorem queue_windows_pair : ∃ b p, pairOn [0, 1] = some b ∧ b.finish plainLaunch = some p ∧
    p.QueueOk := by
  obtain ⟨b, hb⟩ : ∃ b, pairOn [0, 1] = some b := ⟨_, rfl⟩
  obtain ⟨p, hp⟩ : ∃ p, b.finish plainLaunch = some p := by
    cases hb
    exact ⟨_, rfl⟩
  refine ⟨b, p, hb, hp, (@queue_windows b plainLaunch b.ops p (pairOn_reach hb) ?_ ?_ hp).mpr
    ⟨.inr ⟨(0, 1), ?_, ?_, ?_⟩, .inl fun h => ?_⟩⟩
  all_goals cases hb
  · rfl
  · intro op hop p map hd
    rcases mem_cons.mp hop with rfl | hop
    · cases hd
    · rw [mem_singleton.mp hop] at hd
      cases mem_singleton.mp hd
  · decide
  · rfl
  · rfl
  · cases h

/-- On the first compute unit only, the last window is empty, and the one before it has no end. -/
theorem queue_windows_narrow : ∃ b p, Reach b ∧ b.finish plainLaunch = some p ∧ ¬ p.QueueOk := by
  obtain ⟨b, hb⟩ : ∃ b, pairOn [0] = some b := ⟨_, rfl⟩
  have hp : (b.finish plainLaunch).map (fun p => (p.gqSegOfs, p.gqStream.map p.windowOf)) =
      some ([0, 0, 2], [0, 0]) := by
    cases hb
    rfl
  obtain ⟨p, hp, htable⟩ := Option.map_eq_some_iff.mp hp
  obtain ⟨hofs, hkeys⟩ := Prod.mk.inj htable
  refine ⟨b, p, pairOn_reach hb, hp, fun h => ?_⟩
  have hx := h.exact
  rw [hofs, hkeys] at hx
  obtain ⟨lo, hi, -, hhi, hall⟩ := hx.window 0 Nat.two_pos
  cases hhi
  exact Nat.not_lt_zero 0 ((hall 0).mpr rfl).2

end Builder

end Plow.Devbuild
