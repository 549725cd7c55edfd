import Plow.MixedStep.Validate

/-!
# Sound plans under the dense covers

Under the decode band and prefix-free the two loops put the scheduled rows one behind the other, so
the rows of the requests are known after every turn (`Laid`); `finish` then adds the padding behind
them (`finish_iff`), and the plan is sound (`dense_sound`).
-/

namespace Plow.MixedStep
open Plow.Lib List
open Plow.TokenBatch (Plans PrefillSpan checkedAdd checkedAdd_some okOrErr okOrErr_ok)

variable {env : Env} {sampling : Bool} {ds ds' : List DecodeRequest} {ps prior ps' rs : List PrefillRequest}
  {d : DecodeRequest} {p : PrefillRequest} {out out' : Plan} {n : Nat} {r : Row}

/-! ### Slots taken before -/

theorem none_has {α : Type} {as : List α} {f : α → Nat} :
    (!as.any fun a => decide (f a = n)) = true ↔ n ∉ as.map f := by
  simp only [Bool.not_eq_true', any_eq_false, decide_eq_true_eq, mem_map, not_exists,
    not_and]

theorem nodup_concat {α : Type} {as : List α} {a : α} (h : as.Nodup) (ha : a ∉ as) :
    (as ++ [a]).Nodup := by
  rw [← concat_eq_append]
  exact h.concat ha

/-! ### What a turn does -/

def endOf (env : Env) (d : DecodeRequest) : Nat := env.frontiers.getD d.slot 0 + 1

/-- what is asked of a decode request under every cover -/
structure DecodeOk (env : Env) (d : DecodeRequest) : Prop where
  slot : d.slot < env.frontiers.length
  stateSlot : d.stateSlot < env.frontiers.length
  fits : endOf env d < 2 ^ 32
  ctx : endOf env d ≤ env.maxCtx

/-- what is asked of a chunk under every cover -/
structure PrefillOk (env : Env) (p : PrefillRequest) : Prop where
  slot : p.slot < env.frontiers.length
  stateSlot : p.stateSlot < env.frontiers.length
  tokens : 0 < p.tokens.length
  start : p.start = env.frontiers.getD p.slot 0
  fits : stopOf p < 2 ^ 32
  prompt : stopOf p ≤ p.promptLen
  ctx : stopOf p ≤ env.maxCtx

theorem decodeOne_ok {prior : List DecodeRequest} (h : decodeOne env sampling prior d out = .ok out') :
    DecodeOk env d ∧ d.slot < 2 ^ 31 ∧ out.rows.length < env.rows ∧
      d.slot ∉ prior.map (·.slot) ∧ d.stateSlot ∉ prior.map (·.stateSlot) ∧
      out'.rows = out.rows ++ [decodeRow env d] ∧
      out'.decodeSlots = out.decodeSlots ++ [(d.slot : Int)] ∧
      out'.sampleInputRows = out.sampleInputRows ++ [prior.length] ∧
      (sampling = false → out'.prefillSpans = out.prefillSpans) ∧
      out'.mappedEnds = out.mappedEnds ++ [(d.slot, endOf env d)] := by
  unfold decodeOne at h
  obtain ⟨g, h⟩ := require_bind.mp h
  obtain ⟨g1, g2, g3, g4⟩ := of_decide_eq_true g
  obtain ⟨stop, e2, h⟩ := bind_ok.mp h
  obtain ⟨h2, rfl⟩ := checkedAdd_some.mp (okOrErr_ok.mp e2)
  obtain ⟨h3, h⟩ := require_bind.mp h
  obtain ⟨h3, h4⟩ := of_decide_eq_true h3
  obtain ⟨m, e5, h⟩ := bind_ok.mp h
  obtain ⟨h5, rfl⟩ := tryI32_ok.mp e5
  have hd : DecodeOk env d := ⟨g1, g2, h2, h3⟩
  cases sampling with
  | false =>
    obtain ⟨row0, -, h⟩ := bind_ok.mp h
    obtain rfl := pure_ok.mp h
    exact ⟨hd, h5, h4, none_has.mp g3, none_has.mp g4, rfl, rfl, rfl, fun _ => rfl, rfl⟩
  | true =>
    obtain ⟨row0, -, h⟩ := bind_ok.mp h
    obtain rfl := pure_ok.mp h
    exact ⟨hd, h5, h4, none_has.mp g3, none_has.mp g4, rfl, rfl, rfl, nofun, rfl⟩

/-- the span of a chunk from the row `n` on, with its flags -/
def spanOf (env : Env) (flags n : Nat) (p : PrefillRequest) : PrefillSpan where
  row0 := n
  nRows := p.tokens.length
  slot := p.slot
  flags := flags
  kvRow0 := p.start
  kvLen := stopOf p
  stateSlot := p.stateSlot
  program := env.auxiliaryProgram

def completing (sampling : Bool) (p : PrefillRequest) : Bool := sampling && stopOf p == p.promptLen

theorem prefillOne_ok
    (h : prefillOne env sampling ds prior p out = .ok out') :
    PrefillOk env p ∧ out.rows.length + p.tokens.length ≤ env.rows ∧ out.rows.length < 2 ^ 32 ∧
      (completing sampling p = true → p.slot < 2 ^ 31) ∧
      p.slot ∉ ds.map (·.slot) ++ prior.map (·.slot) ∧
      p.stateSlot ∉ ds.map (·.stateSlot) ++ prior.map (·.stateSlot) ∧
      out'.rows = out.rows ++ chunkOf p ∧
      out'.decodeSlots = out.decodeSlots ++ (if completing sampling p then [(p.slot : Int)] else []) ∧
      out'.sampleInputRows = out.sampleInputRows ++
        (if completing sampling p then [out.rows.length + p.tokens.length - 1] else []) ∧
      (sampling = false → out'.prefillSpans =
        out.prefillSpans ++ [spanOf env (resetFlag p.start) out.rows.length p]) ∧
      out'.mappedEnds = out.mappedEnds ++ [(p.slot, stopOf p)] := by
  unfold prefillOne at h
  obtain ⟨g, h⟩ := require_bind.mp h
  obtain ⟨g1, g2, g3, g4⟩ := of_decide_eq_true g
  rw [Bool.not_or, Bool.and_eq_true, none_has, none_has] at g3 g4
  obtain ⟨n, e1, h⟩ := bind_ok.mp h
  obtain ⟨-, rfl⟩ := tryU32_ok.mp e1
  obtain ⟨stop, e2, h⟩ := bind_ok.mp h
  obtain ⟨h2, rfl⟩ := checkedAdd_some.mp (okOrErr_ok.mp e2)
  obtain ⟨h3, h⟩ := require_bind.mp h
  obtain ⟨h31, h32, h33, h34, h35⟩ := of_decide_eq_true h3
  obtain ⟨row0, e4, h⟩ := bind_ok.mp h
  obtain ⟨h4, rfl⟩ := tryU32_ok.mp e4
  obtain ⟨o, e5, h⟩ := bind_ok.mp h
  obtain ⟨h5, rfl⟩ := sampledSlot_ok.mp e5
  obtain rfl := pure_ok.mp h
  have hslots : p.slot ∉ ds.map (·.slot) ++ prior.map (·.slot) := fun hm =>
    (mem_append.mp hm).elim g3.1 g3.2
  have hstates : p.stateSlot ∉ ds.map (·.stateSlot) ++ prior.map (·.stateSlot) := fun hm =>
    (mem_append.mp hm).elim g4.1 g4.2
  refine ⟨⟨g1, g2, h31, h32, h2, h33, h34⟩, h35, h4, h5, hslots, hstates, rfl, ?_, rfl, ?_, rfl⟩
  · show out.decodeSlots ++ (if completing sampling p then some (p.slot : Int) else none).toList = _
    cases completing sampling p with
    | true => rfl
    | false => rfl
  · rintro rfl
    show _ ++ [spanOf env (resetFlag p.start ||| 0) _ p] = _
    rw [Nat.or_zero]

/-! ### After every turn -/

def chunkTotal (ps : List PrefillRequest) : Nat := (ps.map (·.tokens.length)).sum

theorem chunkTotal_append (ps ps' : List PrefillRequest) :
    chunkTotal (ps ++ ps') = chunkTotal ps + chunkTotal ps' := by
  unfold chunkTotal
  rw [map_append, sum_append]

theorem chunkTotal_cons (p : PrefillRequest) : chunkTotal (p :: ps) = p.tokens.length + chunkTotal ps :=
  rfl

theorem length_chunks (ps : List PrefillRequest) : (ps.flatMap chunkOf).length = chunkTotal ps := by
  rw [length_flatMap]
  exact congrArg sum (map_congr_left fun p _ => length_chunkRows)

/-- the spans of the chunks from the row `n` on -/
def spansFrom (env : Env) : Nat → List PrefillRequest → List PrefillSpan
  | _, [] => []
  | n, p :: ps => spanOf env (resetFlag p.start) n p :: spansFrom env (n + p.tokens.length) ps

theorem spansFrom_concat (n : Nat) : spansFrom env n (ps ++ [p]) = spansFrom env n ps ++
    [spanOf env (resetFlag p.start) (n + chunkTotal ps) p] := by
  induction ps generalizing n with
  | nil => rfl
  | cons q ps ih =>
    rw [cons_append, spansFrom, ih, spansFrom, chunkTotal_cons, Nat.add_assoc]
    rfl

theorem length_spansFrom (n : Nat) : (spansFrom env n ps).length = ps.length := by
  induction ps generalizing n with
  | nil => rfl
  | cons q ps ih => rw [spansFrom, length_cons, ih, length_cons]

theorem spansFrom_slots (n : Nat) : (spansFrom env n ps).map (·.slot) = ps.map (·.slot) := by
  induction ps generalizing n with
  | nil => rfl
  | cons p ps ih => rw [spansFrom, map_cons, ih, map_cons]; rfl

def endsOf (env : Env) (ds : List DecodeRequest) (ps : List PrefillRequest) : List (Nat × Nat) :=
  ds.map (fun d => (d.slot, endOf env d)) ++ ps.map fun p => (p.slot, stopOf p)

theorem length_scheduled : (scheduled env ds ps).length = ds.length + chunkTotal ps := by
  unfold scheduled
  rw [length_append, length_map, length_chunks]

/-- what the plan holds when the turns of the requests `ds` and `ps` are over -/
structure Laid (env : Env) (sampling : Bool) (ds : List DecodeRequest) (ps : List PrefillRequest)
    (out : Plan) : Prop where
  decode : ∀ d ∈ ds, DecodeOk env d
  prefill : ∀ p ∈ ps, PrefillOk env p
  slots : (ds.map (·.slot) ++ ps.map (·.slot)).Nodup
  stateSlots : (ds.map (·.stateSlot) ++ ps.map (·.stateSlot)).Nodup
  rows : out.rows = scheduled env ds ps
  fits : out.rows.length ≤ env.rows
  samples : ∃ l, Samples env sampling ds ps out l
  leading : sampling = false → (∀ d ∈ ds, d.slot < 2 ^ 31) ∧
    out.decodeSlots = ds.map (fun d => asI32 d.slot) ∧ out.prefillSpans = spansFrom env ds.length ps
  ends : out.mappedEnds = endsOf env ds ps

theorem asI32_small (h : n < 2 ^ 31) : asI32 n = (n : Int) := by
  unfold asI32
  rw [Int.bmod_def]
  omega

theorem samples_mono {l : List (Nat × Nat)} (h : Samples env sampling ds ps out l)
    {rows : List Row} {q : Nat × Nat} (hq : q ∈ l) (hrows : ∃ more, rows = out.rows ++ more) :
    ∃ r, rows[q.2]? = some r ∧ r.slot = q.1 ∧ IsLast env sampling ds ps r := by
  obtain ⟨r, h1, h2, h3⟩ := h.last q hq
  obtain ⟨more, rfl⟩ := hrows
  refine ⟨r, ?_, h2, h3⟩
  obtain ⟨hlt, -⟩ := List.getElem?_eq_some_iff.mp h1
  rw [getElem?_append_left hlt, h1]

theorem isLast_mono (hd : ds ⊆ ds') (hp : ps ⊆ ps') (h : IsLast env sampling ds ps r) :
    IsLast env sampling ds' ps' r := by
  rcases h with ⟨d, h1, h2⟩ | ⟨p, h1, h2⟩
  · exact .inl ⟨d, hd h1, h2⟩
  · exact .inr ⟨p, hp h1, h2⟩

theorem laid_nil {cover : SpanCover} : Laid env sampling [] [] { Plan.empty with cover } where
  decode := nofun
  prefill := nofun
  slots := nodup_nil
  stateSlots := nodup_nil
  rows := rfl
  fits := Nat.zero_le _
  samples := ⟨[], rfl, rfl, nofun, nofun, nofun, nofun⟩
  leading _ := ⟨nofun, rfl, rfl⟩
  ends := rfl

/-- a turn of the decode loop -/
theorem laid_decode (hl : Laid env sampling ds [] out)
    (h : decodeOne env sampling ds d out = .ok out') : Laid env sampling (ds ++ [d]) [] out' := by
  obtain ⟨h1, h2, h3, h4, h5, h6, h7, h8, h9, h10⟩ := decodeOne_ok h
  have hlen : out.rows.length = ds.length := by
    rw [hl.rows, length_scheduled]
    rfl
  refine ⟨?_, nofun, ?_, ?_, ?_, ?_, ?_, ?_, ?_⟩
  · rw [forall_mem_append]
    exact ⟨hl.decode, forall_mem_singleton.mpr h1⟩
  · have := hl.slots
    simp only [map_append, map_nil, append_nil] at this ⊢
    exact nodup_concat this h4
  · have := hl.stateSlots
    simp only [map_append, map_nil, append_nil] at this ⊢
    exact nodup_concat this h5
  · rw [h6, hl.rows]
    simp [scheduled]
  · rw [h6, length_append]
    exact h3
  · obtain ⟨l, hs⟩ := hl.samples
    refine ⟨l ++ [(d.slot, ds.length)], ?_, ?_, ?_, ?_, ?_, nofun⟩
    · rw [h7, hs.slots, ← asI32_small h2, map_append]
      rfl
    · rw [h8, hs.rows, map_append]
      rfl
    · rw [forall_mem_append, forall_mem_singleton]
      exact ⟨hs.small, by show d.slot < 2 ^ 32; omega⟩
    · rw [forall_mem_append]
      constructor
      · intro q hq
        obtain ⟨r, g1, g2, g3⟩ := samples_mono hs hq ⟨_, h6⟩
        exact ⟨r, g1, g2, isLast_mono (subset_append_left _ _) (Subset.refl _) g3⟩
      · rw [forall_mem_singleton]
        refine ⟨decodeRow env d, ?_, rfl, .inl ⟨d, by simp, rfl⟩⟩
        rw [h6, ← hlen, getElem?_concat_length]
    · intro d' hd'
      rw [map_append, mem_append]
      rcases mem_append.mp hd' with hd' | hd'
      · exact .inl (hs.every.1 d' hd')
      · rw [mem_singleton.mp hd']
        exact .inr (mem_singleton.mpr rfl)
  · intro hno
    obtain ⟨g0, g1, g2⟩ := hl.leading hno
    rw [h7, g1, ← asI32_small h2, h9 hno, g2, map_append, forall_mem_append]
    exact ⟨⟨g0, forall_mem_singleton.mpr h2⟩, rfl, rfl⟩
  · rw [h10, hl.ends]
    simp [endsOf]

/-- a turn of the prefill loop -/
theorem laid_prefill (hl : Laid env sampling ds ps out)
    (h : prefillOne env sampling ds ps p out = .ok out') :
    Laid env sampling ds (ps ++ [p]) out' := by
  obtain ⟨h1, h2, -, h3, h4, h5, h6, h7, h8, h9, h10⟩ := prefillOne_ok h
  have hlen : out.rows.length = ds.length + chunkTotal ps := by
    rw [hl.rows, length_scheduled]
  refine ⟨hl.decode, ?_, ?_, ?_, ?_, ?_, ?_, ?_, ?_⟩
  · rw [forall_mem_append]
    exact ⟨hl.prefill, forall_mem_singleton.mpr h1⟩
  · rw [map_append, ← append_assoc]
    exact nodup_concat hl.slots h4
  · rw [map_append, ← append_assoc]
    exact nodup_concat hl.stateSlots h5
  · rw [h6, hl.rows]
    simp [scheduled]
  · rw [h6, length_append]
    show _ + (chunkRows _ _ _ _).length ≤ _
    rw [length_chunkRows]
    exact h2
  · obtain ⟨l, hs⟩ := hl.samples
    have hold : ∀ q ∈ l, ∃ r, out'.rows[q.2]? = some r ∧ r.slot = q.1 ∧
        IsLast env sampling ds (ps ++ [p]) r := by
      intro q hq
      obtain ⟨r, g1, g2, g3⟩ := samples_mono hs hq ⟨_, h6⟩
      exact ⟨r, g1, g2, isLast_mono (Subset.refl _) (subset_append_left _ _) g3⟩
    by_cases hc : completing sampling p = true
    · rw [if_pos hc] at h7 h8
      obtain ⟨hc1, hc2⟩ := (Bool.and_eq_true _ _).mp hc
      have h31 := h3 hc
      refine ⟨l ++ [(p.slot, out.rows.length + p.tokens.length - 1)], ?_, ?_, ?_, ?_, ?_, ?_⟩
      · rw [h7, hs.slots, ← asI32_small h31, map_append]
        rfl
      · rw [h8, hs.rows, map_append]
        rfl
      · rw [forall_mem_append, forall_mem_singleton]
        exact ⟨hs.small, by show p.slot < 2 ^ 32; omega⟩
      · rw [forall_mem_append]
        refine ⟨hold, forall_mem_singleton.mpr ?_⟩
        have hpos := h1.tokens
        have hget : out'.rows[out.rows.length + p.tokens.length - 1]? =
            (chunkOf p)[p.tokens.length - 1]? := by
          rw [h6, getElem?_append_right (by omega)]
          congr 1
          omega
        have hlast : p.tokens.length - 1 < p.tokens.length := by omega
        refine ⟨⟨p.tokens[p.tokens.length - 1], p.slot, p.stateSlot, p.start + (p.tokens.length - 1),
          p.start + (p.tokens.length - 1) + 1, .prefill⟩, ?_, rfl, ?_⟩
        · rw [hget]
          show (chunkRows _ _ _ _)[_]? = _
          rw [chunkRows_getElem?, getElem?_eq_getElem hlast]
          rfl
        · refine .inr ⟨p, by simp, hc1, eq_of_beq hc2, rfl, ?_⟩
          show p.start + (p.tokens.length - 1) + 1 = p.start + p.tokens.length
          omega
      · intro d hd
        rw [map_append]
        exact mem_append_left _ (hs.every.1 d hd)
      · intro q hq g1 g2
        rw [map_append, mem_append]
        rcases mem_append.mp hq with hq | hq
        · exact .inl (hs.every.2 q hq g1 g2)
        · rw [mem_singleton.mp hq]
          exact .inr (mem_singleton.mpr rfl)
    · rw [if_neg hc, append_nil] at h7 h8
      refine ⟨l, h7.trans hs.slots, h8.trans hs.rows, hs.small, hold, hs.every.1, ?_⟩
      intro q hq g1 g2
      rcases mem_append.mp hq with hq | hq
      · exact hs.every.2 q hq g1 g2
      · rw [mem_singleton.mp hq] at g2
        refine absurd ?_ hc
        unfold completing
        rw [g1, g2, Bool.true_and, beq_self_eq_true]
  · intro hno
    obtain ⟨g0, g1, g2⟩ := hl.leading hno
    have hc : completing sampling p = false := by
      rw [completing, hno, Bool.false_and]
    rw [hc] at h7
    refine ⟨g0, ?_, ?_⟩
    · rw [h7, g1]
      exact append_nil _
    · rw [h9 hno, g2, spansFrom_concat, hlen]
  · rw [h10, hl.ends]
    simp [endsOf]

theorem laid_decodeLoop {rs : List DecodeRequest} (hl : Laid env sampling ds [] out)
    (h : decodeLoop env sampling ds rs out = .ok out') : Laid env sampling (ds ++ rs) [] out' := by
  induction rs generalizing ds out with
  | nil =>
    obtain rfl := pure_ok.mp h
    rwa [append_nil]
  | cons r rs ih =>
    obtain ⟨o, h1, h2⟩ := bind_ok.mp h
    have := ih (laid_decode hl h1) h2
    rwa [append_assoc] at this

theorem laid_prefillLoop (hl : Laid env sampling ds ps out)
    (h : prefillLoop env sampling ds ps rs out = .ok out') :
    Laid env sampling ds (ps ++ rs) out' := by
  induction rs generalizing ps out with
  | nil =>
    obtain rfl := pure_ok.mp h
    rwa [append_nil]
  | cons r rs ih =>
    obtain ⟨o, h1, h2⟩ := bind_ok.mp h
    have := ih (laid_prefill hl h1) h2
    rwa [append_assoc] at this

/-! ### The padding -/

def paddedEnd (env : Env) (out : Plan) (owner : Row) : Option Nat :=
  if out.rows.length < env.rows then some (owner.position + 1 + (env.rows - out.rows.length)) else none

theorem setEnd_map {slot stop : Nat} {es es' : List (Nat × Nat)} (h : (es.map (·.1)).Nodup)
    (hs : setEnd slot stop es = some es') :
    es' = es.map fun e => (e.1, if e.1 = slot then stop else e.2) := by
  induction es generalizing es' with
  | nil => cases hs
  | cons e es ih =>
    obtain ⟨he, h⟩ := nodup_cons.mp h
    unfold setEnd at hs
    by_cases heq : e.1 = slot
    · rw [if_pos heq] at hs
      cases hs
      have hrest : es.map (fun e => (e.1, if e.1 = slot then stop else e.2)) = es := by
        refine (map_congr_left fun e' he' => ?_).trans (map_id es)
        have hne : ¬e'.1 = slot := fun hc => he (mem_map.mpr ⟨e', he', hc.trans heq.symm⟩)
        rw [if_neg hne]
        rfl
      rw [map_cons, hrest, if_pos heq, heq]
    · rw [if_neg heq] at hs
      obtain ⟨es'', h1, rfl⟩ := Option.map_eq_some_iff.mp hs
      rw [map_cons, if_neg heq, ih h h1]

theorem finish_laid {owner : Row} (hends : (out.mappedEnds.map (·.1)).Nodup)
    (hn : out.rows.length = n) (howner : out.rows.getLast? = some owner)
    (h : finish env out = .ok out') :
    n < 2 ^ 32 ∧ owner.position + 1 + (env.rows - n) < 2 ^ 32 ∧
      owner.position + 1 + (env.rows - n) ≤ env.maxCtx ∧
      out' = { out with
        parked := replicate n 0 ++ replicate (env.rows - n) 1
        rows := out.rows ++ padRows owner.slot owner.stateSlot owner.position (env.rows - n)
        mappedEnds := out.mappedEnds.map fun e => (e.1, mappedEnd (paddedEnd env out owner) owner e.1 e.2)
        decodeRows := out.decodeSlots.length
        realRows := n } := by
  subst hn
  unfold finish at h
  obtain ⟨n, e1, h⟩ := bind_ok.mp h
  obtain ⟨h1, rfl⟩ := tryU32_ok.mp e1
  obtain ⟨owner', h2, h⟩ := bind_ok.mp h
  cases howner.symm.trans (okOrErr_ok.mp h2)
  obtain ⟨stop, h3, h⟩ := bind_ok.mp h
  obtain ⟨a, e3, e4⟩ := Option.bind_eq_some_iff.mp (okOrErr_ok.mp h3)
  obtain ⟨-, rfl⟩ := checkedAdd_some.mp e3
  obtain ⟨h4, rfl⟩ := checkedAdd_some.mp e4
  obtain ⟨h5, h⟩ := require_bind.mp h
  obtain ⟨es, h6, h⟩ := bind_ok.mp h
  obtain ⟨d, h7, h⟩ := bind_ok.mp h
  obtain ⟨-, rfl⟩ := tryU32_ok.mp h7
  refine ⟨h1, h4, of_decide_eq_true h5, ?_⟩
  have hes : es = out.mappedEnds.map
      fun e => (e.1, mappedEnd (paddedEnd env out owner) owner e.1 e.2) := by
    unfold padEnds at h6
    by_cases hpad : env.rows - out.rows.length > 0
    · rw [if_pos hpad] at h6
      rw [setEnd_map hends (okOrErr_ok.mp h6)]
      have hp : paddedEnd env out owner = some (owner.position + 1 + (env.rows - out.rows.length)) :=
        if_pos (by omega)
      rw [hp]
      rfl
    · rw [if_neg hpad] at h6
      obtain rfl := Except.ok.inj h6
      have hp : paddedEnd env out owner = none := if_neg (by omega)
      rw [hp]
      refine (map_id _).symm.trans (map_congr_left fun e _ => ?_)
      simp [mappedEnd]
  rw [← pure_ok.mp h, hes]

theorem length_padRows {slot stateSlot position pad : Nat} :
    (padRows slot stateSlot position pad).length = pad := by
  rw [padRows, length_map, length_range]

theorem padRows_phase {slot stateSlot position pad : Nat}
    (h : r ∈ padRows slot stateSlot position pad) : r.phase = .parked := by
  obtain ⟨i, -, rfl⟩ := mem_map.mp h
  rfl

theorem scheduled_phase (h : r ∈ scheduled env ds ps) : r.phase ≠ .parked := by
  rcases mem_append.mp h with h | h
  · obtain ⟨d, -, rfl⟩ := mem_map.mp h
    exact nofun
  · obtain ⟨p, -, h⟩ := mem_flatMap.mp h
    obtain ⟨i, x, -, rfl⟩ := mem_chunkRows h
    exact nofun

theorem mask_append {rows pad : List Row} (hrows : ∀ r ∈ rows, r.phase ≠ .parked)
    (hpad : ∀ r ∈ pad, r.phase = .parked) (hn : pad.length = n) (i : Nat) (r : Row)
    (hr : (rows ++ pad)[i]? = some r) :
    ((replicate rows.length 0 ++ replicate n 1)[i]? = some 0 ∧ r.phase ≠ .parked) ∨
      ((replicate rows.length 0 ++ replicate n 1)[i]? = some 1 ∧ r.phase = .parked) := by
  by_cases hi : i < rows.length
  · left
    rw [getElem?_append_left hi] at hr
    rw [getElem?_append_left (by rwa [length_replicate]), getElem?_replicate,
      if_pos hi]
    exact ⟨rfl, hrows r (mem_of_getElem? hr)⟩
  · right
    rw [getElem?_append_right (by omega)] at hr
    have hlt := (List.getElem?_eq_some_iff.mp hr).1
    rw [getElem?_append_right (by rw [length_replicate]; omega), length_replicate,
      getElem?_replicate, if_pos (by omega)]
    exact ⟨rfl, hpad r (mem_of_getElem? hr)⟩

theorem endsOf_slots : (endsOf env ds ps).map (·.1) = ds.map (·.slot) ++ ps.map (·.slot) := by
  unfold endsOf
  rw [map_append, map_map, map_map]
  rfl

/-- The plan after the loops and the padding is sound. -/
theorem finish_sound (hl : Laid env sampling ds ps out) (h : finish env out = .ok out') :
    SoundPlan env sampling ds ps out' := by
  have hkeys : (out.mappedEnds.map (·.1)).Nodup := by
    rw [hl.ends, endsOf_slots]
    exact hl.slots
  obtain ⟨owner, howner⟩ : ∃ owner, out.rows.getLast? = some owner := by
    unfold finish at h
    obtain ⟨n, -, h⟩ := bind_ok.mp h
    obtain ⟨owner, h1, -⟩ := bind_ok.mp h
    exact ⟨owner, okOrErr_ok.mp h1⟩
  obtain ⟨-, -, -, rfl⟩ := finish_laid hkeys rfl howner h
  have hfit := hl.fits
  have hsched : ∀ r ∈ out.rows, r.phase ≠ .parked := fun r hr => scheduled_phase (hl.rows ▸ hr)
  have hlive : liveRows
      (out.rows ++ padRows owner.slot owner.stateSlot owner.position (env.rows - out.rows.length))
      (replicate out.rows.length 0 ++ replicate (env.rows - out.rows.length) 1) =
        scheduled env ds ps := by
    rw [liveRows_append (length_replicate ..).symm, liveRows_zero, liveRows_one, append_nil,
      hl.rows]
  refine ⟨⟨?_, ?_⟩, ?_, ?_, ?_, hl.slots, ?_⟩
  · rw [length_append, length_padRows]
    omega
  · rw [length_append, length_replicate, length_replicate]
    omega
  · exact mask_append hsched (fun r => padRows_phase) length_padRows
  · rw [hlive]
  · rw [hlive]
    exact cells_scheduled hl.slots
  · obtain ⟨l, hs⟩ := hl.samples
    exact ⟨l, hs.slots, hs.rows, hs.small, fun q hq => samples_mono hs hq ⟨_, rfl⟩, hs.every⟩

end Plow.MixedStep
