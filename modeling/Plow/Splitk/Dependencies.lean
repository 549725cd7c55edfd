import Plow.Lib.Results
import Plow.Splitk.Model

/-!
# The search for an order

`ordered` answers whether an instruction transitively waits on another one: the search neither
stops early nor runs out of turns (`ordered_eq`), because a wait set names smaller instructions
and each instruction is expanded once.
-/

namespace Plow.Splitk
open Plow.Lib List Relation

theorem check_ok {p : Prop} [Decidable p] {why : String} : check p why = .ok () ↔ p := by
  unfold check
  split
  · next h => exact iff_of_true rfl h
  · next h => exact ⟨(fun e => nomatch e), fun e => absurd e h⟩

theorem okOr_ok {α : Type} {o : Option α} {text : String} {a : α} :
    okOr o text = .ok a ↔ o = some a := by
  cases o with
  | none => exact ⟨(fun e => nomatch e), (fun e => nomatch e)⟩
  | some b => exact ⟨fun e => congrArg some (Except.ok.inj e), fun e => by cases e; rfl⟩

theorem must_ok {α : Type} {o : Option α} {a : α} : must o = .ok a ↔ o = some a := by
  cases o with
  | none => exact ⟨(fun e => nomatch e), (fun e => nomatch e)⟩
  | some b => exact ⟨fun e => congrArg some (Except.ok.inj e), fun e => by cases e; rfl⟩

/-- instruction `b` waits on instruction `a` -/
def Waits (dep : List (List Nat)) (a b : Nat) : Prop := ∃ ids, dep[b]? = some ids ∧ a ∈ ids

def Descends (dep : List (List Nat)) : Prop := ∀ a b, Waits dep a b → a < b

variable {dep : List (List Nat)} {later earlier : Nat} {stack visited ids : List Nat} {a b fuel next : Nat}

theorem Descends.lt (hd : Descends dep) (h : TransGen (Waits dep) a b) : a < b := by
  induction h with
  | single h => exact hd _ _ h
  | tail _ h ih => exact lt_trans ih (hd _ _ h)

theorem Waits.lt_length (h : Waits dep a b) : b < dep.length := by
  obtain ⟨ids, hids, -⟩ := h
  exact (List.getElem?_eq_some_iff.mp hids).1

/-- What the search knows: the stack leads to `later`, and what it has expanded leads to nothing
but itself, the stack and instructions before `earlier`. -/
structure Searching (dep : List (List Nat)) (later earlier : Nat) (stack visited : List Nat) :
    Prop where
  lt : ∀ x ∈ stack, x < dep.length
  leads : ∀ x ∈ stack, Relation.ReflTransGen (Waits dep) x later
  above : ∀ v ∈ visited, earlier < v
  closed : ∀ v ∈ visited, ∀ x, Waits dep x v → x ∈ visited ∨ x ∈ stack ∨ x < earlier
  root : later ∈ visited ∨ later ∈ stack ∨ later < earlier

theorem Searching.empty (h : Searching dep later earlier [] visited) (hd : Descends dep) :
    ¬ ReflTransGen (Waits dep) earlier later := by
  intro hr
  have hall : ∀ x, ReflTransGen (Waits dep) x later → x ∈ visited ∨ x < earlier := by
    intro x hx
    induction hx using ReflTransGen.head_induction_on with
    | refl =>
      rcases h.root with hv | hs | hlt
      · exact .inl hv
      · cases hs
      · exact .inr hlt
    | head hac _ ih =>
      rcases ih with hv | hlt
      · rcases h.closed _ hv _ hac with hv | hs | hlt
        · exact .inl hv
        · cases hs
        · exact .inr hlt
      · exact .inr (lt_trans (hd _ _ hac) hlt)
  rcases hall earlier hr with hv | hlt
  · exact absurd (h.above _ hv) (lt_irrefl _)
  · exact lt_irrefl _ hlt

/-- an instruction that is expanded -/
theorem Searching.expand
    (h : Searching dep later earlier (next :: stack) visited) (hd : Descends dep)
    (hgt : earlier < next) (hids : dep[next]? = some ids) :
    Searching dep later earlier (ids.reverse ++ stack) (next :: visited) where
  lt x hx := by
    rcases mem_append.mp hx with hx | hx
    · have hlt := hd x next ⟨ids, hids, mem_reverse.mp hx⟩
      exact lt_trans hlt (h.lt next mem_cons_self)
    · exact h.lt x (mem_cons_of_mem _ hx)
  leads x hx := by
    rcases mem_append.mp hx with hx | hx
    · exact .head ⟨ids, hids, mem_reverse.mp hx⟩ (h.leads next mem_cons_self)
    · exact h.leads x (mem_cons_of_mem _ hx)
  above v hv := by
    rcases mem_cons.mp hv with rfl | hv
    · exact hgt
    · exact h.above v hv
  closed v hv x hx := by
    rcases mem_cons.mp hv with rfl | hv
    · obtain ⟨ids', hids', hmem⟩ := hx
      rw [hids] at hids'
      cases hids'
      exact .inr (.inl (mem_append_left _ (mem_reverse.mpr hmem)))
    · rcases h.closed v hv x hx with hx | hx | hx
      · exact .inl (mem_cons_of_mem _ hx)
      · rcases mem_cons.mp hx with rfl | hx
        · exact .inl mem_cons_self
        · exact .inr (.inl (mem_append_right _ hx))
      · exact .inr (.inr hx)
  root := by
    rcases h.root with hv | hs | hlt
    · exact .inl (mem_cons_of_mem _ hv)
    · rcases mem_cons.mp hs with rfl | hs
      · exact .inl mem_cons_self
      · exact .inr (.inl (mem_append_right _ hs))
    · exact .inr (.inr hlt)

theorem Searching.drop (h : Searching dep later earlier (next :: stack) visited)
    (hne : next ≠ earlier) (hno : ¬ (next > earlier ∧ next ∉ visited)) :
    Searching dep later earlier stack visited := by
  have hout : next ∈ visited ∨ next < earlier := by
    by_contra hn
    obtain ⟨h1, h2⟩ := not_or.mp hn
    exact hno ⟨by omega, h1⟩
  refine ⟨fun x hx => h.lt x (mem_cons_of_mem _ hx),
    fun x hx => h.leads x (mem_cons_of_mem _ hx), h.above, fun v hv x hx => ?_, ?_⟩
  · rcases h.closed v hv x hx with hx | hx | hx
    · exact .inl hx
    · rcases mem_cons.mp hx with rfl | hx
      · exact hout.imp_right .inr
      · exact .inr (.inl hx)
    · exact .inr (.inr hx)
  · rcases h.root with hv | hs | hlt
    · exact .inl hv
    · rcases mem_cons.mp hs with rfl | hs
      · exact hout.imp_right .inr
      · exact .inr (.inl hs)
    · exact .inr (.inr hlt)

def turns (dep : List (List Nat)) (stack visited : List Nat) : Nat :=
  stack.length + ((Finset.range dep.length) \ visited.toFinset).card * (dep.map List.length).sum

theorem turns_expand (hids : dep[next]? = some ids) (hnew : next ∉ visited) :
    turns dep (ids.reverse ++ stack) (next :: visited) < turns dep (next :: stack) visited := by
  obtain ⟨hlt, hget⟩ := List.getElem?_eq_some_iff.mp hids
  have hmem : next ∈ Finset.range dep.length \ visited.toFinset :=
    Finset.mem_sdiff.mpr ⟨Finset.mem_range.mpr hlt, fun h => hnew (mem_toFinset.mp h)⟩
  have hset : Finset.range dep.length \ (next :: visited).toFinset =
      (Finset.range dep.length \ visited.toFinset).erase next := by
    ext x
    simp only [Finset.mem_sdiff, Finset.mem_erase, toFinset_cons, Finset.mem_insert, not_or]
    tauto
  have hlen : ids.length ≤ (dep.map length).sum :=
    single_le_sum (fun _ _ => Nat.zero_le _) _
      (mem_map.mpr ⟨ids, hget ▸ getElem_mem hlt, rfl⟩)
  have hpos := Finset.card_pos.mpr ⟨next, hmem⟩
  unfold turns
  rw [hset, Finset.card_erase_of_mem hmem, length_append, length_reverse,
    length_cons]
  obtain ⟨n, hn⟩ : ∃ n, (Finset.range dep.length \ visited.toFinset).card = n + 1 :=
    ⟨_, (Nat.succ_pred_eq_of_pos hpos).symm⟩
  rw [hn, Nat.add_sub_cancel, Nat.succ_mul]
  omega

theorem orderedLoop_eq (hd : Descends dep) (h : Searching dep later earlier stack visited)
    (hfuel : turns dep stack visited ≤ fuel) :
    ∃ r, orderedLoop dep earlier fuel stack visited = .ok r ∧
      (r = true ↔ ReflTransGen (Waits dep) earlier later) := by
  induction fuel generalizing stack visited with
  | zero =>
    cases stack with
    | nil => exact ⟨false, rfl, iff_of_false (fun h => nomatch h) (h.empty hd)⟩
    | cons next stack =>
      unfold turns at hfuel
      rw [length_cons] at hfuel
      omega
  | succ fuel ih =>
    cases stack with
    | nil => exact ⟨false, rfl, iff_of_false (fun h => nomatch h) (h.empty hd)⟩
    | cons next stack =>
      unfold orderedLoop
      split
      · next heq =>
        exact ⟨true, rfl, iff_of_true rfl (heq ▸ h.leads next mem_cons_self)⟩
      · next hne =>
        split
        · next hnew =>
          have hlt := h.lt next mem_cons_self
          have hids := getElem?_eq_getElem hlt
          rw [must_ok.mpr hids, ok_bind]
          refine ih (h.expand hd hnew.1 hids) ?_
          have hlt : turns dep (dep[next].reverse ++ stack) (next :: visited) <
              turns dep (next :: stack) visited := turns_expand hids hnew.2
          omega
        · next hno =>
          refine ih (h.drop hne hno) ?_
          unfold turns at hfuel ⊢
          rw [length_cons] at hfuel
          omega

theorem ordered_eq (hd : Descends dep) (hlt : later < dep.length) :
    ∃ r, ordered dep later earlier = .ok r ∧
      (r = true ↔ ReflTransGen (Waits dep) earlier later) := by
  apply orderedLoop_eq hd
  · refine ⟨fun x hx => ?_, fun x hx => ?_, nofun,
      nofun, .inr (.inl (mem_singleton_self _))⟩
    · rw [mem_singleton.mp hx]
      exact hlt
    · rw [mem_singleton.mp hx]
  · unfold turns
    rw [toFinset_nil, Finset.sdiff_empty, Finset.card_range]
    exact le_rfl

theorem ordered_iff (hd : Descends dep) (hlt : later < dep.length) :
    ordered dep later earlier = .ok true ↔ ReflTransGen (Waits dep) earlier later := by
  obtain ⟨r, hr, hiff⟩ := ordered_eq hd hlt
  rw [hr, ← hiff]
  exact ⟨Except.ok.inj, congrArg _⟩

end Plow.Splitk

/-!
# What the wait sets say of the streams

`Gated` is what holds of a list of stream entries of a program whose wait sets are `dep`: every
slice of every instruction has one entry, the entry increments the counter of its instruction, and
it waits on all slices of the instructions in the wait set.  `dependencies_ok`: an accepted program
has it for its static stream and for its global queue, and the queue has the producers in front.
-/

namespace Plow.Splitk
open Plow.Lib

def key (e : StreamEnt) : Nat × Nat := (e.inst, e.slice)

/-- an entry of a program with the wait sets `dep` -/
structure EntryOk (g : Program) (dep : List (Option (List Nat))) (e : StreamEnt) : Prop where
  slice : ∃ d, g.insts[e.inst]? = some d ∧ e.slice < d.blocks
  succ : range? g.succs e.succOfs e.succLen = some [e.inst]
  waits : ∃ ws ids, range? g.waits e.waitOfs e.waitLen = some ws ∧ dep[e.inst]? = some (some ids) ∧
    (∀ w ∈ ws, w.id < e.inst ∧ (g.insts[w.id]?.map (·.blocks)) = some w.threshold) ∧
    ∀ c, c ∈ ids ↔ c ∈ ws.map (·.id)

/-- A list of entries that has each slice of each instruction once. -/
structure Gated (g : Program) (dep : List (Option (List Nat))) (es : List StreamEnt) : Prop where
  entry : ∀ e ∈ es, EntryOk g dep e
  nodup : (es.map key).Nodup
  covers : ∀ pc d, g.insts[pc]? = some d → ∀ s < d.blocks, (pc, s) ∈ es.map key

variable {g : Program} {pc : Nat} {set' : List Nat} {ws : List Wait} {e : StreamEnt}
  {dep lists : List (Option (List Nat))}

theorem waits_ok (h : ws.foldlM (waitOne g pc) [] = .ok set') :
    (∀ w ∈ ws, w.id < pc ∧ (g.insts[w.id]?.map (·.blocks)) = some w.threshold) ∧
      ∀ c, c ∈ set' ↔ c ∈ ws.map (·.id) := by
  refine exceptFoldlM_ind (P := fun done set =>
    (∀ w ∈ done, w.id < pc ∧ (g.insts[w.id]?.map (·.blocks)) = some w.threshold) ∧
      ∀ c, c ∈ set ↔ c ∈ done.map (·.id)) h ⟨nofun, fun c => Iff.rfl⟩ ?_
  intro done w set set' _ ⟨h1, h2⟩ hf
  obtain ⟨_, hc, hf⟩ := bind_ok.mp hf
  obtain ⟨_, _, hf⟩ := bind_ok.mp hf
  cases pure_ok.mp hf
  refine ⟨fun v hv => ?_, fun c => ?_⟩
  · rcases List.mem_append.mp hv with hv | hv
    · exact h1 v hv
    · rw [List.mem_singleton.mp hv]
      exact check_ok.mp hc
  · rw [List.mem_orderedInsert, h2, List.map_append, List.mem_append, List.map_singleton,
      List.mem_singleton]
    exact Or.comm

/-- What the loop over the static stream knows. -/
structure StaticInv (g : Program) (done : List StreamEnt) (acc : Static) : Prop where
  length : acc.lists.length = g.insts.length
  seen : ∀ k, k ∈ acc.seen ↔ k ∈ done.map key
  nodup : (done.map key).Nodup
  entry : ∀ e ∈ done, EntryOk g acc.lists e
  lt : ∀ (pc : Nat) ids, acc.lists[pc]? = some (some ids) → ∀ id ∈ ids, id < pc

theorem staticInv_nil : StaticInv g [] ⟨List.replicate g.insts.length none, []⟩ where
  length := List.length_replicate
  seen _ := Iff.rfl
  nodup := List.nodup_nil
  entry e he := absurd he List.not_mem_nil
  lt pc ids h := by
    rw [List.getElem?_replicate] at h
    split at h <;> cases h

theorem EntryOk.set (h : EntryOk g dep e)
    (hnone : dep[pc]? = some none) : EntryOk g (dep.set pc (some set')) e := by
  obtain ⟨ws, ids, hws, hids, hrest⟩ := h.waits
  have hne : pc ≠ e.inst := by
    intro heq
    rw [heq, hids] at hnone
    cases hnone
  exact ⟨h.slice, h.succ, ws, ids, hws, by rw [List.getElem?_set_ne hne, hids], hrest⟩

theorem StaticInv.push {done : List StreamEnt} {acc acc' : Static}
    (h : StaticInv g done acc) (hf : staticEntry g acc e = .ok acc') :
    StaticInv g (done ++ [e]) acc' := by
  obtain ⟨_, hpc, hf⟩ := bind_ok.mp hf
  obtain ⟨d, hd, hf⟩ := bind_ok.mp hf
  obtain ⟨_, hslice, hf⟩ := bind_ok.mp hf
  obtain ⟨_, hnew, hf⟩ := bind_ok.mp hf
  obtain ⟨succ, hsucc, hf⟩ := bind_ok.mp hf
  obtain ⟨_, hown, hf⟩ := bind_ok.mp hf
  obtain ⟨ws, hws, hf⟩ := bind_ok.mp hf
  obtain ⟨set, hset, hf⟩ := bind_ok.mp hf
  obtain ⟨entry, hentry, hf⟩ := bind_ok.mp hf
  obtain ⟨hwok, hmem⟩ := waits_ok hset
  have hnew := check_ok.mp hnew
  have hseen : ∀ k, k ∈ (e.inst, e.slice) :: acc.seen ↔ k ∈ (done ++ [e]).map key := by
    intro k
    rw [List.mem_cons, h.seen, List.map_append, List.mem_append, List.map_singleton,
      List.mem_singleton]
    exact Or.comm
  have hnodup : ((done ++ [e]).map key).Nodup := by
    rw [List.map_append, List.nodup_append]
    refine ⟨h.nodup, List.nodup_singleton _, fun a ha b hb hab => ?_⟩
    rw [List.map_singleton, List.mem_singleton] at hb
    exact hnew ((h.seen (key e)).mpr (hb ▸ hab ▸ ha))
  have hsucc' : range? g.succs e.succOfs e.succLen = some [e.inst] := by
    rw [okOr_ok.mp hsucc, check_ok.mp hown]
  have hslice' : ∃ d, g.insts[e.inst]? = some d ∧ e.slice < d.blocks :=
    ⟨d, must_ok.mp hd, (check_ok.mp hslice).2.2⟩
  have hentry := must_ok.mp hentry
  cases entry with
  | some prior =>
    obtain ⟨_, heq, hf⟩ := bind_ok.mp hf
    cases pure_ok.mp hf
    refine ⟨h.length, hseen, hnodup, fun e' he' => ?_, h.lt⟩
    rcases List.mem_append.mp he' with he' | he'
    · exact h.entry e' he'
    · rw [List.mem_singleton.mp he']
      exact ⟨hslice', hsucc', ws, set, okOr_ok.mp hws, by rw [hentry, check_ok.mp heq], hwok, hmem⟩
  | none =>
    cases pure_ok.mp hf
    have hlt : e.inst < acc.lists.length := (getElem?_eq_some_iff.mp hentry).1
    have hself : (acc.lists.set e.inst (some set))[e.inst]? = some (some set) :=
      List.getElem?_set_self hlt
    refine ⟨by rw [List.length_set, h.length], hseen, hnodup, fun e' he' => ?_,
      fun pc ids hids id hid => ?_⟩
    · rcases List.mem_append.mp he' with he' | he'
      · exact (h.entry e' he').set hentry
      · rw [List.mem_singleton.mp he']
        exact ⟨hslice', hsucc', ws, set, okOr_ok.mp hws, hself, hwok, hmem⟩
    · by_cases hpc : e.inst = pc
      · subst hpc
        rw [hself] at hids
        cases hids
        obtain ⟨w, hw, rfl⟩ := List.mem_map.mp ((hmem id).mp hid)
        exact (hwok w hw).1
      · rw [List.getElem?_set_ne hpc] at hids
        exact h.lt pc ids hids id hid

/-- What the loop over the global queue knows. -/
structure QueuedInv (g : Program) (slices : List (Nat × Nat)) (done : List (StreamEnt × Nat))
    (acc : Queued) : Prop where
  length : acc.last.length = g.insts.length
  seen : ∀ k, k ∈ acc.seen ↔ k ∈ done.map (key ·.1)
  nodup : (done.map (key ·.1)).Nodup
  sub : ∀ k ∈ acc.seen, k ∈ slices
  last : ∀ eq ∈ done, ∃ l, acc.last[eq.1.inst]? = some l ∧ eq.2 ≤ l

theorem snd_of_zipIdx_prefix {α : Type} {l : List α} {done : List (α × Nat)} {a : α × Nat}
    (h : done ++ [a] <+: l.zipIdx) : a.2 = done.length ∧ ∀ b ∈ done, b.2 < done.length := by
  have hget : ∀ i (hi : i < (done ++ [a]).length), ((done ++ [a])[i]).2 = i := by
    intro i hi
    rw [h.getElem hi, List.getElem_zipIdx]
    exact zero_add i
  constructor
  · have := hget done.length (by simp)
    rwa [List.getElem_concat_length rfl] at this
  · intro b hb
    obtain ⟨i, hi, rfl⟩ := List.getElem_of_mem hb
    have := hget i (by rw [List.length_append]; omega)
    rw [List.getElem_append_left hi] at this
    rw [this]
    exact hi

theorem QueuedInv.push {seen : List (Nat × Nat)} {done : List (StreamEnt × Nat)}
    {acc acc' : Queued} {eq : StreamEnt × Nat} {l : List StreamEnt}
    (hseen : ∀ k ∈ seen, k.1 < g.insts.length) (h : QueuedInv g seen done acc)
    (hp : done ++ [eq] <+: l.zipIdx) (hf : queueEntry seen acc eq = .ok acc') :
    QueuedInv g seen (done ++ [eq]) acc' := by
  obtain ⟨e, q⟩ := eq
  obtain ⟨_, hc, hf⟩ := bind_ok.mp hf
  obtain ⟨hin, hnew⟩ := check_ok.mp hc
  cases pure_ok.mp hf
  obtain ⟨hq, hdone⟩ := snd_of_zipIdx_prefix hp
  have hlt : e.inst < acc.last.length := h.length ▸ hseen _ hin
  refine ⟨by rw [List.length_set, h.length], fun k => ?_, ?_, fun k hk => ?_, fun eq' heq' => ?_⟩
  · rw [List.mem_cons, h.seen, List.map_append, List.mem_append, List.map_singleton,
      List.mem_singleton]
    exact Or.comm
  · rw [List.map_append, List.nodup_append]
    refine ⟨h.nodup, List.nodup_singleton _, fun a ha b hb hab => ?_⟩
    rw [List.map_singleton, List.mem_singleton] at hb
    exact hnew ((h.seen (key e)).mpr (hb ▸ hab ▸ ha))
  · rcases List.mem_cons.mp hk with rfl | hk
    · exact hin
    · exact h.sub k hk
  · rcases List.mem_append.mp heq' with heq' | heq'
    · obtain ⟨l', hl', hle⟩ := h.last eq' heq'
      by_cases hi : e.inst = eq'.1.inst
      · refine ⟨q, ?_, ?_⟩
        · rw [← hi]
          exact List.getElem?_set_self hlt
        · have := hdone eq' heq'
          have : q = done.length := hq
          omega
      · exact ⟨l', by rw [List.getElem?_set_ne hi, hl'], hle⟩
    · rw [List.mem_singleton.mp heq']
      exact ⟨q, List.getElem?_set_self hlt, le_rfl⟩

/-- What is known of a program whose wait sets are `dep`. -/
structure Accepted (g : Program) (dep : List (List Nat)) : Prop where
  length : dep.length = g.insts.length
  descends : Descends dep
  pos : ∀ d ∈ g.insts, 0 < d.blocks
  stream : Gated g (dep.map some) g.stream
  queue : Gated g (dep.map some) g.gqStream
  order : ∀ (i j : Nat) e e', g.gqStream[i]? = some e → g.gqStream[j]? = some e' →
    Waits dep e'.inst e.inst → j < i

theorem mapM_must {dep : List (List Nat)}
    (h : lists.mapM must = .ok dep) : lists = dep.map some := by
  induction mapM_iff.mp h with
  | nil => rfl
  | cons hx _ ih =>
    rw [List.map_cons, must_ok.mp hx, ih (mapM_iff.mpr ‹_›)]

theorem EntryOk.queued {original : StreamEnt}
    (h : EntryOk g dep original) (hk : key original = key e)
    (hg : e.waitOfs = original.waitOfs ∧ e.waitLen = original.waitLen ∧
      e.succOfs = original.succOfs ∧ e.succLen = original.succLen) : EntryOk g dep e := by
  obtain ⟨hi, hs⟩ := Prod.mk.inj hk
  obtain ⟨h1, h2, h3, h4⟩ := hg
  refine ⟨?_, ?_, ?_⟩
  · rw [← hi, ← hs]
    exact h.slice
  · rw [h3, h4, ← hi]
    exact h.succ
  · rw [h1, h2, ← hi]
    exact h.waits

theorem entryOf_some {slice : Nat} (h : entryOf g pc slice = some e) :
    e ∈ g.stream ∧ e.inst = pc ∧ e.slice = slice := by
  unfold entryOf at h
  refine ⟨List.mem_of_find?_eq_some h, ?_⟩
  have := List.find?_some h
  exact of_decide_eq_true this

theorem dependencies_ok {dep : List (List Nat)} (h : dependencies g = .ok dep) :
    Accepted g dep := by
  obtain ⟨_, -, h⟩ := bind_ok.mp h
  obtain ⟨_, -, h⟩ := bind_ok.mp h
  obtain ⟨_, -, h⟩ := bind_ok.mp h
  obtain ⟨_, -, h⟩ := bind_ok.mp h
  obtain ⟨_, -, h⟩ := bind_ok.mp h
  obtain ⟨static, hstatic, h⟩ := bind_ok.mp h
  obtain ⟨_, hslices, h⟩ := bind_ok.mp h
  obtain ⟨lists, hlists, h⟩ := bind_ok.mp h
  obtain ⟨queued, hqueued, h⟩ := bind_ok.mp h
  obtain ⟨_, hsame, h⟩ := bind_ok.mp h
  obtain ⟨_, hgates, h⟩ := bind_ok.mp h
  cases pure_ok.mp h
  have hs : StaticInv g g.stream static :=
    exceptFoldlM_ind hstatic staticInv_nil fun _ _ _ _ _ hP hf => hP.push hf
  have hl : static.lists = dep.map some := mapM_must hlists
  have hlen : dep.length = g.insts.length := by
    rw [← hs.length, hl, List.length_map]
  have hslice : ∀ pc d, g.insts[pc]? = some d →
      0 < d.blocks ∧ ∀ s < d.blocks, (pc, s) ∈ static.seen := by
    intro pc d hd
    exact check_ok.mp (forM_ok.mp hslices (d, pc) (List.mem_zipIdx_iff_getElem?.mpr hd))
  have hseen : ∀ k ∈ static.seen, k.1 < g.insts.length := by
    intro k hk
    obtain ⟨e, he, rfl⟩ := List.mem_map.mp ((hs.seen k).mp hk)
    obtain ⟨d, hd, -⟩ := (hs.entry e he).slice
    exact (getElem?_eq_some_iff.mp hd).1
  have hq : QueuedInv g static.seen g.gqStream.zipIdx queued :=
    exceptFoldlM_ind hqueued
      ⟨List.length_replicate, fun _ => Iff.rfl, List.nodup_nil, nofun,
        nofun⟩
      fun _ _ _ _ hp hP hf => hP.push hseen hp hf
  have hkeys : g.gqStream.zipIdx.map (key ·.1) = g.gqStream.map key := by
    conv_rhs => rw [← List.zipIdx_map_fst 0 g.gqStream, List.map_map]
    rfl
  have hentry : ∀ e ∈ g.stream, EntryOk g (dep.map some) e := fun e he => hl ▸ hs.entry e he
  have hgate : ∀ (i : Nat) e, g.gqStream[i]? = some e → queueGate g dep queued.last (e, i) = .ok () :=
    fun i e he => forM_ok.mp hgates (e, i) (List.mem_zipIdx_iff_getElem?.mpr he)
  refine ⟨hlen, fun a b hab => ?_, fun d hd => ?_, ⟨hentry, hs.nodup, fun pc d hd s hs' => ?_⟩,
    ⟨fun e he => ?_, hkeys ▸ hq.nodup, fun pc d hd s hs' => ?_⟩, fun i j e e' hi hj hw => ?_⟩
  · obtain ⟨ids, hids, hmem⟩ := hab
    refine hs.lt b ids ?_ a hmem
    rw [hl, List.getElem?_map, hids]
    rfl
  · obtain ⟨pc, hpc⟩ := List.mem_iff_getElem?.mp hd
    exact (hslice pc d hpc).1
  · exact (hs.seen _).mp ((hslice pc d hd).2 s hs')
  · obtain ⟨i, hi⟩ := List.mem_iff_getElem?.mp he
    obtain ⟨original, horig, hg⟩ := bind_ok.mp (hgate i e hi)
    obtain ⟨_, hc, -⟩ := bind_ok.mp hg
    obtain ⟨h1, h2, h3, h4, -⟩ := check_ok.mp hc
    have hfind := must_ok.mp horig
    obtain ⟨hmem, hkey⟩ := entryOf_some hfind
    exact (hentry original hmem).queued
      (Prod.ext hkey.1 hkey.2) ⟨h1, h2, h3, h4⟩
  · exact hkeys ▸ (hq.seen _).mp ((check_ok.mp hsame).2 _ ((hslice pc d hd).2 s hs'))
  · obtain ⟨original, -, hg⟩ := bind_ok.mp (hgate i e hi)
    obtain ⟨_, -, hg⟩ := bind_ok.mp hg
    obtain ⟨list, hlist, hg⟩ := bind_ok.mp hg
    obtain ⟨lasts, hlasts, hg⟩ := bind_ok.mp hg
    obtain ⟨ids, hids, hmem⟩ := hw
    rw [must_ok.mp hlist] at hids
    cases hids
    obtain ⟨l, hl', hget⟩ := mapM_mem hlasts hmem
    obtain ⟨l', hl'', hle⟩ := hq.last (e', j) (List.mem_zipIdx_iff_getElem?.mpr hj)
    have hlt := check_ok.mp hg l hl'
    rw [must_ok.mp hget] at hl''
    cases hl''
    exact lt_of_le_of_lt hle hlt

end Plow.Splitk
