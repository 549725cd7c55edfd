import Plow.PackedPrefill.Model
import Plow.Lib.Results
import Plow.Lib.Tiling

/-!
# What the planner accepts, and the plan it builds

`planWithLimit_iff`: the planner accepts requests if and only if they are `Accepted`, and the plan
is then `packed requests` with padding behind it: masked rows under a request limit
(`pad_masked`), the rows of one request otherwise (`pad_unmasked`).
-/

namespace Plow.PackedPrefill
open Plow.Lib List

/-! ### Casts and checks -/

variable {n : Nat} {text reason : String} {α : Type} {c : Bool}

theorem asI32_eq (h : n ≤ i32Max) : asI32 n = n := by
  unfold i32Max at h
  exact Int.bmod_eq_of_le (by omega) (by omega)

theorem asUsize_eq (h : n ≤ i32Max) : asUsize n = n := by
  unfold asUsize i32Max at *
  omega

theorem asU32_eq (h : n ≤ i32Max) : asU32 n = n := by
  unfold asU32 i32Max at *
  omega

theorem need_ok : need c text = .ok () ↔ c = true := by
  unfold need
  split
  · next h => exact ⟨fun _ => h, fun _ => rfl⟩
  · next h => exact ⟨(fun e => nomatch e), fun e => absurd e h⟩

theorem need_bind {x : Res α} {a : α} :
    (need c text >>= fun _ => x) = .ok a ↔ c = true ∧ x = .ok a := by
  rw [bind_ok]
  constructor
  · intro ⟨_, h, hx⟩
    exact ⟨need_ok.mp h, hx⟩
  · intro ⟨h, hx⟩
    exact ⟨(), need_ok.mpr h, hx⟩

theorem okOr_ok {o : Option α} {a : α} : okOr o reason = .ok a ↔ o = some a := by
  cases o with
  | none => exact ⟨(fun h => nomatch h), (fun h => nomatch h)⟩
  | some x => exact ⟨fun h => by cases h; rfl, fun h => by cases h; rfl⟩

theorem checkedAdd_some {a b c : Nat} : checkedAdd a b = some c ↔ a + b < 2 ^ 64 ∧ c = a + b := by
  unfold checkedAdd
  split
  · next h => exact ⟨fun e => ⟨h, (Option.some.inj e).symm⟩, fun e => by rw [e.2]⟩
  · next h => exact ⟨(fun e => nomatch e), fun e => absurd e.1 h⟩

/-! ### One request -/

namespace Request

def stop (r : Request) : Nat := r.start + r.len

/-- the entry of a request whose rows begin at `row0` -/
def entry (r : Request) (row0 : Nat) : List Int := [(row0 : Int), r.len, r.slot, r.stop]

def slotRows (r : Request) : List Int := List.replicate r.len (r.slot : Int)

def positionRows (r : Request) : List Int := (List.range r.len).map fun i => ((r.start + i : Nat) : Int)

end Request

/-- what the planner asks of one request -/
structure Fits (frontiers : List Nat) (maxCtx : Nat) (limit : Option Nat) (r : Request) : Prop where
  limit : ∀ l ∈ limit, r.len ≤ l
  slot : r.slot < frontiers.length
  slot32 : r.slot ≤ i32Max
  len : 0 < r.len
  start : r.start = frontiers.getD r.slot 0
  prompt : r.stop ≤ r.prompt
  ctx : r.stop ≤ maxCtx

/-- what one turn adds -/
def push (state : Nat × Plan) (r : Request) : Nat × Plan :=
  (state.1 + r.len, {
    table := state.2.table ++ r.entry state.1
    slots := state.2.slots ++ r.slotRows
    positions := state.2.positions ++ r.positionRows
    mappedEnds := state.2.mappedEnds ++ [(r.slot, r.stop)] })

variable {frontiers : List Nat} {bucket maxCtx : Nat} {limit : Option Nat} {r : Request}
  {prior rs requests : List Request} {state state' : Nat × Plan} {out p : Plan} {k i n padding m : Nat}

theorem positionRows_eq (h : r.stop ≤ i32Max) :
    ((range r.len).map fun i => asI32 (r.start + i)) = r.positionRows := by
  apply map_congr_left
  intro i hi
  have := mem_range.mp hi
  unfold Request.stop at h
  exact asI32_eq (by omega)

theorem packOne_iff (hb : bucket ≤ i32Max) (hc : maxCtx ≤ i32Max) :
    packOne frontiers bucket maxCtx limit prior r state = .ok state' ↔
      Fits frontiers maxCtx limit r ∧ (∀ p ∈ prior, p.slot ≠ r.slot) ∧
        state.1 + r.len ≤ bucket ∧ state' = push state r := by
  have hslot : (!prior.any fun p => decide (p.slot = r.slot)) = true ↔
      ∀ p ∈ prior, p.slot ≠ r.slot := by simp [any_eq_false]
  have hpush : ∀ (h : Fits frontiers maxCtx limit r) (ht : state.1 + r.len ≤ bucket),
      (state.1 + r.len, {
        table := state.2.table ++
          [asI32 state.1, asI32 r.len, asI32 r.slot, asI32 (r.start + r.len)]
        slots := state.2.slots ++ replicate r.len (asI32 r.slot)
        positions := state.2.positions ++ (range r.len).map fun i => asI32 (r.start + i)
        mappedEnds := state.2.mappedEnds ++ [(r.slot, asU32 (r.start + r.len))] }) =
        push state r := by
    intro h ht
    have hctx : r.start + r.len ≤ i32Max := le_trans h.ctx hc
    rw [positionRows_eq hctx, asI32_eq (by omega : state.1 ≤ i32Max),
      asI32_eq (by omega : r.len ≤ i32Max), asI32_eq h.slot32, asI32_eq hctx, asU32_eq hctx]
    rfl
  unfold packOne
  constructor
  · intro h
    obtain ⟨h1, h⟩ := need_bind.mp h
    obtain ⟨h2, h⟩ := need_bind.mp h
    obtain ⟨stop, e3, h⟩ := bind_ok.mp h
    obtain ⟨-, rfl⟩ := checkedAdd_some.mp (okOr_ok.mp e3)
    obtain ⟨h4, h⟩ := need_bind.mp h
    obtain ⟨next, e5, h⟩ := bind_ok.mp h
    obtain ⟨-, rfl⟩ := checkedAdd_some.mp (okOr_ok.mp e5)
    obtain ⟨h6, h⟩ := need_bind.mp h
    simp only [decide_eq_true_eq] at h2 h4 h6
    have hf : Fits frontiers maxCtx limit r :=
      ⟨fun l hl => by simpa using (Option.all_eq_true _ _).mp h1 l hl, h2.1, h2.2.2, h4.1, h4.2.1,
        h4.2.2.1, h4.2.2.2⟩
    refine ⟨hf, hslot.mp h2.2.1, h6, ?_⟩
    rw [← hpush hf h6]
    exact (pure_ok.mp h).symm
  · intro ⟨hf, hs, ht, he⟩
    have h64 : r.start + r.len < 2 ^ 64 := by
      have := hf.ctx
      unfold Request.stop i32Max at *
      omega
    have ht64 : state.1 + r.len < 2 ^ 64 := by
      unfold i32Max at *
      omega
    refine need_bind.mpr ⟨(Option.all_eq_true _ _).mpr fun l hl => decide_eq_true (hf.limit l hl), ?_⟩
    refine need_bind.mpr ⟨decide_eq_true ⟨hf.slot, hslot.mpr hs, hf.slot32⟩, ?_⟩
    refine bind_ok.mpr ⟨_, okOr_ok.mpr (checkedAdd_some.mpr ⟨h64, rfl⟩), ?_⟩
    refine need_bind.mpr ⟨decide_eq_true ⟨hf.len, hf.start, hf.prompt, hf.ctx⟩, ?_⟩
    refine bind_ok.mpr ⟨_, okOr_ok.mpr (checkedAdd_some.mpr ⟨ht64, rfl⟩), ?_⟩
    refine need_bind.mpr ⟨decide_eq_true ht, ?_⟩
    rw [he, ← hpush hf ht]
    rfl

/-! ### The packed requests -/

def lens (rs : List Request) : List Nat := rs.map (·.len)

/-- the entries of the requests, from the row `n` on -/
def entriesFrom : Nat → List Request → List Int
  | _, [] => []
  | n, r :: rs => r.entry n ++ entriesFrom (n + r.len) rs

theorem foldl_push : rs.foldl push state =
    (state.1 + (lens rs).sum, {
      table := state.2.table ++ entriesFrom state.1 rs
      slots := state.2.slots ++ rs.flatMap Request.slotRows
      positions := state.2.positions ++ rs.flatMap Request.positionRows
      mappedEnds := state.2.mappedEnds ++ rs.map fun r => (r.slot, r.stop) }) := by
  induction rs generalizing state with
  | nil => simp [lens, entriesFrom]
  | cons r rs ih =>
    rw [foldl_cons, ih]
    simp [push, lens, entriesFrom, add_assoc]

/-- the plan of the requests alone -/
def packed (requests : List Request) : Plan where
  table := (requests.length : Int) :: entriesFrom 0 requests
  slots := requests.flatMap Request.slotRows
  positions := requests.flatMap Request.positionRows
  mappedEnds := requests.map fun r => (r.slot, r.stop)

/-- What the planner asks of the requests. -/
structure Accepted (requests : List Request) (frontiers : List Nat) (bucket maxCtx : Nat)
    (limit : Option Nat) : Prop where
  work : requests ≠ []
  table : requests.length ≤ frontiers.length
  bucket0 : 0 < bucket
  bucket32 : bucket ≤ i32Max
  maxCtx32 : maxCtx ≤ i32Max
  fits : ∀ r ∈ requests, Fits frontiers maxCtx limit r
  distinct : requests.Pairwise fun p r => p.slot ≠ r.slot
  rows : (lens requests).sum ≤ bucket

theorem isLoop_packLoop : IsLoop (packLoop frontiers bucket maxCtx limit)
    (packOne frontiers bucket maxCtx limit) :=
  ⟨fun _ _ => rfl, fun _ _ _ _ => rfl⟩

theorem turns_packOne (hb : bucket ≤ i32Max) (hc : maxCtx ≤ i32Max) :
    Turns (packOne frontiers bucket maxCtx limit) (Fits frontiers maxCtx limit) (fun _ => True)
      (fun p r => p.slot ≠ r.slot) (fun n l => n + l ≤ bucket) (·.len) push (·.1)
      fun _ _ => True where
  turn _ _ := packOne_iff hb hc
  inv _ _ := trivial
  room _ := rfl

theorem length_le_sum (h : ∀ r ∈ rs, 0 < r.len) : rs.length ≤ (lens rs).sum := by
  induction rs with
  | nil => exact le_refl _
  | cons r rs ih =>
    obtain ⟨h0, h⟩ := forall_mem_cons.mp h
    have := ih h
    rw [lens, map_cons, sum_cons, length_cons]
    rw [lens] at this
    omega

theorem planWithLimit_iff : planWithLimit requests frontiers bucket maxCtx limit = .ok p ↔
      Accepted requests frontiers bucket maxCtx limit ∧
        pad requests bucket maxCtx limit (lens requests).sum (packed requests) = .ok p := by
  have hloop : ∀ (hb : bucket ≤ i32Max) (hc : maxCtx ≤ i32Max) {out : Nat × Plan},
      packLoop frontiers bucket maxCtx limit [] requests (0, ⟨[asI32 requests.length], [], [], []⟩) =
        .ok out ↔ (∀ r ∈ requests, Fits frontiers maxCtx limit r) ∧
          requests.Pairwise (fun p r => p.slot ≠ r.slot) ∧
          (requests ≠ [] → (lens requests).sum ≤ bucket) ∧
          out = requests.foldl push (0, ⟨[asI32 requests.length], [], [], []⟩) := by
    intro hb hc out
    rw [isLoop_packLoop.iff (turns_packOne hb hc) _ _ _ trivial fun _ _ => trivial,
      guarded_iff fun _ _ => Iff.rfl, zero_add]
    simp [lens, and_assoc]
  have hpacked : (∀ r ∈ requests, Fits frontiers maxCtx limit r) → (lens requests).sum ≤ bucket →
      bucket ≤ i32Max → requests.foldl push (0, ⟨[asI32 requests.length], [], [], []⟩) =
        ((lens requests).sum, packed requests) := by
    intro hf hr hb
    have hn : requests.length ≤ i32Max := by
      have := length_le_sum fun r hr => (hf r hr).len
      omega
    rw [foldl_push, asI32_eq hn, zero_add]
    rfl
  unfold planWithLimit
  rw [need_bind, decide_eq_true_eq]
  constructor
  · intro ⟨⟨h1, h2, h3, h4, h5⟩, h⟩
    obtain ⟨out, e, h⟩ := bind_ok.mp h
    obtain ⟨hf, hd, hr, rfl⟩ := (hloop h4 h5).mp e
    rw [hpacked hf (hr h1) h4] at h
    exact ⟨⟨h1, h2, h3, h4, h5, hf, hd, hr h1⟩, h⟩
  · intro ⟨a, h⟩
    have e := (hloop a.bucket32 a.maxCtx32).mpr ⟨a.fits, a.distinct, fun _ => a.rows, rfl⟩
    rw [hpacked a.fits a.rows a.bucket32] at e
    refine ⟨⟨a.work, a.table, a.bucket0, a.bucket32, a.maxCtx32⟩, ?_⟩
    rw [e, ok_bind]
    exact h

theorem length_packed_slots : (packed rs).slots.length = (lens rs).sum := by
  simp [packed, lens, Request.slotRows]

theorem length_packed_positions : (packed rs).positions.length = (lens rs).sum := by
  simp [packed, lens, Request.positionRows]

/-! ### Padding -/

theorem pad_masked (hl : limit.isSome) (hr : (lens requests).sum ≤ bucket) :
    pad requests bucket maxCtx limit (lens requests).sum (packed requests) = .ok p ↔
      p = { packed requests with
        slots := (packed requests).slots ++ replicate (bucket - (lens requests).sum) (-1)
        positions := (packed requests).positions ++
          replicate (bucket - (lens requests).sum) 0 } := by
  have h1 : (packed requests).slots.length ≤ bucket := length_packed_slots.trans_le hr
  have h2 : (packed requests).positions.length ≤ bucket := length_packed_positions.trans_le hr
  unfold pad resize
  rw [if_pos hl, take_of_length_le h1, take_of_length_le h2, length_packed_slots,
    length_packed_positions]
  exact ⟨fun h => (Except.ok.inj h).symm, fun h => by rw [h]⟩

theorem paddedEnd_some (hc : maxCtx ≤ i32Max) (hs : r.stop ≤ maxCtx) (hp : padding ≤ i32Max) :
    paddedEnd padding maxCtx r = some m ↔ m = r.stop + padding ∧ r.stop + padding ≤ maxCtx := by
  have h1 : checkedAdd r.start r.len = some r.stop := by
    refine checkedAdd_some.mpr ⟨?_, rfl⟩
    unfold Request.stop i32Max at *
    omega
  have h2 : checkedAdd r.stop padding = some (r.stop + padding) := by
    refine checkedAdd_some.mpr ⟨?_, rfl⟩
    unfold i32Max at *
    omega
  unfold paddedEnd
  rw [h1]
  show (checkedAdd r.stop padding).bind _ = some m ↔ _
  rw [h2, Option.bind_some]
  split
  · next h => exact ⟨fun e => ⟨(Option.some.inj e).symm, h⟩, fun e => by rw [e.1]⟩
  · next h => exact ⟨(fun e => nomatch e), fun e => absurd e.2 h⟩

/-- the padding goes to the last request that has room for it -/
structure Owner (requests : List Request) (padding maxCtx index : Nat) (r : Request) : Prop where
  get : requests[index]? = some r
  fits : r.stop + padding ≤ maxCtx
  last : ∀ j r', index < j → requests[j]? = some r' → maxCtx < r'.stop + padding

theorem paddingOwner_concat : paddingOwner (rs ++ [r]) padding maxCtx =
    match paddedEnd padding maxCtx r with
    | some m => some (rs.length, r, m)
    | none => paddingOwner rs padding maxCtx := by
  unfold paddingOwner
  rw [zipIdx_append, reverse_append, zipIdx_singleton, reverse_singleton,
    singleton_append, findSome?_cons, zero_add]
  dsimp only
  cases paddedEnd padding maxCtx r with
  | none => rfl
  | some m => rfl

theorem paddingOwner_some {index : Nat} (hc : maxCtx ≤ i32Max)
    (hs : ∀ r ∈ requests, r.stop ≤ maxCtx) (hp : padding ≤ i32Max)
    (h : paddingOwner requests padding maxCtx = some (index, r, m)) :
    Owner requests padding maxCtx index r ∧ m = r.stop + padding := by
  induction requests using reverseRecOn with
  | nil => cases h
  | append_singleton rs q ih =>
    have hq := hs q (mem_append_right _ mem_cons_self)
    have hs := fun r hr => hs r (mem_append_left _ hr)
    rw [paddingOwner_concat] at h
    cases he : paddedEnd padding maxCtx q with
    | some m' =>
      rw [he] at h
      cases h
      obtain ⟨rfl, hfit⟩ := (paddedEnd_some hc hq hp).mp he
      refine ⟨⟨getElem?_concat_length, hfit, fun j r' hj hr' => ?_⟩, rfl⟩
      have := (List.getElem?_eq_some_iff.mp hr').1
      rw [length_append, length_singleton] at this
      omega
    | none =>
      rw [he] at h
      obtain ⟨o, rfl⟩ := ih hs h
      have hlt := (List.getElem?_eq_some_iff.mp o.get).1
      refine ⟨⟨?_, o.fits, fun j r' hj hr' => ?_⟩, rfl⟩
      · rw [getElem?_append_left hlt]
        exact o.get
      · rcases lt_or_ge j rs.length with hlt | hge
        · rw [getElem?_append_left hlt] at hr'
          exact o.last j r' hj hr'
        · rw [getElem?_append_right hge] at hr'
          obtain ⟨-, rfl⟩ := List.getElem?_eq_some_iff.mp hr'
          by_contra hle
          have hfit := (paddedEnd_some hc hq hp).mpr ⟨rfl, Nat.le_of_not_lt (by simpa using hle)⟩
          rw [he] at hfit
          cases hfit

theorem pad_unmasked (a : Accepted requests frontiers bucket maxCtx none)
    (h : pad requests bucket maxCtx none (lens requests).sum (packed requests) = .ok p) :
    ∃ index r, Owner requests (bucket - (lens requests).sum) maxCtx index r ∧
      p = { packed requests with
        slots := (packed requests).slots ++
          replicate (bucket - (lens requests).sum) (r.slot : Int)
        positions := (packed requests).positions ++
          (range (bucket - (lens requests).sum)).map fun i => ((r.stop + i : Nat) : Int)
        mappedEnds := (packed requests).mappedEnds.modify index fun e =>
          (e.1, r.stop + (bucket - (lens requests).sum)) } := by
  have hpad : bucket - (lens requests).sum ≤ i32Max := le_trans (Nat.sub_le _ _) a.bucket32
  unfold pad at h
  rw [if_neg (by decide)] at h
  cases ho : paddingOwner requests (bucket - (lens requests).sum) maxCtx with
  | none =>
    simp only [ho] at h
    cases h
  | some o =>
    obtain ⟨index, r, m⟩ := o
    obtain ⟨o, rfl⟩ := paddingOwner_some a.maxCtx32 (fun r hr => (a.fits r hr).ctx) hpad ho
    have hr := mem_of_getElem? o.get
    have hpos : ((range (bucket - (lens requests).sum)).map fun i =>
        asI32 (r.start + r.len + i)) = (range (bucket - (lens requests).sum)).map fun i =>
          ((r.stop + i : Nat) : Int) := by
      apply map_congr_left
      intro i hi
      have := mem_range.mp hi
      have := o.fits
      have := a.maxCtx32
      exact asI32_eq (by unfold Request.stop at *; omega)
    have hm : asU32 (r.stop + (bucket - (lens requests).sum)) =
        r.stop + (bucket - (lens requests).sum) := asU32_eq (le_trans o.fits a.maxCtx32)
    have hsub : r.stop + (bucket - (lens requests).sum) - (r.start + r.len) =
        bucket - (lens requests).sum := by
      unfold Request.stop
      omega
    simp only [ho, hm, hsub, hpos, asI32_eq (a.fits r hr).slot32] at h
    exact ⟨index, r, o, (Except.ok.inj h).symm⟩

end Plow.PackedPrefill
