import Mathlib

/-!
# Admission by KV bytes

A sequence is charged what it maps when it has finished: whole blocks of every group and a fixed part,
or so many bytes a row.  `seat` admits a request when the charges of all live sequences and its own
stay within the budget; `kvShares` divides a device between the engines on it.

A `u64` is a natural number; saturating and checked operations are those of the source, and the plain
sums wrap.  The products of a share are 128 bits wide and do not.
-/

namespace Plow.Sched

def u64Max : ℕ := 2 ^ 64 - 1

def satAdd (a b : ℕ) : ℕ := min (a + b) u64Max

def satMul (a b : ℕ) : ℕ := min (a * b) u64Max

def checkedAdd (a b : ℕ) : Option ℕ := if a + b ≤ u64Max then some (a + b) else none

/-! ### Rows and bytes -/

def reservedKvRows (promptTokens maxTokens generatedTokens : ℕ) : ℕ :=
  satAdd promptTokens (max (max maxTokens generatedTokens) 1)

def maxKvBlockGroups : ℕ := 8

structure KvBlockGroup where
  blockRows : ℕ
  blockBytes : ℕ
  deriving DecidableEq, Repr

/-- The block groups are those that count. -/
structure KvBudget where
  bytesPerToken : ℕ
  budgetBytes : ℕ
  blockGroups : List KvBlockGroup
  requestBytes : ℕ
  deriving DecidableEq, Repr

namespace KvBudget

def linear (bytesPerToken budgetBytes : ℕ) : KvBudget := ⟨bytesPerToken, budgetBytes, [], 0⟩

def withRequestBytes (b : KvBudget) (requestBytes : ℕ) : KvBudget := { b with requestBytes := requestBytes }

def withBlockGroups (b : KvBudget) (groups : List (ℕ × ℕ)) : Option KvBudget :=
  if groups = [] ∨ maxKvBlockGroups < groups.length then none
  else if groups.any fun g => g.1 = 0 || g.2 = 0 then none
  else some { b with blockGroups := groups.map fun g => ⟨g.1, g.2⟩ }

def blocks (rows : ℕ) (g : KvBlockGroup) : ℕ :=
  if g.blockRows = 0 then u64Max else satAdd rows (g.blockRows - 1) / g.blockRows

/-- bytes that one sequence of `rows` rows commits -/
def bytesForRows (b : KvBudget) (rows : ℕ) : ℕ :=
  let fixed := if rows = 0 then 0 else b.requestBytes
  if b.blockGroups = [] then satAdd (satMul rows b.bytesPerToken) fixed
  else b.blockGroups.foldl (fun total g => satAdd total (satMul (blocks rows g) g.blockBytes)) fixed

def fitsRequests (b : KvBudget) (rows : List ℕ) : Bool :=
  (rows.foldlM (fun total rows => checkedAdd total (b.bytesForRows rows)) 0).any (· ≤ b.budgetBytes)

/-- doubled until it does not fit; a `u64` is doubled at most 63 times -/
def overshoot (b : KvBudget) : ℕ → ℕ → ℕ
  | 0, hi => hi
  | fuel + 1, hi =>
    if b.bytesForRows hi ≤ b.budgetBytes ∧ hi < u64Max / 2 then b.overshoot fuel (hi * 2) else hi

/-- the last row count that fits, between one that does and one that does not -/
def bisectRows (b : KvBudget) : ℕ → ℕ → ℕ → ℕ
  | 0, lo, _ => lo
  | fuel + 1, lo, hi =>
    if lo + 1 < hi then
      let mid := lo + (hi - lo) / 2
      if b.bytesForRows mid ≤ b.budgetBytes then b.bisectRows fuel mid hi else b.bisectRows fuel lo mid
    else lo

def maxRows (b : KvBudget) : ℕ :=
  if b.blockGroups ≠ [] ∨ b.requestBytes ≠ 0 then b.bisectRows 64 0 (b.overshoot 64 1)
  else b.budgetBytes / max b.bytesPerToken 1

end KvBudget

/-! ### The seat -/

/-- why a request did not take a slot -/
inductive Denied where
  | engineDead
  | noFreeSlot
  | exceedsWholeBudget (want maxRows : ℕ)
  | kvBudgetFull (want : ℕ)
  | downstreamFull
  deriving DecidableEq, Repr

/-- liveness, then a slot, then the whole-device bound, then the downstream stage's backlog, then what
live sequences already hold -/
def seat (engineDead : Bool) (freeSlot : Option ℕ) (wantRows : ℕ) (committedRows : List ℕ)
    (budget : Option KvBudget) (downstreamFull : Bool) : Except Denied ℕ :=
  if engineDead then .error .engineDead
  else match freeSlot with
    | none => .error .noFreeSlot
    | some slot =>
      if budget.any fun b => !b.fitsRequests [wantRows] then
        .error (.exceedsWholeBudget wantRows ((budget.map (·.maxRows)).getD 0))
      else if downstreamFull then .error .downstreamFull
      else if budget.any fun b => !b.fitsRequests (committedRows ++ [wantRows]) then
        .error (.kvBudgetFull wantRows)
      else .ok slot

/-! ### Shares of a device -/

/-- one co-resident engine's inputs -/
structure KvShare where
  seq : ℕ
  committed : ℕ
  reserve : ℕ
  deriving DecidableEq, Repr

def KvShare.floor (s : KvShare) : ℕ := max s.seq s.committed

def largestReserve (shares : List KvShare) : ℕ := (shares.map (·.reserve)).max?.getD 0

def wrap64 (n : ℕ) : ℕ := n % 2 ^ 64

/-- the caps of the engines, or a refusal and the bytes that would have covered it -/
def kvShares (room : ℕ) (shares : List KvShare) : Except (String × ℕ) (List ℕ) :=
  let reserve := largestReserve shares
  let need := wrap64 (shares.map KvShare.floor).sum
  let short := wrap64 (need + reserve) - room
  let room := room - reserve
  if 0 < short then
    .error (s!"co-resident models need {need / 2 ^ 20} MiB to keep their admitted sequences and one " ++
      s!"full-context sequence each, and the device backs {room / 2 ^ 20} MiB beside a " ++
      s!"{reserve / 2 ^ 20} MiB reserve", short)
  else
    let spare := room - need
    let seqs := max (shares.map (·.seq)).sum 1
    .ok (shares.map fun s => wrap64 (s.floor + wrap64 (spare * s.seq / seqs)))

end Plow.Sched

/-!
# Co-resident admission

Several engines on one device: their shares are cut again at any time, requests are seated, run and
retire.  What the live sequences of an engine map when they have finished stays within its cap, and of
all engines within the last room less the largest reserve (`kv_admission`).  A cap covers what is
committed and one full-context sequence, so an engine without live sequences seats any request.

Sums are below 2^64: of the floors and the reserve at a cut, and of the rows and bytes of a request,
rounded up to a block.
-/

namespace Plow.Sched

/-! ### Charges -/

namespace KvBudget

/-- the bytes that so many rows map, in whole blocks of every group -/
def mapped (b : KvBudget) (rows : ℕ) : ℕ :=
  (if rows = 0 then 0 else b.requestBytes) +
    if b.blockGroups = [] then rows * b.bytesPerToken
    else (b.blockGroups.map fun g => rows ⌈/⌉ g.blockRows * g.blockBytes).sum

/-- rows whose charge is exact -/
structure Small (b : KvBudget) (rows : ℕ) : Prop where
  rows_le : rows ≤ u64Max
  blocks_le : ∀ g ∈ b.blockGroups, rows + (g.blockRows - 1) ≤ u64Max
  bytes_le : b.mapped rows ≤ u64Max

def Valid (b : KvBudget) : Prop := ∀ g ∈ b.blockGroups, 0 < g.blockRows

variable {b : KvBudget} {g : KvBlockGroup} {rows rows' : ℕ} {l : List ℕ}

theorem foldl_satAdd {a : ℕ} (h : a + l.sum ≤ u64Max) : l.foldl satAdd a = a + l.sum := by
  induction l generalizing a with
  | nil => rfl
  | cons x l ih =>
    rw [List.sum_cons] at h ⊢
    have hx : satAdd a x = a + x := min_eq_left (by omega)
    rw [List.foldl_cons, hx, ih (by omega)]
    omega

theorem blocks_eq (hv : 0 < g.blockRows) (h : rows + (g.blockRows - 1) ≤ u64Max) :
    blocks rows g = rows ⌈/⌉ g.blockRows := by
  unfold blocks satAdd
  rw [if_neg (by omega), min_eq_left h, Nat.ceilDiv_eq_add_pred_div]
  congr 1
  omega

theorem bytesForRows_eq (hv : b.Valid) (h : b.Small rows) : b.bytesForRows rows = b.mapped rows := by
  have hb := h.bytes_le
  unfold mapped at hb
  unfold bytesForRows mapped
  dsimp only
  split
  · next hg =>
    rw [if_pos hg] at hb
    unfold satMul satAdd
    omega
  · next hg =>
    rw [if_neg hg] at hb
    have hterms : b.blockGroups.map (fun g => satMul (blocks rows g) g.blockBytes) =
        b.blockGroups.map fun g => rows ⌈/⌉ g.blockRows * g.blockBytes := by
      refine List.map_congr_left fun g hmem => ?_
      have hle := List.le_sum_of_mem (List.mem_map_of_mem (f := fun g : KvBlockGroup =>
        rows ⌈/⌉ g.blockRows * g.blockBytes) hmem)
      rw [blocks_eq (hv g hmem) (h.blocks_le g hmem)]
      exact min_eq_left (by omega)
    rw [← List.foldl_map (f := fun g => satMul (blocks rows g) g.blockBytes) (g := satAdd), hterms]
    exact foldl_satAdd hb

theorem mapped_mono (h : rows ≤ rows') : b.mapped rows ≤ b.mapped rows' := by
  unfold mapped
  apply add_le_add
  · split
    · exact Nat.zero_le _
    · rw [if_neg (by omega)]
  · split
    · exact Nat.mul_le_mul_right _ h
    · refine List.sum_le_sum fun g _ => Nat.mul_le_mul_right _ ?_
      rw [Nat.ceilDiv_eq_add_pred_div, Nat.ceilDiv_eq_add_pred_div]
      exact Nat.div_le_div_right (by omega)

theorem Small.mono (h : b.Small rows') (hle : rows ≤ rows') : b.Small rows where
  rows_le := hle.trans h.rows_le
  blocks_le g hg := (Nat.add_le_add_right hle _).trans (h.blocks_le g hg)
  bytes_le := (mapped_mono hle).trans h.bytes_le

theorem fold_checkedAdd {f : ℕ → ℕ} {a : ℕ} (ha : a ≤ u64Max) :
    l.foldlM (fun total x => checkedAdd total (f x)) a =
      if a + (l.map f).sum ≤ u64Max then some (a + (l.map f).sum) else none := by
  induction l generalizing a with
  | nil => exact (if_pos ha).symm
  | cons x l ih =>
    rw [List.foldlM_cons, List.map_cons, List.sum_cons]
    by_cases hx : a + f x ≤ u64Max
    · have hstep : checkedAdd a (f x) = some (a + f x) := if_pos hx
      rw [hstep, Option.bind_eq_bind, Option.bind_some, ih hx, Nat.add_assoc]
    · have hstep : checkedAdd a (f x) = none := if_neg hx
      rw [hstep, if_neg (by omega)]
      rfl

theorem fitsRequests_iff (hb : b.budgetBytes ≤ u64Max) :
    b.fitsRequests l = true ↔ (l.map b.bytesForRows).sum ≤ b.budgetBytes := by
  unfold fitsRequests
  rw [fold_checkedAdd (Nat.zero_le _), Nat.zero_add]
  split
  · exact decide_eq_true_iff
  · constructor
    · intro h
      cases h
    · intro h
      omega

end KvBudget

theorem seat_ok {dead full : Bool} {free : Option ℕ} {want slot : ℕ} {committed : List ℕ} {b : KvBudget}
    (hb : b.budgetBytes ≤ u64Max) (h : seat dead free want committed (some b) full = .ok slot) :
    ((committed ++ [want]).map b.bytesForRows).sum ≤ b.budgetBytes := by
  unfold seat at h
  split at h
  · cases h
  · split at h
    · cases h
    · split at h
      · cases h
      · split at h
        · cases h
        · split at h
          · cases h
          · next hfit =>
            have hfit' : b.fitsRequests (committed ++ [want]) = true := by simpa using hfit
            exact (KvBudget.fitsRequests_iff hb).mp hfit'

theorem seat_alone {want slot : ℕ} {b : KvBudget} (hb : b.budgetBytes ≤ u64Max)
    (h : b.bytesForRows want ≤ b.budgetBytes) : seat false (some slot) want [] (some b) false = .ok slot := by
  have hfit : b.fitsRequests [want] = true :=
    (KvBudget.fitsRequests_iff hb).mpr (by rw [List.map_singleton, List.sum_singleton]; exact h)
  unfold seat
  simp [hfit]

/-! ### Shares -/

theorem sum_mul_div_le {l : List ℕ} {n w : ℕ} (h : l.sum ≤ w) : (l.map fun x => n * x / w).sum ≤ n := by
  have hdiv : (l.map fun x => n * x / w).sum ≤ n * l.sum / w := by
    induction l with
    | nil => exact Nat.zero_le _
    | cons x l ih =>
      rw [List.sum_cons] at h
      rw [List.map_cons, List.sum_cons, List.sum_cons, mul_add]
      exact (Nat.add_le_add_left (ih (by omega)) _).trans Nat.div_add_div_le_add_div
  refine hdiv.trans (Nat.div_le_of_le_mul ?_)
  rw [mul_comm w]
  exact Nat.mul_le_mul_left n h

def needOf (shares : List KvShare) : ℕ := (shares.map KvShare.floor).sum + largestReserve shares

/-- What a cut of the room gives. -/
structure Caps (room : ℕ) (shares : List KvShare) (caps : List ℕ) : Prop where
  length : caps.length = shares.length
  floor : ∀ (i : ℕ) (s : KvShare) (c : ℕ), shares[i]? = some s → caps[i]? = some c → s.floor ≤ c
  room : caps.sum + largestReserve shares ≤ room

variable {room : ℕ} {shares : List KvShare} {caps : List ℕ}

theorem kvShares_cases (hsum : needOf shares ≤ u64Max) (hroom : room ≤ u64Max) :
    (room < needOf shares ∧ ∃ text, kvShares room shares = .error (text, needOf shares - room)) ∨
      (needOf shares ≤ room ∧ ∃ caps, kvShares room shares = .ok caps ∧ Caps room shares caps) := by
  have hmax : u64Max < 2 ^ 64 := by decide
  have hneed : wrap64 (shares.map KvShare.floor).sum = (shares.map KvShare.floor).sum := by
    unfold needOf at hsum
    exact Nat.mod_eq_of_lt (by omega)
  have htotal : wrap64 ((shares.map KvShare.floor).sum + largestReserve shares) = needOf shares :=
    Nat.mod_eq_of_lt (by unfold needOf at hsum; omega)
  unfold kvShares
  dsimp only
  rw [hneed, htotal]
  by_cases hshort : 0 < needOf shares - room
  · rw [if_pos hshort]
    exact .inl ⟨by omega, _, rfl⟩
  · rw [if_neg hshort]
    right
    have hle : needOf shares ≤ room := by omega
    refine ⟨hle, _, rfl, ?_⟩
    -- no share goes past the room, so nothing wraps
    have hspare : ((shares.map (·.seq)).map fun x => (room - largestReserve shares -
        (shares.map KvShare.floor).sum) * x / max (shares.map (·.seq)).sum 1).sum ≤
        room - largestReserve shares - (shares.map KvShare.floor).sum := sum_mul_div_le (le_max_left _ _)
    rw [List.map_map] at hspare
    have hcap : ∀ s ∈ shares, wrap64 (s.floor + wrap64 ((room - largestReserve shares -
        (shares.map KvShare.floor).sum) * s.seq / max (shares.map (·.seq)).sum 1)) =
        s.floor + (room - largestReserve shares - (shares.map KvShare.floor).sum) * s.seq /
          max (shares.map (·.seq)).sum 1 := by
      intro s hs
      have hfloor := List.le_sum_of_mem (List.mem_map_of_mem (f := KvShare.floor) hs)
      have hshare := List.le_sum_of_mem (List.mem_map_of_mem (f := (fun x => (room - largestReserve shares -
        (shares.map KvShare.floor).sum) * x / max (shares.map (·.seq)).sum 1) ∘ (·.seq)) hs)
      simp only [Function.comp] at hshare hspare
      unfold needOf at hle
      have hin : wrap64 ((room - largestReserve shares - (shares.map KvShare.floor).sum) * s.seq /
          max (shares.map (·.seq)).sum 1) = (room - largestReserve shares -
            (shares.map KvShare.floor).sum) * s.seq / max (shares.map (·.seq)).sum 1 :=
        Nat.mod_eq_of_lt (by omega)
      rw [hin]
      exact Nat.mod_eq_of_lt (by omega)
    rw [List.map_congr_left hcap]
    refine ⟨List.length_map _, fun i s c hs hc => ?_, ?_⟩
    · rw [List.getElem?_map, hs, Option.map_some] at hc
      cases hc
      exact Nat.le_add_right _ _
    · have hsplit := List.sum_map_add (l := shares) (f := KvShare.floor) (g := fun s =>
        (room - largestReserve shares - (shares.map KvShare.floor).sum) * s.seq / max (shares.map (·.seq)).sum 1)
      rw [hsplit]
      simp only [Function.comp_def] at hspare
      unfold needOf at hle
      omega

/-! ### The device -/

structure Sequence where
  prompt : ℕ
  maxTokens : ℕ
  generated : ℕ
  deriving DecidableEq, Repr

def Sequence.rows (s : Sequence) : ℕ := reservedKvRows s.prompt s.maxTokens s.generated

def Sequence.finalRows (s : Sequence) : ℕ := s.prompt + max s.maxTokens 1

/-- An engine: its charges, and the rows of a full context. -/
structure Engine where
  budget : KvBudget
  maxCtx : ℕ
  valid : budget.Valid

/-- `room` is the last room that was cut, and the largest reserve then. -/
structure Device where
  cap : ℕ → Option ℕ
  live : ℕ → List Sequence
  room : Option (ℕ × ℕ)

def Device.init : Device := ⟨fun _ => none, fun _ => [], none⟩

def committed (e : Engine) (live : List Sequence) : ℕ := (live.map fun s => e.budget.bytesForRows s.rows).sum

def finalBytes (e : Engine) (live : List Sequence) : ℕ := (live.map fun s => e.budget.mapped s.finalRows).sum

def sharesOf (es : List Engine) (d : Device) (reserves : ℕ → ℕ) : List KvShare :=
  es.zipIdx.map fun x => ⟨x.1.budget.bytesForRows x.1.maxCtx, committed x.1 (d.live x.2), reserves x.2⟩

/-- the budget of an engine that may use `own` bytes, at most its cap -/
def capped (b : KvBudget) (own : ℕ) (cap : Option ℕ) : KvBudget :=
  { b with budgetBytes := (cap.map (min own)).getD own }

inductive Step (es : List Engine) : Device → Device → Prop where
  | share {d : Device} {room : ℕ} {reserves : ℕ → ℕ} {caps : List ℕ} (hroom : room ≤ u64Max)
      (hsum : needOf (sharesOf es d reserves) ≤ u64Max) (h : kvShares room (sharesOf es d reserves) = .ok caps) :
      Step es d { d with cap := fun i => caps[i]?, room := some (room, largestReserve (sharesOf es d reserves)) }
  | refuse {d : Device} {room : ℕ} {reserves : ℕ → ℕ} {e : String × ℕ}
      (h : kvShares room (sharesOf es d reserves) = .error e) : Step es d d
  | seat {d : Device} {i slot own prompt maxTokens : ℕ} {e : Engine} {dead full : Bool} {free : Option ℕ}
      (he : es[i]? = some e) (hown : own ≤ u64Max) (hsmall : e.budget.Small (prompt + max maxTokens 1))
      (h : seat dead free (reservedKvRows prompt maxTokens 0) ((d.live i).map Sequence.rows)
        (some (capped e.budget own (d.cap i))) full = .ok slot) :
      Step es d { d with live := Function.update d.live i (d.live i ++ [⟨prompt, maxTokens, 0⟩]) }
  | token {d : Device} {i k : ℕ} {s : Sequence} (hs : (d.live i)[k]? = some s) (hmax : s.generated < s.maxTokens) :
      Step es d { d with
        live := Function.update d.live i ((d.live i).set k { s with generated := s.generated + 1 }) }
  | retire {d : Device} {i k : ℕ} : Step es d { d with live := Function.update d.live i ((d.live i).eraseIdx k) }

def Reachable (es : List Engine) : Device → Prop := Relation.ReflTransGen (Step es) .init

/-! ### What holds in every state -/

/-- a live sequence that has not generated too much, with an exact charge -/
structure Counted (e : Engine) (s : Sequence) : Prop where
  generated : s.generated ≤ s.maxTokens
  small : e.budget.Small s.finalRows

structure Within (es : List Engine) (d : Device) : Prop where
  counted : ∀ (i : ℕ) (e : Engine), es[i]? = some e → ∀ s ∈ d.live i, Counted e s
  cap : ∀ (i : ℕ) (e : Engine) (c : ℕ), es[i]? = some e → d.cap i = some c →
    committed e (d.live i) ≤ c ∧ e.budget.bytesForRows e.maxCtx ≤ c ∧ c ≤ u64Max
  room : ∀ room reserve, d.room = some (room, reserve) → ∃ caps : List ℕ, caps.length = es.length ∧
    (∀ i, d.cap i = caps[i]?) ∧ caps.sum + reserve ≤ room

variable {es : List Engine} {d d' : Device} {e : Engine} {s : Sequence} {i : ℕ}

theorem Counted.rows (h : Counted e s) : s.rows = s.finalRows := by
  have hle := h.small.rows_le
  unfold Sequence.rows Sequence.finalRows reservedKvRows satAdd at *
  rw [max_eq_left h.generated]
  exact min_eq_left hle

theorem committed_eq {live : List Sequence} (h : ∀ s ∈ live, Counted e s) :
    committed e live = finalBytes e live := by
  unfold committed finalBytes
  refine congrArg List.sum (List.map_congr_left fun s hs => ?_)
  rw [(h s hs).rows, KvBudget.bytesForRows_eq e.valid (h s hs).small]

theorem bytesForRows_capped (b : KvBudget) (own : ℕ) (cap : Option ℕ) (rows : ℕ) :
    (capped b own cap).bytesForRows rows = b.bytesForRows rows := rfl

theorem Within.live (h : Within es d) {live : List Sequence}
    (hcounted : ∀ e, es[i]? = some e → ∀ s ∈ live, Counted e s)
    (hcap : ∀ e c, es[i]? = some e → d.cap i = some c → committed e live ≤ c) :
    Within es { d with live := Function.update d.live i live } := by
  refine ⟨fun j e he => ?_, fun j e c he hc => ?_, h.room⟩
  · by_cases hj : j = i
    · subst hj
      show ∀ s ∈ Function.update d.live j live j, Counted e s
      rw [Function.update_self]
      exact hcounted e he
    · show ∀ s ∈ Function.update d.live i live j, Counted e s
      rw [Function.update_of_ne hj]
      exact h.counted j e he
  · refine ⟨?_, (h.cap j e c he hc).2⟩
    by_cases hj : j = i
    · subst hj
      show committed e (Function.update d.live j live j) ≤ c
      rw [Function.update_self]
      exact hcap e c he hc
    · show committed e (Function.update d.live i live j) ≤ c
      rw [Function.update_of_ne hj]
      exact (h.cap j e c he hc).1

theorem sharesOf_get (he : es[i]? = some e) (d : Device) (reserves : ℕ → ℕ) : (sharesOf es d reserves)[i]? =
    some ⟨e.budget.bytesForRows e.maxCtx, committed e (d.live i), reserves i⟩ := by
  unfold sharesOf
  rw [List.getElem?_map, List.getElem?_zipIdx, he]
  simp

theorem sharesOf_length (d : Device) (reserves : ℕ → ℕ) : (sharesOf es d reserves).length = es.length := by
  unfold sharesOf
  rw [List.length_map, List.length_zipIdx]

theorem Within.step (h : Within es d) (hs : Step es d d') : Within es d' := by
  cases hs with
  | @share room reserves caps hroom hsum hok =>
    obtain ⟨-, _, herr⟩ | ⟨-, caps', hok', hcut⟩ := kvShares_cases hsum hroom
    · rw [hok] at herr
      cases herr
    · rw [hok] at hok'
      cases hok'
      refine ⟨h.counted, fun i e c he hc => ?_, fun room' reserve' hr => ?_⟩
      · have hfloor := hcut.floor i _ c (sharesOf_get he d reserves) hc
        have hle := List.le_sum_of_mem (List.mem_of_getElem? hc)
        have hin := hcut.room
        exact ⟨(le_max_right _ _).trans hfloor, (le_max_left _ _).trans hfloor, by omega⟩
      · cases hr
        exact ⟨caps, hcut.length.trans (sharesOf_length d reserves), fun i => rfl, hcut.room⟩
  | refuse _ => exact h
  | @seat i slot own prompt maxTokens e dead full free he hown hsmall hok =>
    have hnew : Counted e ⟨prompt, maxTokens, 0⟩ := ⟨Nat.zero_le _, hsmall⟩
    refine h.live (fun f hf s hs => ?_) fun f c hf hc => ?_
    · rw [he] at hf
      cases hf
      rcases List.mem_append.mp hs with hs | hs
      · exact h.counted i e he s hs
      · rw [List.mem_singleton.mp hs]
        exact hnew
    · rw [he] at hf
      cases hf
      rw [hc] at hok
      have hbound : (capped e.budget own (some c)).budgetBytes ≤ u64Max := (min_le_left _ _).trans hown
      have hsum := seat_ok hbound hok
      rw [List.map_append, List.map_map, List.sum_append, List.map_singleton, List.sum_singleton] at hsum
      unfold committed
      rw [List.map_append, List.sum_append, List.map_singleton, List.sum_singleton]
      exact hsum.trans (min_le_right _ _)
  | @token i k s hk hmax =>
    have hset : ∀ e, es[i]? = some e → Counted e s ∧ Counted e { s with generated := s.generated + 1 } := by
      intro e he
      have hs := h.counted i e he s (List.mem_of_getElem? hk)
      exact ⟨hs, ⟨hmax, hs.small⟩⟩
    refine h.live (fun e he t ht => ?_) fun e c he hc => ?_
    · rcases List.mem_or_eq_of_mem_set ht with ht | rfl
      · exact h.counted i e he t ht
      · exact (hset e he).2
    · -- the charge does not change
      obtain ⟨hold, hnew⟩ := hset e he
      have hrows : ({ s with generated := s.generated + 1 } : Sequence).rows = s.rows := by
        rw [hnew.rows, hold.rows]
        rfl
      have hsame : committed e ((d.live i).set k { s with generated := s.generated + 1 }) =
          committed e (d.live i) := by
        unfold committed
        rw [List.map_set, hrows]
        congr 1
        refine List.ext_getElem? fun j => ?_
        rw [List.getElem?_set]
        split
        · next hkj =>
          subst hkj
          rw [List.getElem?_map, hk, Option.map_some, List.length_map]
          exact if_pos (List.getElem?_eq_some_iff.mp hk).1
        · rfl
      rw [hsame]
      exact (h.cap i e c he hc).1
  | @retire i k =>
    refine h.live (fun e he t ht => h.counted i e he t (List.mem_of_mem_eraseIdx ht)) fun e c he hc => ?_
    refine le_trans ?_ (h.cap i e c he hc).1
    unfold committed
    exact ((List.eraseIdx_sublist _ _).map _).sum_le_sum fun _ _ => Nat.zero_le _

theorem Reachable.within (h : Reachable es d) : Within es d := by
  induction h with
  | refl => exact ⟨fun _ _ _ => nofun, fun _ _ _ _ => nofun, fun _ _ => nofun⟩
  | tail _ hs ih => exact ih.step hs

/-! ### The admission -/

theorem Within.final (h : Within es d) {c : ℕ} (he : es[i]? = some e) (hc : d.cap i = some c) :
    finalBytes e (d.live i) ≤ c := by
  rw [← committed_eq (h.counted i e he)]
  exact (h.cap i e c he hc).1

theorem Within.total (h : Within es d) {room reserve : ℕ} (hr : d.room = some (room, reserve)) :
    (es.zipIdx.map fun x => finalBytes x.1 (d.live x.2)).sum + reserve ≤ room := by
  obtain ⟨caps, hlen, hcaps, hsum⟩ := h.room room reserve hr
  refine Nat.le_trans (Nat.add_le_add_right ?_ reserve) hsum
  -- engine by engine
  have hall : List.Forall₂ (· ≤ ·) (es.zipIdx.map fun x => finalBytes x.1 (d.live x.2)) caps := by
    rw [List.forall₂_iff_get]
    refine ⟨by rw [List.length_map, List.length_zipIdx, hlen], fun i hi hic => ?_⟩
    rw [List.length_map, List.length_zipIdx] at hi
    have hcap : d.cap i = some (caps[i]) := (hcaps i).trans (List.getElem?_eq_getElem hic)
    have hle := h.final (List.getElem?_eq_getElem hi) hcap
    simpa using hle
  exact hall.sum_le_sum

theorem Within.seats (h : Within es d) {c own prompt maxTokens slot : ℕ} (he : es[i]? = some e)
    (hc : d.cap i = some c) (hlive : d.live i = []) (hown : own ≤ u64Max)
    (hfull : e.budget.bytesForRows e.maxCtx ≤ own) (hsmall : e.budget.Small e.maxCtx)
    (hrows : prompt + max maxTokens 1 ≤ e.maxCtx) :
    seat false (some slot) (reservedKvRows prompt maxTokens 0) ((d.live i).map Sequence.rows)
      (some (capped e.budget own (d.cap i))) false = .ok slot := by
  have hwant : reservedKvRows prompt maxTokens 0 ≤ e.maxCtx := by
    unfold reservedKvRows satAdd
    rw [Nat.max_eq_left (Nat.zero_le maxTokens)]
    exact (min_le_left _ _).trans hrows
  rw [hlive, hc]
  apply seat_alone
  · exact (min_le_left _ _).trans hown
  · rw [bytesForRows_capped, KvBudget.bytesForRows_eq e.valid (hsmall.mono hwant)]
    have hone := KvBudget.mapped_mono (b := e.budget) hwant
    rw [← KvBudget.bytesForRows_eq e.valid hsmall] at hone
    exact hone.trans (Nat.le_min.mpr ⟨hfull, (h.cap i e c he hc).2.1⟩)

/-- A cut is refused when the room is short, by what it is short; else the caps cover the floors and
stay within the room.  In every state reached the live sequences finish within their engine's cap, and
all together within the last room less the largest reserve; an engine on which nothing is live seats
any request of at most a full context. -/
theorem kv_admission :
    (∀ (room : ℕ) (shares : List KvShare), needOf shares ≤ u64Max → room ≤ u64Max →
      (room < needOf shares ∧ ∃ text, kvShares room shares = .error (text, needOf shares - room)) ∨
        (needOf shares ≤ room ∧ ∃ caps, kvShares room shares = .ok caps ∧ Caps room shares caps)) ∧
      ∀ (es : List Engine) (d : Device), Reachable es d →
        (∀ (i : ℕ) (e : Engine) (c : ℕ), es[i]? = some e → d.cap i = some c →
          finalBytes e (d.live i) ≤ c ∧ (d.live i = [] → ∀ own prompt maxTokens slot, own ≤ u64Max →
              e.budget.bytesForRows e.maxCtx ≤ own → e.budget.Small e.maxCtx →
              prompt + max maxTokens 1 ≤ e.maxCtx →
              seat false (some slot) (reservedKvRows prompt maxTokens 0) ((d.live i).map Sequence.rows)
                (some (capped e.budget own (d.cap i))) false = .ok slot)) ∧
          ∀ room reserve, d.room = some (room, reserve) →
            (es.zipIdx.map fun x => finalBytes x.1 (d.live x.2)).sum + reserve ≤ room := by
  refine ⟨fun room shares hsum hroom => kvShares_cases hsum hroom, fun es d h => ⟨fun i e c he hc => ?_, ?_⟩⟩
  · refine ⟨h.within.final he hc, fun hlive own prompt maxTokens slot hown hfull hsmall hrows => ?_⟩
    exact h.within.seats he hc hlive hown hfull hsmall hrows
  · intro room reserve hr
    exact h.within.total hr

def pair : List Engine :=
  [⟨.linear 10 200, 4, nofun⟩, ⟨⟨0, 200, [⟨2, 3⟩], 1⟩, 4, fun g hg => by
    rw [List.mem_singleton.mp hg]
    exact Nat.succ_pos 1⟩]

def pairShared : Device :=
  { Device.init with cap := fun i => [81, 14][i]?, room := some (101, 5) }

def pairSeated : Device :=
  { pairShared with live := Function.update pairShared.live 0 [⟨1, 2, 0⟩] }

theorem pairSeated_reachable : Reachable pair pairSeated := by
  have hshare : Step pair .init pairShared :=
    @Step.share pair .init 101 (fun _ => 5) [81, 14] (by decide) (by decide) (by rfl)
  have hseat : Step pair pairShared pairSeated := by
    exact @Step.seat pair pairShared 0 0 200 1 2 (pair.head (by decide)) false false (some 0) rfl (by decide)
      ⟨by decide, nofun, by decide⟩ (by decide)
  exact (Relation.ReflTransGen.single hshare).tail hseat

theorem kv_admission_pair : finalBytes (pair.head (by decide)) (pairSeated.live 0) = 30 ∧
    finalBytes (pair.head (by decide)) (pairSeated.live 0) ≤ 81 ∧
      (pair.zipIdx.map fun x => finalBytes x.1 (pairSeated.live x.2)).sum + 5 ≤ 101 :=
  ⟨by decide, ((kv_admission.2 pair pairSeated pairSeated_reachable).1 0 _ 81 rfl rfl).1,
    (kv_admission.2 pair pairSeated pairSeated_reachable).2 101 5 rfl⟩

end Plow.Sched
