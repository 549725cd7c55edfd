import Plow.Lib.BlockCyclic
import Plow.Lib.Results

/-!
# Expert ownership and the transfer plan

The experts are dealt to the ranks in consecutive ranges, of which the first ones are an expert
longer (`balanced`), and in the two-dimensional layout each range goes to a group of ranks that cut
the experts' width among them.  The plan of one source rank counts, for each peer, the tokens and
the routes that go there (`tally_spec`) and lays the windows of the peers one after the other.
-/

namespace Plow.MoeEp
open Lib List Function

/-! ### Ranges -/

def balancedExpertRange (experts ranks rank : ℕ) : ℕ × ℕ :=
  let q := experts / ranks
  let rem := experts % ranks
  let start := rank * q + min rank rem
  let count := q + if rank < rem then 1 else 0
  (start, start + count)

def expertOwner (experts ranks expert : ℕ) : ℕ :=
  let q := experts / ranks
  let rem := experts % ranks
  let wide := (q + 1) * rem
  if expert < wide then expert / (q + 1) else rem + (expert - wide) / q

def InRange (range : ℕ × ℕ) (expert : ℕ) : Prop := range.1 ≤ expert ∧ expert < range.2

instance (range : ℕ × ℕ) (expert : ℕ) : Decidable (InRange range expert) :=
  inferInstanceAs (Decidable (_ ∧ _))

/-- Consecutive ranges, as even as they can be; the owner of an expert is the one that has it. -/
structure Balanced (experts ranks : ℕ) : Prop where
  first : (balancedExpertRange experts ranks 0).1 = 0
  next : ∀ r, (balancedExpertRange experts ranks r).2 = (balancedExpertRange experts ranks (r + 1)).1
  last : (balancedExpertRange experts ranks (ranks - 1)).2 = experts
  even : ∀ r r', (balancedExpertRange experts ranks r).2 - (balancedExpertRange experts ranks r).1 ≤
    (balancedExpertRange experts ranks r').2 - (balancedExpertRange experts ranks r').1 + 1
  owner_lt : ∀ e < experts, expertOwner experts ranks e < ranks
  owner_iff : ∀ e < experts, ∀ r,
    expertOwner experts ranks e = r ↔ InRange (balancedExpertRange experts ranks r) e

section
variable {experts ranks e r r' : ℕ}

theorem range_next (r : ℕ) :
    (balancedExpertRange experts ranks r).2 = (balancedExpertRange experts ranks (r + 1)).1 := by
  simp only [balancedExpertRange, Nat.succ_mul]
  split <;> omega

theorem range_mono (h : r ≤ r') :
    (balancedExpertRange experts ranks r).1 ≤ (balancedExpertRange experts ranks r').1 :=
  Nat.add_le_add (Nat.mul_le_mul_right _ h) (min_le_min_right _ h)

theorem range_lt (h : r < r') :
    (balancedExpertRange experts ranks r).2 ≤ (balancedExpertRange experts ranks r').1 := by
  rw [range_next]
  exact range_mono h

theorem range_end (hr : 0 < ranks) : (balancedExpertRange experts ranks ranks).1 = experts := by
  have hmod := Nat.mod_lt experts hr
  have hdiv := Nat.div_add_mod experts ranks
  simp only [balancedExpertRange]
  omega

theorem inRange_unique (h : InRange (balancedExpertRange experts ranks r) e)
    (h' : InRange (balancedExpertRange experts ranks r') e) : r = r' := by
  rcases Nat.lt_trichotomy r r' with hlt | heq | hlt
  · exact absurd (h.2.trans_le (range_lt hlt)) (Nat.not_lt.mpr h'.1)
  · exact heq
  · exact absurd (h'.2.trans_le (range_lt hlt)) (Nat.not_lt.mpr h.1)

/-- The first ranges have one expert more than the quotient; past them the quotient counts. -/
theorem owner_inRange (hr : 0 < ranks) (hle : ranks ≤ experts) :
    InRange (balancedExpertRange experts ranks (expertOwner experts ranks e)) e := by
  have hq : 0 < experts / ranks := Nat.div_pos hle hr
  unfold InRange balancedExpertRange expertOwner
  simp only
  generalize experts / ranks = q at *
  generalize experts % ranks = rem
  split
  · next hwide =>
    have hlt : e / (q + 1) < rem := Nat.div_lt_of_lt_mul hwide
    have hlo := Nat.div_mul_le_self e (q + 1)
    have hhi := Nat.lt_div_mul_add (a := e) (Nat.succ_pos q)
    rw [if_pos hlt, Nat.min_eq_left hlt.le]
    generalize e / (q + 1) = o at *
    rw [Nat.mul_succ] at hlo hhi
    omega
  · next hwide =>
    have hlo := Nat.div_mul_le_self (e - (q + 1) * rem) q
    have hhi := Nat.lt_div_mul_add (a := e - (q + 1) * rem) hq
    generalize (e - (q + 1) * rem) / q = k at *
    rw [if_neg (by omega), Nat.min_eq_right (Nat.le_add_right rem k), Nat.add_mul,
      Nat.mul_comm rem q]
    rw [Nat.succ_mul] at *
    omega

theorem balanced (hr : 0 < ranks) (hle : ranks ≤ experts) : Balanced experts ranks where
  first := by simp [balancedExpertRange]
  next := range_next
  last := by rw [range_next, Nat.sub_add_cancel hr, range_end hr]
  even r r' := by
    simp only [balancedExpertRange]
    split <;> split <;> omega
  owner_lt e he := by
    by_contra hge
    have hmono := (range_mono (Nat.le_of_not_lt hge)).trans (owner_inRange hr hle).1
    rw [range_end hr] at hmono
    exact Nat.not_lt.mpr hmono he
  owner_iff e _ r := ⟨fun h => h ▸ owner_inRange hr hle, fun h =>
    inRange_unique (owner_inRange hr hle) h⟩

end

/-! ### The two-dimensional layout -/

structure Moe2dLayout where
  worldSize : ℕ
  expertDegree : ℕ

namespace Moe2dLayout
variable (l : Moe2dLayout)

def intraExpertTp : ℕ := l.worldSize / l.expertDegree

def validate (experts fullIntermediate : ℕ) : Except String Unit := do
  ensure (¬ (l.worldSize = 0 ∨ l.expertDegree = 0 ∨ ¬ l.expertDegree ∣ l.worldSize))
    "expert degree must divide world size"
  ensure (¬ experts < l.expertDegree) "experts must cover every expert group"
  ensure (l.intraExpertTp ∣ fullIntermediate) "intermediate width must divide intra-expert TP"

def expertGroup (rank : ℕ) : ℕ := rank / l.intraExpertTp

def intraRank (rank : ℕ) : ℕ := rank % l.intraExpertTp

def expertRange (experts rank : ℕ) : ℕ × ℕ :=
  balancedExpertRange experts l.expertDegree (l.expertGroup rank)

def expertGroupOwner (experts expert : ℕ) : ℕ := expertOwner experts l.expertDegree expert

def localExpertIndex (experts rank expert : ℕ) : Option ℕ :=
  let range := l.expertRange experts rank
  if InRange range expert then some (expert - range.1) else none

/-- Each slice of an expert is at one rank, a rank of the group that owns the expert. -/
structure Exact (experts : ℕ) : Prop where
  index : ∀ rank expert i, l.localExpertIndex experts rank expert = some i ↔
    InRange (l.expertRange experts rank) expert ∧ i = expert - (l.expertRange experts rank).1
  group : ∀ expert < experts, ∀ rank, (l.localExpertIndex experts rank expert).isSome ↔
    l.expertGroup rank = l.expertGroupOwner experts expert
  slice : ∀ expert < experts, ∀ slice < l.intraExpertTp, ∃! rank, rank < l.worldSize ∧
    l.intraRank rank = slice ∧ (l.localExpertIndex experts rank expert).isSome

variable {l} {experts fullIntermediate : ℕ}

theorem exact_of_validate (h : l.validate experts fullIntermediate = .ok ()) : l.Exact experts := by
  obtain ⟨_, h1, h⟩ := bind_ok.mp h
  obtain ⟨_, h2, -⟩ := bind_ok.mp h
  obtain ⟨hw, hd, hdvd⟩ : l.worldSize ≠ 0 ∧ l.expertDegree ≠ 0 ∧ l.expertDegree ∣ l.worldSize := by
    simpa using ensure_ok.mp h1
  have hworld : l.expertDegree * l.intraExpertTp = l.worldSize := Nat.mul_div_cancel' hdvd
  have htp : 0 < l.intraExpertTp := Nat.div_pos (Nat.le_of_dvd (by omega) hdvd) (by omega)
  have hb := balanced (Nat.pos_of_ne_zero hd) (Nat.le_of_not_lt (ensure_ok.mp h2))
  have hindex : ∀ rank expert i, l.localExpertIndex experts rank expert = some i ↔
      InRange (l.expertRange experts rank) expert ∧ i = expert - (l.expertRange experts rank).1 := by
    intro rank expert i
    simp only [localExpertIndex, Option.ite_none_right_eq_some, Option.some.injEq, eq_comm (b := i)]
  have hgroup : ∀ expert < experts, ∀ rank, (l.localExpertIndex experts rank expert).isSome ↔
      l.expertGroup rank = l.expertGroupOwner experts expert := by
    intro expert he rank
    rw [Option.isSome_iff_exists]
    exact Iff.trans ⟨fun ⟨i, hi⟩ => ((hindex ..).mp hi).1, fun hin => ⟨_, (hindex ..).mpr ⟨hin, rfl⟩⟩⟩
      ((hb.owner_iff expert he _).symm.trans eq_comm)
  refine ⟨hindex, hgroup, fun expert he slice hs => ?_⟩
  set o := l.expertGroupOwner experts expert
  have hlt : o < l.expertDegree := hb.owner_lt expert he
  refine ⟨o * l.intraExpertTp + slice, ⟨?_, block_mod o hs, ?_⟩, ?_⟩
  · calc o * l.intraExpertTp + slice < (o + 1) * l.intraExpertTp := by rw [Nat.succ_mul]; omega
      _ ≤ l.worldSize := hworld ▸ Nat.mul_le_mul_right _ hlt
  · exact (hgroup expert he _).mpr (block_div htp o hs)
  · intro rank ⟨_, hrank, hsome⟩
    have hg : l.expertGroup rank = o := (hgroup expert he rank).mp hsome
    rw [← hrank, ← hg, Nat.mul_comm]
    exact (Nat.div_add_mod rank l.intraExpertTp).symm

end Moe2dLayout

/-! ### The plan -/

structure MoeEpGeometry where
  tokens : ℕ
  hidden : ℕ
  intermediate : ℕ
  experts : ℕ
  topK : ℕ
  ranks : ℕ
  blockM : ℕ
  elementBytes : ℕ
  -- the counts are words of 32 bits
  tokens_lt : tokens < 2 ^ 32

namespace MoeEpGeometry
variable (g : MoeEpGeometry)

def validate : Except String Unit := do
  ensure (¬ (g.tokens = 0 ∨ g.hidden = 0 ∨ g.intermediate = 0)) "tensor dimensions must be non-zero"
  ensure (¬ (g.ranks = 0 ∨ g.experts < g.ranks)) "experts must cover every rank"
  ensure (¬ (g.topK = 0 ∨ g.experts < g.topK)) "top_k must be in 1..=experts"
  ensure (¬ (g.blockM = 0 ∨ g.elementBytes = 0)) "block_m and element_bytes must be non-zero"

def expertRange (rank : ℕ) : ℕ × ℕ := balancedExpertRange g.experts g.ranks rank

def owner (expert : ℕ) : ℕ := expertOwner g.experts g.ranks expert

end MoeEpGeometry

structure RouteEntry (F : Type) where
  expertId : ℕ
  gate : F

structure MoeEpPeerWindow where
  peer : ℕ
  activationRows : ℕ
  routeEntries : ℕ
  activationOffset : ℕ
  routeOffset : ℕ
  returnOffset : ℕ
  deriving DecidableEq

structure MoeEpTransferPlan where
  sourceRank : ℕ
  windows : List MoeEpPeerWindow
  activationBytes : ℕ
  routeBytes : ℕ
  returnBytes : ℕ
  localBytes : ℕ

/-- the size of `MoeEpRouteRecord` -/
def routeRecordBytes : ℕ := 16

structure Tally where
  activationRows : ℕ → ℕ
  routeCounts : ℕ → ℕ
  seenAt : ℕ → ℕ

/-- the arguments of the planner -/
structure Dispatch (F : Type) extends MoeEpGeometry where
  sourceRank : ℕ
  tokenSource : List ℕ
  routes : List (RouteEntry F)

namespace Dispatch
variable {F : Type} (x : Dispatch F) (peer : ℕ)

def route (token : ℕ) (t : Tally) (route : RouteEntry F) : Tally :=
  if x.experts ≤ route.expertId then t else
  let peer := x.owner route.expertId
  let t := if t.seenAt peer ≠ token then
      { t with
        seenAt := update t.seenAt peer token
        activationRows := update t.activationRows peer (t.activationRows peer + 1) }
    else t
  { t with routeCounts := update t.routeCounts peer (t.routeCounts peer + 1) }

def rowOf (token : ℕ) : List (RouteEntry F) := (x.routes.drop (token * x.topK)).take x.topK

def token (t : Tally) (token : ℕ) : Tally :=
  if x.tokenSource[token]? ≠ some x.sourceRank then t else (x.rowOf token).foldl (x.route token) t

/-- the counts after the first `n` tokens -/
def tally (n : ℕ) : Tally :=
  (range n).foldl x.token ⟨fun _ => 0, fun _ => 0, fun _ => 2 ^ 32 - 1⟩

def rowBytes : ℕ := x.hidden * x.elementBytes

def pushWindow (t : Tally) (p : MoeEpTransferPlan) (peer : ℕ) : MoeEpTransferPlan :=
  let activationLen := t.activationRows peer * x.rowBytes
  { p with
    windows := p.windows ++ [⟨peer, t.activationRows peer, t.routeCounts peer, p.activationBytes,
      p.routeBytes, p.returnBytes⟩]
    activationBytes := p.activationBytes + activationLen
    routeBytes := p.routeBytes + t.routeCounts peer * routeRecordBytes
    -- the destination adds up a token's experts before it returns them
    returnBytes := p.returnBytes + activationLen }

def tokenShardedTransferPlan : MoeEpTransferPlan :=
  let t := x.tally x.tokens
  let p := (range x.ranks).foldl (x.pushWindow t) ⟨x.sourceRank, [], 0, 0, 0, 0⟩
  { p with localBytes := t.activationRows x.sourceRank * x.rowBytes * 2 +
      t.routeCounts x.sourceRank * routeRecordBytes }

/-! ### What the plan counts -/

/-- the peer owns the route's expert -/
def goes (route : RouteEntry F) : Bool := route.expertId < x.experts ∧ x.owner route.expertId = peer

/-- the source's tokens below `n` -/
def mine (n : ℕ) : List ℕ := (range n).filter (x.tokenSource[·]? = some x.sourceRank)

/-- how many tokens below `n` have an expert at the peer -/
def rowsTo (n : ℕ) : ℕ := (x.mine n).countP fun token => (x.rowOf token).any (x.goes peer)

/-- how many routes of the tokens below `n` have their expert at the peer -/
def routesTo (n : ℕ) : ℕ := ((x.mine n).map fun token => (x.rowOf token).countP (x.goes peer)).sum

/-- where a peer's rows begin -/
def rowsBefore : ℕ := ∑ p ∈ .range peer, x.rowsTo p x.tokens * x.rowBytes

def routesBefore : ℕ := ∑ p ∈ .range peer, x.routesTo p x.tokens * routeRecordBytes

/-- The windows of the peers, one after the other, and their sums.  Partial sums of any values of
the routes, taken peer by peer, add up to the sum over the routes whose experts there are. -/
structure Exact (plan : MoeEpTransferPlan) : Prop where
  windows : plan.windows = (range x.ranks).map fun peer => ⟨peer, x.rowsTo peer x.tokens,
    x.routesTo peer x.tokens, x.rowsBefore peer, x.routesBefore peer, x.rowsBefore peer⟩
  activation : plan.activationBytes = x.rowsBefore x.ranks
  route : plan.routeBytes = x.routesBefore x.ranks
  returned : plan.returnBytes = x.rowsBefore x.ranks
  combine : ∀ {M : Type} [AddCommMonoid M] (f : RouteEntry F × ℕ → M) (token : ℕ),
    ∑ p ∈ .range x.ranks, (((x.rowOf token).zipIdx.filter (x.goes p ·.1)).map f).sum =
      (((x.rowOf token).zipIdx.filter (·.1.expertId < x.experts)).map f).sum

variable {x peer} {token n : ℕ} {t : Tally} {r : RouteEntry F}

theorem goes_iff : x.goes peer r = true ↔ r.expertId < x.experts ∧ x.owner r.expertId = peer :=
  decide_eq_true_iff

theorem route_goes (h : x.goes peer r) : (x.route token t r).seenAt peer = token ∧
    (x.route token t r).routeCounts peer = t.routeCounts peer + 1 ∧
    (x.route token t r).activationRows peer =
      t.activationRows peer + if t.seenAt peer = token then 0 else 1 := by
  obtain ⟨hlt, rfl⟩ := goes_iff.mp h
  unfold route
  rw [if_neg (Nat.not_le.mpr hlt)]
  by_cases hs : t.seenAt (x.owner r.expertId) = token <;> simp [hs]

theorem route_other (h : ¬ x.goes peer r) : (x.route token t r).seenAt peer = t.seenAt peer ∧
    (x.route token t r).routeCounts peer = t.routeCounts peer ∧
    (x.route token t r).activationRows peer = t.activationRows peer := by
  unfold route
  split
  · exact ⟨rfl, rfl, rfl⟩
  · next hlt =>
    have hne : peer ≠ x.owner r.expertId := fun he =>
      h (goes_iff.mpr ⟨Nat.lt_of_not_le hlt, he.symm⟩)
    by_cases hs : t.seenAt (x.owner r.expertId) = token <;> simp [hs, hne]

/-- Over one token's routes a peer gets each of its routes, and the token once. -/
theorem row_spec (row : List (RouteEntry F)) (t : Tally) :
    (row.foldl (x.route token) t).seenAt peer =
      (if row.any (x.goes peer) then token else t.seenAt peer) ∧
    (row.foldl (x.route token) t).routeCounts peer =
      t.routeCounts peer + row.countP (x.goes peer) ∧
    (row.foldl (x.route token) t).activationRows peer = t.activationRows peer +
      if row.any (x.goes peer) ∧ t.seenAt peer ≠ token then 1 else 0 := by
  induction row generalizing t with
  | nil => simp
  | cons r row ih =>
    obtain ⟨h1, h2, h3⟩ := ih (x.route token t r)
    rw [foldl_cons, h1, h2, h3]
    by_cases hr : x.goes peer r
    · obtain ⟨e1, e2, e3⟩ := @route_goes F x peer token t r hr
      rw [e1, e2, e3]
      simp [hr, Nat.add_assoc, Nat.add_comm, Nat.add_left_comm]
    · obtain ⟨e1, e2, e3⟩ := @route_other F x peer token t r hr
      rw [e1, e2, e3]
      simp [hr]

theorem mine_succ : x.mine (n + 1) =
    x.mine n ++ if x.tokenSource[n]? = some x.sourceRank then [n] else [] := by
  rw [mine, range_succ, filter_append]
  split <;> simp [mine, *]

/-- **The tally.**  A token is new to every peer, since those seen before are smaller. -/
theorem tally_spec (hn : n < 2 ^ 32) :
    ((x.tally n).seenAt peer = 2 ^ 32 - 1 ∨ (x.tally n).seenAt peer < n) ∧
      (x.tally n).routeCounts peer = x.routesTo peer n ∧
      (x.tally n).activationRows peer = x.rowsTo peer n := by
  induction n with
  | zero => exact ⟨.inl rfl, rfl, rfl⟩
  | succ n ih =>
    obtain ⟨h1, h2, h3⟩ := ih (Nat.lt_of_succ_lt hn)
    have hstep : x.tally (n + 1) = x.token (x.tally n) n := by
      rw [tally, range_succ, foldl_append]
      rfl
    rw [hstep, routesTo, rowsTo, mine_succ]
    unfold Dispatch.token
    by_cases hm : x.tokenSource[n]? = some x.sourceRank
    · rw [if_neg (not_not.mpr hm), if_pos hm]
      obtain ⟨e1, e2, e3⟩ := @row_spec F x peer n (x.rowOf n) (x.tally n)
      have hnew : (x.tally n).seenAt peer ≠ n := by omega
      rw [e1, e2, e3, h2, h3, countP_append, map_append, sum_append]
      refine ⟨?_, by simp [routesTo], by simp [rowsTo, hnew, countP_singleton]⟩
      split <;> omega
    · rw [if_pos hm, if_neg hm, append_nil]
      exact ⟨h1.imp_right Nat.lt_succ_of_lt, h2, h3⟩

theorem windows_spec (n : ℕ) :
    (range n).foldl (x.pushWindow (x.tally x.tokens)) ⟨x.sourceRank, [], 0, 0, 0, 0⟩ =
      ⟨x.sourceRank, (range n).map fun peer => ⟨peer, x.rowsTo peer x.tokens,
        x.routesTo peer x.tokens, x.rowsBefore peer, x.routesBefore peer, x.rowsBefore peer⟩,
        x.rowsBefore n, x.routesBefore n, x.rowsBefore n, 0⟩ := by
  induction n with
  | zero => rfl
  | succ n ih =>
    obtain ⟨-, hroutes, hrows⟩ := @tally_spec F x n _ x.tokens_lt
    rw [range_succ, foldl_append, ih, map_append]
    simp only [foldl_cons, foldl_nil, pushWindow, hroutes, hrows, rowsBefore, routesBefore,
      Finset.sum_range_succ]
    rfl

/-- An expert that there is goes to one rank, all others to none. -/
theorem combine_spec {M : Type} [AddCommMonoid M] (hb : Balanced x.experts x.ranks)
    (f : RouteEntry F × ℕ → M) (l : List (RouteEntry F × ℕ)) :
    ∑ p ∈ .range x.ranks, ((l.filter (x.goes p ·.1)).map f).sum =
      ((l.filter (·.1.expertId < x.experts)).map f).sum := by
  induction l with
  | nil => simp
  | cons e l ih =>
    have hsplit : ∀ p, (((e :: l).filter (x.goes p ·.1)).map f).sum =
        (if x.goes p e.1 then f e else 0) + ((l.filter (x.goes p ·.1)).map f).sum := by
      intro p
      rw [filter_cons]
      by_cases h : x.goes p e.1 <;> simp [h]
    rw [Finset.sum_congr rfl fun p _ => hsplit p, Finset.sum_add_distrib, ih, filter_cons]
    by_cases he : e.1.expertId < x.experts
    · have howner : x.owner e.1.expertId < x.ranks := hb.owner_lt _ he
      have hone : ∀ p, x.goes p e.1 ↔ x.owner e.1.expertId = p := fun p =>
        goes_iff.trans (and_iff_right he)
      simp [hone, howner, he]
    · have hnone : ∀ p, ¬ x.goes p e.1 := fun p h => he (goes_iff.mp h).1
      simp [hnone, he]

theorem exact (h : x.validate = .ok ()) : x.Exact x.tokenShardedTransferPlan := by
  obtain ⟨_, -, h⟩ := bind_ok.mp h
  obtain ⟨_, hr, -⟩ := bind_ok.mp h
  obtain ⟨hr, hle⟩ := not_or.mp (ensure_ok.mp hr)
  have hb := balanced (Nat.pos_of_ne_zero hr) (Nat.le_of_not_lt hle)
  unfold tokenShardedTransferPlan
  simp only [windows_spec]
  exact ⟨rfl, rfl, rfl, rfl, fun f _ => combine_spec hb f _⟩

end Dispatch

theorem expert_ownership_exact :
    (∀ experts ranks, 0 < ranks → ranks ≤ experts → Balanced experts ranks) ∧
    (∀ (l : Moe2dLayout) experts fullIntermediate,
      l.validate experts fullIntermediate = .ok () → l.Exact experts) ∧
    ∀ {F : Type} (x : Dispatch F), x.validate = .ok () → x.Exact x.tokenShardedTransferPlan :=
  ⟨fun _ _ => balanced, fun _ _ _ => Moe2dLayout.exact_of_validate, fun _ => Dispatch.exact⟩

/-- five routes of two tokens, two of one token with one rank -/
def small : Dispatch Unit where
  tokens := 2
  hidden := 8
  intermediate := 32
  experts := 5
  topK := 3
  ranks := 2
  blockM := 64
  elementBytes := 2
  tokens_lt := by decide
  sourceRank := 0
  tokenSource := [0, 0]
  routes := [⟨0, ()⟩, ⟨2, ()⟩, ⟨4, ()⟩, ⟨3, ()⟩, ⟨4, ()⟩, ⟨9, ()⟩]

theorem expert_ownership_exact_small : Balanced 5 2 ∧ (⟨4, 2⟩ : Moe2dLayout).Exact 5 ∧
    small.Exact small.tokenShardedTransferPlan :=
  ⟨expert_ownership_exact.1 5 2 (by decide) (by decide),
    expert_ownership_exact.2.1 ⟨4, 2⟩ 5 4 rfl, expert_ownership_exact.2.2 small rfl⟩

end Plow.MoeEp
