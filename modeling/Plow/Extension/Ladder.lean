import Plow.Lib.Results

/-!
# Ladders of a merged program table

A program's role says what it is for.  `checkLadder` is the fifth rule of the extension contract, a
function of the merged table alone; `checkLadder_ok` says what it accepts.  Of the roles, the rule
looks for duplicates among the prefill buckets and among the decode rungs.
-/

namespace Plow.Extension
open Lib List

inductive ProgramRole where
  | prefillBucket (rows : UInt32)
  | decodeRung (rows : UInt32)
  | packedSibling (ofRows : UInt32)
  | tokenBatchBody (band rows : UInt32)
  | denseExactRung (rows : UInt32)
  | rowSplitSibling (ofRows : UInt32)
  | modularBlock (rows : UInt32)
  deriving DecidableEq

namespace ProgramRole

def bucket : ProgramRole → Option UInt32
  | prefillBucket rows => some rows
  | _ => none

def rung : ProgramRole → Option UInt32
  | decodeRung rows => some rows
  | _ => none

/-- what a sibling or body is called, and the bucket it belongs to -/
def sibling : ProgramRole → Option (String × UInt32)
  | packedSibling ofRows => some ("packed sibling", ofRows)
  | tokenBatchBody _ rows => some ("token-batch body", rows)
  | rowSplitSibling ofRows => some ("row-split sibling", ofRows)
  | _ => none

end ProgramRole

inductive Origin where
  | parent
  | extension (name : String)
  deriving DecidableEq

def Origin.text : Origin → String
  | parent => "model.pkt"
  | extension name => name

abbrev Program := Origin × ProgramRole

def buckets (ps : List Program) : List (UInt32 × Origin) :=
  ps.filterMap fun p => p.2.bucket.map fun w => (w, p.1)

def rungs (ps : List Program) : List (UInt32 × Origin) :=
  ps.filterMap fun p => p.2.rung.map fun w => (w, p.1)

/-- the first width that was there before, with the origin it was from -/
def duplicate (seen : List (UInt32 × Origin)) : List (UInt32 × Origin) → Option (UInt32 × Origin)
  | [] => none
  | (w, o) :: rest =>
    match seen.lookup w with
    | some prev => some (w, prev)
    | none => duplicate ((w, o) :: seen) rest

def checkDuplicates (what : String) (ladder : List (UInt32 × Origin)) : Except String Unit :=
  match duplicate [] ladder with
  | none => .ok ()
  | some (w, prev) => .error ("duplicate " ++ what ++ " at " ++ toString w ++ " rows — " ++
      prev.text ++ " already has one, and an extension may only ADD (replacing a program in place " ++
      "is a re-emit)")

def ascending (ws : List UInt32) : List UInt32 := ws.mergeSort (· ≤ ·)

/-- a set as `Debug` prints it -/
def setText (ws : List UInt32) : String :=
  "\x7b" ++ String.intercalate ", " ((ascending ws.dedup).map toString) ++ "\x7d"

def checkBand (decodeBatch : UInt32) (r : UInt32 × Origin) : Except String Unit :=
  ensure (r.1 ≠ 0 ∧ r.1 ≤ decodeBatch) ("decode rung " ++ toString r.1 ++ " from " ++ r.2.text ++
    " is outside the decode band 1..=" ++ toString decodeBatch)

def checkSibling (widths : List UInt32) (p : Program) : Except String Unit :=
  match p.2.sibling with
  | none => .ok ()
  | some (kind, ofRows) => ensure (ofRows ∈ widths) (kind ++ " from " ++ p.1.text ++ " names a " ++
      toString ofRows ++ "-row prefill bucket, which the union does not have (buckets: " ++
      setText widths ++ ")")

def checkLadder (ps : List Program) (decodeBatch : UInt32) : Except String Unit := do
  checkDuplicates "prefill bucket" (buckets ps)
  ensure (buckets ps ≠ []) "the union has no prefill bucket"
  checkDuplicates "decode rung" (rungs ps)
  ensure (rungs ps ≠ []) "the union has no decode rung"
  (rungs ps).forM (checkBand decodeBatch)
  ps.forM (checkSibling ((buckets ps).map Prod.fst))

/-! ### What the rule accepts -/

/-- the siblings and bodies of `qs` have their buckets in `ps` -/
def Housed (ps qs : List Program) : Prop :=
  ∀ q ∈ qs, ∀ kind w, q.2.sibling = some (kind, w) → w ∈ (buckets ps).map Prod.fst

structure Ladders (ps : List Program) (decodeBatch : UInt32) : Prop where
  bucketsNodup : ((buckets ps).map Prod.fst).Nodup
  someBucket : buckets ps ≠ []
  rungsNodup : ((rungs ps).map Prod.fst).Nodup
  someRung : rungs ps ≠ []
  band : ∀ r ∈ rungs ps, r.1 ≠ 0 ∧ r.1 ≤ decodeBatch

theorem lookup_none_iff (l : List (UInt32 × Origin)) (w : UInt32) :
    l.lookup w = none ↔ w ∉ l.map Prod.fst := by
  rw [lookup_eq_none_iff, mem_map]
  constructor
  · rintro h ⟨p, hp, rfl⟩
    exact absurd (h p hp) (by simp)
  · intro h p hp
    by_contra hne
    exact h ⟨p, hp, (by simpa using hne : w = p.1).symm⟩

theorem duplicate_none (l seen : List (UInt32 × Origin)) : duplicate seen l = none ↔
      (l.map Prod.fst).Nodup ∧ ∀ w ∈ l.map Prod.fst, w ∉ seen.map Prod.fst := by
  induction l generalizing seen with
  | nil => exact ⟨fun _ => ⟨nodup_nil, nofun⟩, fun _ => rfl⟩
  | cons r l ih =>
    obtain ⟨w, o⟩ := r
    unfold duplicate
    split
    · next prev hprev =>
      refine ⟨(fun h => nomatch h), fun ⟨_, h⟩ => ?_⟩
      have hnone := (lookup_none_iff seen w).mpr (h w mem_cons_self)
      rw [hnone] at hprev
      cases hprev
    · next hnone =>
      have hw := (lookup_none_iff seen w).mp hnone
      rw [ih, map_cons, map_cons, nodup_cons, forall_mem_cons]
      constructor
      · rintro ⟨hnd, hout⟩
        refine ⟨⟨fun hin => hout w hin mem_cons_self, hnd⟩, hw, fun v hv hs => ?_⟩
        exact hout v hv (mem_cons_of_mem _ hs)
      · rintro ⟨⟨hwl, hnd⟩, -, hout⟩
        refine ⟨hnd, fun v hv hs => ?_⟩
        rcases mem_cons.mp hs with rfl | hs
        · exact hwl hv
        · exact hout v hv hs

theorem checkDuplicates_ok (what : String) (l : List (UInt32 × Origin)) :
    checkDuplicates what l = .ok () ↔ (l.map Prod.fst).Nodup := by
  have hnone := duplicate_none l []
  unfold checkDuplicates
  split
  · next h => exact ⟨fun _ => (hnone.mp h).1, fun _ => rfl⟩
  · next h =>
    refine ⟨(fun e => nomatch e), fun hnd => ?_⟩
    rw [hnone.mpr ⟨hnd, fun _ _ => not_mem_nil⟩] at h
    cases h

theorem checkSiblings_ok (ps qs : List Program) :
    qs.forM (checkSibling ((buckets ps).map Prod.fst)) = .ok () ↔ Housed ps qs := by
  refine forM_ok.trans (forall₂_congr fun q _ => ?_)
  unfold checkSibling
  split
  · next h =>
    refine iff_of_true rfl fun kind w hk => ?_
    rw [h] at hk
    cases hk
  · next kind w h =>
    rw [ensure_ok]
    constructor
    · intro hw k v hk
      rw [h] at hk
      cases hk
      exact hw
    · exact fun hall => hall kind w h

theorem checkLadder_ok (ps : List Program) (decodeBatch : UInt32) :
    checkLadder ps decodeBatch = .ok () ↔ Ladders ps decodeBatch ∧ Housed ps ps := by
  unfold checkLadder
  constructor
  · intro h
    obtain ⟨⟨⟩, hb, h⟩ := bind_ok.mp h
    obtain ⟨⟨⟩, hsb, h⟩ := bind_ok.mp h
    obtain ⟨⟨⟩, hr, h⟩ := bind_ok.mp h
    obtain ⟨⟨⟩, hsr, h⟩ := bind_ok.mp h
    obtain ⟨⟨⟩, hband, h⟩ := bind_ok.mp h
    refine ⟨⟨(checkDuplicates_ok _ _).mp hb, ensure_ok.mp hsb, (checkDuplicates_ok _ _).mp hr,
      ensure_ok.mp hsr, fun r hm => ensure_ok.mp (forM_ok.mp hband r hm)⟩,
      (checkSiblings_ok ps ps).mp h⟩
  · rintro ⟨h, hh⟩
    refine bind_ok.mpr ⟨(), (checkDuplicates_ok _ _).mpr h.bucketsNodup, ?_⟩
    refine bind_ok.mpr ⟨(), ensure_ok.mpr h.someBucket, ?_⟩
    refine bind_ok.mpr ⟨(), (checkDuplicates_ok _ _).mpr h.rungsNodup, ?_⟩
    refine bind_ok.mpr ⟨(), ensure_ok.mpr h.someRung, ?_⟩
    refine bind_ok.mpr ⟨(), forM_ok.mpr fun r hm => ensure_ok.mpr (h.band r hm), ?_⟩
    exact (checkSiblings_ok ps ps).mpr hh

/-! ### Tables that grow -/

theorem Housed.mono {ps ps' qs : List Program} (h : Housed ps qs) (hs : ps.Sublist ps') :
    Housed ps' qs := fun q hq kind w hk =>
  ((hs.filterMap _).map Prod.fst).subset (h q hq kind w hk)

theorem housed_append {ps qs qs' : List Program} :
    Housed ps (qs ++ qs') ↔ Housed ps qs ∧ Housed ps qs' := forall_mem_append

theorem Ladders.part {ps qs : List Program} {decodeBatch : UInt32}
    (h : Ladders (ps ++ qs) decodeBatch) (hb : buckets ps ≠ []) (hr : rungs ps ≠ []) :
    Ladders ps decodeBatch := by
  have hsub : ps.Sublist (ps ++ qs) := sublist_append_left ps qs
  refine ⟨h.bucketsNodup.sublist ((hsub.filterMap _).map Prod.fst), hb,
    h.rungsNodup.sublist ((hsub.filterMap _).map Prod.fst), hr, fun r hm => ?_⟩
  exact h.band r ((hsub.filterMap _).subset hm)

theorem Ladders.perm {ps qs : List Program} {decodeBatch : UInt32} (h : Ladders ps decodeBatch)
    (hp : ps.Perm qs) : Ladders qs decodeBatch := by
  have hb : (buckets ps).Perm (buckets qs) := hp.filterMap _
  have hr : (rungs ps).Perm (rungs qs) := hp.filterMap _
  refine ⟨(hb.map Prod.fst).nodup_iff.mp h.bucketsNodup, fun hn => h.someBucket ?_,
    (hr.map Prod.fst).nodup_iff.mp h.rungsNodup, fun hn => h.someRung ?_, fun r hm => ?_⟩
  · exact (hn ▸ hb).eq_nil
  · exact (hn ▸ hr).eq_nil
  · exact h.band r (hr.symm.subset hm)

end Plow.Extension

/-!
# Merging extensions into a packet

`merge` applies the six rules of the extension contract, extension by extension in the order given.
`merge_ok` says what it accepts: a condition in which the order does not count (`Acceptable`), and
that each extension finds the buckets of its siblings in the parent, in itself or in one before it
(`InOrder`).  Widths are 32-bit and wrap; budgets are natural numbers, as they are only compared.
-/

namespace Plow.Extension
open Lib

abbrev Digest := List UInt8

def hexDigit (n : ℕ) : Char := Char.ofNat (if n < 10 then n + 48 else n + 87)

def hex (d : Digest) : String :=
  String.ofList (d.flatMap fun b => [hexDigit (b.toNat / 16), hexDigit (b.toNat % 16)])

/-! ### The facts -/

structure ParentRef where
  parentHash : Digest
  tensorCount : UInt32
  tensorDigest : Digest

abbrev ConfigAxes := List (String × ℤ)

/-- the first axis on which the two differ, with the value on each side -/
def disagreement (a b : ConfigAxes) : Option (String × Option ℤ × Option ℤ) :=
  let names := ((a.map Prod.fst ++ b.map Prod.fst).dedup).insertionSort (· ≤ ·)
  (names.find? fun n => a.lookup n ≠ b.lookup n).map fun n => (n, a.lookup n, b.lookup n)

inductive KvRing where
  | fullCausal
  | windowed (window ringRows : UInt32)
  | unstated

/-- `next_power_of_two` without overflow checks -/
def nextPowerOfTwo (n : UInt32) : UInt32 :=
  if n ≤ 1 then 1 else UInt32.ofNat (2 ^ ((n.toNat - 1).log2 + 1))

def kvRingRows (window chunk : UInt32) : UInt32 := nextPowerOfTwo (window + chunk - 1)

structure Budget where
  instStreamBytes : ℕ := 0
  counters : ℕ := 0
  segments : ℕ := 0
  workspaceBytes : ℕ := 0
  deriving DecidableEq

def Budget.max (b o : Budget) : Budget where
  instStreamBytes := Nat.max b.instStreamBytes o.instStreamBytes
  counters := Nat.max b.counters o.counters
  segments := Nat.max b.segments o.segments
  workspaceBytes := Nat.max b.workspaceBytes o.workspaceBytes

structure Arenas where
  reserved : Budget
  segmentCeiling : ℕ
  growable : Bool

structure ParentFacts where
  hash : Digest
  tensorCount : UInt32
  tensorDigest : Digest
  config : ConfigAxes
  kv : KvRing
  programs : List ProgramRole
  decodeBatch : UInt32
  arenas : Arenas

structure ExtensionFacts where
  name : String
  parent : ParentRef
  config : ConfigAxes
  programs : List ProgramRole
  chunk : UInt32
  budget : Budget

inductive Rule where
  | parentIdentity | tensorTableDigest | configCompatibility | kvRingInvariant
  | ladderWellFormedness | budget
  deriving DecidableEq

structure Refusal where
  extension : String
  rule : Rule
  detail : String
  deriving DecidableEq

structure Merged where
  programs : List Program
  growth : List String

/-! ### The rules -/

def widest (rs : List ProgramRole) : UInt32 := (rs.filterMap ProgramRole.bucket).foldl max 0

def ParentFacts.table (p : ParentFacts) : List Program := p.programs.map fun r => (.parent, r)

def ExtensionFacts.table (e : ExtensionFacts) : List Program :=
  e.programs.map fun r => (.extension e.name, r)

def axisText : Option ℤ → String
  | some v => toString v
  | none => "absent"

def checkIdentity (parent : ParentFacts) (e : ExtensionFacts) : Except Refusal Unit :=
  ensure (e.parent.parentHash = parent.hash) ⟨e.name, .parentIdentity, "declares parent " ++
    hex e.parent.parentHash ++ " but the loaded model.pkt is " ++ hex parent.hash⟩

def checkTensors (parent : ParentFacts) (e : ExtensionFacts) : Except Refusal Unit := do
  ensure (e.parent.tensorCount = parent.tensorCount) ⟨e.name, .tensorTableDigest,
    "was emitted against a " ++ toString e.parent.tensorCount ++ "-tensor table, the parent " ++
      "declares " ++ toString parent.tensorCount⟩
  ensure (e.parent.tensorDigest = parent.tensorDigest) ⟨e.name, .tensorTableDigest,
    "tensor-table digest " ++ hex e.parent.tensorDigest ++ " does not match the parent's " ++
      hex parent.tensorDigest ++ " — every tensor index in this extension's instructions would " ++
      "mean something else"⟩

def checkConfig (parent : ParentFacts) (e : ExtensionFacts) : Except Refusal Unit :=
  match disagreement parent.config e.config with
  | none => .ok ()
  | some (axis, want, got) => .error ⟨e.name, .configCompatibility, axis ++ " is " ++ axisText got ++
      " here and " ++ axisText want ++ " in the parent — that axis shapes shared device state, " ++
      "so it cannot differ (tile choice, split count and object family may)"⟩

def checkRing (parent : ParentFacts) (e : ExtensionFacts) : Except Refusal Unit :=
  let new := widest e.programs
  let old := widest parent.programs
  if old < new then
    match parent.kv with
    | .fullCausal => .ok ()
    | .windowed window ringRows =>
      ensure (kvRingRows window e.chunk ≤ ringRows) ⟨e.name, .kvRingInvariant, "adds a " ++
        toString new ++ "-row prefill bucket (the parent's widest is " ++ toString old ++
        ") at chunk " ++ toString e.chunk ++ ", which needs a KV ring of " ++
        toString (kvRingRows window e.chunk) ++ " rows; the parent sized its sliding ring at " ++
        toString ringRows ++ " for window " ++ toString window ++ ". The ring is device state " ++
        "the parent allocated and an extension cannot enlarge it — a chunk's rows would wrap " ++
        "onto their own history"⟩
    | .unstated => .error ⟨e.name, .kvRingInvariant, "adds a " ++ toString new ++
        "-row prefill bucket, wider than the parent's widest (" ++ toString old ++ "), but the " ++
        "parent's build.json states no KV window or ring size, so `ring >= window + chunk - 1` " ++
        "cannot be checked. A windowed parent would wrap a chunk's rows onto their own history " ++
        "— a silent wrong answer. Re-emit the parent with a plowc that records " ++
        "shapes.kv_window / shapes.kv_ring_rows, or add a bucket no wider than " ++ toString old⟩
  else .ok ()

def ladderRefusal (name detail : String) : Refusal := ⟨name, .ladderWellFormedness, detail⟩

/-- one extension onto the table and the demand so far -/
def mergeOne (parent : ParentFacts) (acc : List Program × Budget) (e : ExtensionFacts) :
    Except Refusal (List Program × Budget) := do
  checkIdentity parent e
  checkTensors parent e
  checkConfig parent e
  checkRing parent e
  let programs := acc.1 ++ e.table
  (checkLadder programs parent.decodeBatch).mapError (ladderRefusal e.name)
  .ok (programs, acc.2.max e.budget)

/-- the extension of the largest budget, the last of several -/
def biggest (key : Budget → ℕ) (exts : List ExtensionFacts) : String :=
  let best := exts.foldl (fun best e =>
    match best with
    | none => some e
    | some b => if key b.budget ≤ key e.budget then some e else some b) none
  (best.map ExtensionFacts.name).getD "model.pkt"

def arenaRows : List (String × (Budget → ℕ)) :=
  [("instruction-stream bytes", Budget.instStreamBytes), ("counters", Budget.counters),
    ("segments", Budget.segments), ("workspace bytes", Budget.workspaceBytes)]

def grewLine (what : String) (have' need : ℕ) : String :=
  "grew " ++ what ++ " from " ++ toString have' ++ " to " ++ toString need ++
    " through the VMM pool for the merged extensions"

def checkArena (exts : List ExtensionFacts) (demand : Budget) (arenas : Arenas)
    (grew : List String) (row : String × (Budget → ℕ)) : Except Refusal (List String) :=
  let need := row.2 demand
  let have' := row.2 arenas.reserved
  if need ≤ have' then .ok grew
  else if arenas.growable = false then
    .error ⟨biggest row.2 exts, .budget, "needs " ++ toString need ++ " " ++ row.1 ++
      ", the parent reserved " ++ toString have' ++ ", and this backend maps its arenas once " ++
      "at load — it cannot grow them"⟩
  else .ok (grew ++ [grewLine row.1 have' need])

def checkBudget (exts : List ExtensionFacts) (demand : Budget) (arenas : Arenas) :
    Except Refusal (List String) := do
  ensure (demand.segments ≤ arenas.segmentCeiling) ⟨biggest Budget.segments exts, .budget,
    "declares " ++ toString demand.segments ++ " ordered segments, over the fixed ceiling of " ++
      toString arenas.segmentCeiling ++ " — the segment class table is not growable"⟩
  arenaRows.foldlM (checkArena exts demand arenas) []

def merge (parent : ParentFacts) (exts : List ExtensionFacts) : Except Refusal Merged := do
  (checkLadder parent.table parent.decodeBatch).mapError (ladderRefusal "model.pkt")
  let (programs, demand) ← exts.foldlM (mergeOne parent) (parent.table, {})
  let growth ← checkBudget exts demand parent.arenas
  .ok ⟨programs, growth⟩

namespace Merged

def prefillWidths (m : Merged) : List UInt32 := ascending (m.programs.filterMap (·.2.bucket))

def decodeRungs (m : Merged) : List UInt32 := ascending (m.programs.filterMap (·.2.rung))

end Merged

/-! ### What is accepted -/

def union (parent : ParentFacts) (exts : List ExtensionFacts) : List Program :=
  parent.table ++ exts.flatMap ExtensionFacts.table

def demand (exts : List ExtensionFacts) : Budget :=
  exts.foldl (fun b e => b.max e.budget) {}

def grown (arenas : Arenas) (d : Budget) : List String :=
  (arenaRows.filter fun row => row.2 arenas.reserved < row.2 d).map fun row =>
    grewLine row.1 (row.2 arenas.reserved) (row.2 d)

/-- the fourth rule -/
def RingFits (parent : ParentFacts) (e : ExtensionFacts) : Prop :=
  widest e.programs ≤ widest parent.programs ∨
    match parent.kv with
    | .fullCausal => True
    | .windowed window ringRows => kvRingRows window e.chunk ≤ ringRows
    | .unstated => False

/-- the rules that see one extension only -/
structure Admissible (parent : ParentFacts) (e : ExtensionFacts) : Prop where
  identity : e.parent.parentHash = parent.hash
  count : e.parent.tensorCount = parent.tensorCount
  digest : e.parent.tensorDigest = parent.tensorDigest
  config : disagreement parent.config e.config = none
  ring : RingFits parent e

/-- what the order of the extensions does not change -/
structure Acceptable (parent : ParentFacts) (exts : List ExtensionFacts) : Prop where
  base : Ladders parent.table parent.decodeBatch
  baseHoused : Housed parent.table parent.table
  each : ∀ e ∈ exts, Admissible parent e
  ladders : Ladders (union parent exts) parent.decodeBatch
  segments : (demand exts).segments ≤ parent.arenas.segmentCeiling
  room : ∀ row ∈ arenaRows, row.2 (demand exts) ≤ row.2 parent.arenas.reserved ∨
    parent.arenas.growable = true

def InOrder (parent : ParentFacts) (exts : List ExtensionFacts) : Prop :=
  ∀ before e after, exts = before ++ e :: after → Housed (union parent (before ++ [e])) e.table

end Plow.Extension
