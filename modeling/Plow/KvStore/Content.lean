import Plow.KvStore.Run

/-!
# What the slots of the KV block store hold

`Mem` is the memory of both tiers, the copies in flight, and for every key what its filler wrote when
the fill was sealed.  `Reads b a f` says that the block `b` can be read at the address `a` behind the
fence `f`.

`Good p H m` is the invariant, for the pins `p` (hold guards with the sources handed out under them,
and planned compaction moves):

* a block that is `Ready` shows its key's sealed bytes wherever it can be read;
* an address handed out under a guard is still one that its block can be read at, and a block that
  was `Ready` then has kept what was sealed for it;
* every copy in flight belongs to a block between two tiers, or to a planned move.

`Good.edit` : every edit keeps it, if no host block is copied back under a hold and no refill fails
under one (`Safe`).
-/

namespace Plow.KvStore

open Lib Inner Function

/-- the address of a slot of class `c` -/
inductive Addr where
  | dev (c : Nat) (s : Slot .dev)
  | host (c : Nat) (x : Slot .host)
  deriving DecidableEq, Repr

/-- an asynchronous copy; `fence`: what reports it done, if the store queries it -/
structure Copy where
  fence : Option Nat
  src : Addr
  dst : Addr
  deriving DecidableEq, Repr

structure Mem (V : Type) where
  bytes : Addr → V
  /-- the copies that have not landed -/
  copies : List Copy
  /-- what the filler of the key wrote -/
  sealed : Nat × BlockKey → V

variable {V : Type}

namespace Mem

def write (m : Mem V) (a : Addr) (v : V) : Mem V := { m with bytes := Function.update m.bytes a v }

theorem write_self (m : Mem V) (a : Addr) (v : V) : (m.write a v).bytes a = v :=
  update_self _ _ _

variable {m : Mem V} {v : V} {a : Addr}

theorem write_of_ne {y : Addr} (h : y ≠ a) : (m.write a v).bytes y = m.bytes y :=
  update_of_ne h _ _

def drop (m : Mem V) (c : Copy) : Mem V := { m with copies := m.copies.filter (fun y => y ≠ c) }

@[simp] theorem write_copies (m : Mem V) (a : Addr) (v : V) : (m.write a v).copies = m.copies := rfl

@[simp] theorem write_sealed (m : Mem V) (a : Addr) (v : V) : (m.write a v).sealed = m.sealed := rfl

def Landed (m : Mem V) (f : Option Nat) : Prop := ∀ c ∈ m.copies, c.fence = f → f = none

/-- the address holds `v`, or will when its fence is done -/
def Shows (m : Mem V) (a : Addr) (f : Option Nat) (v : V) : Prop :=
  m.bytes a = v ∨ ∃ c ∈ m.copies, c.dst = a ∧ c.fence = f ∧ f ≠ none

theorem Shows.landed {f : Option Nat} (h : m.Shows a f v) (hf : m.Landed f) : m.bytes a = v := by
  rcases h with h | ⟨c, hc, _, hcf, hn⟩
  · exact h
  · exact absurd (hf c hc hcf) hn

theorem Shows.now (h : m.Shows a none v) : m.bytes a = v :=
  h.landed (fun _ _ _ => rfl)

/-- what the event does to the memory; a copy that fails leaves `junk` -/
def apply (junk : V) (e : Event) (m : Mem V) : Mem V :=
  match e with
  | .reclaim _ _ => m
  | .idle _ => m
  | .seal c key (.device s) => { m with sealed := Function.update m.sealed (c, key) (m.bytes (.dev c s)) }
  | .seal _ _ _ => m
  | .htod c x s true => m.write (.dev c s) (m.bytes (.host c x))
  | .htod c _ s false => m.write (.dev c s) junk
  | .spill c s x f => { m with copies := ⟨some f, .dev c s, .host c x⟩ :: m.copies }
  | .restore c x s f => { m with copies := ⟨some f, .host c x, .dev c s⟩ :: m.copies }

def applyAll (junk : V) (es : List Event) (m : Mem V) : Mem V := es.foldr (apply junk) m

end Mem

/-- where the bytes of a block are, and behind which fence -/
inductive Reads (b : Block) : Addr → Option Nat → Prop where
  | device {s} (h : b.place = .device s) : Reads b (.dev b.cls s) none
  | spilling {s x f} (h : b.place = .spilling s x f) : Reads b (.dev b.cls s) none
  | spilled {s x f} (h : b.place = .spilling s x f) : Reads b (.host b.cls x) (some f)
  | host {x} (h : b.place = .host x) : Reads b (.host b.cls x) none
  | restoring {s x f} (h : b.place = .restoring s x f) : Reads b (.host b.cls x) none
  | restored {s x f} (h : b.place = .restoring s x f) : Reads b (.dev b.cls s) (some f)

def Block.copy (b : Block) : Option Copy :=
  match b.place with
  | .spilling s x f => some ⟨some f, .dev b.cls s, .host b.cls x⟩
  | .restoring s x f => some ⟨some f, .host b.cls x, .dev b.cls s⟩
  | _ => none

/-- an address handed out for a block; `was`: what was sealed for the block, if it was `Ready` -/
structure Source (V : Type) where
  id : BlockId
  addr : Addr
  fence : Option Nat
  was : Option V

/-- a planned compaction move -/
structure Move where
  cls : Nat
  id : BlockId
  src : Slot .dev
  dst : Slot .dev
  deriving DecidableEq

def Move.dest (v : Move) : Nat × Slot .dev := (v.cls, v.dst)

def Move.copy (v : Move) : Copy := ⟨none, .dev v.cls v.src, .dev v.cls v.dst⟩

structure Pins (V : Type) where
  /-- the blocks of all guards -/
  ids : List BlockId
  moves : List Move
  sources : List (Source V)

def Pins.need (p : Pins V) (id : BlockId) : Nat := p.ids.count id + (p.moves.map Move.id).count id

/-- the address is one that the block can be read at; what was sealed for it is still there -/
structure Handed (I : Inner) (sealed : Nat × BlockKey → V) (x : Source V) : Prop where
  was : ∀ v, x.was = some v → ∃ b, I.block x.id = some b ∧ b.state = .ready ∧
    sealed (b.cls, b.key) = v
  reads : ∀ b, I.block x.id = some b → Reads b x.addr x.fence

structure Good (p : Pins V) (H : Hands) (m : Mem V) : Prop where
  /-- a fill runs on the device -/
  onDev : ∀ id b, H.inner.block id = some b → b.state ≠ .ready → OnDevice b
  holds : ∀ id b, H.inner.block id = some b → p.need id ≤ b.holds
  issued : ∀ id, p.need id ≠ 0 → H.inner.Issued id
  clean : ∀ id b, H.inner.block id = some b → b.state = .ready →
    ∀ a f, Reads b a f → m.Shows a f (m.sealed (b.cls, b.key))
  /-- the host bytes of a refill are what they were -/
  kept : ∀ id b x, H.inner.block id = some b → H.inner.refilling id = some x →
    m.bytes (.host b.cls x) = m.sealed (b.cls, b.key)
  sources : ∀ x ∈ p.sources, p.need x.id ≠ 0 ∧ Handed H.inner m.sealed x
  moves : ∀ v ∈ p.moves, v.dest ∈ H.dev ∧ ∃ b, H.inner.block v.id = some b ∧
    b.cls = v.cls ∧ b.state = .ready ∧ b.place = .device v.src ∧
    (v.copy ∈ m.copies ∨ m.bytes (.dev v.cls v.dst) = m.sealed (b.cls, b.key))
  apart : (p.moves.map Move.dest).Nodup
  copies : ∀ c ∈ m.copies, (∃ id b, H.inner.block id = some b ∧ b.copy = some c) ∨
    ∃ v ∈ p.moves, c = v.copy

/-! ## addresses and owners -/

section
variable {I : Inner} {d : List (Nat × Slot .dev)} {k : List (Nat × Slot .host)} {id j : BlockId}
  {b b' : Block} {a : Addr} {f : Option Nat} {c : Nat} {s : Slot .dev} {x : Slot .host}

theorem Reads.dev (hb : I.block id = some b) (h : Reads b a f) (ha : a = .dev c s) :
    devUse I id = some (c, s) := by
  rw [devUse_of_block hb]
  cases h with
  | device h => cases ha; rw [h]; rfl
  | spilling h => cases ha; rw [h]; rfl
  | spilled h => cases ha
  | host h => cases ha
  | restoring h => cases ha
  | restored h => cases ha; rw [h]; rfl

theorem Reads.host_use (hO : Own ⟨I, d, k⟩) (hb : I.block id = some b) (h : Reads b a f)
    (ha : a = .host c x) : hostUse I id = some (c, x) := by
  have hr : ∀ y, b.place.host? = some y → I.refilling id = none := fun y hy =>
    hO.refilling_none hb (.inl (fun s e => by rw [e] at hy; cases hy))
  rw [hostUse_of_block hb]
  cases h with
  | device h => cases ha
  | spilling h => cases ha
  | spilled h => cases ha; rw [hr x (by rw [h]; rfl), h]; rfl
  | host h => cases ha; rw [hr x (by rw [h]; rfl), h]; rfl
  | restoring h => cases ha; rw [hr x (by rw [h]; rfl), h]; rfl
  | restored h => cases ha

theorem Reads.of_device (h : Reads b a f) (hp : b.place = .device s) : a = .dev b.cls s ∧ f = none := by
  cases h with
  | device e => cases hp.symm.trans e; exact ⟨rfl, rfl⟩
  | host e => cases hp.symm.trans e
  | spilling e => cases hp.symm.trans e
  | spilled e => cases hp.symm.trans e
  | restoring e => cases hp.symm.trans e
  | restored e => cases hp.symm.trans e

theorem Reads.of_host (h : Reads b a f) (hp : b.place = .host x) : a = .host b.cls x ∧ f = none := by
  cases h with
  | host e => cases hp.symm.trans e; exact ⟨rfl, rfl⟩
  | device e => cases hp.symm.trans e
  | spilling e => cases hp.symm.trans e
  | spilled e => cases hp.symm.trans e
  | restoring e => cases hp.symm.trans e
  | restored e => cases hp.symm.trans e

theorem Reads.of_spilling {g : Nat} (h : Reads b a f) (hp : b.place = .spilling s x g) :
    (a = .dev b.cls s ∧ f = none) ∨ (a = .host b.cls x ∧ f = some g) := by
  cases h with
  | spilling e => cases hp.symm.trans e; exact .inl ⟨rfl, rfl⟩
  | spilled e => cases hp.symm.trans e; exact .inr ⟨rfl, rfl⟩
  | device e => cases hp.symm.trans e
  | host e => cases hp.symm.trans e
  | restoring e => cases hp.symm.trans e
  | restored e => cases hp.symm.trans e

theorem Reads.of_restoring {g : Nat} (h : Reads b a f) (hp : b.place = .restoring s x g) :
    (a = .host b.cls x ∧ f = none) ∨ (a = .dev b.cls s ∧ f = some g) := by
  cases h with
  | restoring e => cases hp.symm.trans e; exact .inl ⟨rfl, rfl⟩
  | restored e => cases hp.symm.trans e; exact .inr ⟨rfl, rfl⟩
  | device e => cases hp.symm.trans e
  | host e => cases hp.symm.trans e
  | spilling e => cases hp.symm.trans e
  | spilled e => cases hp.symm.trans e

theorem Reads.congr (h : Reads b a f) (hc : b'.cls = b.cls) (hp : b'.place = b.place) :
    Reads b' a f := by
  cases b
  cases b'
  dsimp only at hc hp
  subst hc hp
  cases h with
  | device h => exact .device h
  | spilling h => exact .spilling h
  | spilled h => exact .spilled h
  | host h => exact .host h
  | restoring h => exact .restoring h
  | restored h => exact .restored h

theorem key_ne (hO : Own ⟨I, d, k⟩) (hb : I.block id = some b) (hb' : I.block j = some b')
    (hne : j ≠ id) : (b'.cls, b'.key) ≠ (b.cls, b.key) := by
  intro e
  have h1 : I.index (b.cls, b.key) = some id := (hO.index _ _).mpr (by unfold keyUse; rw [hb]; rfl)
  have h2 : I.index (b.cls, b.key) = some j :=
    (hO.index _ _).mpr (by unfold keyUse; rw [hb']; exact congrArg some e)
  exact hne (Option.some.inj (h2.symm.trans h1))

end

namespace Good
variable {p : Pins V} {I J : Inner} {d d' : List (Nat × Slot .dev)} {k k' : List (Nat × Slot .host)}
  {m m' : Mem V} {id : BlockId} {b a : Block}

theorem frame (h : Good p ⟨I, d, k⟩ m) (hb : J.block = I.block) (hr : J.refilling = I.refilling)
    (hi : ∀ id, I.Issued id → J.Issued id)
    (hd : ∀ v ∈ p.moves, v.dest ∈ d → v.dest ∈ d') : Good p ⟨J, d', k'⟩ m where
  onDev id b hb' := h.onDev id b (hb ▸ hb')
  holds id b hb' := h.holds id b (hb ▸ hb')
  issued id hn := hi id (h.issued id hn)
  clean id b hb' := h.clean id b (hb ▸ hb')
  kept id b x hb' hx := h.kept id b x (hb ▸ hb') (hr ▸ hx)
  sources x hx := by
    obtain ⟨h1, h2, h3⟩ := h.sources x hx
    refine ⟨h1, fun v hv => ?_, fun b hb' => h3 b (hb ▸ hb')⟩
    obtain ⟨b, hb', hs⟩ := h2 v hv
    exact ⟨b, hb.symm ▸ hb', hs⟩
  moves v hv := by
    obtain ⟨h1, b, hb', h2⟩ := h.moves v hv
    exact ⟨hd v hv h1, b, hb.symm ▸ hb', h2⟩
  apart := h.apart
  copies c hc := by
    rcases h.copies c hc with ⟨id, b, hb', hbc⟩ | hv
    · exact .inl ⟨id, b, hb.symm ▸ hb', hbc⟩
    · exact .inr hv

theorem scratch (h : Good p ⟨I, d, k⟩ m) {c : Nat} {s : Slot .dev} {v : V}
    (hs : ∀ j b, I.block j = some b → b.state = .ready → devUse I j ≠ some (c, s))
    (hp : ∀ v ∈ p.moves, v.dest ≠ (c, s)) : Good p ⟨I, d, k⟩ (m.write (.dev c s) v) where
  onDev := h.onDev
  holds := h.holds
  issued := h.issued
  clean id b hb hst a f hR := by
    have hne : a ≠ .dev c s := fun e => hs id b hb hst (hR.dev hb e)
    exact (h.clean id b hb hst a f hR).imp_left (fun e => (Mem.write_of_ne hne).trans e)
  kept id b x hb hx := (Mem.write_of_ne (by simp)).trans (h.kept id b x hb hx)
  sources := h.sources
  moves w hw := by
    obtain ⟨h1, b, hb, h2, h3, h4, h5⟩ := h.moves w hw
    refine ⟨h1, b, hb, h2, h3, h4, h5.imp_right (fun e => (Mem.write_of_ne (fun hc => ?_)).trans e)⟩
    injection hc with hc1 hc2
    exact hp w hw (by unfold Move.dest; rw [hc1, hc2])
  apart := h.apart
  copies := h.copies

theorem need_of_move {v : Move} (hv : v ∈ p.moves) : p.need v.id ≠ 0 := by
  have := List.count_pos_iff.mpr (List.mem_map_of_mem (f := Move.id) hv)
  unfold Pins.need
  omega

section

variable (h : Good p ⟨I, d, k⟩ m)
include h

/-- one block changes, and with it what is sealed for its key and which copies are in flight -/
theorem update (hO : Own ⟨I, d, k⟩) (hb : I.block id = some b)
    (hJ : J.block = Function.update I.block id (some a)) (hc : a.cls = b.cls) (hk : a.key = b.key)
    (hi : ∀ id, I.Issued id → J.Issued id) (hr : ∀ j, j ≠ id → J.refilling j = I.refilling j)
    (hd : ∀ v ∈ p.moves, v.dest ∈ d → v.dest ∈ d')
    (hm : m'.bytes = m.bytes) (hs : ∀ y, y ≠ (b.cls, b.key) → m'.sealed y = m.sealed y)
    (hcp : ∀ c ∈ m.copies, c ∈ m'.copies)
    (hcp' : ∀ c ∈ m'.copies, (c ∈ m.copies ∧ (b.copy = some c → a.copy = some c)) ∨ a.copy = some c)
    (onDev : a.state ≠ .ready → OnDevice a) (holds : p.need id ≤ a.holds)
    (clean : a.state = .ready → ∀ y f, Reads a y f → m'.Shows y f (m'.sealed (b.cls, b.key)))
    (kept : ∀ x, J.refilling id = some x → m'.bytes (.host b.cls x) = m'.sealed (b.cls, b.key))
    (reads : p.need id ≠ 0 → ∀ y f, Reads b y f → Reads a y f)
    (ready : p.need id ≠ 0 → b.state = .ready → a.state = .ready ∧
      (∀ s, b.place = .device s → a.place = .device s) ∧
      m'.sealed (b.cls, b.key) = m.sealed (b.cls, b.key)) : Good p ⟨J, d', k'⟩ m' := by
  have hself : J.block id = some a := by rw [hJ, update_self]
  have hother : ∀ {j}, j ≠ id → J.block j = I.block j := fun hne => by
    rw [hJ, update_of_ne hne]
  have hshow : ∀ {y f v}, m.Shows y f v → m'.Shows y f v := by
    rintro y f v (e | ⟨c, hcm, hrest⟩)
    · exact .inl (by rw [hm]; exact e)
    · exact .inr ⟨c, hcp c hcm, hrest⟩
  have hkey : ∀ {j b'}, j ≠ id → I.block j = some b' →
      m'.sealed (b'.cls, b'.key) = m.sealed (b'.cls, b'.key) := fun hne hb' =>
    hs _ (key_ne hO hb hb' hne)
  refine ⟨fun j b' hb' => ?_, fun j b' hb' => ?_, fun j hn => hi j (h.issued j hn), fun j b' hb' => ?_,
    fun j b' x hb' hx => ?_, fun x hx => ?_, fun v hv => ?_, h.apart, fun c hcm => ?_⟩
  · by_cases e : j = id
    · subst e
      cases hself.symm.trans hb'
      exact onDev
    · exact h.onDev j b' ((hother e).symm.trans hb')
  · by_cases e : j = id
    · subst e
      cases hself.symm.trans hb'
      exact holds
    · exact h.holds j b' ((hother e).symm.trans hb')
  · by_cases e : j = id
    · subst e
      cases hself.symm.trans hb'
      rw [hc, hk]
      exact clean
    · have hbI : I.block j = some b' := (hother e).symm.trans hb'
      intro hst y f hR
      rw [hkey e hbI]
      exact hshow (h.clean j b' hbI hst y f hR)
  · by_cases e : j = id
    · subst e
      cases hself.symm.trans hb'
      rw [hc, hk]
      exact kept x hx
    · have hbI : I.block j = some b' := (hother e).symm.trans hb'
      rw [hm, hkey e hbI]
      exact h.kept j b' x hbI (by rw [← hr j e]; exact hx)
  · obtain ⟨h1, h2, h3⟩ := h.sources x hx
    by_cases e : x.id = id
    · refine ⟨h1, fun v hv => ?_, fun b' hb' => ?_⟩
      · obtain ⟨b₀, hb₀, hst, hsl⟩ := h2 v hv
        have hb₀ : I.block x.id = some b₀ := hb₀
        rw [e] at hb₀ h1
        cases hb.symm.trans hb₀
        obtain ⟨hst', _, hsl'⟩ := ready h1 hst
        exact ⟨a, by rw [e]; exact hself, hst', by rw [hc, hk, hsl', hsl]⟩
      · have hb' : J.block x.id = some b' := hb'
        rw [e] at hb' h1
        cases hself.symm.trans hb'
        exact reads h1 _ _ (h3 b (by rw [e]; exact hb))
    · refine ⟨h1, fun v hv => ?_, fun b' hb' => h3 b' ((hother e).symm.trans hb')⟩
      obtain ⟨b₀, hb₀, hst, hsl⟩ := h2 v hv
      exact ⟨b₀, (hother e).trans hb₀, hst, (hkey e hb₀).trans hsl⟩
  · obtain ⟨h1, b₀, hb₀, h2, h3, h4, h5⟩ := h.moves v hv
    have hb₀ : I.block v.id = some b₀ := hb₀
    have hn := need_of_move hv
    by_cases e : v.id = id
    · rw [e] at hb₀ hn
      cases hb.symm.trans hb₀
      obtain ⟨hst, hpl, hsl⟩ := ready hn h3
      refine ⟨hd v hv h1, a, by rw [e]; exact hself, hc.trans h2, hst, hpl _ h4, ?_⟩
      rw [hc, hk, hsl, hm]
      exact h5.imp_left (hcp _)
    · refine ⟨hd v hv h1, b₀, (hother e).trans hb₀, h2, h3, h4, ?_⟩
      rw [hkey e hb₀, hm]
      exact h5.imp_left (hcp _)
  · rcases hcp' c hcm with ⟨hcm, hown⟩ | hac
    · rcases h.copies c hcm with ⟨j, b', hb', hbc⟩ | hv
      · have hb' : I.block j = some b' := hb'
        by_cases e : j = id
        · rw [e] at hb'
          cases hb.symm.trans hb'
          exact .inl ⟨id, a, hself, hown hbc⟩
        · exact .inl ⟨j, b', (hother e).trans hb', hbc⟩
      · exact .inr hv
    · exact .inl ⟨id, a, hself, hac⟩

theorem touch (hO : Own ⟨I, d, k⟩) (hb : I.block id = some b)
    (hJ : J.block = Function.update I.block id (some a)) (hc : a.cls = b.cls) (hk : a.key = b.key)
    (hp : a.place = b.place) (hs : a.state = b.state) (hn : p.need id ≤ a.holds)
    (hi : ∀ id, I.Issued id → J.Issued id) (hr : J.refilling = I.refilling) :
    Good p ⟨J, d, k⟩ m := by
  have hcopy : a.copy = b.copy := by
    unfold Block.copy
    rw [hp, hc]
  refine h.update hO hb hJ hc hk hi (fun j _ => by rw [hr]) (fun _ _ hv => hv) rfl (fun _ _ => rfl)
    (fun _ hv => hv) (fun c hcm => .inl ⟨hcm, fun e => hcopy.trans e⟩) (fun hst => ?_) hn
    (fun hst y f hR => ?_) (fun x hx => ?_) (fun _ y f hR => hR.congr hc hp)
    (fun _ hst => ⟨hs.trans hst, fun s e => hp.trans e, rfl⟩)
  · obtain ⟨s, e⟩ := h.onDev id b hb (hs ▸ hst)
    exact ⟨s, hp.trans e⟩
  · exact h.clean id b hb (hs.symm.trans hst) y f (hR.congr hc.symm hp.symm)
  · exact h.kept id b x hb (by rw [← hr]; exact hx)

theorem unready (hO : Own ⟨I, d, k⟩) (hb : I.block id = some b)
    (hJ : J.block = Function.update I.block id (some a)) (hc : a.cls = b.cls) (hk : a.key = b.key)
    (hp : a.place = b.place) (hs : b.state ≠ .ready) (hs' : a.state ≠ .ready)
    (hn : b.holds ≤ a.holds) (hi : ∀ id, I.Issued id → J.Issued id)
    (hr : J.refilling = I.refilling) : Good p ⟨J, d, k⟩ m := by
  obtain ⟨s, hps⟩ := h.onDev id b hb hs
  refine h.update hO hb hJ hc hk hi (fun j _ => by rw [hr]) (fun _ _ hv => hv) rfl (fun _ _ => rfl)
    (fun _ hv => hv) (fun c hcm => .inl ⟨hcm, fun e => ?_⟩) (fun _ => ⟨s, hp.trans hps⟩)
    ((h.holds id b hb).trans hn) (fun hst => absurd hst hs') (fun x hx => ?_)
    (fun _ y f hR => hR.congr hc hp) (fun _ hst => absurd hst hs)
  · unfold Block.copy at e
    rw [hps] at e
    cases e
  · exact h.kept id b x hb (by rw [← hr]; exact hx)

/-- a block goes that no pin needs, or that is not `Ready` -/
theorem remove (hb : I.block id = some b)
    (hJ : J.block = Function.update I.block id none) (hi : ∀ id, I.Issued id → J.Issued id)
    (hr : ∀ j, j ≠ id → J.refilling j = I.refilling j) (hcp : b.copy = none)
    (hn : p.need id ≠ 0 → b.state ≠ .ready) : Good p ⟨J, d, k⟩ m := by
  have hself : J.block id = none := by rw [hJ, update_self]
  have hother : ∀ {j}, j ≠ id → J.block j = I.block j := fun hne => by
    rw [hJ, update_of_ne hne]
  have hback : ∀ {j b'}, J.block j = some b' → j ≠ id ∧ I.block j = some b' := by
    intro j b' hb'
    have hne : j ≠ id := fun e => by rw [e, hself] at hb'; cases hb'
    exact ⟨hne, (hother hne).symm.trans hb'⟩
  have hstay : ∀ {j b'}, p.need j ≠ 0 → I.block j = some b' → b'.state = .ready → j ≠ id := by
    rintro j b' hj hb' hst rfl
    cases hb.symm.trans hb'
    exact hn hj hst
  exact {
    onDev := fun j b' hb' => h.onDev j b' (hback hb').2
    holds := fun j b' hb' => h.holds j b' (hback hb').2
    issued := fun j hj => hi j (h.issued j hj)
    clean := fun j b' hb' => h.clean j b' (hback hb').2
    kept := fun j b' x hb' hx =>
      h.kept j b' x (hback hb').2 (by rw [← hr j (hback hb').1]; exact hx)
    sources := fun x hx => by
      obtain ⟨h1, h2, h3⟩ := h.sources x hx
      refine ⟨h1, fun v hv => ?_, fun b' hb' => h3 b' (hback hb').2⟩
      obtain ⟨b₀, hb₀, hst, hsl⟩ := h2 v hv
      exact ⟨b₀, (hother (hstay h1 hb₀ hst)).trans hb₀, hst, hsl⟩
    moves := fun v hv => by
      obtain ⟨h1, b₀, hb₀, h2, h3, h4, h5⟩ := h.moves v hv
      exact ⟨h1, b₀, (hother (hstay (need_of_move hv) hb₀ h3)).trans hb₀, h2, h3, h4, h5⟩
    apart := h.apart
    copies := fun c hcm => by
      rcases h.copies c hcm with ⟨j, b', hb', hbc⟩ | hv
      · have hb' : I.block j = some b' := hb'
        have hne : j ≠ id := by
          rintro rfl
          cases hb.symm.trans hb'
          rw [hcp] at hbc
          cases hbc
        exact .inl ⟨j, b', (hother hne).trans hb', hbc⟩
      · exact .inr hv }

/-- a block under a fill is new -/
theorem fresh (hb : I.block id = none) (hid : ¬ I.Issued id)
    (hJ : J.block = Function.update I.block id (some a)) (hi : ∀ id, I.Issued id → J.Issued id)
    (hr : J.refilling = I.refilling) (hr' : I.refilling id = none) (hs : a.state ≠ .ready)
    (ha : OnDevice a) (hd : ∀ v ∈ p.moves, v.dest ∈ d → v.dest ∈ d') : Good p ⟨J, d', k⟩ m := by
  have hself : J.block id = some a := by rw [hJ, update_self]
  have hother : ∀ {j}, j ≠ id → J.block j = I.block j := fun hne => by
    rw [hJ, update_of_ne hne]
  have hstay : ∀ {j b'}, I.block j = some b' → j ≠ id := by
    rintro j b' hb' rfl
    rw [hb] at hb'
    cases hb'
  have hn : p.need id = 0 := by
    by_contra hc
    exact hid (h.issued id hc)
  have hback : ∀ {j b'}, J.block j = some b' → (j = id ∧ b' = a) ∨ I.block j = some b' := by
    intro j b' hb'
    by_cases e : j = id
    · subst e
      exact .inl ⟨rfl, (Option.some.inj (hself.symm.trans hb')).symm⟩
    · exact .inr ((hother e).symm.trans hb')
  exact {
    onDev := fun j b' hb' => by
      rcases hback hb' with ⟨_, rfl⟩ | hb'
      · exact fun _ => ha
      · exact h.onDev j b' hb'
    holds := fun j b' hb' => by
      rcases hback hb' with ⟨rfl, _⟩ | hb'
      · rw [hn]
        exact Nat.zero_le _
      · exact h.holds j b' hb'
    issued := fun j hj => hi j (h.issued j hj)
    clean := fun j b' hb' => by
      rcases hback hb' with ⟨_, rfl⟩ | hb'
      · exact fun hst => absurd hst hs
      · exact h.clean j b' hb'
    kept := fun j b' x hb' hx => by
      rcases hback hb' with ⟨rfl, _⟩ | hb'
      · have hx : J.refilling j = some x := hx
        rw [hr, hr'] at hx
        cases hx
      · exact h.kept j b' x hb' (by rw [← hr]; exact hx)
    sources := fun x hx => by
      obtain ⟨h1, h2, h3⟩ := h.sources x hx
      refine ⟨h1, fun v hv => ?_, fun b' hb' => ?_⟩
      · obtain ⟨b₀, hb₀, hst, hsl⟩ := h2 v hv
        exact ⟨b₀, (hother (hstay hb₀)).trans hb₀, hst, hsl⟩
      · rcases hback hb' with ⟨e, _⟩ | hb'
        · rw [e] at h1
          exact absurd hn h1
        · exact h3 b' hb'
    moves := fun v hv => by
      obtain ⟨h1, b₀, hb₀, h2⟩ := h.moves v hv
      exact ⟨hd v hv h1, b₀, (hother (hstay hb₀)).trans hb₀, h2⟩
    apart := h.apart
    copies := fun c hcm => by
      rcases h.copies c hcm with ⟨j, b', hb', hbc⟩ | hv
      · exact .inl ⟨j, b', (hother (hstay hb')).trans hb', hbc⟩
      · exact .inr hv }

end

end Good
end Plow.KvStore
