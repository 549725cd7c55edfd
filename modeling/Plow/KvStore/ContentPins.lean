import Plow.KvStore.ContentEdit

/-!
# Copies that land, guards and compaction plans

What changes the memory or the pins beside the edits:

* `Good.copied`   a copy in flight writes its destination;
* `Good.recount`  guards come and go, and addresses are handed out under them;
* `Good.plan`, `Good.commit`  a compaction move is planned, and lands or is given up.
-/

namespace Plow.KvStore

open Lib Inner List

variable {V : Type}

/-! ## holds -/

namespace Inner

/-- the blocks are where they were, with other holds -/
structure Recounts (f : BlockId → Nat → Nat) (I J : Inner) : Prop where
  block : ∀ id b, I.block id = some b →
    ∃ t, J.block id = some { b with holds := f id b.holds, tick := t }
  none : ∀ id, I.block id = none → J.block id = none
  refilling : J.refilling = I.refilling
  issued : ∀ id, I.Issued id → J.Issued id
  trace : J.trace = I.trace

section
variable {f g : BlockId → Nat → Nat} {I J K : Inner} {id : BlockId} {a b : Block}

theorem Recounts.some (h : Recounts f I J) (ha : J.block id = .some a) :
    ∃ b t, I.block id = .some b ∧ a = { b with holds := f id b.holds, tick := t } := by
  cases hb : I.block id with
  | none => rw [h.none id hb] at ha; cases ha
  | some b =>
    obtain ⟨t, ht⟩ := h.block id b hb
    exact ⟨b, t, rfl, Option.some.inj (ha.symm.trans ht)⟩

theorem Recounts.same (hf : ∀ j n, f j n = n) (hb : J.blocks = I.blocks) (hn : J.nBlocks = I.nBlocks)
    (he : J.freeEntries = I.freeEntries) (hr : J.refilling = I.refilling) (ht : J.trace = I.trace) :
    Recounts f I J := by
  have hbl : J.block = I.block := by
    funext j
    unfold Inner.block
    rw [hb]
  refine ⟨fun j b h => ⟨b.tick, ?_⟩, fun j h => by rw [hbl]; exact h, hr, ?_, ht⟩
  · rw [hbl, h, hf]
  · exact (Keeps.same hn hb he).issued

theorem Recounts.trans (h : Recounts f I J) (h' : Recounts g J K)
    {e : BlockId → Nat → Nat} (he : ∀ j n, e j n = g j (f j n)) : Recounts e I K where
  block j b hb := by
    obtain ⟨t, ht⟩ := h.block j b hb
    obtain ⟨t', ht'⟩ := h'.block j _ ht
    exact ⟨t', by rw [ht', he]⟩
  none j hb := h'.none j (h.none j hb)
  refilling := h'.refilling.trans h.refilling
  issued j hi := h'.issued j (h.issued j hi)
  trace := h'.trace.trans h.trace

theorem Recounts.set (hb : I.block id = .some b) {n : Nat} (t : Nat) (hn : f id b.holds = n)
    (hf : ∀ j x, j ≠ id → f j x = x) :
    Recounts f I (I.setBlock id { b with holds := n, tick := t }) where
  block j b' hb' := by
    rw [block_setBlock hb]
    by_cases e : j = id
    · subst e
      cases hb.symm.trans hb'
      exact ⟨t, by rw [Function.update_self, hn]⟩
    · exact ⟨b'.tick, by rw [Function.update_of_ne e, hf j _ e]; exact hb'⟩
  none j hj := by
    rw [block_setBlock hb, Function.update_of_ne (fun e => by rw [e, hb] at hj; cases hj)]
    exact hj
  refilling := rfl
  issued := (Keeps.setBlock (a := { b with holds := n, tick := t }) hb rfl rfl rfl rfl rfl).issued
  trace := rfl

theorem holdId_recounts : Recounts (fun j n => n + [id].count j) I (I.holdId id) := by
  unfold holdId
  cases hb : I.block id with
  | none =>
    refine ⟨fun j b h => ⟨b.tick, ?_⟩, fun _ h => h, rfl, fun _ h => h, rfl⟩
    have hne : id ≠ j := fun e => by rw [← e, hb] at h; cases h
    rw [h, count_cons_of_ne hne]
    rfl
  | some b =>
    refine .set hb b.tick (by simp) (fun j x hj => ?_)
    rw [count_cons_of_ne hj.symm]
    rfl

theorem hold_recounts (ids : List BlockId) :
    Recounts (fun j n => n + ids.count j) I (I.hold ids) := by
  induction ids generalizing I with
  | nil => exact .same (fun _ _ => rfl) rfl rfl rfl rfl rfl
  | cons id rest ih =>
    refine holdId_recounts.trans ih (fun j n => ?_)
    rw [count_cons, count_cons, count_nil]
    omega

theorem unholdId_recounts : Recounts (fun j n => n - [id].count j) I (I.unholdId id) := by
  unfold unholdId
  cases hb : I.block id with
  | none =>
    refine ⟨fun j b h => ⟨b.tick, ?_⟩, fun _ h => h, rfl, fun _ h => h, rfl⟩
    have hne : id ≠ j := fun e => by rw [← e, hb] at h; cases h
    rw [h, count_cons_of_ne hne]
    rfl
  | some b =>
    refine .set hb b.tick (by simp) (fun j x hj => ?_)
    rw [count_cons_of_ne hj.symm]
    rfl

theorem unhold_recounts (ids : List BlockId) :
    Recounts (fun j n => n - ids.count j) I (I.unhold ids) := by
  induction ids generalizing I with
  | nil => exact .same (fun _ _ => rfl) rfl rfl rfl rfl rfl
  | cons id rest ih =>
    refine unholdId_recounts.trans ih (fun j n => ?_)
    rw [count_cons, count_cons, count_nil]
    omega

end

end Inner

namespace Good
variable {p q : Pins V} {I J : Inner} {d d' : List (Nat × Slot .dev)}
  {k k' : List (Nat × Slot .host)} {m : Mem V} {id : BlockId} {b : Block} {c : Copy} {l : List Move}
  {v : Move}

/-! ## a copy lands -/

theorem copy_cases (h : b.copy = some c) : ∃ s x f,
    (b.place = .spilling s x f ∧ c = ⟨some f, .dev b.cls s, .host b.cls x⟩) ∨
    (b.place = .restoring s x f ∧ c = ⟨some f, .host b.cls x, .dev b.cls s⟩) := by
  unfold Block.copy at h
  split at h
  · next s x f hp => exact ⟨s, x, f, .inl ⟨hp, (Option.some.inj h).symm⟩⟩
  · next s x f hp => exact ⟨s, x, f, .inr ⟨hp, (Option.some.inj h).symm⟩⟩
  · cases h

section

variable (h : Good p ⟨I, d, k⟩ m)
include h

theorem copy_owner {f : Option Nat} (hO : Own ⟨I, d, k⟩)
    (hc : c ∈ m.copies) (hb : I.block id = some b) (hR : Reads b c.dst f) :
    f = c.fence ∧ f ≠ none ∧ Reads b c.src none := by
  rcases h.copies c hc with ⟨j, b', hb', hbc⟩ | ⟨v, hv, rfl⟩
  · have hb' : I.block j = some b' := hb'
    obtain ⟨s, x, g, ⟨hp, rfl⟩ | ⟨hp, rfl⟩⟩ := copy_cases hbc
    · obtain rfl : id = j := hO.host.inj id j _ (hR.host_use hO hb rfl)
        ((Reads.spilled hp).host_use hO hb' rfl)
      cases hb.symm.trans hb'
      rcases hR.of_spilling hp with ⟨e, _⟩ | ⟨_, rfl⟩
      · cases e
      · exact ⟨rfl, nofun, .spilling hp⟩
    · obtain rfl : id = j := hO.dev.inj id j _ (hR.dev hb rfl) ((Reads.restored hp).dev hb' rfl)
      cases hb.symm.trans hb'
      rcases hR.of_restoring hp with ⟨e, _⟩ | ⟨_, rfl⟩
      · cases e
      · exact ⟨rfl, nofun, .restoring hp⟩
  · exact absurd (hR.dev hb rfl) (hO.not_used (h.moves v hv).1 id)

theorem kept_ne {x : Slot .host} (hO : Own ⟨I, d, k⟩)
    (hc : c ∈ m.copies) (hb : I.block id = some b) (hx : I.refilling id = some x) :
    Addr.host b.cls x ≠ c.dst := by
  intro e
  have hu : hostUse I id = some (b.cls, x) := by rw [hostUse_of_block hb, hx]; rfl
  rcases h.copies c hc with ⟨j, b', hb', hbc⟩ | ⟨v, hv, rfl⟩
  · have hb' : I.block j = some b' := hb'
    obtain ⟨s, y, g, ⟨hp, rfl⟩ | ⟨hp, rfl⟩⟩ := copy_cases hbc
    · injection e with e1 e2
      have hu' := (Reads.spilled hp).host_use hO hb' rfl
      obtain rfl : id = j := hO.host.inj id j _ hu (by rw [hu', e1, e2])
      have hr := hO.refilling_none hb' (.inl (fun s e => nomatch hp.symm.trans e))
      cases hr.symm.trans hx
    · cases e
  · cases e

theorem move_inj {w : Move} (hv : v ∈ p.moves) (hw : w ∈ p.moves)
    (e : v.dest = w.dest) : v = w := inj_on_of_nodup_map h.apart hv hw e

/-- a copy writes its destination: what its source holds, if that was all -/
theorem copied {v : V} {cs : List Copy} (hO : Own ⟨I, d, k⟩)
    (hc : c ∈ m.copies) (hs : ∀ y ∈ cs, y ∈ m.copies) (hk : ∀ y ∈ m.copies, y ≠ c → y ∈ cs)
    (hv : c ∈ cs ∨ v = m.bytes c.src) : Good p ⟨I, d, k⟩ { m.write c.dst v with copies := cs } where
  onDev := h.onDev
  holds := h.holds
  issued := h.issued
  clean id b hb hst a f hR := by
    by_cases e : a = c.dst
    · subst e
      obtain ⟨rfl, hn, hsrc⟩ := h.copy_owner hO hc hb hR
      rcases hv with hv | hv
      · exact .inr ⟨c, hv, rfl, rfl, hn⟩
      · exact .inl ((Mem.write_self m _ _).trans (hv.trans (h.clean id b hb hst _ _ hsrc).now))
    · rcases h.clean id b hb hst a f hR with hy | ⟨y, hy, rfl, hrest⟩
      · exact .inl ((Mem.write_of_ne e).trans hy)
      · exact .inr ⟨y, hk y hy (fun ey => e (ey ▸ rfl)), rfl, hrest⟩
  kept id b x hb hx := (Mem.write_of_ne (h.kept_ne hO hc hb hx)).trans (h.kept id b x hb hx)
  sources := h.sources
  moves w hw := by
    obtain ⟨h1, b, hb, h2, h3, h4, h5⟩ := h.moves w hw
    refine ⟨h1, b, hb, h2, h3, h4, ?_⟩
    by_cases e : w.copy = c
    · rcases hv with hv | hv
      · exact .inl (e ▸ hv)
      · refine .inr ?_
        have hsrc := (h.clean _ b hb h3 _ _ (.device h4)).now
        rw [h2] at hsrc
        subst e
        refine (Mem.write_self m _ _).trans (hv.trans (hsrc.trans ?_))
        rw [h2]
        rfl
    · rcases h5 with h5 | h5
      · exact .inl (hk _ h5 e)
      · refine .inr ((Mem.write_of_ne (fun hd => ?_)).trans h5)
        -- the destination of a move is in hand, and no other copy's
        rcases h.copies c hc with ⟨j, b', hb', hbc⟩ | ⟨u, hu, rfl⟩
        · obtain ⟨s, x, g, ⟨hp, rfl⟩ | ⟨hp, rfl⟩⟩ := copy_cases hbc
          · cases hd
          · injection hd with e1 e2
            have hu := (Reads.restored hp).dev (show I.block j = some b' from hb') rfl
            rw [← e1, ← e2] at hu
            exact hO.not_used h1 j hu
        · injection hd with e1 e2
          exact e (congrArg Move.copy (h.move_inj hw hu (Prod.ext e1 e2)))
  apart := h.apart
  copies y hy := h.copies y (hs y hy)

/-! ## guards -/

/-- other guards, other counts: the blocks stay where they are -/
theorem recount {f : BlockId → Nat → Nat} (hR : Recounts f I J)
    (hm : q.moves = p.moves) (hh : ∀ id b, I.block id = some b → q.need id ≤ f id b.holds)
    (hi : ∀ id, q.need id ≠ 0 → I.Issued id)
    (hs : ∀ x ∈ q.sources, q.need x.id ≠ 0 ∧ Handed I m.sealed x) : Good q ⟨J, d, k⟩ m where
  onDev id a ha := by
    obtain ⟨b, t, hb, rfl⟩ := hR.some ha
    exact h.onDev id b hb
  holds id a ha := by
    obtain ⟨b, t, hb, rfl⟩ := hR.some ha
    exact hh id b hb
  issued id hn := hR.issued id (hi id hn)
  clean id a ha hst y g hy := by
    obtain ⟨b, t, hb, rfl⟩ := hR.some ha
    exact h.clean id b hb hst y g (hy.congr rfl rfl)
  kept id a x ha hx := by
    obtain ⟨b, t, hb, rfl⟩ := hR.some ha
    exact h.kept id b x hb (by rw [← hR.refilling]; exact hx)
  sources x hx := by
    obtain ⟨h1, h2, h3⟩ := hs x hx
    refine ⟨h1, fun v hv => ?_, fun a ha => ?_⟩
    · obtain ⟨b, hb, hst, hsl⟩ := h2 v hv
      obtain ⟨t, ha⟩ := hR.block x.id b hb
      exact ⟨_, ha, hst, hsl⟩
    · obtain ⟨b, t, hb, rfl⟩ := hR.some ha
      exact (h3 b hb).congr rfl rfl
  moves v hv := by
    obtain ⟨h1, b, hb, h2, h3, h4, h5⟩ := h.moves v (hm ▸ hv)
    obtain ⟨t, ha⟩ := hR.block v.id b hb
    exact ⟨h1, _, ha, h2, h3, h4, h5⟩
  apart := hm ▸ h.apart
  copies c hc := by
    rcases h.copies c hc with ⟨id, b, hb, hbc⟩ | hv
    · obtain ⟨t, ha⟩ := hR.block id b hb
      exact .inl ⟨id, _, ha, hbc⟩
    · exact .inr (hm.symm ▸ hv)

/-! ## compaction -/

/-- moves are planned of blocks on the device, each with a hold of its own -/
theorem plan (hO : Own ⟨I, d, k⟩)
    (hb : ∀ v ∈ l, v.dest ∈ d ∧ ∃ b, I.block v.id = some b ∧ b.cls = v.cls ∧ b.state = .ready ∧
      b.place = .device v.src)
    (hh : ∀ id b, I.block id = some b → p.need id + (l.map Move.id).count id ≤ b.holds)
    (hn : ((l ++ p.moves).map Move.dest).Nodup) :
    Good { p with moves := l ++ p.moves } ⟨I, d, k⟩
      { m with copies := l.map Move.copy ++ m.copies } := by
  have hneed : ∀ id, Pins.need { p with moves := l ++ p.moves } id =
      p.need id + (l.map Move.id).count id := by
    intro id
    unfold Pins.need
    dsimp only
    rw [map_append, count_append]
    omega
  refine ⟨h.onDev, fun id b hb' => ?_, fun id hi => ?_, fun id b hb' hst a f hR => ?_, h.kept,
    fun x hx => ?_, fun v hv => ?_, hn, fun c hc => ?_⟩
  · rw [hneed]
    exact hh id b hb'
  · rw [hneed] at hi
    by_cases hp : p.need id = 0
    · have hm : id ∈ l.map Move.id := count_pos_iff.mp (by omega)
      obtain ⟨v, hv, rfl⟩ := mem_map.mp hm
      obtain ⟨_, b, hb', _⟩ := hb v hv
      exact hO.entries.issued hb'
    · exact h.issued id hp
  · rcases h.clean id b hb' hst a f hR with e | ⟨c, hc, hrest⟩
    · exact .inl e
    · exact .inr ⟨c, mem_append_right _ hc, hrest⟩
  · obtain ⟨h1, h2⟩ := h.sources x hx
    refine ⟨?_, h2⟩
    rw [hneed]
    omega
  · rcases mem_append.mp hv with hv | hv
    · obtain ⟨h1, b, hb', h2, h3, h4⟩ := hb v hv
      exact ⟨h1, b, hb', h2, h3, h4,
        .inl (mem_append_left _ (mem_map_of_mem hv))⟩
    · obtain ⟨h1, b, hb', h2, h3, h4, h5⟩ := h.moves v hv
      exact ⟨h1, b, hb', h2, h3, h4, h5.imp_left (mem_append_right _)⟩
  · rcases mem_append.mp hc with hc | hc
    · obtain ⟨v, hv, rfl⟩ := mem_map.mp hc
      exact .inr ⟨v, mem_append_left _ hv, rfl⟩
    · rcases h.copies c hc with hb' | ⟨v, hv, e⟩
      · exact .inl hb'
      · exact .inr ⟨v, mem_append_right _ hv, e⟩

end

theorem need_cons (v : Move) (l : List Move) (id : BlockId) :
    Pins.need { p with moves := v :: l } id =
      Pins.need { p with moves := l } id + if v.id = id then 1 else 0 := by
  unfold Pins.need
  rw [map_cons, count_cons]
  simp only [beq_iff_eq]
  omega

/-- a plan's first move is over: its copy is in flight no more -/
theorem unplan (h : Good { p with moves := v :: l } ⟨I, d, k⟩ m)
    (hs : ∀ x ∈ p.sources, Pins.need { p with moves := l } x.id ≠ 0) :
    Good { p with moves := l } ⟨I, d, k⟩ (m.drop v.copy) := by
  have hle : ∀ id, Pins.need { p with moves := l } id ≤ Pins.need { p with moves := v :: l } id := by
    intro id
    rw [need_cons]
    omega
  obtain ⟨hv, hn⟩ := nodup_cons.mp h.apart
  have hmem : ∀ {c}, c ∈ m.copies → c ≠ v.copy → c ∈ (m.drop v.copy).copies :=
    fun hc hne => mem_filter.mpr ⟨hc, by simpa using hne⟩
  refine ⟨h.onDev, fun id b hb => (hle id).trans (h.holds id b hb),
    fun id hi => h.issued id (fun e => hi (by have := hle id; omega)), fun id b hb hst a f hR => ?_,
    h.kept, fun x hx => ⟨hs x hx, (h.sources x hx).2⟩, fun w hw => ?_, hn, fun c hc => ?_⟩
  · rcases h.clean id b hb hst a f hR with e | ⟨c, hc, h1, h2, h3⟩
    · exact .inl e
    · refine .inr ⟨c, hmem hc (fun e => h3 ?_), h1, h2, h3⟩
      rw [← h2, e]
      rfl
  · obtain ⟨h1, b, hb, h2, h3, h4, h5⟩ := h.moves w (mem_cons_of_mem _ hw)
    refine ⟨h1, b, hb, h2, h3, h4, h5.imp_left (fun hc => hmem hc (fun e => hv ?_))⟩
    have hd : w.dest = v.dest := by
      injection e with _ _ e
      injection e with e1 e2
      exact Prod.ext e1 e2
    exact hd ▸ mem_map_of_mem hw
  · obtain ⟨hc, hne⟩ := mem_filter.mp hc
    rcases h.copies c hc with hb | ⟨w, hw, e⟩
    · exact .inl hb
    · rcases mem_cons.mp hw with rfl | hw
      · simp [e] at hne
      · exact .inr ⟨w, hw, e⟩

/-- a move lands, or its destination goes back -/
theorem commit {copied : Bool}
    (h : Good { p with moves := v :: l } ⟨I, v.dest :: d, k⟩ m) (hO : Own ⟨I, v.dest :: d, k⟩)
    (hs : ∀ x ∈ p.sources, Pins.need { p with moves := l } x.id ≠ 0)
    (hc : copied = true → v.copy ∉ m.copies)
    (hi : ∀ id, I.Issued id → (commitMove v.cls copied I (v.id, v.src, v.dst)).Issued id) :
    Good { p with moves := l } ⟨commitMove v.cls copied I (v.id, v.src, v.dst), d, k⟩
      (m.drop v.copy) := by
  have hU := h.unplan hs
  obtain ⟨_, b, hb, h2, h3, h4, h5⟩ := h.moves v mem_cons_self
  have hb : I.block v.id = some b := hb
  have hle := h.holds v.id b hb
  rw [need_cons, if_pos rfl] at hle
  have hd : ∀ w ∈ l, w.dest ∈ v.dest :: d → w.dest ∈ d := by
    intro w hw hm
    rcases mem_cons.mp hm with e | hm
    · exact absurd (e ▸ mem_map_of_mem hw) (nodup_cons.mp h.apart).1
    · exact hm
  unfold commitMove at hi ⊢
  simp only [hb] at hi ⊢
  split
  · next hcond =>
    rw [if_pos hcond] at hi
    obtain ⟨hcp, hh, _⟩ := hcond
    have hz : Pins.need { p with moves := l } v.id = 0 := by omega
    have hv := h5.resolve_left (hc hcp)
    refine hU.update hO hb (block_setBlock hb _) rfl rfl hi (fun _ _ => rfl) hd rfl (fun _ _ => rfl)
      (fun _ hc => hc) (fun c hc => .inl ⟨hc, fun e => by rw [copy_none h4] at e; cases e⟩)
      (fun hne => absurd h3 hne) (by rw [hz]; exact Nat.zero_le _) (fun _ y f hR => ?_)
      (fun x hx => ?_) (fun hn => absurd hz hn) (fun hn => absurd hz hn)
    · obtain ⟨rfl, rfl⟩ := hR.of_device rfl
      refine .inl ?_
      dsimp only
      rw [h2]
      rw [h2] at hv
      exact hv
    · exact h.kept v.id b x hb hx
  · next hcond =>
    rw [if_neg hcond] at hi
    have hF : Good { p with moves := l } ⟨I.putDevice v.cls v.dst, d, k⟩ (m.drop v.copy) :=
      hU.frame rfl rfl (fun _ hi => hi) hd
    refine hF.touch (hO.putDev rfl) hb (block_setBlock hb _) rfl rfl rfl rfl ?_ hi rfl
    dsimp only
    omega

theorem perm (h : Good p ⟨I, d, k⟩ m) (hi : q.ids = p.ids) (hm : p.moves.Perm q.moves)
    (hs : q.sources = p.sources) (hd : d.Perm d') : Good q ⟨I, d', k'⟩ m := by
  have hneed : ∀ id, q.need id = p.need id := by
    intro id
    unfold Pins.need
    rw [hi, (hm.map Move.id).count_eq]
  refine ⟨h.onDev, fun id b hb => ?_, fun id hn => h.issued id (hneed id ▸ hn), h.clean, h.kept,
    fun x hx => ?_, fun v hv => ?_, (hm.map Move.dest).nodup_iff.mp h.apart, fun c hc => ?_⟩
  · rw [hneed]
    exact h.holds id b hb
  · rw [hneed]
    exact h.sources x (hs ▸ hx)
  · obtain ⟨h1, h2⟩ := h.moves v (hm.mem_iff.mpr hv)
    exact ⟨hd.subset h1, h2⟩
  · rcases h.copies c hc with hb | ⟨v, hv, e⟩
    · exact .inl hb
    · exact .inr ⟨v, hm.subset hv, e⟩

end Good

/-- the move of a plan of class `c` -/
def Move.of (c : Nat) (x : BlockId × Slot .dev × Slot .dev) : Move := ⟨c, x.1, x.2.1, x.2.2⟩

namespace Good
variable {p : Pins V} {I : Inner} {d : List (Nat × Slot .dev)} {k : List (Nat × Slot .host)}
  {m : Mem V} {c : Nat} {copied : Bool}

theorem trace_commitMove {x : BlockId × Slot .dev × Slot .dev} :
    (commitMove c copied I x).trace = I.trace := by
  unfold commitMove
  split
  · rfl
  · split <;> rfl

/-- all the moves of a plan land or are given up -/
theorem commits (l : List (BlockId × Slot .dev × Slot .dev)) {r : List Move}
    (h : Good { p with moves := l.map (Move.of c) ++ r }
      ⟨I, l.map (fun x => (c, x.2.2)) ++ d, k⟩ m)
    (hO : Own ⟨I, l.map (fun x => (c, x.2.2)) ++ d, k⟩) (hl : ∀ x ∈ l, OfClass I c x.1)
    (hs : ∀ x ∈ p.sources, x.id ∈ p.ids)
    (hc : copied = true → ∀ v ∈ l.map (Move.of c), v.copy ∉ m.copies) :
    Good { p with moves := r } ⟨l.foldl (commitMove c copied) I, d, k⟩
        ((l.map (Move.of c)).foldl (fun m v => m.drop v.copy) m) ∧
      (l.foldl (commitMove c copied) I).trace = I.trace := by
  induction l generalizing I m with
  | nil => exact ⟨h, rfl⟩
  | cons x rest ih =>
    have hE : Edits anyFacts ⟨I, (x :: rest).map (fun x => (c, x.2.2)) ++ d, k⟩
        ⟨commitMove c copied I x, rest.map (fun x => (c, x.2.2)) ++ d, k⟩ :=
      commitMove_edits copied (hl x mem_cons_self) trivial (fun h => h)
    have hneed : ∀ y ∈ p.sources,
        Pins.need { p with moves := rest.map (Move.of c) ++ r } y.id ≠ 0 := by
      intro y hy
      have := count_pos_iff.mpr (hs y hy)
      unfold Pins.need
      dsimp only
      omega
    have hG : Good { p with moves := rest.map (Move.of c) ++ r }
        ⟨commitMove c copied I x, rest.map (fun x => (c, x.2.2)) ++ d, k⟩
        (m.drop (Move.of c x).copy) :=
      commit (v := Move.of c x) h hO hneed (fun hcp => hc hcp _ mem_cons_self)
        (Keeps.edits hO hE).issued
    obtain ⟨h1, h2⟩ := ih hG (hO.edits hE)
      (fun y hy => (hl y (mem_cons_of_mem _ hy)).keeps (Keeps.edits hO hE))
      (fun hcp v hv hm => hc hcp v (mem_cons_of_mem _ hv) (mem_filter.mp hm).1)
    exact ⟨h1, h2.trans trace_commitMove⟩

end Good
end Plow.KvStore
