import Plow.MixedStep.DecodeBand
import Plow.MixedStep.SlotBand
import Plow.MixedStep.Agree

/-!
# Plans are sound and pass their validators

Under every cover the planner refuses with its output cleared, or plans soundly; the validator of the
cover accepts the plan, except that the decode band's wants a prefill span (`plans_sound`).  Planned
from requests, the owners own the sampled slots and rows (`planRequests_owned`).
-/

namespace Plow.MixedStep
open Plow.Lib List
open Plow.TokenBatch (Request Phase Plans)

variable {env : Env} {ds : List DecodeRequest} {ps : List PrefillRequest} {cover : SpanCover}
  {caps : Caps} {out plan : Plan} {requests : List Request} {generations owners owners' : List Nat}
  {lists : Split}

def SpanCover.sampling : SpanCover → Bool
  | .decodeBand => false
  | _ => true

theorem planIntoCover_cases (env : Env) (ds : List DecodeRequest) (ps : List PrefillRequest)
    (cover : SpanCover) (caps : Caps) (out : Plan) :
    (∃ e, planIntoCover env ds ps cover caps out = (.error e, .empty)) ∨
    ∃ plan, planIntoCover env ds ps cover caps out = (.ok (), plan) ∧
      planIntoInner env ds ps cover caps { Plan.empty with cover } = .ok plan := by
  have hstart : ({ out.clear with cover } : Plan) = { Plan.empty with cover } := rfl
  unfold planIntoCover
  rw [hstart]
  cases planIntoInner env ds ps cover caps { Plan.empty with cover } with
  | error e => exact .inl ⟨e, rfl⟩
  | ok plan => exact .inr ⟨plan, rfl, rfl⟩

theorem planInner_dense (hc : cover = .decodeBand ∨ cover = .prefixFree)
    (h : planIntoInner env ds ps cover caps { Plan.empty with cover } = .ok plan) :
    ∃ o, Laid env cover.sampling ds ps o ∧ finish env o = .ok plan := by
  have hs : (decide (cover = .prefixFree) : Bool) = cover.sampling := by
    rcases hc with rfl | rfl
    · rfl
    · rfl
  have hloops : ∃ o1, decodeLoop env cover.sampling [] ds { Plan.empty with cover } = .ok o1 ∧
      ∃ o2, prefillLoop env cover.sampling ds [] ps o1 = .ok o2 ∧ finish env o2 = .ok plan := by
    rw [← hs]
    unfold planIntoInner at h
    obtain ⟨-, h⟩ := require_bind.mp h
    obtain ⟨-, h⟩ := require_bind.mp h
    rcases hc with rfl | rfl
    · obtain ⟨-, h⟩ := require_bind.mp h
      obtain ⟨o1, h1, h⟩ := bind_ok.mp h
      obtain ⟨o2, h2, h⟩ := bind_ok.mp h
      exact ⟨o1, h1, o2, h2, h⟩
    · obtain ⟨-, h⟩ := require_bind.mp h
      obtain ⟨o1, h1, h⟩ := bind_ok.mp h
      obtain ⟨o2, h2, h⟩ := bind_ok.mp h
      exact ⟨o1, h1, o2, h2, h⟩
  obtain ⟨o1, h1, o2, h2, h3⟩ := hloops
  have hl : Laid env cover.sampling [] [] { Plan.empty with cover } := laid_nil
  exact ⟨o2, laid_prefillLoop (laid_decodeLoop hl h1) h2, h3⟩

theorem planInner_band {band : Nat}
    (h : planIntoInner env ds ps (.slotBand band) caps { Plan.empty with cover := .slotBand band } =
      .ok plan) : BandPlan env band ds ps plan := by
  unfold planIntoInner at h
  obtain ⟨-, h⟩ := require_bind.mp h
  obtain ⟨-, h⟩ := require_bind.mp h
  exact planSlotBandInner_ok h

theorem planInner_sound
    (h : planIntoInner env ds ps cover caps { Plan.empty with cover } = .ok plan) :
    SoundPlan env cover.sampling ds ps plan := by
  cases cover with
  | decodeBand =>
    obtain ⟨o, hl, hf⟩ := planInner_dense (.inl rfl) h
    exact finish_sound hl hf
  | prefixFree =>
    obtain ⟨o, hl, hf⟩ := planInner_dense (.inr rfl) h
    exact finish_sound hl hf
  | slotBand band => exact band_sound (planInner_band h)

/-! ### Owners -/

/-- the owner of a sampled row owns its slot, and its last scheduled token -/
def Owned (env : Env) (requests : List Request) (plan : Plan) (owners : List Nat) : Prop :=
  owners.length = plan.decodeSlots.length ∧ owners.length = plan.sampleInputRows.length ∧
    ∀ (i id : Nat), owners[i]? = some id → ∃ r ∈ requests, r.id = id ∧ sampled env r = true ∧
      plan.decodeSlots[i]? = some (r.slot : Int) ∧
      ∃ row x, plan.sampleInputRows[i]? = some row ∧ plan.rows[row]? = some x ∧ x.slot = r.slot ∧
        x.position + 1 = env.frontiers.getD r.slot 0 + r.tokens.length

theorem asI32_eq {n m : Nat} (hn : n < 2 ^ 32) (h : asI32 n = (m : Int)) : n = m := by
  unfold asI32 at h
  rw [Int.bmod_def] at h
  omega

/-- the lists of the partition hold the requests -/
theorem partition_requests (h : partition env generations requests = .ok lists) :
    (lists.decode.map (·.slot) ++ lists.prefill.map (·.slot)).Perm (requests.map (·.slot)) ∧
      (∀ d ∈ lists.decode, ∃ r ∈ requests, r.phase = .decode ∧ r.tokens.length = 1 ∧
        d.slot = r.slot) ∧
      ∀ p ∈ lists.prefill, ∃ r ∈ requests, r.phase = .prefill ∧ p.slot = r.slot ∧
        p.start = env.frontiers.getD r.slot 0 ∧ p.tokens = r.tokens ∧ p.promptLen = r.promptLen := by
  let tenv : TokenBatch.Env := ⟨env.frontiers, generations, env.rows, env.maxCtx, env.auxiliaryProgram⟩
  have hloop : partition (view tenv) tenv.generations requests = .ok lists := h
  have hk : ∀ r ∈ requests, r.phase = .decode ∨ r.phase = .prefill := by
    rw [partition, require_bind, splitLoop_iff] at hloop
    exact fun r hr => (hloop.2.1 r hr).kind
  obtain ⟨-, ⟨hok, -⟩, rfl⟩ := (partition_iff hk).mp hloop
  refine ⟨?_, ?_, ?_⟩
  · rw [map_map, map_map]
    have hperm := (order_perm hk).map (·.slot)
    rw [order_eq hk, map_append] at hperm
    exact hperm
  · intro d hd
    obtain ⟨r, hr, rfl⟩ := mem_map.mp hd
    obtain ⟨hr, hphase⟩ := mem_filter.mp hr
    have hphase := of_decide_eq_true hphase
    have hp := (hok r hr).phase
    unfold TokenBatch.Env.PhaseOk at hp
    simp only [hphase] at hp
    exact ⟨r, hr, hphase, hp.1, rfl⟩
  · intro p hp
    obtain ⟨r, hr, rfl⟩ := mem_map.mp hp
    obtain ⟨hr, hphase⟩ := mem_filter.mp hr
    exact ⟨r, hr, of_decide_eq_true hphase, rfl, rfl, rfl, rfl⟩

/-- owners that agree with the sampled slots of a sound plan own them and their rows -/
theorem owned_of_consistent (hsplit : partition env generations requests = .ok lists)
    (hs : SoundPlan env true lists.decode lists.prefill plan)
    (hc : consistent requests owners plan.decodeSlots = true) : Owned env requests plan owners := by
  obtain ⟨hslots, hdecode, hprefill⟩ := partition_requests hsplit
  obtain ⟨l, hl⟩ := hs.samples
  have hinj : ∀ r ∈ requests, ∀ q ∈ requests, r.slot = q.slot → r = q :=
    fun r hr q hq h => inj_on_of_nodup_map (hslots.nodup_iff.mp hs.requests) hr hq h
  obtain ⟨hlen, hall⟩ := (Bool.and_eq_true _ _).mp hc
  have hlen := of_decide_eq_true hlen
  have hrows : plan.decodeSlots.length = plan.sampleInputRows.length := by
    rw [hl.slots, hl.rows, length_map, length_map]
  refine ⟨hlen, hlen.trans hrows, fun i id hid => ?_⟩
  have hi : i < l.length := by
    have := (List.getElem?_eq_some_iff.mp hid).1
    rw [hlen, hl.slots, length_map] at this
    exact this
  have hget : ∀ f : Nat → Int, (l.map fun q => f q.1)[i]? = some (f l[i].1) := by
    intro f
    rw [getElem?_map, getElem?_eq_getElem hi]
    rfl
  generalize hv : asI32 l[i].1 = v
  have hslot : plan.decodeSlots[i]? = some v := by
    rw [hl.slots, hget, hv]
  have hrow : plan.sampleInputRows[i]? = some l[i].2 := by
    rw [hl.rows, getElem?_map, getElem?_eq_getElem hi]
    rfl
  have hzip : (id, v) ∈ owners.zip plan.decodeSlots := by
    refine mem_of_getElem? (i := i) ?_
    rw [getElem?_zip_eq_some]
    exact ⟨hid, hslot⟩
  obtain ⟨r, hr, hany⟩ := any_eq_true.mp (all_eq_true.mp hall _ hzip)
  simp only [Bool.and_eq_true, decide_eq_true_eq] at hany
  obtain ⟨⟨hrid, -⟩, heq⟩ := hany
  have hmem : l[i] ∈ l := getElem_mem hi
  have hsame : l[i].1 = r.slot := asI32_eq (hl.small _ hmem) (hv.trans heq.symm)
  obtain ⟨x, hx, hxslot, hlast⟩ := hl.last _ hmem
  have hpos : sampled env r = true ∧ x.position + 1 = env.frontiers.getD r.slot 0 + r.tokens.length := by
    rcases hlast with ⟨d, hd, hkey⟩ | ⟨p, hp, -, hstop, hpslot, hlast⟩
    · obtain ⟨q, hq, hphase, hone, hqslot⟩ := hdecode d hd
      have hxd : x.slot = d.slot := congrArg (fun k => k.2.1) hkey
      have hxp : x.position = env.frontiers.getD d.slot 0 := congrArg (fun k => k.2.2.2.1) hkey
      obtain rfl := hinj r hr q hq (by omega)
      refine ⟨?_, by rw [hxp, hqslot, hone]⟩
      rw [sampled, hphase]
      rfl
    · obtain ⟨q, hq, -, hqslot, hstart, htokens, hprompt⟩ := hprefill p hp
      obtain rfl := hinj r hr q hq (by omega)
      unfold stopOf at hstop hlast
      rw [hstart, htokens] at hlast hstop
      refine ⟨?_, hlast⟩
      rw [sampled, hstop, hprompt, beq_self_eq_true, Bool.or_true]
  refine ⟨r, hr, hrid, hpos.1, ?_, l[i].2, x, hrow, hx, hxslot.trans hsame, hpos.2⟩
  rw [hslot, heq]

theorem planRequests_owned
    (h : planRequestsIntoCover env generations requests cover caps out owners =
      (.ok (), plan, owners')) : Owned env requests plan owners' := by
  unfold planRequestsIntoCover at h
  split at h
  · cases h
  · next hcover =>
    split at h
    · cases h
    · next lists hsplit =>
      rcases planIntoCover_cases env lists.decode lists.prefill cover caps out.clear with ⟨e, he⟩ | ⟨p, hp, hinner⟩
      · rw [he] at h
        cases h
      · rw [hp] at h
        dsimp only at h
        split at h
        · next hc =>
          cases h
          have hs := planInner_sound hinner
          have hsampling : cover.sampling = true := by
            cases cover with
            | decodeBand => exact absurd rfl hcover
            | prefixFree => rfl
            | slotBand band => rfl
          rw [hsampling] at hs
          exact owned_of_consistent hsplit hs hc
        · cases h

theorem planRequests_refuses {e : String} (hc : cover ≠ .decodeBand)
    (h : planRequestsIntoCover env generations requests cover caps out owners =
      (.error e, plan, owners')) : plan = .empty ∧ owners' = [] := by
  unfold planRequestsIntoCover at h
  rw [if_neg hc] at h
  split at h
  · cases h
    exact ⟨rfl, rfl⟩
  · next lists hsplit =>
    rcases planIntoCover_cases env lists.decode lists.prefill cover caps out.clear with ⟨e, he⟩ | ⟨p, hp, hinner⟩
    · rw [he] at h
      cases h
      exact ⟨rfl, rfl⟩
    · rw [hp] at h
      dsimp only at h
      split at h
      · cases h
      · cases h
        exact ⟨rfl, rfl⟩

/-! ### The result -/

theorem finish_decodeRows {o : Plan} (h : finish env o = .ok plan) :
    plan.decodeRows = o.decodeSlots.length := by
  unfold finish at h
  obtain ⟨n, -, h⟩ := bind_ok.mp h
  obtain ⟨owner, -, h⟩ := bind_ok.mp h
  obtain ⟨stop, -, h⟩ := bind_ok.mp h
  obtain ⟨-, h⟩ := require_bind.mp h
  obtain ⟨es, -, h⟩ := bind_ok.mp h
  obtain ⟨d, e, h⟩ := bind_ok.mp h
  obtain ⟨-, rfl⟩ := tryU32_ok.mp e
  rw [← pure_ok.mp h]

/-- the variant of a plan, with limits that cover the requests, accepts it if it has a prefill span -/
def Accepts (env : Env) (ds : List DecodeRequest) (ps : List PrefillRequest) (plan : Plan) : Prop :=
  ∀ maxActive capacity, ds.length + ps.length ≤ maxActive → env.frontiers.length ≤ capacity →
    (Variant.validatePlan ⟨env.rows, plan.decodeRows, env.auxiliaryProgram⟩ plan maxActive capacity =
      .ok () ↔ ps ≠ [])

theorem decodeBand_accepts
    (h : planIntoInner env ds ps .decodeBand caps { Plan.empty with cover := .decodeBand } = .ok plan) :
    Accepts env ds ps plan := by
  obtain ⟨o, hl, hf⟩ := planInner_dense (.inl rfl) h
  have hrows : plan.decodeRows = ds.length := by
    rw [finish_decodeRows hf, (hl.leading rfl).2.1, length_map]
  intro maxActive capacity hmax hcap
  rw [hrows]
  exact validatePlan_iff hl hf hmax hcap

/-- The planner refuses with its output cleared, or plans soundly under every cover, and the
validator of the cover accepts the plan, that of the decode band if there is a prefill span.  From
requests the refusal clears too, and the owners own the sampled slots and rows. -/
theorem plans_sound (env : Env) (ds : List DecodeRequest) (ps : List PrefillRequest)
    (cover : SpanCover) (caps : Caps) (out : Plan) :
    ((∃ e, planIntoCover env ds ps cover caps out = (.error e, .empty)) ∨
      ∃ plan, planIntoCover env ds ps cover caps out = (.ok (), plan) ∧
        SoundPlan env cover.sampling ds ps plan ∧
        (∀ band slotCapacity, cover = .slotBand band → band ≤ slotCapacity →
          env.frontiers.length ≤ slotCapacity →
          validateSlotBand plan slotCapacity env.maxCtx = .ok ()) ∧
        (cover = .decodeBand → Accepts env ds ps plan)) ∧
    ∀ (generations : List Nat) (requests : List Request) (owners owners' : List Nat)
      (result : Plans Unit) (plan : Plan), cover ≠ .decodeBand →
      planRequestsIntoCover env generations requests cover caps out owners =
        (result, plan, owners') → (∃ e, result = .error e ∧ plan = .empty ∧ owners' = []) ∨
        result = .ok () ∧ Owned env requests plan owners' := by
  constructor
  · rcases planIntoCover_cases env ds ps cover caps out with h | ⟨plan, h, hinner⟩
    · exact .inl h
    · refine .inr ⟨plan, h, planInner_sound hinner, ?_, ?_⟩
      · rintro band slotCapacity rfl hband hcap
        exact validateSlotBand_ok (planInner_band hinner) hband hcap
      · rintro rfl
        exact decodeBand_accepts hinner
  · intro generations requests owners owners' result plan hc h
    cases result with
    | error e =>
      obtain ⟨h1, h2⟩ := planRequests_refuses hc h
      exact .inl ⟨e, rfl, h1, h2⟩
    | ok u => exact .inr ⟨rfl, planRequests_owned h⟩

def mixedEnv : Env := ⟨[5, 0, 2, 0], 12, 32, 1⟩

def mixedDecode : List DecodeRequest := [⟨0, 0, 7⟩]

def mixedPrefill : List PrefillRequest := [⟨2, 2, 2, [31, 32, 33], 5⟩, ⟨1, 1, 0, [41, 42], 9⟩]

def mixedCaps : Caps := ⟨12, 4, 4, 4, 12, 4, 4⟩

theorem plans_sound_mixed :
    ∃ plan, planIntoCover mixedEnv mixedDecode mixedPrefill (.slotBand 4) mixedCaps .empty =
        (.ok (), plan) ∧ SoundPlan mixedEnv true mixedDecode mixedPrefill plan ∧
      validateSlotBand plan 4 32 = .ok () := by
  rcases (plans_sound mixedEnv mixedDecode mixedPrefill (.slotBand 4) mixedCaps .empty).1 with
    ⟨e, h⟩ | ⟨plan, h, hs, hv, -⟩
  · have hok : (planIntoCover mixedEnv mixedDecode mixedPrefill (.slotBand 4) mixedCaps .empty).1 =
        .ok () := by decide +kernel
    rw [h] at hok
    cases hok
  · exact ⟨plan, h, hs, hv 4 4 rfl (by decide) (by decide)⟩

/-- A plan of decode rows alone is made, and its validator refuses it. -/
theorem plans_unvalidated :
    ¬∀ (env : Env) (ds : List DecodeRequest) (ps : List PrefillRequest) (caps : Caps)
      (out plan : Plan) (maxActive capacity : Nat),
      planInto env ds ps caps out = (.ok (), plan) → ds.length + ps.length ≤ maxActive →
      env.frontiers.length ≤ capacity →
      Variant.validatePlan ⟨env.rows, plan.decodeRows, env.auxiliaryProgram⟩ plan maxActive capacity =
        .ok () := by
  intro h
  have hplan : planInto mixedEnv mixedDecode [] mixedCaps .empty =
      (.ok (), (planInto mixedEnv mixedDecode [] mixedCaps .empty).2) := by decide +kernel
  have hok := h mixedEnv mixedDecode [] mixedCaps .empty _ 4 4 hplan (by decide) (by decide)
  revert hok
  decide +kernel

end Plow.MixedStep
