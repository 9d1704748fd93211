import ProofOfProof.Proofs.OrderedMap

/-! The books that an addon keeps, against all that was done to it. References are counted, one by
one or by height; ids are held in the order of their insertion. -/

namespace ProofOfProof

section Tally

variable {R σ : Type}

/-- How many steps of a run count, each judged by the record that it finds. -/
def tally (operate : R → σ → R) (counts : R → σ → Bool) : R → List σ → Nat
  | _, [] => 0
  | record, step :: steps =>
    (if counts record step then 1 else 0) + tally operate counts (operate record step) steps

/-- The bound is for counters that are exact only as long as they have not grown beyond it. -/
theorem balance_run {operate : R → σ → R} {gains : σ → Bool} {loses : R → σ → Bool}
    (measure : R → Nat) {bound : Nat}
    (hstep : ∀ record step, measure record + (if gains step then 1 else 0) ≤ bound →
      measure (operate record step) + (if loses record step then 1 else 0) =
        measure record + (if gains step then 1 else 0))
    (start : R) (steps : List σ) (hbound : measure start + steps.countP gains ≤ bound) :
    measure (steps.foldl operate start) + tally operate loses start steps =
      measure start + steps.countP gains := by
  induction steps generalizing start with
  | nil => rfl
  | cons step steps ih =>
    rw [List.countP_cons] at hbound ⊢
    -- the bound of the whole run leaves room for the gain of its first step
    have hone := hstep start step (by omega)
    have hrest := ih (operate start step) (by omega)
    rw [List.foldl_cons, tally]
    omega

end Tally

namespace Ids

variable {β : Type} [DecidableEq β]

theorem isSome_erase? (ids : List β) (id : β) : (erase? ids id).isSome ↔ id ∈ ids := by
  by_cases hm : id ∈ ids <;> simp [erase?, hm]

theorem count_erase? (ids : List β) (id other : β) :
    ((erase? ids other).getD ids).count id +
        (if (decide (other = id) && (erase? ids other).isSome) = true then 1 else 0) =
      ids.count id := by
  by_cases hm : other ∈ ids
  · by_cases ho : other = id
    · subst ho
      simp [erase?, hm]
    · simp [erase?, hm, ho, List.count_erase_of_ne (Ne.symm ho)]
  · simp [erase?, hm]

section Fields

variable {R F : Type} {record : R} {update : List β → R} {id : β}

theorem field_erase? (field : R → List β) (hfield : ∀ ids, field (update ids) = ids) :
    field (((erase? (field record) id).map update).getD record) =
      Event.apply (field record) (.erase id) := by
  rw [← getD_erase?]
  cases erase? (field record) id with
  | none => rfl
  | some rest => exact hfield rest

theorem kept_of_erase? (ids : List β) (other : R → F)
    (hother : ∀ ids, other (update ids) = other record) :
    other (((erase? ids id).map update).getD record) = other record := by
  cases erase? ids id with
  | none => rfl
  | some rest => exact hother rest

end Fields

end Ids

namespace BtcStep

def adds (height : UInt32) : BtcStep → Bool
  | addReference h => h = height
  | eraseReference _ => false

end BtcStep

namespace BtcAddon

/-- Whether a step takes a reference away, as a removal does where it finds one. -/
def loses (height : UInt32) (addon : BtcAddon) : BtcStep → Bool
  | .addReference _ => false
  | .eraseReference h => h = height && (addon.eraseReference? h).isSome

structure Balanced (steps : List BtcStep) (addon : BtcAddon) : Prop where
  count : ∀ height, addon.references.count height + tally apply (loses height) empty steps =
    steps.countP (BtcStep.adds height)
  refuses_iff : ∀ height, addon.eraseReference? height = none ↔ addon.references.count height = 0
  refused : ∀ height, addon.eraseReference? height = none →
    addon.apply (.eraseReference height) = addon

theorem references_apply_erase (addon : BtcAddon) (height : UInt32) :
    (addon.apply (.eraseReference height)).references =
      (Ids.erase? addon.references height).getD addon.references := by
  rw [apply, eraseReference?]
  cases Ids.erase? addon.references height <;> rfl

theorem count_apply (height : UInt32) (addon : BtcAddon) (step : BtcStep) :
    (addon.apply step).references.count height + (if addon.loses height step then 1 else 0) =
      addon.references.count height + (if step.adds height then 1 else 0) := by
  cases step with
  | addReference h => simp [apply, addReference, loses, BtcStep.adds, List.count_singleton]
  | eraseReference h =>
    have hsome : (addon.eraseReference? h).isSome = (Ids.erase? addon.references h).isSome := by
      simp [eraseReference?]
    rw [references_apply_erase, loses, hsome]
    exact Ids.count_erase? addon.references height h

theorem balanced (steps : List BtcStep) : Balanced steps (steps.foldl apply empty) where
  count height := by
    have h := balance_run (fun addon : BtcAddon => addon.references.count height)
      (fun addon step _ => count_apply height addon step) empty steps (Nat.le_refl _)
    simpa [empty] using h
  refuses_iff height := by
    rw [List.count_eq_zero, ← Ids.isSome_erase?, eraseReference?]
    simp
  refused height h := by rw [apply, h, Option.getD_none]

end BtcAddon

namespace VbkStep

def adds : VbkStep → Bool
  | addReference => true
  | _ => false

def endorsementSteps : VbkStep → List (PopStep VbkEndorsement)
  | endorsements step => [step]
  | _ => []

def vtbEvents : VbkStep → List (Ids.Event Hash)
  | insertIds ids => ids.map .insert
  | eraseId id => [.erase id]
  | _ => []

end VbkStep

namespace VbkAddon

def loses (addon : VbkAddon) : VbkStep → Bool
  | .eraseReference => addon.eraseReference?.isSome
  | _ => false

structure Balanced (steps : List VbkStep) (addon : VbkAddon) : Prop where
  count : steps.countP VbkStep.adds < 2 ^ 32 →
    addon.referenceCount.toNat + tally apply loses empty steps = steps.countP VbkStep.adds
  refuses_iff : addon.eraseReference? = none ↔ addon.referenceCount = 0
  refused : addon.eraseReference? = none → addon.apply .eraseReference = addon
  popState_eq : addon.popState = .run (steps.flatMap VbkStep.endorsementSteps)
  vtbIds : Ids.Follows (steps.flatMap VbkStep.vtbEvents) addon.vtbIds
  erases_iff : ∀ id, (addon.eraseId? id).isSome ↔ id ∈ addon.vtbIds
  keeps_count : ∀ step, step ≠ .addReference → step ≠ .eraseReference →
    (addon.apply step).referenceCount = addon.referenceCount
  keeps_popState : ∀ step : VbkStep, step.endorsementSteps = [] →
    (addon.apply step).popState = addon.popState
  keeps_vtbIds : ∀ step : VbkStep, step.vtbEvents = [] → (addon.apply step).vtbIds = addon.vtbIds

theorem toNat_addReference {addon : VbkAddon} (h : addon.referenceCount.toNat + 1 < 2 ^ 32) :
    addon.addReference.referenceCount.toNat = addon.referenceCount.toNat + 1 := by
  have hne : addon.referenceCount ≠ 0xffffffff := by
    intro he
    simp [he] at h
  have hsum : (addon.referenceCount + 1).toNat = addon.referenceCount.toNat + 1 := by
    rw [UInt32.toNat_add]
    exact Nat.mod_eq_of_lt h
  rw [addReference, if_neg hne, hsum]

theorem toNat_eraseReference? {addon rest : VbkAddon} (h : addon.eraseReference? = some rest) :
    rest.referenceCount.toNat + 1 = addon.referenceCount.toNat := by
  rw [eraseReference?] at h
  by_cases hz : addon.referenceCount = 0
  · simp [hz] at h
  · rw [if_neg hz, Option.some.injEq] at h
    have hpos : 0 < addon.referenceCount.toNat := UInt32.pos_iff_ne_zero.mpr hz
    have hdiff : (addon.referenceCount - 1).toNat = addon.referenceCount.toNat - 1 :=
      UInt32.toNat_sub_of_le _ _ hpos
    rw [← h, hdiff]
    omega

theorem eraseReference?_eq_none (addon : VbkAddon) :
    addon.eraseReference? = none ↔ addon.referenceCount = 0 := by
  simp [eraseReference?]

theorem count_apply (addon : VbkAddon) (step : VbkStep)
    (hbound : addon.referenceCount.toNat + (if step.adds then 1 else 0) ≤ 2 ^ 32 - 1) :
    (addon.apply step).referenceCount.toNat + (if addon.loses step then 1 else 0) =
      addon.referenceCount.toNat + (if step.adds then 1 else 0) := by
  cases step with
  | addReference =>
    have hlt : addon.referenceCount.toNat + 1 < 2 ^ 32 := Nat.lt_succ_of_le hbound
    exact toNat_addReference hlt
  | eraseReference =>
    rw [apply, loses]
    cases he : addon.eraseReference? with
    | none => rfl
    | some rest => exact toNat_eraseReference? he
  | endorsements step => rfl
  | insertIds ids => rfl
  | eraseId id =>
    have hkept : (addon.apply (.eraseId id)).referenceCount = addon.referenceCount :=
      Ids.kept_of_erase? _ VbkAddon.referenceCount fun _ => rfl
    rw [hkept]
    rfl

theorem kept_of_eraseReference {F : Type} {addon : VbkAddon} (other : VbkAddon → F)
    (hother : ∀ count, other { addon with referenceCount := count } = other addon) :
    other (addon.apply .eraseReference) = other addon := by
  rw [apply, eraseReference?]
  by_cases hz : addon.referenceCount = 0
  · rw [if_pos hz, Option.getD_none]
  · rw [if_neg hz, Option.getD_some, hother]

theorem popState_apply (addon : VbkAddon) (step : VbkStep) :
    (addon.apply step).popState = step.endorsementSteps.foldl PopState.apply addon.popState := by
  cases step with
  | addReference => rfl
  | eraseReference => exact kept_of_eraseReference popState fun _ => rfl
  | endorsements step => rfl
  | insertIds ids => rfl
  | eraseId id => exact Ids.kept_of_erase? _ popState fun _ => rfl

theorem vtbIds_apply (addon : VbkAddon) (step : VbkStep) :
    (addon.apply step).vtbIds = step.vtbEvents.foldl Ids.Event.apply addon.vtbIds := by
  cases step with
  | addReference => rfl
  | eraseReference => exact kept_of_eraseReference vtbIds fun _ => rfl
  | endorsements step => rfl
  | insertIds ids => exact Ids.insertAll_eq_events addon.vtbIds ids
  | eraseId id => exact Ids.field_erase? vtbIds fun _ => rfl

theorem balanced (steps : List VbkStep) : Balanced steps (steps.foldl apply empty) where
  count hfew := by
    have hbound : empty.referenceCount.toNat + steps.countP VbkStep.adds ≤ 2 ^ 32 - 1 := by
      simpa [empty] using Nat.le_sub_one_of_lt hfew
    have h := balance_run (fun addon : VbkAddon => addon.referenceCount.toNat) count_apply empty
      steps hbound
    simpa [empty] using h
  refuses_iff := eraseReference?_eq_none _
  refused h := by rw [apply, h, Option.getD_none]
  popState_eq := foldl_field popState_apply empty steps
  vtbIds := Ids.follows_field VbkAddon.vtbIds vtbIds_apply rfl steps
  erases_iff id := by rw [eraseId?, Option.isSome_map, Ids.isSome_erase?]
  keeps_count step hadd herase := by
    cases step with
    | addReference => exact absurd rfl hadd
    | eraseReference => exact absurd rfl herase
    | endorsements step => rfl
    | insertIds ids => rfl
    | eraseId id => exact Ids.kept_of_erase? _ VbkAddon.referenceCount fun _ => rfl
  keeps_popState step h := by rw [popState_apply, h, List.foldl_nil]
  keeps_vtbIds step h := by rw [vtbIds_apply, h, List.foldl_nil]

end VbkAddon

inductive AltList
  | atv
  | vtb
  | vbk

abbrev AltList.width : AltList → Nat
  | atv => 32
  | vtb => 32
  | vbk => 12

namespace AltStep

def endorsementSteps : AltStep → List (PopStep AltEndorsement)
  | endorsements step => [step]
  | _ => []

def events : (list : AltList) → AltStep → List (Ids.Event (Fixed list.width))
  | .atv, insertAtvIds ids => ids.map .insert
  | .vtb, insertVtbIds ids => ids.map .insert
  | .vbk, insertVbkIds ids => ids.map .insert
  | .atv, eraseAtvId id => [.erase id]
  | .vtb, eraseVtbId id => [.erase id]
  | .vbk, eraseVbkId id => [.erase id]
  | _, clearPayloads => [.clear]
  | _, _ => []

end AltStep

namespace AltAddon

def ids (addon : AltAddon) : (list : AltList) → List (Fixed list.width)
  | .atv => addon.atvIds
  | .vtb => addon.vtbIds
  | .vbk => addon.vbkIds

def erase? (addon : AltAddon) : (list : AltList) → Fixed list.width → Option AltAddon
  | .atv => addon.eraseAtvId?
  | .vtb => addon.eraseVtbId?
  | .vbk => addon.eraseVbkId?

structure Balanced (steps : List AltStep) (addon : AltAddon) : Prop where
  popState_eq : addon.popState = .run (steps.flatMap AltStep.endorsementSteps)
  follows : ∀ list, Ids.Follows (steps.flatMap (AltStep.events list)) (addon.ids list)
  erases_iff : ∀ list id, (addon.erase? list id).isSome ↔ id ∈ addon.ids list
  keeps_popState : ∀ step : AltStep, step.endorsementSteps = [] →
    (addon.apply step).popState = addon.popState
  keeps_ids : ∀ (step : AltStep) (list : AltList), step.events list = [] →
    (addon.apply step).ids list = addon.ids list
  hasPayloads_iff : addon.hasPayloads = true ↔ ∃ list, addon.ids list ≠ []

theorem popState_apply (addon : AltAddon) (step : AltStep) :
    (addon.apply step).popState = step.endorsementSteps.foldl PopState.apply addon.popState := by
  cases step with
  | endorsements step => rfl
  | insertAtvIds ids | insertVtbIds ids | insertVbkIds ids => rfl
  | eraseAtvId id | eraseVtbId id | eraseVbkId id =>
    exact Ids.kept_of_erase? _ popState fun _ => rfl
  | clearPayloads => rfl

theorem ids_apply (list : AltList) (addon : AltAddon) (step : AltStep) :
    (addon.apply step).ids list = (step.events list).foldl Ids.Event.apply (addon.ids list) := by
  cases step with
  | endorsements step => cases list <;> rfl
  | insertAtvIds ids =>
    cases list with
    | atv => exact Ids.insertAll_eq_events addon.atvIds ids
    | vtb | vbk => rfl
  | insertVtbIds ids =>
    cases list with
    | vtb => exact Ids.insertAll_eq_events addon.vtbIds ids
    | atv | vbk => rfl
  | insertVbkIds ids =>
    cases list with
    | vbk => exact Ids.insertAll_eq_events addon.vbkIds ids
    | atv | vtb => rfl
  | eraseAtvId id =>
    cases list with
    | atv => exact Ids.field_erase? atvIds fun _ => rfl
    | vtb => exact Ids.kept_of_erase? _ vtbIds fun _ => rfl
    | vbk => exact Ids.kept_of_erase? _ vbkIds fun _ => rfl
  | eraseVtbId id =>
    cases list with
    | vtb => exact Ids.field_erase? vtbIds fun _ => rfl
    | atv => exact Ids.kept_of_erase? _ atvIds fun _ => rfl
    | vbk => exact Ids.kept_of_erase? _ vbkIds fun _ => rfl
  | eraseVbkId id =>
    cases list with
    | vbk => exact Ids.field_erase? vbkIds fun _ => rfl
    | atv => exact Ids.kept_of_erase? _ atvIds fun _ => rfl
    | vtb => exact Ids.kept_of_erase? _ vtbIds fun _ => rfl
  | clearPayloads => cases list <;> rfl

theorem isSome_erase? (addon : AltAddon) (list : AltList) (id : Fixed list.width) :
    (addon.erase? list id).isSome ↔ id ∈ addon.ids list := by
  have hfield : ∀ update : List (Fixed list.width) → AltAddon,
      ((Ids.erase? (addon.ids list) id).map update).isSome ↔ id ∈ addon.ids list := by
    intro update
    rw [Option.isSome_map, Ids.isSome_erase?]
  cases list with
  | atv | vtb | vbk => exact hfield _

theorem hasPayloads_iff (addon : AltAddon) :
    addon.hasPayloads = true ↔ ∃ list, addon.ids list ≠ [] := by
  have hempty : addon.hasPayloads = false ↔ ∀ list, addon.ids list = [] := by
    simp only [hasPayloads, Bool.not_eq_false', Bool.and_eq_true, List.isEmpty_iff]
    constructor
    · rintro ⟨⟨hatv, hvtb⟩, hvbk⟩ list
      cases list <;> assumption
    · intro h
      exact ⟨⟨h .atv, h .vtb⟩, h .vbk⟩
  rw [← Bool.not_eq_false, hempty, not_forall]

theorem balanced (steps : List AltStep) : Balanced steps (steps.foldl apply empty) where
  popState_eq := foldl_field popState_apply empty steps
  follows list := by
    have hstart : empty.ids list = [] := by cases list <;> rfl
    exact Ids.follows_field (fun addon : AltAddon => addon.ids list) (ids_apply list) hstart steps
  erases_iff := isSome_erase? _
  keeps_popState step h := by rw [popState_apply, h, List.foldl_nil]
  keeps_ids step list h := by rw [ids_apply, h, List.foldl_nil]
  hasPayloads_iff := hasPayloads_iff _

end AltAddon

namespace Chain

def Balanced : (chain : Chain) → List chain.AddonStep → chain.Addon → Prop
  | btc => BtcAddon.Balanced
  | vbk => VbkAddon.Balanced
  | alt => AltAddon.Balanced

/-- Whatever was done to an addon since it was empty, its books balance. -/
theorem balanced_run (chain : Chain) (steps : List chain.AddonStep) :
    chain.Balanced steps (steps.foldl chain.applyAddon chain.emptyAddon) := by
  cases chain with
  | btc => exact BtcAddon.balanced steps
  | vbk => exact VbkAddon.balanced steps
  | alt => exact AltAddon.balanced steps

def laterId : Hash := ⟨1 :: List.replicate 31 0, rfl⟩

def balanceSample : List VbkStep :=
  [.insertIds [.zero 32, laterId, .zero 32], .addReference, .eraseReference, .eraseReference,
    .eraseId (.zero 32), .insertIds [.zero 32], .addReference]

/-- The second removal finds no reference, and the id that is inserted again goes last. -/
theorem balanced_run_sample : ∃ addon : VbkAddon,
    balanceSample.foldl VbkAddon.apply .empty = addon ∧ addon.referenceCount.toNat + 1 = 2 ∧
      addon.vtbIds = [laterId, .zero 32] ∧
        Ids.Held (balanceSample.flatMap VbkStep.vtbEvents) laterId := by
  have h : VbkAddon.Balanced balanceSample _ := balanced_run vbk balanceSample
  refine ⟨_, rfl, h.count (by decide), ?_, (h.vtbIds.mem_iff laterId).mp ?_⟩
  · decide
  · decide

end Chain

end ProofOfProof
