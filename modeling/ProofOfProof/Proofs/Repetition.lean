import ProofOfProof.Proofs.Narrowing

/-! How often a record holds an id. Nothing that a node does to a record repeats an id in it, and
where ids are distinct, removing one leaves none of it. Readers do not ask for distinct ids. -/

namespace ProofOfProof

open Reader (Filters)

namespace Ids

/-- Nothing is in `later` more often than in `start`, unless it is there once. -/
def RepeatsNoMore {β : Type} [DecidableEq β] (start later : List β) : Prop :=
  ∀ id, later.count id ≤ max 1 (start.count id)

namespace RepeatsNoMore

variable {β : Type} [DecidableEq β] {start middle later : List β}

theorem refl (ids : List β) : RepeatsNoMore ids ids := fun _ => Nat.le_max_right _ _

theorem trans (h : RepeatsNoMore start middle) (h' : RepeatsNoMore middle later) :
    RepeatsNoMore start later := by
  intro id
  have hmiddle := h id
  have hlater := h' id
  omega

theorem of_sublist (h : later.Sublist start) : RepeatsNoMore start later :=
  fun id => Nat.le_trans (h.count_le id) (Nat.le_max_right _ _)

theorem nodup (h : RepeatsNoMore start later) (hs : start.Nodup) : later.Nodup := by
  rw [List.nodup_iff_count] at hs ⊢
  intro id
  have hstart := hs id
  have hlater := h id
  omega

theorem append_new {id : β} (hm : id ∉ start) : RepeatsNoMore start (start ++ [id]) := by
  intro other
  rw [List.count_append]
  by_cases ho : id = other
  · subst ho
    simp [List.count_eq_zero.mpr hm]
  · simp [ho]

end RepeatsNoMore

section Lists

variable {β : Type} [DecidableEq β] {ids rest : List β} {id : β}

theorem erase?_eq_some : erase? ids id = some rest ↔ id ∈ ids ∧ ids.erase id = rest := by
  by_cases hm : id ∈ ids <;> simp [erase?, hm]

theorem erase_map {α : Type} (key : α → β) (items : List α) (id : β) :
    (items.map key).erase id = (items.eraseP fun a => key a = id).map key := by
  rw [List.erase_eq_eraseP, List.eraseP_map]
  congr 2
  funext a
  by_cases ha : key a = id
  · simp [ha]
  · simp [ha, Ne.symm ha]

theorem repeatsNoMore_of_erase? (h : erase? ids id = some rest) : RepeatsNoMore ids rest := by
  obtain ⟨-, rfl⟩ := erase?_eq_some.mp h
  exact .of_sublist List.erase_sublist

/-- Removals that leave nothing of what they remove tell that a list repeats nothing. -/
theorem nodup_iff_erase? (ids : List β) :
    ids.Nodup ↔ ∀ id rest, erase? ids id = some rest → id ∉ rest := by
  constructor
  · intro hn id rest h
    obtain ⟨-, rfl⟩ := erase?_eq_some.mp h
    exact hn.not_mem_erase
  · intro h
    rw [List.nodup_iff_count]
    intro id
    by_cases hm : id ∈ ids
    · have hrest := h id _ (erase?_eq_some.mpr ⟨hm, rfl⟩)
      rw [← List.count_eq_zero, List.count_erase_self] at hrest
      omega
    · rw [List.count_eq_zero.mpr hm]
      omega

end Lists

variable {n : Nat}

/-- The same for a list that is a field of a record. -/
theorem nodup_iff_erase?_field {R β : Type} [DecidableEq β] (update : List β → R)
    (field : R → List β) (hfield : ∀ ids, field (update ids) = ids) (ids : List β) :
    ids.Nodup ↔ ∀ id rest, (erase? ids id).map update = some rest → id ∉ field rest := by
  rw [nodup_iff_erase?]
  constructor
  · intro h id rest hrest
    obtain ⟨ids', he, rfl⟩ := Option.map_eq_some_iff.mp hrest
    rw [hfield]
    exact h id ids' he
  · intro h id ids' he
    have hrest := h id (update ids') (by rw [he]; rfl)
    rwa [hfield] at hrest

theorem insertAll_singleton (ids : List (Fixed n)) (id : Fixed n) :
    insertAll ids [id] = if id ∈ ids then ids else ids ++ [id] := rfl

theorem repeatsNoMore_insertAll (ids new : List (Fixed n)) :
    RepeatsNoMore ids (insertAll ids new) := by
  induction new generalizing ids with
  | nil => exact .refl ids
  | cons id new ih =>
    have hstep : RepeatsNoMore ids (insertAll ids [id]) := by
      rw [insertAll_singleton]
      by_cases hm : id ∈ ids
      · rw [if_pos hm]
        exact .refl ids
      · rw [if_neg hm]
        exact .append_new hm
    exact hstep.trans (ih (insertAll ids [id]))

end Ids

namespace PopState

variable {α : Type} [Identified α]

def ids (state : PopState α) : List Hash := state.containing.map Identified.id

theorem ids_insert (state : PopState α) (e : α) :
    (state.insert e).ids = Ids.insertAll state.ids [Identified.id e] := by
  rw [Ids.insertAll_singleton, ids, ids, insert]
  induction state.containing with
  | nil => rfl
  | cons x items ih =>
    by_cases hx : Identified.id x = Identified.id e
    · simp [place, hx]
    · have hx' : Identified.id e ≠ Identified.id x := fun h => hx h.symm
      simp only [place, if_neg hx, List.map_cons, ih, List.mem_cons, hx', false_or]
      by_cases hm : Identified.id e ∈ items.map Identified.id <;> simp [hm]

theorem find?_eq_none (state : PopState α) (id : Hash) :
    state.find? id = none ↔ id ∉ state.ids := by
  simp [find?, ids]

theorem erase?_eq_some {state rest : PopState α} {id : Hash} {e : α} :
    state.erase? id = some (e, rest) ↔
      state.find? id = some e ∧ ⟨state.containing.eraseP fun e => Identified.id e = id⟩ = rest := by
  simp [erase?]

theorem ids_of_erase? {state rest : PopState α} {id : Hash} {e : α}
    (h : state.erase? id = some (e, rest)) : Ids.erase? state.ids id = some rest.ids := by
  obtain ⟨hfind, rfl⟩ := erase?_eq_some.mp h
  have hm : id ∈ state.ids := by
    by_contra hm
    rw [(find?_eq_none state id).mpr hm] at hfind
    cases hfind
  exact Ids.erase?_eq_some.mpr ⟨hm, Ids.erase_map _ _ id⟩

theorem exists_erase? {state : PopState α} {id : Hash} (h : id ∈ state.ids) :
    ∃ e rest, state.erase? id = some (e, rest) := by
  cases hfind : state.find? id with
  | none => exact absurd h ((find?_eq_none state id).mp hfind)
  | some e => exact ⟨e, _, erase?_eq_some.mpr ⟨hfind, rfl⟩⟩

/-- Whether no two endorsements have one id. -/
def Distinct (state : PopState α) : Prop := state.ids.Nodup

/-- Whether no removal leaves an endorsement of the id that it removed. -/
def ErasesFully (state : PopState α) : Prop :=
  ∀ id e rest, state.erase? id = some (e, rest) → rest.find? id = none

def RepeatsNoMore (start later : PopState α) : Prop := Ids.RepeatsNoMore start.ids later.ids

theorem erasesFully_iff (state : PopState α) : state.ErasesFully ↔ state.Distinct := by
  rw [Distinct, Ids.nodup_iff_erase?]
  constructor
  · intro h id ids hids
    obtain ⟨e, rest, he⟩ := exists_erase? (Ids.erase?_eq_some.mp hids).1
    rw [ids_of_erase? he] at hids
    cases hids
    exact (find?_eq_none rest id).mp (h id e rest he)
  · intro h id e rest he
    exact (find?_eq_none rest id).mpr (h id _ (ids_of_erase? he))

theorem RepeatsNoMore.refl (state : PopState α) : state.RepeatsNoMore state :=
  Ids.RepeatsNoMore.refl state.ids

theorem RepeatsNoMore.apply (state : PopState α) (step : PopStep α) :
    state.RepeatsNoMore (state.apply step) := by
  cases step with
  | insert e =>
    rw [RepeatsNoMore, PopState.apply, ids_insert]
    exact Ids.repeatsNoMore_insertAll _ _
  | erase id =>
    rw [PopState.apply]
    cases he : state.erase? id with
    | none => exact refl state
    | some removed => exact Ids.repeatsNoMore_of_erase? (ids_of_erase? he)
  | clear => exact Ids.RepeatsNoMore.of_sublist (List.nil_sublist _)

theorem RepeatsNoMore.map (f : α → α) (hf : ∀ e, Identified.id (f e) = Identified.id e)
    (state : PopState α) : state.RepeatsNoMore (state.map f) := by
  have hids : (state.map f).ids = state.ids := by simp [ids, PopState.map, hf]
  rw [RepeatsNoMore, hids]
  exact Ids.RepeatsNoMore.refl _

end PopState

/-- What happens to a record: an operation, or that it is stored and read again, under any
limits. -/
inductive Change (σ : Type)
  | operation (step : σ)
  | reload (limits : Limits)

section Changes

variable {R σ : Type} [Wire R]

def reload (limits : Limits) (record : R) : Except Fault R := do
  let bytes ← encode record
  decode limits bytes

def Change.apply (operate : R → σ → R) (record : R) : Change σ → R
  | .operation step => operate record step
  | .reload limits =>
    match ProofOfProof.reload limits record with
    | .ok reloaded => reloaded
    | .error _ => record

def Change.run (operate : R → σ → R) (start : R) (changes : List (Change σ)) : R :=
  changes.foldl (apply operate) start

theorem Change.rel_run {operate : R → σ → R} {rel : R → R → Prop}
    (hrefl : ∀ record, rel record record)
    (htrans : ∀ start middle later, rel start middle → rel middle later → rel start later)
    (hoperate : ∀ record step, rel record (operate record step))
    (hreload : ∀ limits record reloaded,
      ProofOfProof.reload limits record = .ok reloaded → rel record reloaded)
    (start : R) (changes : List (Change σ)) : rel start (run operate start changes) := by
  induction changes generalizing start with
  | nil => exact hrefl start
  | cons change changes ih =>
    refine htrans _ _ _ ?_ (ih (apply operate start change))
    cases change with
    | operation step => exact hoperate start step
    | reload limits =>
      cases h : ProofOfProof.reload limits start with
      | ok reloaded =>
        have hstep : apply operate start (.reload limits) = reloaded := by rw [apply, h]
        rw [hstep]
        exact hreload limits start reloaded h
      | error fault =>
        have hstep : apply operate start (.reload limits) = start := by rw [apply, h]
        rw [hstep]
        exact hrefl start

/-- Limits filter what is read, so a record that comes back is what it is without limits. -/
theorem eq_of_reload {limits : Limits} {fits : R → Prop} {record stored reloaded : R}
    (hfilters : Filters True (Wire.read limits) (Wire.read .widest) fits)
    (hinverts : (Wire.read .widest).Inverts (Wire.write record) stored)
    (h : reload limits record = .ok reloaded) : reloaded = stored := by
  rw [reload] at h
  cases hbytes : encode record with
  | error fault =>
    rw [hbytes] at h
    cases h
  | ok bytes =>
    rw [hbytes] at h
    have hread := ((hfilters .any bytes reloaded []).mp ⟨trivial, Reader.whole_eq_ok.mp h⟩).1
    have hback := hinverts bytes (Writer.toBytes_eq_ok.mp hbytes) .any []
    rw [List.append_nil, hread] at hback
    cases hback
    rfl

end Changes

/-- A hash that was written is no longer than its length byte can tell. -/
theorem AltEndorsement.inverts_widest (e : AltEndorsement) :
    (Wire.read .widest).Inverts (Wire.write e) e.stored := by
  intro bytes hb
  obtain ⟨_, _, _, -, hb', -⟩ := Writer.bind_eq_ok.mp hb
  obtain ⟨_, _, _, hendorsed, hb', -⟩ := Writer.bind_eq_ok.mp hb'
  obtain ⟨_, _, _, hcontaining, -, -⟩ := Writer.bind_eq_ok.mp hb'
  have hle := (Writer.shortField_eq_ok.mp hendorsed).1
  have hle' := (Writer.shortField_eq_ok.mp hcontaining).1
  have hmax : (255 : Nat) ≤ Limits.widest.altHashMax := by decide
  refine inverts_stored ⟨⟨Nat.zero_le _, ?_⟩, Nat.zero_le _, ?_⟩ bytes hb
  · exact Nat.le_trans hle hmax
  · exact Nat.le_trans hle' hmax

namespace PopState

theorem inverts_widest (state : PopState AltEndorsement) :
    (Wire.read .widest).Inverts (Wire.write state) (state.map AltEndorsement.stored) :=
  inverts_map (fun _ => rfl) fun e _ => e.inverts_widest

theorem eq_of_reload_alt {limits : Limits} {state reloaded : PopState AltEndorsement}
    (h : reload limits state = .ok reloaded) : reloaded = state.map AltEndorsement.stored :=
  eq_of_reload (filters_read Limits.widest_widest) state.inverts_widest h

theorem eq_of_reload_vbk {limits : Limits} {state reloaded : PopState VbkEndorsement}
    (h : reload limits state = .ok reloaded) : reloaded = state.map VbkEndorsement.stored :=
  eq_of_reload (Filters.refl _) (inverts_map (fun _ => rfl) fun e _ => e.inverts_stored) h

theorem RepeatsNoMore.run {α : Type} [Identified α] [Wire α] {f : α → α}
    (hreload : ∀ {limits} {state reloaded : PopState α},
      reload limits state = .ok reloaded → reloaded = state.map f)
    (hf : ∀ e, Identified.id (f e) = Identified.id e) (start : PopState α)
    (changes : List (Change (PopStep α))) :
    start.RepeatsNoMore (Change.run PopState.apply start changes) := by
  refine Change.rel_run refl (fun _ _ _ => Ids.RepeatsNoMore.trans) RepeatsNoMore.apply ?_ _ _
  intro limits state reloaded h
  rw [hreload h]
  exact RepeatsNoMore.map f hf state

end PopState

namespace VbkAddon

structure Distinct (addon : VbkAddon) : Prop where
  endorsements : addon.popState.Distinct
  vtbIds : addon.vtbIds.Nodup

structure ErasesFully (addon : VbkAddon) : Prop where
  endorsements : addon.popState.ErasesFully
  vtbIds : ∀ id rest, addon.eraseId? id = some rest → id ∉ rest.vtbIds

structure RepeatsNoMore (start later : VbkAddon) : Prop where
  endorsements : start.popState.RepeatsNoMore later.popState
  vtbIds : Ids.RepeatsNoMore start.vtbIds later.vtbIds

theorem erasesFully_iff (addon : VbkAddon) : addon.ErasesFully ↔ addon.Distinct := by
  have hstate := addon.popState.erasesFully_iff
  have hvtbs := Ids.nodup_iff_erase?_field (fun ids => { addon with vtbIds := ids }) vtbIds
    (fun _ => rfl) addon.vtbIds
  exact ⟨fun h => ⟨hstate.mp h.endorsements, hvtbs.mpr h.vtbIds⟩,
    fun h => ⟨hstate.mpr h.endorsements, hvtbs.mp h.vtbIds⟩⟩

namespace RepeatsNoMore

variable {start middle later : VbkAddon}

theorem refl (addon : VbkAddon) : addon.RepeatsNoMore addon := ⟨.refl _, .refl _⟩

theorem trans (h : start.RepeatsNoMore middle) (h' : middle.RepeatsNoMore later) :
    start.RepeatsNoMore later :=
  ⟨Ids.RepeatsNoMore.trans h.endorsements h'.endorsements, h.vtbIds.trans h'.vtbIds⟩

theorem distinct (h : start.RepeatsNoMore later) (hs : start.Distinct) : later.Distinct :=
  ⟨Ids.RepeatsNoMore.nodup h.endorsements hs.endorsements, h.vtbIds.nodup hs.vtbIds⟩

theorem apply (addon : VbkAddon) (step : VbkStep) : addon.RepeatsNoMore (addon.apply step) := by
  cases step with
  | addReference => exact ⟨.refl _, .refl _⟩
  | eraseReference =>
    rw [VbkAddon.apply, eraseReference?]
    by_cases h : addon.referenceCount = 0
    · rw [if_pos h]
      exact refl addon
    · rw [if_neg h]
      exact ⟨.refl _, .refl _⟩
  | endorsements step => exact { refl addon with endorsements := .apply addon.popState step }
  | insertIds ids => exact { refl addon with vtbIds := Ids.repeatsNoMore_insertAll _ ids }
  | eraseId id =>
    rw [VbkAddon.apply, eraseId?]
    cases he : Ids.erase? addon.vtbIds id with
    | none => exact refl addon
    | some rest => exact { refl addon with vtbIds := Ids.repeatsNoMore_of_erase? he }

theorem run (start : VbkAddon) (changes : List (Change VbkStep)) :
    start.RepeatsNoMore (Change.run VbkAddon.apply start changes) := by
  refine Change.rel_run refl (fun _ _ _ => trans) apply ?_ _ _
  intro limits addon reloaded h
  rw [eq_of_reload (Filters.refl _) addon.inverts_stored h]
  exact { refl addon with
    endorsements := .map VbkEndorsement.stored (fun _ => rfl) addon.popState }

end RepeatsNoMore

end VbkAddon

namespace AltAddon

structure Distinct (addon : AltAddon) : Prop where
  endorsements : addon.popState.Distinct
  atvIds : addon.atvIds.Nodup
  vtbIds : addon.vtbIds.Nodup
  vbkIds : addon.vbkIds.Nodup

structure ErasesFully (addon : AltAddon) : Prop where
  endorsements : addon.popState.ErasesFully
  atvIds : ∀ id rest, addon.eraseAtvId? id = some rest → id ∉ rest.atvIds
  vtbIds : ∀ id rest, addon.eraseVtbId? id = some rest → id ∉ rest.vtbIds
  vbkIds : ∀ id rest, addon.eraseVbkId? id = some rest → id ∉ rest.vbkIds

structure RepeatsNoMore (start later : AltAddon) : Prop where
  endorsements : start.popState.RepeatsNoMore later.popState
  atvIds : Ids.RepeatsNoMore start.atvIds later.atvIds
  vtbIds : Ids.RepeatsNoMore start.vtbIds later.vtbIds
  vbkIds : Ids.RepeatsNoMore start.vbkIds later.vbkIds

theorem erasesFully_iff (addon : AltAddon) : addon.ErasesFully ↔ addon.Distinct := by
  have hstate := addon.popState.erasesFully_iff
  have hatvs := Ids.nodup_iff_erase?_field (fun ids => { addon with atvIds := ids }) atvIds
    (fun _ => rfl) addon.atvIds
  have hvtbs := Ids.nodup_iff_erase?_field (fun ids => { addon with vtbIds := ids }) vtbIds
    (fun _ => rfl) addon.vtbIds
  have hvbks := Ids.nodup_iff_erase?_field (fun ids => { addon with vbkIds := ids }) vbkIds
    (fun _ => rfl) addon.vbkIds
  constructor
  · intro h
    exact ⟨hstate.mp h.endorsements, hatvs.mpr h.atvIds, hvtbs.mpr h.vtbIds, hvbks.mpr h.vbkIds⟩
  · intro h
    exact ⟨hstate.mpr h.endorsements, hatvs.mp h.atvIds, hvtbs.mp h.vtbIds, hvbks.mp h.vbkIds⟩

namespace RepeatsNoMore

variable {start middle later : AltAddon}

theorem refl (addon : AltAddon) : addon.RepeatsNoMore addon := ⟨.refl _, .refl _, .refl _, .refl _⟩

theorem trans (h : start.RepeatsNoMore middle) (h' : middle.RepeatsNoMore later) :
    start.RepeatsNoMore later where
  endorsements := Ids.RepeatsNoMore.trans h.endorsements h'.endorsements
  atvIds := h.atvIds.trans h'.atvIds
  vtbIds := h.vtbIds.trans h'.vtbIds
  vbkIds := h.vbkIds.trans h'.vbkIds

theorem distinct (h : start.RepeatsNoMore later) (hs : start.Distinct) : later.Distinct where
  endorsements := Ids.RepeatsNoMore.nodup h.endorsements hs.endorsements
  atvIds := h.atvIds.nodup hs.atvIds
  vtbIds := h.vtbIds.nodup hs.vtbIds
  vbkIds := h.vbkIds.nodup hs.vbkIds

theorem apply (addon : AltAddon) (step : AltStep) : addon.RepeatsNoMore (addon.apply step) := by
  cases step with
  | endorsements step => exact { refl addon with endorsements := .apply addon.popState step }
  | insertAtvIds ids => exact { refl addon with atvIds := Ids.repeatsNoMore_insertAll _ ids }
  | insertVtbIds ids => exact { refl addon with vtbIds := Ids.repeatsNoMore_insertAll _ ids }
  | insertVbkIds ids => exact { refl addon with vbkIds := Ids.repeatsNoMore_insertAll _ ids }
  | eraseAtvId id =>
    rw [AltAddon.apply, eraseAtvId?]
    cases he : Ids.erase? addon.atvIds id with
    | none => exact refl addon
    | some rest => exact { refl addon with atvIds := Ids.repeatsNoMore_of_erase? he }
  | eraseVtbId id =>
    rw [AltAddon.apply, eraseVtbId?]
    cases he : Ids.erase? addon.vtbIds id with
    | none => exact refl addon
    | some rest => exact { refl addon with vtbIds := Ids.repeatsNoMore_of_erase? he }
  | eraseVbkId id =>
    rw [AltAddon.apply, eraseVbkId?]
    cases he : Ids.erase? addon.vbkIds id with
    | none => exact refl addon
    | some rest => exact { refl addon with vbkIds := Ids.repeatsNoMore_of_erase? he }
  | clearPayloads =>
    exact ⟨.refl _, .of_sublist (List.nil_sublist _), .of_sublist (List.nil_sublist _),
      .of_sublist (List.nil_sublist _)⟩

theorem run (start : AltAddon) (changes : List (Change AltStep)) :
    start.RepeatsNoMore (Change.run AltAddon.apply start changes) := by
  refine Change.rel_run refl (fun _ _ _ => trans) apply ?_ _ _
  intro limits addon reloaded h
  have hinverts := inverts_of_popState addon.popState.inverts_widest
  rw [eq_of_reload (filters_read Limits.widest_widest) hinverts h]
  exact { refl addon with
    endorsements := .map AltEndorsement.stored (fun _ => rfl) addon.popState }

end RepeatsNoMore

end AltAddon

/-- The kinds of records that hold ids. -/
inductive IdRecord
  | altPopState
  | vbkPopState
  | vbkAddon
  | altAddon

namespace IdRecord

abbrev Value : IdRecord → Type
  | altPopState => PopState AltEndorsement
  | vbkPopState => PopState VbkEndorsement
  | vbkAddon => VbkAddon
  | altAddon => AltAddon

abbrev Step : IdRecord → Type
  | altPopState => PopStep AltEndorsement
  | vbkPopState => PopStep VbkEndorsement
  | vbkAddon => VbkStep
  | altAddon => AltStep

instance (kind : IdRecord) : Wire kind.Value :=
  match kind with
  | altPopState => inferInstanceAs (Wire (PopState AltEndorsement))
  | vbkPopState => inferInstanceAs (Wire (PopState VbkEndorsement))
  | vbkAddon => inferInstanceAs (Wire VbkAddon)
  | altAddon => inferInstanceAs (Wire AltAddon)

def empty : (kind : IdRecord) → kind.Value
  | altPopState => PopState.empty
  | vbkPopState => PopState.empty
  | vbkAddon => VbkAddon.empty
  | altAddon => AltAddon.empty

def apply : (kind : IdRecord) → kind.Value → kind.Step → kind.Value
  | altPopState => PopState.apply
  | vbkPopState => PopState.apply
  | vbkAddon => VbkAddon.apply
  | altAddon => AltAddon.apply

def Distinct : (kind : IdRecord) → kind.Value → Prop
  | altPopState => PopState.Distinct
  | vbkPopState => PopState.Distinct
  | vbkAddon => VbkAddon.Distinct
  | altAddon => AltAddon.Distinct

def ErasesFully : (kind : IdRecord) → kind.Value → Prop
  | altPopState => PopState.ErasesFully
  | vbkPopState => PopState.ErasesFully
  | vbkAddon => VbkAddon.ErasesFully
  | altAddon => AltAddon.ErasesFully

def RepeatsNoMore : (kind : IdRecord) → kind.Value → kind.Value → Prop
  | altPopState => PopState.RepeatsNoMore
  | vbkPopState => PopState.RepeatsNoMore
  | vbkAddon => VbkAddon.RepeatsNoMore
  | altAddon => AltAddon.RepeatsNoMore

theorem distinct_empty (kind : IdRecord) : kind.Distinct kind.empty := by
  cases kind with
  | altPopState | vbkPopState => exact List.nodup_nil
  | vbkAddon => exact ⟨List.nodup_nil, List.nodup_nil⟩
  | altAddon => exact ⟨List.nodup_nil, List.nodup_nil, List.nodup_nil, List.nodup_nil⟩

theorem erasesFully_iff (kind : IdRecord) (record : kind.Value) :
    kind.ErasesFully record ↔ kind.Distinct record := by
  cases kind with
  | altPopState | vbkPopState => exact PopState.erasesFully_iff record
  | vbkAddon => exact VbkAddon.erasesFully_iff record
  | altAddon => exact AltAddon.erasesFully_iff record

theorem RepeatsNoMore.distinct {kind : IdRecord} {start later : kind.Value}
    (h : kind.RepeatsNoMore start later) (hs : kind.Distinct start) : kind.Distinct later := by
  cases kind with
  | altPopState | vbkPopState => exact Ids.RepeatsNoMore.nodup h hs
  | vbkAddon => exact VbkAddon.RepeatsNoMore.distinct h hs
  | altAddon => exact AltAddon.RepeatsNoMore.distinct h hs

theorem RepeatsNoMore.run (kind : IdRecord) (start : kind.Value)
    (changes : List (Change kind.Step)) :
    kind.RepeatsNoMore start (Change.run kind.apply start changes) := by
  cases kind with
  | altPopState =>
    exact PopState.RepeatsNoMore.run PopState.eq_of_reload_alt (fun _ => rfl) start changes
  | vbkPopState =>
    exact PopState.RepeatsNoMore.run PopState.eq_of_reload_vbk (fun _ => rfl) start changes
  | vbkAddon => exact VbkAddon.RepeatsNoMore.run start changes
  | altAddon => exact AltAddon.RepeatsNoMore.run start changes

/-- No history of a record, with reloads in it, repeats an id that was not repeated at its start.
Every removal leaves nothing of what it removes where ids are distinct, and only there. -/
theorem distinct_of_run (kind : IdRecord) (start : kind.Value)
    (changes : List (Change kind.Step)) :
    let later := Change.run kind.apply start changes
    kind.RepeatsNoMore start later ∧ kind.Distinct kind.empty ∧
      (kind.Distinct start → kind.Distinct later) ∧
        (kind.ErasesFully later ↔ kind.Distinct later) := by
  have h := RepeatsNoMore.run kind start changes
  exact ⟨h, kind.distinct_empty, h.distinct, kind.erasesFully_iff _⟩

def repetitionChanges : List (Change AltStep) := [
  .operation (.insertAtvIds [.zero 32, .zero 32]),
  .operation (.endorsements (.insert ⟨.zero 32, [1], [], .zero 24, [9]⟩)),
  .reload {},
  .operation (.endorsements (.insert ⟨.zero 32, [2], [], .zero 24, []⟩))]

theorem distinct_of_run_empty : ∃ later : AltAddon,
    Change.run AltAddon.apply .empty repetitionChanges = later ∧
      later.atvIds = [.zero 32] ∧ later.popState.ids = [.zero 32] ∧
        later.Distinct ∧ later.ErasesFully := by
  obtain ⟨-, hempty, hdistinct, herases⟩ := distinct_of_run altAddon .empty repetitionChanges
  have hlater := hdistinct hempty
  refine ⟨_, rfl, ?_, ?_, hlater, herases.mpr hlater⟩
  · decide +kernel
  · decide +kernel

end IdRecord

def repeatedEndorsement : AltEndorsement := ⟨.zero 32, [], [], .zero 24, []⟩

def repeatedAddon : AltAddon :=
  ⟨⟨[repeatedEndorsement, repeatedEndorsement]⟩, [.zero 32, .zero 32], [.zero 32, .zero 32],
    [.zero 12, .zero 12]⟩

def repeatedInput : Bytes :=
  let id : Bytes := 32 :: List.replicate 32 0
  let endorsement : Bytes := id ++ [0, 0] ++ 24 :: List.replicate 24 0
  let shortId : Bytes := 12 :: List.replicate 12 0
  [1, 2] ++ endorsement ++ endorsement ++ [1, 2] ++ id ++ id ++ [1, 2] ++ id ++ id ++
    [1, 2] ++ shortId ++ shortId

/-- A reader lets repeated ids pass. What it reads still has an id after it was removed. -/
theorem decode_repeated : decode {} repeatedInput = .ok repeatedAddon ∧ ¬ repeatedAddon.Distinct ∧
    ∃ (rest : PopState AltEndorsement) (left : AltAddon),
      repeatedAddon.popState.erase? (.zero 32) = some (repeatedEndorsement, rest) ∧
        rest.find? (.zero 32) = some repeatedEndorsement ∧
          repeatedAddon.eraseAtvId? (.zero 32) = some left ∧ Fixed.zero 32 ∈ left.atvIds := by
  have hdecode : decode {} repeatedInput = .ok repeatedAddon := by decide +kernel
  have hids : ¬ repeatedAddon.atvIds.Nodup := by decide +kernel
  refine ⟨hdecode, fun h => hids h.atvIds, ⟨[repeatedEndorsement]⟩,
    { repeatedAddon with atvIds := [.zero 32] }, ?_⟩
  decide +kernel

end ProofOfProof
