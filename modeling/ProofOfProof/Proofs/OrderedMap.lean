import Mathlib.Data.Set.Card
import ProofOfProof.Proofs.History

/-! The endorsements of a block as a map from ids that remembers in which order its ids came. What
is found under an id was inserted under it last, and stands until the id is removed. -/

namespace ProofOfProof

variable {α : Type} [Identified α]

namespace PopStep

/-- Whether a step settles anew what stands under an id. -/
def Touches (id : Hash) : PopStep α → Prop
  | insert e => Identified.id e = id
  | erase other => other = id
  | clear => True

def event : PopStep α → Ids.Event Hash
  | insert e => .insert (Identified.id e)
  | erase id => .erase id
  | clear => .clear

end PopStep

namespace PopState

def run (steps : List (PopStep α)) : PopState α := steps.foldl apply empty

/-- `e` was inserted, and nothing was done to its id since. -/
def Stands (steps : List (PopStep α)) (e : α) : Prop :=
  ∃ before, Lasting steps (.insert e) (fun step => ¬ step.Touches (Identified.id e)) before

variable {state : PopState α} {steps : List (PopStep α)} {id : Hash} {e old : α}
  {front back : List α}

section Steps

theorem ids_apply (state : PopState α) (step : PopStep α) :
    (state.apply step).ids = Ids.Event.apply state.ids step.event := by
  cases step with
  | insert e =>
    rw [apply, ids_insert, Ids.insertAll_eq_events]
    rfl
  | erase id =>
    rw [apply, PopStep.event, ← Ids.getD_erase?]
    cases he : state.erase? id with
    | some removed => rw [ids_of_erase? he, Option.map_some, Option.getD_some, Option.getD_some]
    | none =>
      have hfind : state.find? id = none := by simpa [erase?] using he
      have hm := (find?_eq_none state id).mp hfind
      simp [Ids.erase?, hm]
  | clear => rfl

theorem find?_insert (state : PopState α) (e : α) (id : Hash) :
    (state.insert e).find? id = if Identified.id e = id then some e else state.find? id := by
  rw [find?, find?, insert]
  induction state.containing with
  | nil => simp [place]
  | cons x items ih =>
    by_cases hx : Identified.id x = Identified.id e
    · by_cases he : Identified.id e = id <;> simp [place, hx, he]
    · by_cases hid : Identified.id x = id
      · subst hid
        simp [place, hx, Ne.symm hx]
      · simpa [place, hx, hid] using ih

theorem mem_of_find? (h : state.find? id = some e) :
    e ∈ state.containing ∧ Identified.id e = id :=
  ⟨List.mem_of_find?_eq_some h, by simpa using List.find?_some h⟩

theorem find?_of_mem (hd : state.Distinct) (h : e ∈ state.containing) :
    state.find? (Identified.id e) = some e := by
  obtain ⟨front, back, hsplit⟩ := List.append_of_mem h
  have hnew : ∀ x ∈ front, Identified.id x ≠ Identified.id e := by
    rw [Distinct, ids, hsplit, List.map_append, List.nodup_append] at hd
    exact fun x hx => hd.2.2 _ (List.mem_map_of_mem hx) _ (by simp)
  rw [find?, hsplit, List.find?_append, List.find?_eq_none.mpr (by simpa using hnew)]
  simp

theorem eraseP_eq_filter {items : List α} (h : (items.map Identified.id).Nodup) (id : Hash) :
    items.eraseP (fun e => Identified.id e = id) = items.filter fun e => Identified.id e ≠ id := by
  induction items with
  | nil => rfl
  | cons x items ih =>
    obtain ⟨hnew, hnodup⟩ := List.nodup_cons.mp h
    by_cases hx : Identified.id x = id
    · subst hx
      have hothers : ∀ e ∈ items, decide (Identified.id e ≠ Identified.id x) = true := by
        intro e hm
        have hne : Identified.id e ≠ Identified.id x := fun he =>
          hnew (he ▸ List.mem_map_of_mem hm)
        simpa using hne
      rw [List.eraseP_cons_of_pos (by simp), List.filter_cons_of_neg (by simp),
        List.filter_eq_self.mpr hothers]
    · simp [hx, ih hnodup]

theorem erase?_eq_filter (hd : state.Distinct) (id : Hash) :
    state.erase? id = (state.find? id).map fun e =>
      (e, ⟨state.containing.filter fun x => Identified.id x ≠ id⟩) := by
  rw [erase?, eraseP_eq_filter hd]

theorem containing_erase (hd : state.Distinct) (id : Hash) :
    (state.apply (.erase id)).containing =
      state.containing.filter fun x => Identified.id x ≠ id := by
  rw [apply, erase?_eq_filter hd]
  cases hfind : state.find? id with
  | some e => rfl
  | none =>
    have hothers : ∀ x ∈ state.containing, decide (Identified.id x ≠ id) = true := by
      simpa [find?] using hfind
    exact (List.filter_eq_self.mpr hothers).symm

theorem find?_erase (hd : state.Distinct) (id key : Hash) :
    (state.apply (.erase id)).find? key = if id = key then none else state.find? key := by
  rw [find?, containing_erase hd, List.find?_filter]
  by_cases hk : id = key
  · subst hk
    simp
  · rw [if_neg hk, find?]
    congr 1
    funext x
    by_cases hx : Identified.id x = key
    · simp [hx, Ne.symm hk]
    · simp [hx]

/-- A step that touches an id leaves under it what it inserts, and nothing if it removes. -/
theorem find?_apply_of_touches {step : PopStep α} (hd : state.Distinct) (h : step.Touches id) :
    (state.apply step).find? id = some e ↔ step = .insert e := by
  cases step with
  | insert x =>
    have hx : Identified.id x = id := h
    simp [apply, find?_insert, hx]
  | erase other =>
    have ho : other = id := h
    simp [find?_erase hd, ho]
  | clear => simp [apply, clear, empty, find?]

theorem find?_apply_of_not_touches {step : PopStep α} (hd : state.Distinct)
    (h : ¬ step.Touches id) : (state.apply step).find? id = state.find? id := by
  cases step with
  | insert x =>
    have hx : Identified.id x ≠ id := h
    simp [apply, find?_insert, hx]
  | erase other =>
    have ho : other ≠ id := h
    simp [find?_erase hd, ho]
  | clear => exact absurd trivial h

theorem place_of_mem (h : ((front ++ old :: back).map Identified.id).Nodup)
    (hid : Identified.id old = Identified.id e) :
    place e (front ++ old :: back) = front ++ e :: back := by
  induction front with
  | nil => simp [place, hid]
  | cons x front ih =>
    obtain ⟨hnew, hnodup⟩ := List.nodup_cons.mp h
    have hx : Identified.id x ≠ Identified.id e := by
      intro hx
      exact hnew (by simp [hx, ← hid])
    simp [place, hx, ih hnodup]

theorem place_of_new {items : List α} (h : Identified.id e ∉ items.map Identified.id) :
    place e items = items ++ [e] := by
  induction items with
  | nil => rfl
  | cons x items ih =>
    rw [List.map_cons, List.mem_cons, not_or] at h
    obtain ⟨hx, hrest⟩ := h
    simp [place, Ne.symm hx, ih hrest]

end Steps

section Runs

theorem stands_append {step : PopStep α} : Stands (steps ++ [step]) e ↔
    (Stands steps e ∧ ¬ step.Touches (Identified.id e)) ∨ step = .insert e := by
  constructor
  · rintro ⟨before, h⟩
    rcases lasting_append.mp h with ⟨hbefore, hkept⟩ | ⟨-, he⟩
    · exact .inl ⟨⟨before, hbefore⟩, hkept⟩
    · exact .inr he
  · rintro (⟨⟨before, hbefore⟩, hkept⟩ | he)
    · exact ⟨before, lasting_append.mpr (.inl ⟨hbefore, hkept⟩)⟩
    · exact ⟨steps, lasting_append.mpr (.inr ⟨rfl, he⟩)⟩

theorem run_append (steps : List (PopStep α)) (step : PopStep α) :
    run (steps ++ [step]) = (run steps).apply step := by
  rw [run, List.foldl_append]
  rfl

theorem follows_run (steps : List (PopStep α)) :
    Ids.Follows (steps.map PopStep.event) (run steps).ids := by
  have hids : ∀ (state : PopState α) (step : PopStep α),
      (state.apply step).ids = [step.event].foldl Ids.Event.apply state.ids := ids_apply
  rw [List.map_eq_flatMap]
  exact Ids.follows_field ids hids rfl steps

theorem distinct_run (steps : List (PopStep α)) : (run steps).Distinct := (follows_run steps).nodup

theorem find?_run (steps : List (PopStep α)) (id : Hash) (e : α) :
    (run steps).find? id = some e ↔ Identified.id e = id ∧ Stands steps e := by
  induction steps using List.reverseRecOn with
  | nil => simp [run, empty, find?, Stands, not_lasting_nil]
  | append_singleton steps step ih =>
    rw [run_append, stands_append]
    by_cases ht : step.Touches id
    · rw [find?_apply_of_touches (distinct_run steps) ht]
      constructor
      · rintro rfl
        exact ⟨ht, .inr rfl⟩
      · rintro ⟨rfl, ⟨-, hkept⟩ | he⟩
        · exact absurd ht hkept
        · exact he
    · rw [find?_apply_of_not_touches (distinct_run steps) ht, ih]
      constructor
      · rintro ⟨rfl, h⟩
        exact ⟨rfl, .inl ⟨h, ht⟩⟩
      · rintro ⟨rfl, ⟨h, -⟩ | rfl⟩
        · exact ⟨rfl, h⟩
        · exact absurd rfl ht

theorem mem_run_iff (steps : List (PopStep α)) (e : α) :
    e ∈ (run steps).containing ↔ Stands steps e := by
  constructor
  · intro hm
    exact ((find?_run steps _ e).mp (find?_of_mem (distinct_run steps) hm)).2
  · intro h
    exact (mem_of_find? ((find?_run steps _ e).mpr ⟨rfl, h⟩)).1

theorem size_run (steps : List (PopStep α)) :
    (run steps).size = {id | ∃ e, Stands steps e ∧ Identified.id e = id}.ncard := by
  have hids : {id | ∃ e, Stands steps e ∧ Identified.id e = id} =
      ((run steps).ids.toFinset : Set Hash) := by
    ext id
    simp [ids, mem_run_iff]
  rw [hids, Set.ncard_coe_finset, List.toFinset_card_of_nodup (distinct_run steps), ids,
    List.length_map, size]

/-- After any run, what is found under an id is what stands of the insertions under it, and the ids
are in the order in which they came. The next removal takes what is found and leaves the others as
they are; the next insertion stays in the place of its id, or goes last. -/
theorem insertion_ordered (steps : List (PopStep α)) :
    let state := run steps
    (∀ id e, state.find? id = some e ↔ Identified.id e = id ∧ Stands steps e) ∧
    (∀ id, state.erase? id = (state.find? id).map fun e =>
      (e, ⟨state.containing.filter fun x => Identified.id x ≠ id⟩)) ∧
    (∀ front old back e, state.containing = front ++ old :: back →
      Identified.id old = Identified.id e → (state.insert e).containing = front ++ e :: back) ∧
    (∀ e, state.find? (Identified.id e) = none →
      (state.insert e).containing = state.containing ++ [e]) ∧
    (∀ e, e ∈ state.containing ↔ Stands steps e) ∧
    Ids.Follows (steps.map PopStep.event) (state.containing.map Identified.id) ∧
    state.size = {id | ∃ e, Stands steps e ∧ Identified.id e = id}.ncard := by
  intro state
  have hdistinct : state.Distinct := distinct_run steps
  refine ⟨find?_run steps, erase?_eq_filter hdistinct, ?_, ?_, mem_run_iff steps,
    follows_run steps, size_run steps⟩
  · intro front old back e hsplit hid
    rw [Distinct, ids, hsplit] at hdistinct
    rw [insert, hsplit, place_of_mem hdistinct hid]
  · intro e hnew
    rw [insert, place_of_new ((find?_eq_none state _).mp hnew)]

def replacedSample : AltEndorsement := ⟨.zero 32, [1], [], .zero 24, []⟩

def renewedSample : AltEndorsement := ⟨.zero 32, [2], [], .zero 24, [9]⟩

def otherSample : AltEndorsement := ⟨⟨List.replicate 32 1, rfl⟩, [3], [], .zero 24, []⟩

def sampleSteps : List (PopStep AltEndorsement) :=
  [.insert replacedSample, .insert otherSample, .insert renewedSample]

theorem insertion_ordered_sample :
    (run sampleSteps).find? (.zero 32) = some renewedSample ∧
    (run sampleSteps).containing = [renewedSample, otherSample] ∧
    ((run sampleSteps).insert replacedSample).containing = [replacedSample, otherSample] := by
  obtain ⟨hfind, -, hreplaces, -⟩ := insertion_ordered sampleSteps
  have hcontaining : (run sampleSteps).containing = [renewedSample, otherSample] := by decide
  have hstands : Stands sampleSteps renewedSample :=
    ⟨[.insert replacedSample, .insert otherSample], [], rfl, by simp⟩
  exact ⟨(hfind _ _).mpr ⟨rfl, hstands⟩, hcontaining, hreplaces [] _ _ _ hcontaining rfl⟩

end Runs

end PopState

end ProofOfProof
