import Mathlib.Data.List.Induction
import ProofOfProof.Proofs.Repetition

/-! Lists of ids against the history of what was done to them. An id is held since it was inserted,
as long as nothing has removed it. A list that follows its history holds these ids once each, in the
order in which they came to be held. -/

namespace ProofOfProof

section Lasting

variable {σ : Type} {history before : List σ} {step last : σ} {keeps : σ → Prop}

/-- `step` was taken after `before`, and every step since then is one that `keeps` its effect. -/
def Lasting (history : List σ) (step : σ) (keeps : σ → Prop) (before : List σ) : Prop :=
  ∃ after, history = before ++ step :: after ∧ ∀ s ∈ after, keeps s

theorem not_lasting_nil : ¬ Lasting [] step keeps before := by
  rintro ⟨after, h, -⟩
  simp at h

theorem lasting_append : Lasting (history ++ [last]) step keeps before ↔
    (Lasting history step keeps before ∧ keeps last) ∨ (before = history ∧ last = step) := by
  constructor
  · rintro ⟨after, h, hk⟩
    cases after using List.reverseRecOn with
    | nil =>
      obtain ⟨hh, hs⟩ := List.append_inj' h rfl
      exact .inr ⟨hh.symm, List.singleton_inj.mp hs⟩
    | append_singleton after s =>
      rw [← List.cons_append, ← List.append_assoc] at h
      obtain ⟨hh, hs⟩ := List.append_inj' h rfl
      obtain rfl := List.singleton_inj.mp hs
      exact .inl ⟨⟨after, hh, fun s hm => hk s (by simp [hm])⟩, hk last (by simp)⟩
  · rintro (⟨⟨after, rfl, hk⟩, hlast⟩ | ⟨rfl, rfl⟩)
    · refine ⟨after ++ [last], by simp, fun s hm => ?_⟩
      rcases List.mem_append.mp hm with hm | hm
      · exact hk s hm
      · rwa [List.mem_singleton.mp hm]
    · exact ⟨[], rfl, by simp⟩

theorem Lasting.length_lt (h : Lasting history step keeps before) :
    before.length < history.length := by
  obtain ⟨after, rfl, -⟩ := h
  simp

end Lasting

/-- A field that every step of a record changes by events of its own, and not otherwise, is what
these events make of it. -/
theorem foldl_field {R F σ ε : Type} {operate : R → σ → R} {act : F → ε → F} {field : R → F}
    {events : σ → List ε}
    (h : ∀ record step, field (operate record step) = (events step).foldl act (field record))
    (start : R) (steps : List σ) :
    field (steps.foldl operate start) = (steps.flatMap events).foldl act (field start) := by
  induction steps generalizing start with
  | nil => rfl
  | cons step steps ih => rw [List.foldl_cons, ih, h, List.flatMap_cons, List.foldl_append]

namespace Ids

variable {β : Type}

inductive Event (β : Type)
  | insert (id : β)
  | erase (id : β)
  | clear

def Event.Removes (id : β) : Event β → Prop
  | insert _ => False
  | erase other => other = id
  | clear => True

/-- `id` was inserted after `before`, and has not been removed since. -/
def HeldSince (history : List (Event β)) (id : β) (before : List (Event β)) : Prop :=
  Lasting history (.insert id) (fun event => ¬ event.Removes id) before

def Held (history : List (Event β)) (id : β) : Prop := ∃ before, HeldSince history id before

/-- However early `b` was inserted, if it was not removed since, `a` was inserted still earlier, and
was not removed since either. -/
def HeldBefore (history : List (Event β)) (a b : β) : Prop :=
  ∀ later, HeldSince history b later →
    ∃ earlier, HeldSince history a earlier ∧ earlier.length < later.length

structure Follows (history : List (Event β)) (ids : List β) : Prop where
  nodup : ids.Nodup
  mem_iff : ∀ id, id ∈ ids ↔ Held history id
  ordered : ids.Pairwise (HeldBefore history)

section Events

variable {history : List (Event β)} {a b id other : β} {event : Event β}

theorem heldSince_append {before : List (Event β)} :
    HeldSince (history ++ [event]) id before ↔
      (HeldSince history id before ∧ ¬ event.Removes id) ∨
        (before = history ∧ event = .insert id) :=
  lasting_append

theorem Held.append (h : Held history id) (hkept : ¬ event.Removes id) :
    Held (history ++ [event]) id := by
  obtain ⟨before, hbefore⟩ := h
  exact ⟨before, heldSince_append.mpr (.inl ⟨hbefore, hkept⟩)⟩

theorem held_insert : Held (history ++ [.insert id]) other ↔ Held history other ∨ other = id := by
  constructor
  · rintro ⟨before, h⟩
    rcases heldSince_append.mp h with ⟨hbefore, -⟩ | ⟨-, he⟩
    · exact .inl ⟨before, hbefore⟩
    · cases he
      exact .inr rfl
  · rintro (h | rfl)
    · exact h.append fun hr => hr
    · exact ⟨history, heldSince_append.mpr (.inr ⟨rfl, rfl⟩)⟩

theorem held_erase : Held (history ++ [.erase id]) other ↔ Held history other ∧ id ≠ other := by
  constructor
  · rintro ⟨before, h⟩
    rcases heldSince_append.mp h with ⟨hbefore, hkept⟩ | ⟨-, he⟩
    · exact ⟨⟨before, hbefore⟩, hkept⟩
    · cases he
  · rintro ⟨h, hne⟩
    exact h.append hne

theorem not_held_clear : ¬ Held (history ++ [.clear]) id := by
  rintro ⟨before, h⟩
  rcases heldSince_append.mp h with ⟨-, hkept⟩ | ⟨-, he⟩
  · exact hkept trivial
  · cases he

/-- What is held and not removed stays before all that come behind it, or come later. -/
theorem HeldBefore.append (h : HeldBefore history a b) (ha : Held history a)
    (hkept : ¬ event.Removes a) : HeldBefore (history ++ [event]) a b := by
  intro later hlater
  have hlonger : ∃ earlier, HeldSince history a earlier ∧ earlier.length < later.length := by
    rcases heldSince_append.mp hlater with ⟨hb, -⟩ | ⟨rfl, -⟩
    · exact h later hb
    · -- `b` was inserted last of all, behind whatever made `a` held
      obtain ⟨earlier, hearlier⟩ := ha
      exact ⟨earlier, hearlier, hearlier.length_lt⟩
  obtain ⟨earlier, hearlier, hlt⟩ := hlonger
  exact ⟨earlier, heldSince_append.mpr (.inl ⟨hearlier, hkept⟩), hlt⟩

theorem HeldBefore.of_not_held (h : ¬ Held history b) : HeldBefore history a b :=
  fun later hlater => absurd ⟨later, hlater⟩ h

theorem Follows.ordered_append {ids kept : List β} (h : Follows history ids)
    (hsub : kept.Sublist ids) (hkept : ∀ id ∈ kept, ¬ event.Removes id) :
    kept.Pairwise (HeldBefore (history ++ [event])) := by
  refine (h.ordered.sublist hsub).imp_of_mem ?_
  intro a b ha _ hab
  exact hab.append ((h.mem_iff a).mp (hsub.subset ha)) (hkept a ha)

theorem follows_clear (history : List (Event β)) : Follows (history ++ [.clear]) [] :=
  ⟨List.nodup_nil, by simp [not_held_clear], .nil⟩

end Events

section Runs

variable [DecidableEq β] {history : List (Event β)} {ids : List β}

def Event.apply (ids : List β) : Event β → List β
  | insert id => if id ∈ ids then ids else ids ++ [id]
  | erase id => ids.erase id
  | clear => []

/-- A removal that is refused leaves the ids, as a removal of what is not there does. -/
theorem getD_erase? (ids : List β) (id : β) :
    (erase? ids id).getD ids = Event.apply ids (.erase id) := by
  by_cases hm : id ∈ ids
  · simp [erase?, Event.apply, hm]
  · simp [erase?, Event.apply, hm, List.erase_of_not_mem hm]

theorem insertAll_eq_events {n : Nat} (ids new : List (Fixed n)) :
    insertAll ids new = (new.map Event.insert).foldl Event.apply ids := by
  induction new generalizing ids with
  | nil => rfl
  | cons id new ih =>
    have hstep : insertAll ids (id :: new) = insertAll (insertAll ids [id]) new := rfl
    have hone : insertAll ids [id] = Event.apply ids (.insert id) := by
      by_cases hm : id ∈ ids <;> simp [insertAll_singleton, Event.apply, hm]
    rw [hstep, hone, ih, List.map_cons, List.foldl_cons]

namespace Follows

theorem insert (h : Follows history ids) (id : β) :
    Follows (history ++ [.insert id]) (Event.apply ids (.insert id)) := by
  have hordered : ids.Pairwise (HeldBefore (history ++ [.insert id])) :=
    h.ordered_append (List.Sublist.refl ids) (fun _ _ hr => hr)
  by_cases hm : id ∈ ids
  · have hids : Event.apply ids (.insert id) = ids := by simp [Event.apply, hm]
    rw [hids]
    refine ⟨h.nodup, fun other => ?_, hordered⟩
    rw [held_insert, ← h.mem_iff]
    exact ⟨.inl, by rintro (hother | rfl) <;> assumption⟩
  · have hids : Event.apply ids (.insert id) = ids ++ [id] := by simp [Event.apply, hm]
    rw [hids]
    refine ⟨List.nodup_append.mpr ⟨h.nodup, by simp, ?_⟩, fun other => ?_, ?_⟩
    · rintro a ha b hb rfl
      exact hm (List.mem_singleton.mp hb ▸ ha)
    · rw [held_insert, ← h.mem_iff, List.mem_append, List.mem_singleton]
    · refine List.pairwise_append.mpr ⟨hordered, by simp, fun a ha b hb => ?_⟩
      have hnew : ¬ Held history b := by rwa [List.mem_singleton.mp hb, ← h.mem_iff]
      exact (HeldBefore.of_not_held hnew).append ((h.mem_iff a).mp ha) (fun hr => hr)

theorem erase (h : Follows history ids) (id : β) :
    Follows (history ++ [.erase id]) (Event.apply ids (.erase id)) := by
  have hmem : ∀ other, other ∈ ids.erase id ↔ other ∈ ids ∧ id ≠ other := by
    intro other
    rw [h.nodup.mem_erase_iff, and_comm, ne_comm]
  refine ⟨h.nodup.erase id, fun other => ?_, ?_⟩
  · rw [held_erase, ← h.mem_iff]
    exact hmem other
  · exact h.ordered_append List.erase_sublist fun other hm => ((hmem other).mp hm).2

end Follows

theorem follows_run (history : List (Event β)) :
    Follows history (history.foldl Event.apply []) := by
  induction history using List.reverseRecOn with
  | nil => exact ⟨List.nodup_nil, by simp [Held, HeldSince, not_lasting_nil], .nil⟩
  | append_singleton history event ih =>
    rw [List.foldl_append, List.foldl_cons, List.foldl_nil]
    cases event with
    | insert id => exact ih.insert id
    | erase id => exact ih.erase id
    | clear => exact follows_clear history

theorem follows_field {R σ : Type} {operate : R → σ → R} (field : R → List β)
    {events : σ → List (Event β)}
    (h : ∀ record step, field (operate record step) = (events step).foldl Event.apply (field record))
    {start : R} (hstart : field start = []) (steps : List σ) :
    Follows (steps.flatMap events) (field (steps.foldl operate start)) := by
  rw [foldl_field h, hstart]
  exact follows_run _

end Runs

end Ids

end ProofOfProof
