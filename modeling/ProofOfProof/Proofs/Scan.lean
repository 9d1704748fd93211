import Mathlib.Data.List.Induction
import Mathlib.Data.List.Nodup
import ProofOfProof.Payload.PopData

/-! The walk through one section of payloads that looks for a repeated id. It stops at the first
item that has no id or the id of one in front of it; a section where nothing stops it is clean. -/

namespace ProofOfProof.PopData

theorem outcome_bind_eq_ok {ε α β : Type} {outcome : Except ε α} {next : α → Except ε β} {b : β} :
    outcome >>= next = .ok b ↔ ∃ a, outcome = .ok a ∧ next a = .ok b := by
  cases outcome with
  | error fault => simp [bind, Except.bind]
  | ok a => simp [bind, Except.bind]

variable {α β : Type} {id : α → Except Fault β} {items : List α} {keys : List β} {fault : Fault}

theorem ids_cons_eq_ok {a : α} :
    ids id (a :: items) = .ok keys ↔
      ∃ key rest, id a = .ok key ∧ ids id items = .ok rest ∧ keys = key :: rest := by
  rw [ids, List.mapM_cons]
  simp only [outcome_bind_eq_ok]
  constructor
  · rintro ⟨key, hkey, rest, hrest, hkeys⟩
    cases hkeys
    exact ⟨key, rest, hkey, hrest, rfl⟩
  · rintro ⟨key, rest, hkey, hrest, rfl⟩
    exact ⟨key, hkey, rest, hrest, rfl⟩

theorem ids_eq_ok_iff : ids id items = .ok keys ↔ items.map id = keys.map Except.ok := by
  induction items generalizing keys with
  | nil => cases keys <;> simp [ids, pure, Except.pure]
  | cons a items ih =>
    rw [ids_cons_eq_ok]
    constructor
    · rintro ⟨key, rest, hkey, hrest, rfl⟩
      rw [List.map_cons, List.map_cons, hkey, ih.mp hrest]
    · intro h
      cases keys with
      | nil => cases h
      | cons key rest =>
        obtain ⟨hkey, hrest⟩ := List.cons.inj h
        exact ⟨key, rest, hkey, ih.mpr hrest, rfl⟩

theorem length_ids (h : ids id items = .ok keys) : keys.length = items.length := by
  simpa using congrArg List.length (ids_eq_ok_iff.mp h).symm

theorem mem_map_of_ids (h : ids id items = .ok keys) {key : β} :
    Except.ok key ∈ items.map id ↔ key ∈ keys := by
  simp [ids_eq_ok_iff.mp h]

/-- Every item has an id, and no two have the same one. -/
def Clean (id : α → Except Fault β) (items : List α) : Prop :=
  ∃ keys, ids id items = .ok keys ∧ keys.Nodup

/-- An item has the id of one in front of it, and all in front of it are clean. -/
def Hits (id : α → Except Fault β) (items : List α) : Prop :=
  ∃ front a back, items = front ++ a :: back ∧ Clean id front ∧
    ∃ key, Except.ok key ∈ front.map id ∧ id a = .ok key

/-- An item has no id, and all in front of it are clean. -/
def Fails (id : α → Except Fault β) (items : List α) (fault : Fault) : Prop :=
  ∃ front a back, items = front ++ a :: back ∧ Clean id front ∧ id a = .error fault

/-- What the walk finds out of a section. -/
def Verdict (id : α → Except Fault β) (items : List α) : Except Fault Bool → Prop
  | .ok false => Clean id items
  | .ok true => Hits id items
  | .error fault => Fails id items fault

/-- Two places hold items of the same id. -/
def Repeated (id : α → Except Fault β) (items : List α) : Prop :=
  ∃ (i j : Nat) (key : β), i < j ∧ (items.map id)[i]? = some (.ok key) ∧
    (items.map id)[j]? = some (.ok key)

theorem Hits.repeated (h : Hits id items) : Repeated id items := by
  obtain ⟨front, a, back, rfl, -, key, hmem, ha⟩ := h
  obtain ⟨i, hi⟩ := List.mem_iff_getElem?.mp hmem
  have hlt := (List.getElem?_eq_some_iff.mp hi).1
  rw [List.length_map] at hlt
  refine ⟨i, front.length, key, hlt, ?_, ?_⟩
  · rw [List.map_append, List.getElem?_append_left (by simpa using hlt), hi]
  · simp [ha]

theorem repeated_iff_not_nodup (h : ids id items = .ok keys) :
    Repeated id items ↔ ¬ keys.Nodup := by
  have hplace (k : Nat) (key : β) :
      (items.map id)[k]? = some (Except.ok key) ↔ keys[k]? = some key := by
    simp [ids_eq_ok_iff.mp h]
  simp only [Repeated, hplace, List.nodup_iff_getElem?_ne_getElem?]
  push Not
  constructor
  · rintro ⟨i, j, key, hij, hi, hj⟩
    exact ⟨i, j, hij, (List.getElem?_eq_some_iff.mp hj).1, hi.trans hj.symm⟩
  · rintro ⟨i, j, hij, hlt, he⟩
    have hj := List.getElem?_eq_getElem hlt
    exact ⟨i, j, keys[j], hij, he.trans hj, hj⟩

theorem not_fails_of_ids (h : ids id items = .ok keys) : ¬ Fails id items fault := by
  rintro ⟨front, a, back, rfl, -, ha⟩
  have hmem : Except.error fault ∈ keys.map Except.ok := by
    rw [← ids_eq_ok_iff.mp h]
    simp [ha]
  simp at hmem

variable [DecidableEq β]

/-- What is met on the way through clean items is added to what was seen before them. -/
theorem repeatsAmong_append {front back : List α} {seen : List β} (h : ids id front = .ok keys)
    (hd : keys.Nodup) (hnew : ∀ key ∈ keys, key ∉ seen) :
    repeatsAmong id seen (front ++ back) = repeatsAmong id (keys.reverse ++ seen) back := by
  induction front generalizing seen keys with
  | nil =>
    cases h
    rfl
  | cons a front ih =>
    obtain ⟨key, rest, hkey, hrest, rfl⟩ := ids_cons_eq_ok.mp h
    obtain ⟨hout, hd⟩ := List.nodup_cons.mp hd
    have hseen := hnew key List.mem_cons_self
    have hstep : repeatsAmong id seen (a :: front ++ back) =
        repeatsAmong id (key :: seen) (front ++ back) := by
      simp [repeatsAmong, hkey, hseen]
    have hrestNew : ∀ k ∈ rest, k ∉ key :: seen := by
      intro k hk
      simp only [List.mem_cons, not_or]
      exact ⟨fun he => hout (he ▸ hk), hnew k (List.mem_cons_of_mem key hk)⟩
    rw [hstep, ih hrest hd hrestNew, List.reverse_cons, List.append_assoc]
    rfl

theorem repeats_append {front back : List α} (h : ids id front = .ok keys) (hd : keys.Nodup) :
    repeats id (front ++ back) = repeatsAmong id keys.reverse back := by
  rw [repeats, repeatsAmong_append h hd (by simp), List.append_nil]

theorem Clean.repeats_eq (h : Clean id items) : repeats id items = .ok false := by
  obtain ⟨keys, hkeys, hd⟩ := h
  have hwalk : repeats id (items ++ []) = .ok false := repeats_append hkeys hd
  rwa [List.append_nil] at hwalk

theorem Hits.repeats_eq (h : Hits id items) : repeats id items = .ok true := by
  obtain ⟨front, a, back, rfl, ⟨keys, hkeys, hd⟩, key, hmem, ha⟩ := h
  have hseen : key ∈ keys.reverse := List.mem_reverse.mpr ((mem_map_of_ids hkeys).mp hmem)
  rw [repeats_append hkeys hd, repeatsAmong, ha]
  exact if_pos hseen

theorem Fails.repeats_eq (h : Fails id items fault) : repeats id items = .error fault := by
  obtain ⟨front, a, back, rfl, ⟨keys, hkeys, hd⟩, ha⟩ := h
  rw [repeats_append hkeys hd, repeatsAmong, ha]

theorem Verdict.repeats_eq {outcome : Except Fault Bool} (h : Verdict id items outcome) :
    repeats id items = outcome := by
  rcases outcome with fault | ⟨_ | _⟩
  · exact Fails.repeats_eq h
  · exact Clean.repeats_eq h
  · exact Hits.repeats_eq h

/-- One more item leaves a clean section clean, or is where the walk stops; a walk that has stopped
does not get to it. -/
theorem exists_verdict (id : α → Except Fault β) (items : List α) :
    ∃ outcome, Verdict id items outcome := by
  induction items using List.reverseRecOn with
  | nil => exact ⟨.ok false, [], rfl, List.nodup_nil⟩
  | append_singleton items a ih =>
    obtain ⟨fault | ⟨_ | _⟩, h⟩ := ih
    · obtain ⟨front, b, back, hitems, hfront, hb⟩ := h
      exact ⟨.error fault, front, b, back ++ [a], by simp [hitems], hfront, hb⟩
    · obtain ⟨keys, hkeys, hd⟩ := h
      cases ha : id a with
      | error fault => exact ⟨.error fault, items, a, [], rfl, ⟨keys, hkeys, hd⟩, ha⟩
      | ok key =>
        by_cases hmem : key ∈ keys
        · exact ⟨.ok true, items, a, [], rfl, ⟨keys, hkeys, hd⟩, key,
            (mem_map_of_ids hkeys).mpr hmem, ha⟩
        · have hall : ids id (items ++ [a]) = .ok (keys ++ [key]) := by
            simp [ids_eq_ok_iff, ids_eq_ok_iff.mp hkeys, ha]
          have hdistinct : (keys ++ [key]).Nodup :=
            List.nodup_append.mpr ⟨hd, List.nodup_singleton key, fun k hk k' hk' he =>
              hmem (List.mem_singleton.mp hk' ▸ he ▸ hk)⟩
          exact ⟨.ok false, keys ++ [key], hall, hdistinct⟩
    · obtain ⟨front, b, back, hitems, hfront, hb⟩ := h
      exact ⟨.ok true, front, b, back ++ [a], by simp [hitems], hfront, hb⟩

theorem repeats_eq_iff {outcome : Except Fault Bool} :
    repeats id items = outcome ↔ Verdict id items outcome := by
  refine ⟨fun h => ?_, Verdict.repeats_eq⟩
  obtain ⟨outcome', hv⟩ := exists_verdict id items
  obtain rfl : outcome' = outcome := hv.repeats_eq.symm.trans h
  exact hv

theorem repeats_eq_ok_false : repeats id items = .ok false ↔ Clean id items := repeats_eq_iff

end ProofOfProof.PopData
