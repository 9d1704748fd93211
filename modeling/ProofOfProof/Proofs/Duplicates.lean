import ProofOfProof.Proofs.Commitment

/-! The duplicate check of a bundle of payloads, outcome by outcome. A section is looked through
only where those in front of it are clean, and ids of different sections are never compared. -/

namespace ProofOfProof.PopData

variable {hasher : HeaderHash} {pop : PopData} {i : PayloadIds}

/-- The first section that is not clean stops the check with this outcome. -/
def StopsWith (hasher : HeaderHash) (pop : PopData) (outcome : Except Fault Bool) : Prop :=
  Verdict (VbkBlock.id hasher) pop.context outcome ∨ Clean (VbkBlock.id hasher) pop.context ∧
    (Verdict (Vtb.id hasher) pop.vtbs outcome ∨ Clean (Vtb.id hasher) pop.vtbs ∧
      Verdict Atv.id pop.atvs outcome)

/-- Two places of one section hold items of the same id. -/
def RepeatsId (hasher : HeaderHash) (pop : PopData) : Prop :=
  Repeated (VbkBlock.id hasher) pop.context ∨ Repeated (Vtb.id hasher) pop.vtbs ∨
    Repeated Atv.id pop.atvs

theorem orNext_eq_iff {first next outcome : Except Fault Bool} (h : outcome ≠ .ok false) :
    orNext first next = outcome ↔ first = outcome ∨ first = .ok false ∧ next = outcome := by
  rcases first with fault | ⟨_ | _⟩
  · simp [orNext]
  · simp [orNext, h.symm]
  · simp [orNext]

theorem hasDuplicates_eq_iff {outcome : Except Fault Bool} (h : outcome ≠ .ok false) :
    hasDuplicates hasher pop = outcome ↔ pop.StopsWith hasher outcome := by
  simp only [hasDuplicates_eq, orNext_eq_iff h, repeats_eq_iff]
  exact Iff.rfl

theorem StopsWith.repeatsId (h : pop.StopsWith hasher (.ok true)) : pop.RepeatsId hasher := by
  rcases h with h | ⟨-, h | ⟨-, h⟩⟩
  · exact .inl (Hits.repeated h)
  · exact .inr (.inl (Hits.repeated h))
  · exact .inr (.inr (Hits.repeated h))

theorem repeatsId_iff_not_distinct (h : payloadIds hasher pop = .ok i) :
    pop.RepeatsId hasher ↔ ¬ i.Distinct := by
  obtain ⟨hcontext, hvtbs, hatvs⟩ := payloadIds_eq_ok.mp h
  rw [RepeatsId, repeated_iff_not_nodup hcontext, repeated_iff_not_nodup hvtbs,
    repeated_iff_not_nodup hatvs]
  constructor
  · rintro (hr | hr | hr) hd
    · exact hr hd.context
    · exact hr hd.vtbs
    · exact hr hd.atvs
  · intro hd
    by_contra hr
    simp only [not_or, not_not] at hr
    exact hd ⟨hr.1, hr.2.1, hr.2.2⟩

theorem not_stopsWith_of_payloadIds (h : payloadIds hasher pop = .ok i) (fault : Fault) :
    ¬ pop.StopsWith hasher (.error fault) := by
  obtain ⟨hcontext, hvtbs, hatvs⟩ := payloadIds_eq_ok.mp h
  rintro (hf | ⟨-, hf | ⟨-, hf⟩⟩)
  · exact not_fails_of_ids hcontext hf
  · exact not_fails_of_ids hvtbs hf
  · exact not_fails_of_ids hatvs hf

/-- Nothing is found exactly where every item has an id and each section has every id once. What is
found is a repetition within one section, at whichever places it is, unless an item without an id
comes before it; and such an item is a fault only where no repetition comes before it. -/
theorem hasDuplicates_exact (hasher : HeaderHash) (pop : PopData) :
    (pop.hasDuplicates hasher = .ok false ↔
      ∃ i, pop.payloadIds hasher = .ok i ∧ i.Distinct) ∧
    (pop.hasDuplicates hasher = .ok true ↔ pop.StopsWith hasher (.ok true)) ∧
    (pop.hasDuplicates hasher = .ok true → pop.RepeatsId hasher) ∧
    (∀ i, pop.payloadIds hasher = .ok i →
      (pop.hasDuplicates hasher = .ok true ↔ pop.RepeatsId hasher)) ∧
    ∀ fault, pop.hasDuplicates hasher = .error fault ↔ pop.StopsWith hasher (.error fault) := by
  have hhit : pop.hasDuplicates hasher = .ok true ↔ pop.StopsWith hasher (.ok true) :=
    hasDuplicates_eq_iff (by simp)
  have hfault (fault : Fault) :
      pop.hasDuplicates hasher = .error fault ↔ pop.StopsWith hasher (.error fault) :=
    hasDuplicates_eq_iff (by simp)
  have hrepeats (h : pop.hasDuplicates hasher = .ok true) : pop.RepeatsId hasher :=
    (hhit.mp h).repeatsId
  refine ⟨hasDuplicates_eq_ok_false, hhit, hrepeats, fun i hi => ⟨hrepeats, fun hr => ?_⟩, hfault⟩
  cases h : pop.hasDuplicates hasher with
  | error fault => exact absurd ((hfault fault).mp h) (not_stopsWith_of_payloadIds hi fault)
  | ok found =>
    cases found with
    | true => rfl
    | false =>
      obtain ⟨j, hj, hd⟩ := hasDuplicates_eq_ok_false.mp h
      obtain rfl : j = i := Except.ok.inj (hj.symm.trans hi)
      exact absurd hd ((repeatsId_iff_not_distinct hi).mp hr)

/-- A bundle that has its context twice, and behind it a block with a nonce too wide for an id. -/
def doubled : PopData :=
  let wide : VbkBlock :=
    ⟨5, 2, .zero 12, .zero 9, .zero 9, .zero 16, 1000, 7, 1099511627776⟩
  { sample with context := sample.context ++ sample.context ++ [wide] }

theorem hasDuplicates_exact_doubled :
    (doubled.hasDuplicates (fun _ => .zero 24) = .ok true ∧
      doubled.RepeatsId (fun _ => .zero 24) ∧ ∀ i, doubled.payloadIds (fun _ => .zero 24) ≠ .ok i) ∧
    ∃ i, sample.payloadIds defaultHeaderHash = .ok i ∧ ¬ sample.RepeatsId defaultHeaderHash := by
  obtain ⟨-, -, hrepeats, -, -⟩ := hasDuplicates_exact (fun _ => .zero 24) doubled
  obtain ⟨hnone, -, -, hiff, -⟩ := hasDuplicates_exact defaultHeaderHash sample
  have hdoubled : doubled.hasDuplicates (fun _ => .zero 24) = .ok true := by decide +kernel
  have hfails : (doubled.payloadIds fun _ => .zero 24).toOption.isNone = true := by decide +kernel
  obtain ⟨i, hi, -⟩ := hnone.mp hasDuplicates_sample
  refine ⟨⟨hdoubled, hrepeats hdoubled, fun j hj => ?_⟩, i, hi, fun hr => ?_⟩
  · rw [hj] at hfails
    cases hfails
  · exact absurd (hasDuplicates_sample.symm.trans ((hiff i hi).mpr hr)) (by simp)

end ProofOfProof.PopData
