import Mathlib.Algebra.Ring.Nat
import Mathlib.Data.List.Chain
import Mathlib.Data.List.Dedup
import ProofOfProof.Payouts

/-! Crediting destinations. However often amounts are cut at the greatest one along the way, what a
destination is owed is the exact sum of its credits cut once, and so is the total of all. The order
of the credits does not matter. -/

namespace ProofOfProof

theorem toNat_addSaturating (a b : UInt64) :
    (addSaturating a b).toNat = min (2 ^ 64 - 1) (a.toNat + b.toNat) := by
  by_cases h : a.toNat + b.toNat < UInt64.size
  · have hto := UInt64.toNat_ofNat_of_lt' h
    rw [UInt64.size] at h
    simp only [addSaturating, UInt64.size, h, if_true] at hto ⊢
    omega
  · rw [UInt64.size] at h
    simp only [addSaturating, UInt64.size, h, if_false]
    rw [UInt64.toNat_ofNat_of_lt' (by decide)]
    omega

theorem addSaturating_zero (amount : UInt64) : addSaturating 0 amount = amount := by
  have hlt := amount.toNat_lt
  apply UInt64.toNat_inj.mp
  rw [toNat_addSaturating, UInt64.toNat_zero]
  omega

namespace Payouts

variable {entries other : List Entry} {info key : Bytes} {amount : UInt64}

section Order

theorem ascends_iff_pairwise :
    ascends entries = true ↔ (entries.map Prod.fst).Pairwise (· < ·) := by
  rw [← List.isChain_iff_pairwise]
  induction entries with
  | nil => simp [ascends]
  | cons a entries ih => simp [ascends_cons_iff, List.isChain_cons, ih]

theorem nodup_destinations (h : ascends entries = true) : (entries.map Prod.fst).Nodup := by
  refine (ascends_iff_pairwise.mp h).imp ?_
  rintro a b hlt rfl
  exact Std.lt_irrefl hlt

/-- What comes before the first destination comes before all of them. -/
theorem not_mem_of_lt {entry : Entry} (h : ascends (entry :: entries) = true)
    (hlt : info < entry.1) : info ∉ (entry :: entries).map Prod.fst := by
  intro hm
  have hp := List.pairwise_cons.mp (ascends_iff_pairwise.mp h)
  rcases List.mem_cons.mp hm with he | hm
  · rw [he] at hlt
    exact Std.lt_irrefl hlt
  · exact Std.lt_irrefl (Std.lt_trans hlt (hp.1 info hm))

theorem credit_of_last (h : ∀ entry ∈ entries, entry.1 < info) :
    credit info amount entries = entries ++ [(info, amount)] := by
  induction entries with
  | nil => rfl
  | cons entry entries ih =>
    obtain ⟨hentry, hrest⟩ := List.forall_mem_cons.mp h
    have hbefore : ¬ info < entry.1 := fun hlt => Std.lt_irrefl (Std.lt_trans hlt hentry)
    have hne : info ≠ entry.1 := fun he => Std.lt_irrefl (he ▸ hentry)
    rw [credit, if_neg hbefore, if_neg hne, ih hrest, List.cons_append]

end Order

section Lookup

theorem lookup_cons (entry : Entry) (entries : List Entry) (key : Bytes) :
    (entry :: entries).lookup key = if key = entry.1 then some entry.2 else entries.lookup key := by
  by_cases hk : key = entry.1
  · subst hk
    rw [List.lookup_cons, beq_self_eq_true, if_pos rfl]
  · have hb : (key == entry.1) = false := by simpa using hk
    rw [List.lookup_cons, hb, if_neg hk]

theorem mem_destinations_iff :
    info ∈ entries.map Prod.fst ↔ (entries.lookup info).isSome = true := by
  induction entries with
  | nil => simp
  | cons entry entries ih =>
    rw [List.map_cons, List.mem_cons, ih, lookup_cons]
    by_cases hi : info = entry.1 <;> simp [hi]

theorem lookup_eq_none (h : info ∉ entries.map Prod.fst) : entries.lookup info = none :=
  Option.not_isSome_iff_eq_none.mp (mem_destinations_iff.not.mp h)

theorem mem_iff_lookup (h : (entries.map Prod.fst).Nodup) :
    (info, amount) ∈ entries ↔ entries.lookup info = some amount := by
  induction entries with
  | nil => simp
  | cons entry entries ih =>
    obtain ⟨hnew, hnodup⟩ := List.nodup_cons.mp h
    rw [List.mem_cons, ih hnodup, lookup_cons, Prod.ext_iff]
    by_cases hi : info = entry.1
    · subst hi
      simp [lookup_eq_none hnew, eq_comm]
    · simp [hi]

/-- An ascending list is known from what it says of each destination. -/
theorem eq_of_lookup (h : ascends entries = true) (ho : ascends other = true)
    (he : ∀ info, entries.lookup info = other.lookup info) : entries = other := by
  have hnodup := nodup_destinations h
  have hnodup' := nodup_destinations ho
  have hperm : entries.Perm other := by
    refine (List.perm_ext_iff_of_nodup hnodup.of_map hnodup'.of_map).mpr ?_
    rintro ⟨info, amount⟩
    rw [mem_iff_lookup hnodup, mem_iff_lookup hnodup', he]
  -- both lists hold the same entries, and there is one ascending order of them
  have hp := List.pairwise_map.mp (ascends_iff_pairwise.mp h)
  have hp' := List.pairwise_map.mp (ascends_iff_pairwise.mp ho)
  refine hperm.eq_of_pairwise ?_ hp hp'
  intro a b _ _ hlt hgt
  exact absurd (Std.lt_trans hlt hgt) Std.lt_irrefl

theorem lookup_credit (h : ascends entries = true) :
    (credit info amount entries).lookup key =
      if key = info then some (addSaturating ((entries.lookup info).getD 0) amount)
      else entries.lookup key := by
  induction entries with
  | nil => simp [credit, lookup_cons, addSaturating_zero]
  | cons entry entries ih =>
    have hrest := (ascends_cons_iff.mp h).2
    by_cases hbefore : info < entry.1
    · rw [lookup_eq_none (not_mem_of_lt h hbefore)]
      simp [credit, hbefore, lookup_cons _ (entry :: entries), addSaturating_zero]
    · by_cases heq : info = entry.1
      · subst heq
        by_cases hk : key = entry.1 <;> simp [credit, hbefore, lookup_cons, hk]
      · by_cases hk : key = entry.1
        · subst hk
          simp [credit, hbefore, heq, lookup_cons, Ne.symm heq]
        · simp [credit, hbefore, heq, lookup_cons, hk, ih hrest]

end Lookup

section Sums

def exactSum (entries : List Entry) : Nat := (entries.map fun entry => entry.2.toNat).sum

def exactSumFor (info : Bytes) (credits : List Entry) : Nat :=
  exactSum (credits.filter fun credit => credit.1 = info)

theorem exactSum_cons (entry : Entry) (entries : List Entry) :
    exactSum (entry :: entries) = entry.2.toNat + exactSum entries := by
  simp [exactSum]

theorem exactSumFor_cons (info : Bytes) (credit : Entry) (credits : List Entry) :
    exactSumFor info (credit :: credits) =
      (if credit.1 = info then credit.2.toNat else 0) + exactSumFor info credits := by
  by_cases h : credit.1 = info <;> simp [exactSumFor, h, exactSum_cons]

theorem exactSum_perm (h : entries.Perm other) : exactSum entries = exactSum other :=
  (h.map _).sum_nat

theorem toNat_foldl_addSaturating (start : UInt64) (entries : List Entry) :
    (entries.foldl (fun total entry => addSaturating total entry.2) start).toNat =
      min (2 ^ 64 - 1) (start.toNat + exactSum entries) := by
  induction entries generalizing start with
  | nil =>
    have hlt := start.toNat_lt
    simp only [List.foldl_nil, exactSum, List.map_nil, List.sum_nil]
    omega
  | cons entry entries ih =>
    rw [List.foldl_cons, ih, toNat_addSaturating, exactSum_cons]
    omega

/-- Crediting adds its amount to the sum, as far as the cut total can tell. -/
theorem min_exactSum_credit (info : Bytes) (amount : UInt64) (entries : List Entry) :
    min (2 ^ 64 - 1) (exactSum (credit info amount entries)) =
      min (2 ^ 64 - 1) (exactSum entries + amount.toNat) := by
  induction entries with
  | nil => simp [credit, exactSum]
  | cons entry entries ih =>
    rw [credit]
    by_cases hbefore : info < entry.1
    · simp only [hbefore, if_true, exactSum_cons]
      omega
    · by_cases heq : info = entry.1
      · subst heq
        simp only [hbefore, if_true, if_false, exactSum_cons, toNat_addSaturating]
        omega
      · simp only [hbefore, heq, if_false, exactSum_cons]
        omega

end Sums

section Runs

def addAll (payouts : Payouts) (credits : List Entry) : Payouts :=
  credits.foldl (fun payouts credit => payouts.add credit.1 credit.2) payouts

theorem addAll_cons (payouts : Payouts) (credit : Entry) (credits : List Entry) :
    payouts.addAll (credit :: credits) = (payouts.add credit.1 credit.2).addAll credits := rfl

/-- Ascending entries are credited one behind the other, and none is merged with another. -/
theorem entries_addAll {payouts : Payouts} {credits : List Entry}
    (h : ascends (payouts.entries ++ credits) = true) :
    (payouts.addAll credits).entries = payouts.entries ++ credits := by
  induction credits generalizing payouts with
  | nil => simp [addAll]
  | cons last credits ih =>
    have hpairs := List.pairwise_map.mp (ascends_iff_pairwise.mp h)
    have hlast : ∀ entry ∈ payouts.entries, entry.1 < last.1 := fun entry hentry =>
      (List.pairwise_append.mp hpairs).2.2 entry hentry last List.mem_cons_self
    have hadd : (payouts.add last.1 last.2).entries = payouts.entries ++ [last] :=
      credit_of_last hlast
    have hsplit : payouts.entries ++ last :: credits =
        (payouts.add last.1 last.2).entries ++ credits := by
      rw [hadd, List.append_assoc, List.singleton_append]
    rw [hsplit] at h ⊢
    exact ih h

theorem get?_add (payouts : Payouts) (info key : Bytes) (amount : UInt64) :
    (payouts.add info amount).get? key =
      if key = info then some (addSaturating ((payouts.get? info).getD 0) amount)
      else payouts.get? key :=
  lookup_credit payouts.ascending

/-- What a destination is owed, which is nothing where it was never credited. -/
def owed (payouts : Payouts) (info : Bytes) : Nat := ((payouts.get? info).getD 0).toNat

theorem owed_add (payouts : Payouts) (info key : Bytes) (amount : UInt64) :
    (payouts.add info amount).owed key =
      if key = info then min (2 ^ 64 - 1) (payouts.owed key + amount.toNat)
      else payouts.owed key := by
  rw [owed, get?_add]
  by_cases hk : key = info
  · simp [hk, owed, toNat_addSaturating]
  · simp [hk, owed]

theorem owed_addAll (payouts : Payouts) (credits : List Entry) (key : Bytes) :
    (payouts.addAll credits).owed key =
      min (2 ^ 64 - 1) (payouts.owed key + exactSumFor key credits) := by
  induction credits generalizing payouts with
  | nil =>
    have hlt := ((payouts.get? key).getD 0).toNat_lt
    change payouts.owed key < _ at hlt
    change payouts.owed key = min _ (payouts.owed key + 0)
    omega
  | cons credit credits ih =>
    rw [addAll_cons, ih, owed_add, exactSumFor_cons]
    by_cases hk : key = credit.1
    · simp only [hk, if_true]
      omega
    · simp only [hk, Ne.symm hk, if_false]
      omega

theorem isSome_get?_addAll (payouts : Payouts) (credits : List Entry) (key : Bytes) :
    ((payouts.addAll credits).get? key).isSome = true ↔
      (payouts.get? key).isSome = true ∨ key ∈ credits.map Prod.fst := by
  induction credits generalizing payouts with
  | nil => simp [addAll]
  | cons credit credits ih =>
    rw [addAll_cons, ih, get?_add, List.map_cons, List.mem_cons]
    by_cases hk : key = credit.1 <;> simp [hk]

theorem min_exactSum_addAll (payouts : Payouts) (credits : List Entry) :
    min (2 ^ 64 - 1) (exactSum (payouts.addAll credits).entries) =
      min (2 ^ 64 - 1) (exactSum payouts.entries + exactSum credits) := by
  induction credits generalizing payouts with
  | nil => simp [addAll, exactSum]
  | cons credit credits ih =>
    have hcredit := min_exactSum_credit credit.1 credit.2 payouts.entries
    rw [addAll_cons, ih, exactSum_cons, add]
    dsimp only
    omega

theorem get?_addAll_empty (credits : List Entry) (key : Bytes) :
    ((empty.addAll credits).get? key).map UInt64.toNat =
      if key ∈ credits.map Prod.fst then some (min (2 ^ 64 - 1) (exactSumFor key credits))
      else none := by
  have howed := owed_addAll empty credits key
  have hsome := isSome_get?_addAll empty credits key
  have hempty : empty.get? key = none := rfl
  simp only [owed, hempty] at howed hsome
  cases h : (empty.addAll credits).get? key with
  | none => simpa [h] using hsome
  | some amount =>
    have hm : key ∈ credits.map Prod.fst := by simpa [h] using hsome
    rw [h] at howed
    rw [if_pos hm, Option.map_some]
    simpa using howed

theorem eq_of_get? {payouts other : Payouts} (h : ∀ info, payouts.get? info = other.get? info) :
    payouts = other := by
  obtain ⟨entries, ascending⟩ := payouts
  obtain ⟨entries', ascending'⟩ := other
  have he : entries = entries' := eq_of_lookup ascending ascending' h
  subst he
  rfl

theorem addAll_perm {credits other : List Entry} (h : credits.Perm other) :
    empty.addAll credits = empty.addAll other := by
  refine eq_of_get? fun key => ?_
  have hm : key ∈ credits.map Prod.fst ↔ key ∈ other.map Prod.fst := (h.map _).mem_iff
  have hsum : exactSumFor key credits = exactSumFor key other := exactSum_perm (h.filter _)
  have hmap : ((empty.addAll credits).get? key).map UInt64.toNat =
      ((empty.addAll other).get? key).map UInt64.toNat := by
    simp only [get?_addAll_empty, hm, hsum]
  exact Option.map_injective (fun _ _ => UInt64.toNat_inj.mp) hmap

/-- Credits that are taken in another order at once. -/
theorem ofCredits_eq_addAll (credits : List Entry) : ofCredits credits = empty.addAll credits := by
  rw [ofCredits, ← List.foldl_reverse]
  exact addAll_perm ((List.reverse_perm _).trans (List.mergeSort_perm credits _))

theorem size_addAll_empty (credits : List Entry) :
    (empty.addAll credits).size = (credits.map Prod.fst).dedup.length := by
  have hnodup := nodup_destinations (empty.addAll credits).ascending
  have hperm : ((empty.addAll credits).entries.map Prod.fst).Perm
      (credits.map Prod.fst).dedup := by
    refine (List.perm_ext_iff_of_nodup hnodup (List.nodup_dedup _)).mpr fun key => ?_
    rw [List.mem_dedup, mem_destinations_iff]
    have hsome := isSome_get?_addAll empty credits key
    simpa [get?, empty] using hsome
  simpa [size] using hperm.length_eq

/-- After any credits, in any order, each destination is owed what it was credited with, and the
total is what all were, both cut at the greatest amount. -/
theorem payouts_of_credits (credits : List Entry) :
    let payouts := empty.addAll credits
    (∀ info, (payouts.get? info).map UInt64.toNat =
      if info ∈ credits.map Prod.fst then some (min (2 ^ 64 - 1) (exactSumFor info credits))
      else none) ∧
    payouts.size = (credits.map Prod.fst).dedup.length ∧
    payouts.total.toNat = min (2 ^ 64 - 1) (exactSum credits) ∧
    (∀ info amount, (info, amount) ∈ payouts.entries ↔ payouts.get? info = some amount) ∧
    (payouts.entries.map Prod.fst).Pairwise (· < ·) ∧
    (∀ other, credits.Perm other → empty.addAll other = payouts) ∧
    ofCredits credits = payouts := by
  intro payouts
  have hnodup := nodup_destinations payouts.ascending
  have htotal : payouts.total.toNat = min (2 ^ 64 - 1) (exactSum credits) := by
    have hsum := min_exactSum_addAll empty credits
    have hfold := toNat_foldl_addSaturating 0 payouts.entries
    have hempty : exactSum empty.entries = 0 := rfl
    rw [hempty, Nat.zero_add] at hsum
    rw [UInt64.toNat_zero, Nat.zero_add, hsum] at hfold
    exact hfold
  refine ⟨get?_addAll_empty credits, size_addAll_empty credits, htotal, ?_,
    ascends_iff_pairwise.mp payouts.ascending, ?_, ofCredits_eq_addAll credits⟩
  · exact fun info amount => mem_iff_lookup hnodup
  · exact fun other h => addAll_perm h.symm

/-- Two credits that pass the greatest amount together, with another between them. -/
def overflowing : List Entry := [([2], 18446744073709551615), ([1], 5), ([2], 7)]

theorem payouts_of_credits_overflowing :
    ((empty.addAll overflowing).get? [2]).map UInt64.toNat = some 18446744073709551615 ∧
    (empty.addAll overflowing).total.toNat = 18446744073709551615 ∧
    overflowing.Perm overflowing.reverse ∧
    empty.addAll overflowing.reverse = empty.addAll overflowing := by
  obtain ⟨howed, -, htotal, -, -, hperm, -⟩ := payouts_of_credits overflowing
  have hreverse : overflowing.Perm overflowing.reverse := (List.reverse_perm overflowing).symm
  exact ⟨(howed [2]).trans (by decide), htotal.trans (by decide), hreverse, hperm _ hreverse⟩

end Runs

end Payouts
end ProofOfProof
