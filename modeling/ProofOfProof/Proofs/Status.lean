import Mathlib.Data.Nat.Bitwise
import ProofOfProof.Status

/-! Status words. A word that is accepted has no bit above the flags, and is the word of its
status. -/

namespace ProofOfProof

theorem ValidityLevel.rank_of_ofWord {word : UInt32} {level : ValidityLevel}
    (h : ofWord word = .ok level) : level.rank = word.toNat := by
  rw [ofWord] at h
  cases hget : all[word.toNat]? with
  | none =>
    rw [hget] at h
    cases h
  | some found =>
    rw [hget] at h
    cases h
    have hall : ∀ i, i < 5 → ∀ l ∈ all[i]?, l.rank = i := by decide
    have hlt : word.toNat < all.length := (List.getElem?_eq_some_iff.mp hget).1
    exact hall _ hlt level hget

namespace BlockStatus

/-- The bits that are neither level nor flag are those from the twelfth on. -/
theorem lt_of_foreign {word : UInt32} (h : word &&& 0xfffff800 = 0) : word.toNat < 2048 := by
  have hand : word.toNat &&& 0xfffff800 = 0 := by
    have hh := congrArg UInt32.toNat h
    rwa [UInt32.toNat_and] at hh
  have hquot : (word.toNat &&& 0xfffff800) / 2 ^ 11 = word.toNat / 2 ^ 11 := by
    have hlt := word.toNat_lt
    rw [Nat.and_div_two_pow]
    change word.toNat / 2 ^ 11 &&& (2 ^ 21 - 1) = _
    rw [Nat.and_two_pow_sub_one_eq_mod, Nat.mod_eq_of_lt (by omega)]
  rw [hand] at hquot
  omega

theorem bits_of_ofBits {word : UInt32} {status : BlockStatus} (h : ofBits word = .ok status) :
    status.bits = word := by
  rw [ofBits] at h
  cases hlevel : ValidityLevel.ofWord (word &&& 0xf) with
  | error fault =>
    rw [hlevel] at h
    cases h
  | ok level =>
    rw [hlevel] at h
    by_cases hforeign : word &&& 0xfffff800 = 0
    · have hlt := lt_of_foreign hforeign
      have hrank : level.rank = word.toNat % 16 := by
        rw [ValidityLevel.rank_of_ofWord hlevel, UInt32.toNat_and]
        exact Nat.and_two_pow_sub_one_eq_mod word.toNat 4
      simp only [hforeign, if_true] at h
      cases h
      have hword : word.toNat % 16 + 16 * (word.toNat / 16 % 2 ^ 7) = word.toNat := by omega
      rw [bits, hrank, BitVec.toNat_ofNat, hword, UInt32.ofNat_toNat]
    · simp only [hforeign, if_false] at h
      cases h

theorem ofBits_bits (status : BlockStatus) : ofBits status.bits = .ok status := by
  obtain ⟨level, flags⟩ := status
  have hall : ∀ level ∈ ValidityLevel.all, ∀ flags : BitVec 7,
      ofBits (bits ⟨level, flags⟩) = .ok ⟨level, flags⟩ := by decide +kernel
  exact hall level (by cases level <;> decide) flags

end BlockStatus

end ProofOfProof
