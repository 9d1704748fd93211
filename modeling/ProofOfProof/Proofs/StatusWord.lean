import ProofOfProof.Proofs.Status

/-! Operations on a status. A status is a level and flags; on the word that stands for it, an
operation sets and clears bits. -/

namespace ProofOfProof

inductive StatusStep
  | set (flag : StatusFlag)
  | unset (flag : StatusFlag)
  | raise (level : ValidityLevel)
  | lower (level : ValidityLevel)
  deriving DecidableEq, Repr

/-- A refused change of the level leaves the status as it is. -/
def BlockStatus.apply (status : BlockStatus) : StatusStep → BlockStatus
  | .set flag => status.set flag
  | .unset flag => status.unset flag
  | .raise level => (status.raise? level).getD status
  | .lower level => (status.lower? level).getD status

namespace StatusWord

def level (word : UInt32) : ValidityLevel :=
  (ValidityLevel.ofWord (word &&& 0xf)).toOption.getD .unknown

def has (word : UInt32) (flag : StatusFlag) : Bool := word &&& flag.bits ≠ 0

def setLevel (word : UInt32) (level : ValidityLevel) : UInt32 :=
  (word &&& ~~~0xf) ||| UInt32.ofNat level.rank

/-- The operations on a word, which only look at the bits that they are about. -/
def apply (word : UInt32) : StatusStep → UInt32
  | .set flag => word ||| flag.bits
  | .unset flag => word &&& ~~~flag.bits
  | .raise new =>
    if has word .failedPop ∨ new.rank ≤ (level word).rank then word else setLevel word new
  | .lower new =>
    if has word .failedPop ∨ (level word).rank ≤ new.rank then word else setLevel word new

/-- The word of some flags and the bits of a level. -/
def ofFields (flags : BitVec 7) (rank : BitVec 4) : UInt32 := ⟨0#21 ++ flags ++ rank⟩

variable (flags mask : BitVec 7) (rank low : BitVec 4)

theorem or_ofFields :
    ofFields flags rank ||| ofFields mask low = ofFields (flags ||| mask) (rank ||| low) := by
  rw [ofFields, ofFields, ← UInt32.ofBitVec_or, BitVec.or_append, BitVec.or_append, BitVec.or_zero]
  rfl

theorem and_ofFields :
    ofFields flags rank &&& ofFields mask low = ofFields (flags &&& mask) (rank &&& low) := by
  rw [ofFields, ofFields, ← UInt32.ofBitVec_and, BitVec.and_append, BitVec.and_append,
    BitVec.and_zero]
  rfl

theorem and_not_ofFields : ofFields flags rank &&& ~~~ofFields mask low =
    ofFields (flags &&& ~~~mask) (rank &&& ~~~low) := by
  rw [ofFields, ofFields, ← UInt32.ofBitVec_not, ← UInt32.ofBitVec_and, BitVec.not_append,
    BitVec.not_append, BitVec.and_append, BitVec.and_append, BitVec.zero_and]
  rfl

theorem toNat_ofFields : (ofFields flags rank).toNat = rank.toNat + 16 * flags.toNat := by
  change (0#21 ++ flags ++ rank).toNat = _
  have hlt := rank.isLt
  rw [BitVec.toNat_append, BitVec.toNat_append, ← Nat.shiftLeft_add_eq_or_of_lt hlt]
  simp [Nat.shiftLeft_eq]
  omega

theorem lowBits_eq : (0xf : UInt32) = ofFields 0#7 (BitVec.allOnes 4) := rfl

theorem ofFields_eq_zero_iff : ofFields flags 0#4 = 0 ↔ flags = 0#7 := by
  rw [← UInt32.toNat_inj, toNat_ofFields, ← BitVec.toNat_inj]
  simp

end StatusWord

open StatusWord

def ValidityLevel.field (level : ValidityLevel) : BitVec 4 := BitVec.ofNat 4 level.rank

theorem ValidityLevel.toNat_field (level : ValidityLevel) : level.field.toNat = level.rank := by
  cases level <;> rfl

theorem ValidityLevel.ofWord_field (level : ValidityLevel) :
    ofWord (ofFields 0#7 level.field) = .ok level := by
  cases level <;> rfl

theorem StatusFlag.bits_eq (flag : StatusFlag) : flag.bits = ofFields flag.mask 0#4 := by
  cases flag <;> rfl

namespace BlockStatus

theorem bits_eq (status : BlockStatus) :
    status.bits = ofFields status.flags status.level.field := by
  have hr : status.level.rank < 16 := by cases status.level <;> decide
  have hf := status.flags.isLt
  rw [← UInt32.toNat_inj, toNat_ofFields, ValidityLevel.toNat_field, bits]
  exact Nat.mod_eq_of_lt (by omega)

variable (status : BlockStatus) (flag : StatusFlag) (new : ValidityLevel)

theorem level_bits : StatusWord.level status.bits = status.level := by
  rw [StatusWord.level, bits_eq, lowBits_eq, and_ofFields, BitVec.and_zero, BitVec.and_allOnes,
    ValidityLevel.ofWord_field]
  rfl

theorem has_bits : StatusWord.has status.bits flag = status.has flag := by
  have hmask : BitVec.twoPow 7 flag.index ≠ 0#7 := by cases flag <;> decide
  have hword : status.bits &&& flag.bits = 0 ↔ ¬ status.has flag = true := by
    rw [bits_eq, StatusFlag.bits_eq, and_ofFields, BitVec.and_zero, ofFields_eq_zero_iff,
      StatusFlag.mask, BitVec.and_twoPow, has]
    by_cases h : status.flags.getLsbD flag.index = true
    · simp only [h, if_true, hmask, not_true]
    · rw [if_neg h]
      exact iff_of_true rfl h
  rw [StatusWord.has, Bool.eq_iff_iff, decide_eq_true_iff, ne_eq, hword, not_not]

theorem bits_setLevel : ({ status with level := new } : BlockStatus).bits =
    StatusWord.setLevel status.bits new := by
  have hrank : UInt32.ofNat new.rank = ofFields 0#7 new.field := by cases new <;> rfl
  rw [StatusWord.setLevel, bits_eq, bits_eq, lowBits_eq, hrank, and_not_ofFields, or_ofFields,
    BitVec.not_zero, BitVec.and_allOnes, BitVec.or_zero, BitVec.not_allOnes, BitVec.and_zero,
    BitVec.zero_or]

/-- What an operation does to a status, it does to the word of the status. -/
theorem bits_apply (step : StatusStep) :
    (status.apply step).bits = StatusWord.apply status.bits step := by
  cases step with
  | set flag =>
    rw [apply, StatusWord.apply, set, bits_eq, bits_eq, StatusFlag.bits_eq, or_ofFields,
      BitVec.or_zero]
  | unset flag =>
    rw [apply, StatusWord.apply, unset, bits_eq, bits_eq, StatusFlag.bits_eq, and_not_ofFields,
      BitVec.not_zero, BitVec.and_allOnes]
  | raise new =>
    rw [apply, StatusWord.apply, raise?, has_bits, level_bits, ← bits_setLevel]
    by_cases h : status.has .failedPop ∨ new.rank ≤ status.level.rank
    · rw [if_pos h, if_pos h, Option.getD_none]
    · rw [if_neg h, if_neg h, Option.getD_some]
  | lower new =>
    rw [apply, StatusWord.apply, lower?, has_bits, level_bits, ← bits_setLevel]
    by_cases h : status.has .failedPop ∨ status.level.rank ≤ new.rank
    · rw [if_pos h, if_pos h, Option.getD_none]
    · rw [if_neg h, if_neg h, Option.getD_some]

end BlockStatus

end ProofOfProof
