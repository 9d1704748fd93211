import Mathlib.Algebra.Ring.Nat
import Mathlib.Data.List.Induction
import ProofOfProof.Bytes

/-! What the bytes of a number spell, and which numeral is the shortest one. A fixed width keeps a
number up to a power of 256; trimming keeps the number and loses only leading zeros. -/

namespace ProofOfProof

theorem ofBigEndian_bigEndian (width n : Nat) :
    ofBigEndian (bigEndian width n) = n % 256 ^ width := by
  induction width generalizing n with
  | zero => simp [bigEndian, ofBigEndian, Nat.mod_one]
  | succ width ih =>
    have byte : (UInt8.ofNat n).toNat = n % 256 := by simp
    rw [bigEndian, ofBigEndian_append_singleton, ih, byte, Nat.pow_succ,
      Nat.mul_comm (256 ^ width) 256, Nat.mod_mul]
    omega

theorem ofLittleEndian_littleEndian (width n : Nat) :
    ofLittleEndian (littleEndian width n) = n % 256 ^ width := by
  simp [ofLittleEndian, littleEndian, ofBigEndian_bigEndian]

theorem ofBigEndian_lt (bytes : Bytes) : ofBigEndian bytes < 256 ^ bytes.length := by
  induction bytes using List.reverseRecOn with
  | nil => simp [ofBigEndian]
  | append_singleton bytes b ih =>
    have hb := b.toNat_lt
    rw [ofBigEndian_append_singleton, List.length_append, List.length_singleton, Nat.pow_succ]
    omega

theorem bigEndian_ofBigEndian (bytes : Bytes) :
    bigEndian bytes.length (ofBigEndian bytes) = bytes := by
  induction bytes using List.reverseRecOn with
  | nil => rfl
  | append_singleton bytes b ih =>
    have hb := b.toNat_lt
    have hdiv : (ofBigEndian bytes * 256 + b.toNat) / 256 = ofBigEndian bytes := by omega
    have hlow : UInt8.ofNat (ofBigEndian bytes * 256 + b.toNat) = b := by
      apply UInt8.toNat_inj.mp
      simp only [UInt8.toNat_ofNat']
      omega
    rw [List.length_append, List.length_singleton, bigEndian, ofBigEndian_append_singleton, hdiv,
      ih, hlow]

/-- A number that fits fewer bytes fills the others with zeros. -/
theorem bigEndian_add {width n : Nat} (h : n < 256 ^ width) (more : Nat) :
    bigEndian (more + width) n = List.replicate more 0 ++ bigEndian width n := by
  induction width generalizing n with
  | zero =>
    obtain rfl : n = 0 := by simpa using h
    induction more with
    | zero => rfl
    | succ more ih =>
      simp only [Nat.add_zero, bigEndian, List.append_nil] at ih ⊢
      rw [Nat.zero_div, ih, List.replicate_succ']
      rfl
  | succ width ih =>
    have hlt : n / 256 < 256 ^ width := by
      rw [Nat.pow_succ] at h
      omega
    rw [← Nat.add_assoc, bigEndian, ih hlt, bigEndian, List.append_assoc]

theorem ofBigEndian_cons (b : UInt8) (bytes : Bytes) :
    ofBigEndian (b :: bytes) = b.toNat * 256 ^ bytes.length + ofBigEndian bytes := by
  induction bytes using List.reverseRecOn with
  | nil => simp [ofBigEndian]
  | append_singleton bytes c ih =>
    rw [← List.cons_append, ofBigEndian_append_singleton, ih, ofBigEndian_append_singleton,
      List.length_append, List.length_singleton, Nat.pow_succ, Nat.add_mul, Nat.mul_assoc,
      Nat.add_assoc]

theorem ofBigEndian_cons_zero (bytes : Bytes) : ofBigEndian (0 :: bytes) = ofBigEndian bytes := by
  simp [ofBigEndian]

theorem ofBigEndian_replicate_append (zeros : Nat) (bytes : Bytes) :
    ofBigEndian (List.replicate zeros 0 ++ bytes) = ofBigEndian bytes := by
  induction zeros with
  | zero => rfl
  | succ zeros ih => rw [List.replicate_succ, List.cons_append, ofBigEndian_cons_zero, ih]

theorem ofBigEndian_trim (bytes : Bytes) : ofBigEndian (trim bytes) = ofBigEndian bytes := by
  fun_induction trim bytes with
  | case1 b bytes ih => rw [ih, ofBigEndian_cons_zero]
  | case2 bytes h => rfl

theorem length_trim_le (bytes : Bytes) : (trim bytes).length ≤ bytes.length := by
  fun_induction trim bytes with
  | case1 b bytes ih =>
    simp only [List.length_cons] at ih ⊢
    omega
  | case2 bytes h => exact Nat.le_refl _

theorem trim_ne_nil {bytes : Bytes} (h : bytes ≠ []) : trim bytes ≠ [] := by
  fun_induction trim bytes with
  | case1 b bytes ih => exact ih (by simp)
  | case2 bytes => exact h

theorem trim_replicate_append {bytes : Bytes} (h : bytes ≠ []) (zeros : Nat) :
    trim (List.replicate zeros 0 ++ bytes) = trim bytes := by
  induction zeros with
  | zero => rfl
  | succ zeros ih =>
    rw [List.replicate_succ, List.cons_append]
    cases hc : List.replicate zeros 0 ++ bytes with
    | nil => simp [h] at hc
    | cons b rest => rw [trim, ← hc, ih]

theorem trim_trim (bytes : Bytes) : trim (trim bytes) = trim bytes := by
  fun_induction trim bytes with
  | case1 b bytes ih => exact ih
  | case2 bytes h => rw [trim.eq_2 bytes h]

theorem isTrimmed_iff {bytes : Bytes} :
    isTrimmed bytes = true ↔ bytes ≠ [] ∧ trim bytes = bytes := by
  simp [isTrimmed]

theorem ofBigEndian_trimmed (width n : Nat) : ofBigEndian (trimmed width n) = n % 256 ^ width := by
  rw [trimmed, ofBigEndian_trim, ofBigEndian_bigEndian]

theorem length_trimmed_le (width n : Nat) : (trimmed width n).length ≤ width := by
  simpa [trimmed] using length_trim_le (bigEndian width n)

theorem bigEndian_ne_nil {width : Nat} (h : 0 < width) (n : Nat) : bigEndian width n ≠ [] := by
  apply List.ne_nil_of_length_pos
  rwa [length_bigEndian]

theorem isTrimmed_trimmed {width : Nat} (h : 0 < width) (n : Nat) :
    isTrimmed (trimmed width n) = true :=
  isTrimmed_iff.mpr ⟨trim_ne_nil (bigEndian_ne_nil h n), trim_trim _⟩

theorem trimmed_add {width n : Nat} (h : n < 256 ^ width) (hw : 0 < width) (more : Nat) :
    trimmed (more + width) n = trimmed width n := by
  rw [trimmed, bigEndian_add h, trim_replicate_append (bigEndian_ne_nil hw n), trimmed]

theorem trimmed_zero {width : Nat} (h : 0 < width) : trimmed width 0 = [0] := by
  obtain ⟨more, rfl⟩ : ∃ more, width = more + 1 := ⟨width - 1, by omega⟩
  rw [trimmed_add (by simp) (by omega)]
  rfl

/-- A number below a power of 256 needs no more bytes than the exponent says. -/
theorem length_trimmed_le_of_lt {width least n : Nat} (h : n < 256 ^ least) (hl : 0 < least)
    (hw : least ≤ width) : (trimmed width n).length ≤ least := by
  obtain ⟨more, rfl⟩ : ∃ more, width = more + least := ⟨width - least, by omega⟩
  rw [trimmed_add h hl]
  exact length_trimmed_le least n

theorem trimmed_ofBigEndian {width : Nat} {bytes : Bytes} (h : bytes ≠ [])
    (hw : bytes.length ≤ width) : trimmed width (ofBigEndian bytes) = trim bytes := by
  obtain ⟨more, hm⟩ : ∃ more, width = more + bytes.length := ⟨width - bytes.length, by omega⟩
  rw [hm, trimmed_add (ofBigEndian_lt bytes) (List.length_pos_iff.mpr h), trimmed,
    bigEndian_ofBigEndian]

/-- Trimming gives back every numeral that was the shortest one. -/
theorem trimmed_ofBigEndian_of_isTrimmed {width : Nat} {bytes : Bytes}
    (h : isTrimmed bytes = true) (hw : bytes.length ≤ width) :
    trimmed width (ofBigEndian bytes) = bytes := by
  obtain ⟨hne, ht⟩ := isTrimmed_iff.mp h
  rw [trimmed_ofBigEndian hne hw, ht]

theorem length_trimmed_ofBigEndian_le {width : Nat} (h : 0 < width) {bytes : Bytes}
    (hw : bytes.length ≤ width) :
    (trimmed width (ofBigEndian bytes)).length ≤ max 1 bytes.length := by
  by_cases hne : bytes = []
  · subst hne
    simp [ofBigEndian, trimmed_zero h]
  · rw [trimmed_ofBigEndian hne hw]
    have hh := length_trim_le bytes
    omega

end ProofOfProof
