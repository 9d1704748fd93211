import ProofOfProof.Proofs.Correspondence
import ProofOfProof.Wire.Integer

/-! Words and integers, read and written. A reader takes any padding of an integer and says what it
was; a writer gives the shortest numeral, which every reader of the field takes. -/

namespace ProofOfProof

variable {spelling : Spelling} {input rest : Bytes}

section Words

/-! Fields of a fixed width, which have one spelling each. -/

theorem Reader.Inverts.byte (b : UInt8) : Reader.byte.Inverts (Writer.byte b) b :=
  emit fun _ _ => byte_eq_ok.mpr rfl

theorem Reader.Inverts.take {n : Nat} (field : Fixed n) :
    (Reader.take n).Inverts (Writer.emit field.val) field :=
  emit fun _ _ => take_eq_ok.mpr rfl

theorem Reader.Inverts.uint32 (n : UInt32) : Reader.uint32.Inverts (Writer.uint32 n) n :=
  emit fun _ _ => uint32_eq_ok.mpr rfl

theorem Reader.Inverts.uint64 (n : UInt64) : Reader.uint64.Inverts (Writer.uint64 n) n :=
  emit fun _ _ => uint64_eq_ok.mpr rfl

theorem Reader.Inverts.int16 (n : Int16) : Reader.int16.Inverts (Writer.int16 n) n :=
  emit fun _ _ => int16_eq_ok.mpr rfl

theorem Reader.Inverts.int32 (n : Int32) : Reader.int32.Inverts (Writer.int32 n) n :=
  emit fun _ _ => int32_eq_ok.mpr rfl

theorem Reader.Inverts.uint32LE (n : UInt32) : Reader.uint32LE.Inverts (Writer.uint32LE n) n :=
  emit fun _ _ => uint32LE_eq_ok.mpr rfl

variable {faithful : Prop}

theorem Writer.Restores.byte {b : UInt8} (h : Reader.byte spelling input = .ok b rest) :
    (Writer.byte b).Restores faithful input rest :=
  emit (Reader.byte_eq_ok.mp h)

theorem Writer.Restores.take {n : Nat} {field : Fixed n}
    (h : Reader.take n spelling input = .ok field rest) :
    (Writer.emit field.val).Restores faithful input rest :=
  emit (Reader.take_eq_ok.mp h)

theorem Writer.Restores.uint32 {n : UInt32} (h : Reader.uint32 spelling input = .ok n rest) :
    (Writer.uint32 n).Restores faithful input rest :=
  emit (Reader.uint32_eq_ok.mp h)

theorem Writer.Restores.uint64 {n : UInt64} (h : Reader.uint64 spelling input = .ok n rest) :
    (Writer.uint64 n).Restores faithful input rest :=
  emit (Reader.uint64_eq_ok.mp h)

theorem Writer.Restores.int16 {n : Int16} (h : Reader.int16 spelling input = .ok n rest) :
    (Writer.int16 n).Restores faithful input rest :=
  emit (Reader.int16_eq_ok.mp h)

theorem Writer.Restores.int32 {n : Int32} (h : Reader.int32 spelling input = .ok n rest) :
    (Writer.int32 n).Restores faithful input rest :=
  emit (Reader.int32_eq_ok.mp h)

theorem Writer.Restores.uint32LE {n : UInt32} (h : Reader.uint32LE spelling input = .ok n rest) :
    (Writer.uint32LE n).Restores faithful input rest :=
  emit (Reader.uint32LE_eq_ok.mp h)

end Words

theorem toNat_ofNat_byte {n : Nat} (h : n < 256) : (UInt8.ofNat n).toNat = n :=
  UInt8.toNat_ofNat_of_lt' h

theorem Reader.numeral_eq_ok {what : String} {width : Nat} (hw : width < 256)
    {isWritten : Bytes → Bool} {n : Nat} :
    numeral what width isWritten spelling input = .ok n rest ↔
      ∃ digits : Bytes, digits.length ≤ width ∧ (spelling = .written → isWritten digits = true) ∧
        input = UInt8.ofNat digits.length :: (digits ++ rest) ∧ ofBigEndian digits = n := by
  simp only [numeral, bind_eq_ok, byte_eq_ok, check_eq_ok, checkRange_eq_ok_iff, bytes_eq_ok,
    checkSpelling_eq_ok, pure_eq_ok]
  constructor
  · rintro ⟨length, _, rfl, _, _, ⟨hr, rfl⟩, digits, _, ⟨hlen, rfl⟩, _, _, ⟨hs, rfl⟩, hn, rfl⟩
    refine ⟨digits, by omega, hs, ?_, hn⟩
    rw [hlen, UInt8.ofNat_toNat]
  · rintro ⟨digits, hlen, hs, rfl, hn⟩
    have hto : (UInt8.ofNat digits.length).toNat = digits.length := toNat_ofNat_byte (by omega)
    refine ⟨_, _, rfl, (), _, ⟨?_, rfl⟩, digits, rest, ⟨hto.symm, rfl⟩, (), rest, ⟨hs, rfl⟩, hn,
      rfl⟩
    rw [hto]
    omega

theorem Writer.numeral_eq (width n : Nat) : numeral width n =
    ⟨UInt8.ofNat (trimmed width n).length :: trimmed width n, .ok ()⟩ := rfl

theorem Writer.numeral_atMost {width : Nat} (n : Nat) : (numeral width n).AtMost (width + 1) := by
  intro bytes hb
  rw [numeral_eq] at hb
  cases hb
  simpa using length_trimmed_le width n

/-- The widths of writer and reader may differ as long as both hold the number. -/
theorem Reader.Inverts.numeral (what : String) {least width wider n : Nat} (hn : n < 256 ^ least)
    (hl : 0 < least) (hw : least ≤ width) (hx : least ≤ wider) (hs : width < 256) :
    (Reader.numeral what width isTrimmed).Inverts (Writer.numeral wider n) n := by
  intro bytes hb spelling rest
  rw [Writer.numeral_eq] at hb
  cases hb
  have hlen := length_trimmed_le_of_lt hn hl hx
  refine (numeral_eq_ok hs).mpr ⟨trimmed wider n, by omega, ?_, rfl, ?_⟩
  · exact fun _ => isTrimmed_trimmed (by omega) n
  · rw [ofBigEndian_trimmed, Nat.mod_eq_of_lt]
    exact Nat.lt_of_lt_of_le hn (Nat.pow_le_pow_right (by omega) hx)

theorem Writer.Restores.numeral {what : String} {width wider n : Nat} (hs : width < 256)
    (hx : width ≤ wider) (h : Reader.numeral what width isTrimmed spelling input = .ok n rest) :
    (Writer.numeral wider n).Restores (spelling = .written) input rest := by
  obtain ⟨digits, hlen, hw, rfl, rfl⟩ := (Reader.numeral_eq_ok hs).mp h
  refine ⟨_, Writer.numeral_eq _ _, fun hf => ?_⟩
  rw [trimmed_ofBigEndian_of_isTrimmed (hw hf) (by omega)]
  rfl

theorem toNat_toInt64 {n : Nat} (h : n < 18446744073709551616) :
    (UInt64.ofNat n).toInt64.toUInt64.toNat = n := by
  simpa using UInt64.toNat_ofNat_of_lt' h

theorem Reader.Inverts.integer64 (what : String) (n : Int64) :
    (Reader.integer64 what).Inverts (Writer.integer64 n) n := by
  have hn : n.toUInt64.toNat < 256 ^ 8 := n.toUInt64.toNat_lt
  have hh := (numeral what hn (by omega) (Nat.le_refl 8) (Nat.le_refl 8) (by omega)).map
    fun m => (UInt64.ofNat m).toInt64
  have hback : (UInt64.ofNat n.toUInt64.toNat).toInt64 = n := by simp
  rwa [hback] at hh

theorem Reader.numeral_lt {what : String} {width : Nat} (hs : width < 256)
    {isWritten : Bytes → Bool} {n : Nat}
    (h : numeral what width isWritten spelling input = .ok n rest) : n < 256 ^ width := by
  obtain ⟨digits, hlen, -, -, rfl⟩ := (numeral_eq_ok hs).mp h
  exact Nat.lt_of_lt_of_le (ofBigEndian_lt digits) (Nat.pow_le_pow_right (by omega) hlen)

theorem Writer.Restores.integer64 {what : String} {n : Int64}
    (h : Reader.integer64 what spelling input = .ok n rest) :
    (Writer.integer64 n).Restores (spelling = .written) input rest := by
  obtain ⟨m, hm, rfl⟩ := Reader.map_eq_ok.mp h
  rw [Writer.integer64, toNat_toInt64 (Reader.numeral_lt (by omega) hm)]
  exact numeral (by omega) (Nat.le_refl 8) hm

/-- A number written again takes no more bytes than before, unless it had none and is zero. -/
theorem Reader.length_numeral {what : String} {width : Nat} (hw : 0 < width) (hs : width < 256)
    {n : Nat} (h : numeral what width isTrimmed spelling input = .ok n rest) :
    (trimmed width n).length + rest.length < input.length ∨
      n = 0 ∧ (trimmed width n).length = 1 := by
  obtain ⟨digits, hlen, -, rfl, rfl⟩ := (numeral_eq_ok hs).mp h
  by_cases hd : digits = []
  · subst hd
    exact .inr ⟨rfl, by simp [ofBigEndian, trimmed_zero hw]⟩
  · have hpos := List.length_pos_iff.mpr hd
    have ht := length_trimmed_ofBigEndian_le hw hlen
    simp only [List.length_cons, List.length_append]
    omega

theorem Writer.length_integer64 {what : String} {n : Int64}
    (h : Reader.integer64 what spelling input = .ok n rest) {bytes : Bytes}
    (hb : integer64 n = ⟨bytes, .ok ()⟩) :
    bytes.length + rest.length ≤ input.length ∨ bytes.length = 2 := by
  obtain ⟨m, hm, rfl⟩ := Reader.map_eq_ok.mp h
  have hlen := Reader.length_numeral (by omega) (by omega) hm
  rw [integer64, toNat_toInt64 (Reader.numeral_lt (by omega) hm), numeral_eq] at hb
  cases hb
  simp only [List.length_cons]
  omega

theorem Writer.Ends.integer64 (n : Int64) : (Writer.integer64 n).Ends := ⟨_, numeral_eq 8 _⟩

theorem Writer.integer64_atMost (n : Int64) : (integer64 n).AtMost 9 := numeral_atMost _

theorem toNat_toInt32 {n : Nat} (h : n < 4294967296) :
    (UInt32.ofNat n).toInt32.toUInt32.toNat = n := by
  simpa using UInt32.toNat_ofNat_of_lt' h

/-- The numbers from half the range of a word on stand for negative ones. -/
theorem toInt_toInt32 {n : Nat} (h : n < 256 ^ 4) : (UInt32.ofNat n).toInt32.toInt =
    if n < 2147483648 then (n : Int) else (n : Int) - 4294967296 := by
  have hm : (UInt32.ofNat n).toInt32.toInt = (n : Int).bmod 4294967296 := by simp
  rw [hm, Int.bmod_def]
  omega

theorem toInt_toInt32_of_lt {n : Nat} (h : n < 2147483648) :
    (UInt32.ofNat n).toInt32.toInt = n := by
  rw [toInt_toInt32 (by omega), if_pos h]

theorem Reader.integer32_eq_ok_of_nonneg {what : String} {count : Int32} (hc : 0 ≤ count.toInt) :
    integer32 what spelling input = .ok count rest ↔
      numeral what 4 isTrimmed spelling input = .ok count.toInt.toNat rest := by
  rw [integer32, map_eq_ok]
  constructor
  · rintro ⟨n, hn, rfl⟩
    have hlt := numeral_lt (by omega) hn
    rw [toInt_toInt32 hlt] at hc ⊢
    have hto : (if n < 2147483648 then (n : Int) else (n : Int) - 4294967296).toNat = n := by omega
    rwa [hto]
  · intro hn
    refine ⟨_, hn, Int32.toInt_inj.mp ?_⟩
    have hlt := count.toInt_lt
    rw [toInt_toInt32 (by omega)]
    omega

/-- Lengths and counts, which have to be in range, are what their numeral says. -/
theorem Reader.integer32_eq_ok_of_natCast {what : String} {n : Nat} (h : n < 2147483648) :
    integer32 what spelling input = .ok (UInt32.ofNat n).toInt32 rest ↔
      numeral what 4 isTrimmed spelling input = .ok n rest := by
  have hto := toInt_toInt32_of_lt h
  rw [integer32_eq_ok_of_nonneg (by omega), hto, Int.toNat_natCast]

theorem Reader.Inverts.length {what : String} {wider n : Nat} (h : n < 2147483648)
    (hw : 4 ≤ wider) :
    (Reader.integer32 what).Inverts (Writer.numeral wider n) (UInt32.ofNat n).toInt32 := by
  intro bytes hb spelling rest
  rw [integer32_eq_ok_of_natCast h]
  exact numeral what (by omega) (by omega) (Nat.le_refl 4) hw (by omega) bytes hb spelling rest

section FullWidth

theorem Writer.fullInteger32_eq (n : Int32) :
    fullInteger32 n = ⟨4 :: bigEndian 4 n.toUInt32.toNat, .ok ()⟩ := rfl

theorem Writer.fullInteger32_atMost (n : Int32) : (fullInteger32 n).AtMost 5 := by
  intro bytes hb
  rw [fullInteger32_eq] at hb
  cases hb
  simp

theorem Reader.Inverts.fullInteger32 (what : String) (n : Int32) :
    (Reader.fullInteger32 what).Inverts (Writer.fullInteger32 n) n := by
  intro bytes hb spelling rest
  rw [Writer.fullInteger32_eq] at hb
  cases hb
  have hlt : n.toUInt32.toNat < 256 ^ 4 := n.toUInt32.toNat_lt
  rw [Reader.fullInteger32, map_eq_ok]
  refine ⟨n.toUInt32.toNat, (numeral_eq_ok (by omega)).mpr ?_, by simp⟩
  refine ⟨bigEndian 4 n.toUInt32.toNat, by simp, by simp, by simp, ?_⟩
  rw [ofBigEndian_bigEndian, Nat.mod_eq_of_lt hlt]

theorem Writer.Restores.fullInteger32 {what : String} {n : Int32}
    (h : Reader.fullInteger32 what spelling input = .ok n rest) :
    (Writer.fullInteger32 n).Restores (spelling = .written) input rest := by
  obtain ⟨m, hm, rfl⟩ := Reader.map_eq_ok.mp h
  have hto := toNat_toInt32 (Reader.numeral_lt (by omega) hm)
  obtain ⟨digits, -, hw, rfl, rfl⟩ := (Reader.numeral_eq_ok (by omega)).mp hm
  refine ⟨_, Writer.fullInteger32_eq _, fun hf => ?_⟩
  have hfour : digits.length = 4 := by simpa using hw hf
  have hback := bigEndian_ofBigEndian digits
  rw [hfour] at hback
  rw [hto, hback, hfour]
  rfl

end FullWidth

end ProofOfProof
