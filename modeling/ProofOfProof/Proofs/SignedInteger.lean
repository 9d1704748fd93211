import Mathlib.Order.Bounds.Defs
import ProofOfProof.Proofs.Integer

/-! Signed integers on the wire. A writer trims the unsigned form of an integer, so a negative one
keeps all its bytes. A reader fills up with zeros what an integer lacks of its width, and only then
looks for a sign. -/

namespace ProofOfProof

/-- The number that bytes spell in two's complement: the highest bit is its sign. -/
def twosComplement : Bytes → Int
  | [] => 0
  | b :: bytes =>
    if b < 128 then ofBigEndian (b :: bytes)
    else ofBigEndian (b :: bytes) - (256 ^ (bytes.length + 1) : Nat)

/-- The first byte tells whether a number is in the lower half of those of its width. -/
theorem head_lt_iff (b : UInt8) (bytes : Bytes) :
    b < 128 ↔ 2 * ofBigEndian (b :: bytes) < 256 ^ (bytes.length + 1) := by
  have hrest := ofBigEndian_lt bytes
  rw [ofBigEndian_cons, Nat.pow_succ, UInt8.lt_iff_toNat_lt]
  change b.toNat < 128 ↔ _
  constructor
  · intro hb
    have hle : b.toNat * 256 ^ bytes.length ≤ 127 * 256 ^ bytes.length :=
      Nat.mul_le_mul_right _ (by omega)
    omega
  · intro hlt
    by_contra hb
    have hle : 128 * 256 ^ bytes.length ≤ b.toNat * 256 ^ bytes.length :=
      Nat.mul_le_mul_right _ (by omega)
    omega

theorem twosComplement_eq_bmod (bytes : Bytes) :
    twosComplement bytes = (ofBigEndian bytes : Int).bmod (256 ^ bytes.length) := by
  cases bytes with
  | nil => rfl
  | cons b bytes =>
    have hlt := ofBigEndian_lt (b :: bytes)
    rw [List.length_cons] at hlt
    -- The number is its own residue, so that only the half it is in is left to compare.
    have hmod : (ofBigEndian (b :: bytes) : Int) % (256 ^ (bytes.length + 1) : Nat) =
        ofBigEndian (b :: bytes) := by
      rw [← Int.natCast_emod, Nat.mod_eq_of_lt hlt]
    rw [List.length_cons, Int.bmod_def, hmod, twosComplement]
    by_cases hb : b < 128
    · have hhalf := (head_lt_iff b bytes).mp hb
      rw [if_pos hb, if_pos (by omega)]
    · have hhalf := mt (head_lt_iff b bytes).mpr hb
      rw [if_neg hb, if_neg (by omega)]

def zeroExtended (width : Nat) (digits : Bytes) : Bytes :=
  List.replicate (width - digits.length) 0 ++ digits

theorem length_zeroExtended {width : Nat} {digits : Bytes} (h : digits.length ≤ width) :
    (zeroExtended width digits).length = width := by
  rw [zeroExtended, List.length_append, List.length_replicate]
  omega

theorem ofBigEndian_zeroExtended (width : Nat) (digits : Bytes) :
    ofBigEndian (zeroExtended width digits) = ofBigEndian digits :=
  ofBigEndian_replicate_append _ digits

theorem zeroExtended_replicate_append {width zeros : Nat} {digits : Bytes}
    (h : zeros + digits.length ≤ width) :
    zeroExtended width (List.replicate zeros 0 ++ digits) = zeroExtended width digits := by
  have hsplit : width - digits.length = width - (zeros + digits.length) + zeros := by omega
  rw [zeroExtended, zeroExtended, List.length_append, List.length_replicate, hsplit,
    ← List.replicate_append_replicate, List.append_assoc]

/-- Where a byte is lacking, the bit of the sign is clear. -/
theorem twosComplement_zeroExtended_nonneg {width : Nat} {digits : Bytes}
    (h : digits.length < width) : 0 ≤ twosComplement (zeroExtended width digits) := by
  obtain ⟨more, hm⟩ : ∃ more, width - digits.length = more + 1 :=
    ⟨width - digits.length - 1, by omega⟩
  rw [zeroExtended, hm, List.replicate_succ, List.cons_append, twosComplement,
    if_pos (by decide)]
  exact Int.natCast_nonneg _

theorem isLeast_length_trimmed {width n : Nat} (hw : 0 < width) (hn : n < 256 ^ width) :
    IsLeast {k | 1 ≤ k ∧ n < 256 ^ k} (trimmed width n).length := by
  have hne : trimmed width n ≠ [] := (isTrimmed_iff.mp (isTrimmed_trimmed hw n)).1
  refine ⟨⟨List.length_pos_iff.mpr hne, ?_⟩, fun k hk => ?_⟩
  · have hlt := ofBigEndian_lt (trimmed width n)
    rwa [ofBigEndian_trimmed, Nat.mod_eq_of_lt hn] at hlt
  · by_cases hle : k ≤ width
    · exact length_trimmed_le_of_lt hk.2 hk.1 hle
    · have hlen := length_trimmed_le width n
      omega

/-- The two widths that signed integers have. -/
inductive IntegerWidth
  | four
  | eight

namespace IntegerWidth

def bytes : IntegerWidth → Nat
  | four => 4
  | eight => 8

abbrev Value : IntegerWidth → Type
  | four => Int32
  | eight => Int64

variable {width : IntegerWidth} {v : width.Value} {spelling : Spelling} {input rest : Bytes}

def toInt {width : IntegerWidth} (v : width.Value) : Int :=
  match width with
  | four => Int32.toInt v
  | eight => Int64.toInt v

/-- The number that the bits of an integer make without a sign. -/
def unsigned {width : IntegerWidth} (v : width.Value) : Nat :=
  match width with
  | four => (Int32.toUInt32 v).toNat
  | eight => (Int64.toUInt64 v).toNat

def write {width : IntegerWidth} (v : width.Value) : Writer Unit :=
  match width with
  | four => .integer32 v
  | eight => .integer64 v

def read (width : IntegerWidth) (what : String) : Reader width.Value :=
  match width with
  | four => .integer32 what
  | eight => .integer64 what

theorem bytes_pos (width : IntegerWidth) : 0 < width.bytes := by
  cases width <;> decide

theorem bytes_lt (width : IntegerWidth) : width.bytes < 256 := by
  cases width <;> decide

theorem unsigned_lt (v : width.Value) : unsigned v < 256 ^ width.bytes := by
  cases width with
  | four => exact (Int32.toUInt32 v).toNat_lt
  | eight => exact (Int64.toUInt64 v).toNat_lt

theorem toInt_eq_bmod (v : width.Value) :
    toInt v = (unsigned v : Int).bmod (256 ^ width.bytes) := by
  cases width with
  | four => exact BitVec.toInt_eq_toNat_bmod (Int32.toBitVec v)
  | eight => exact BitVec.toInt_eq_toNat_bmod (Int64.toBitVec v)

theorem write_eq (v : width.Value) : write v = .numeral width.bytes (unsigned v) := by
  cases width <;> rfl

theorem read_eq_ok {what : String} : width.read what spelling input = .ok v rest ↔
    Reader.numeral what width.bytes isTrimmed spelling input = .ok (unsigned v) rest := by
  cases width with
  | four =>
    refine Reader.map_eq_ok.trans ⟨?_, fun h => ⟨_, h, ?_⟩⟩
    · rintro ⟨n, hn, rfl⟩
      rwa [unsigned, toNat_toInt32 (Reader.numeral_lt (by omega) hn)]
    · simp [unsigned]
  | eight =>
    refine Reader.map_eq_ok.trans ⟨?_, fun h => ⟨_, h, ?_⟩⟩
    · rintro ⟨n, hn, rfl⟩
      rwa [unsigned, toNat_toInt64 (Reader.numeral_lt (by omega) hn)]
    · simp [unsigned]

theorem toInt_eq_iff {digits : Bytes} (h : digits.length ≤ width.bytes) :
    toInt v = twosComplement (zeroExtended width.bytes digits) ↔
      unsigned v = ofBigEndian digits := by
  have hdigits := ofBigEndian_lt (zeroExtended width.bytes digits)
  rw [length_zeroExtended h, ofBigEndian_zeroExtended] at hdigits
  rw [toInt_eq_bmod, twosComplement_eq_bmod, length_zeroExtended h, ofBigEndian_zeroExtended]
  constructor
  · intro he
    -- Balanced residues are equal where the numbers are, as both are below the power.
    have hmod := congrArg (· % ((256 ^ width.bytes : Nat) : Int)) he
    simp only [Int.bmod_emod, ← Int.natCast_emod] at hmod
    rw [Nat.mod_eq_of_lt (unsigned_lt v), Nat.mod_eq_of_lt hdigits] at hmod
    exact Int.ofNat_inj.mp hmod
  · intro he
    rw [he]

/-- What is taken for an integer: a length up to the width, and bytes that spell it. -/
theorem read_any_eq_ok {what : String} : width.read what .any input = .ok v rest ↔
    ∃ (k : UInt8) (digits : Fixed k.toNat), k.toNat ≤ width.bytes ∧
      input = k :: (digits.val ++ rest) ∧
      toInt v = twosComplement (zeroExtended width.bytes digits.val) := by
  rw [read_eq_ok, Reader.numeral_eq_ok width.bytes_lt]
  constructor
  · rintro ⟨digits, hlen, -, rfl, hv⟩
    have hlt := width.bytes_lt
    have hto : (UInt8.ofNat digits.length).toNat = digits.length := toNat_ofNat_byte (by omega)
    exact ⟨_, ⟨digits, hto.symm⟩, by omega, rfl, (toInt_eq_iff hlen).mpr hv.symm⟩
  · rintro ⟨k, ⟨digits, hdigits⟩, hk, rfl, hv⟩
    have hlen : digits.length ≤ width.bytes := by omega
    refine ⟨digits, hlen, (fun h => by cases h), ?_, ((toInt_eq_iff hlen).mp hv).symm⟩
    rw [hdigits, UInt8.ofNat_toNat]

theorem read_digits_eq_ok {what : String} {k : UInt8} {digits : Fixed k.toNat} :
    width.read what .any (k :: (digits.val ++ rest)) = .ok v rest ↔ k.toNat ≤ width.bytes ∧
      toInt v = twosComplement (zeroExtended width.bytes digits.val) := by
  rw [read_any_eq_ok]
  constructor
  · rintro ⟨k₁, digits₁, hk, hinput, hv⟩
    obtain ⟨rfl, htail⟩ := List.cons.inj hinput
    have hdigits : digits.val = digits₁.val := List.append_cancel_right htail
    exact ⟨hk, by rw [hv, hdigits]⟩
  · rintro ⟨hk, hv⟩
    exact ⟨k, digits, hk, rfl, hv⟩

theorem length_of_neg {digits : Bytes} (hlen : digits.length ≤ width.bytes)
    (hv : toInt v = twosComplement (zeroExtended width.bytes digits)) (hneg : toInt v < 0) :
    digits.length = width.bytes := by
  by_contra hne
  have hshort : digits.length < width.bytes := by omega
  have hnonneg := twosComplement_zeroExtended_nonneg hshort
  omega

theorem inverts (what : String) (v : width.Value) : (width.read what).Inverts (write v) v := by
  intro bytes hb spelling rest
  rw [write_eq] at hb
  exact read_eq_ok.mpr (Reader.Inverts.numeral what (unsigned_lt v) width.bytes_pos
    (Nat.le_refl _) (Nat.le_refl _) width.bytes_lt bytes hb spelling rest)

/-- The shortest of the numerals that are read as an integer is the one that is written. -/
theorem exists_written (v : width.Value) : ∃ (k : UInt8) (digits : Fixed k.toNat),
    write v = ⟨k :: digits.val, .ok ()⟩ ∧
      IsLeast {m | 1 ≤ m ∧ unsigned v < 256 ^ m} k.toNat ∧
      ofBigEndian digits.val = unsigned v := by
  have hlen := length_trimmed_le width.bytes (unsigned v)
  have hlt := width.bytes_lt
  have hto : (UInt8.ofNat (trimmed width.bytes (unsigned v)).length).toNat =
      (trimmed width.bytes (unsigned v)).length := toNat_ofNat_byte (by omega)
  refine ⟨_, ⟨trimmed width.bytes (unsigned v), hto.symm⟩, ?_, ?_, ?_⟩
  · rw [write_eq, Writer.numeral_eq]
  · rw [hto]
    exact isLeast_length_trimmed width.bytes_pos (unsigned_lt v)
  · rw [ofBigEndian_trimmed, Nat.mod_eq_of_lt (unsigned_lt v)]

/-- Every integer is written in the fewest bytes that hold it, and read back from those, as one of
32 bits is from all of its bytes. Any number of bytes up to the width is taken; what is lacking
counts as zero, so that zeros in front change nothing, and only where nothing is lacking can there
be a sign. -/
theorem written_shortest_read_exactly :
    (∀ (width : IntegerWidth) (v : width.Value), ∃ (k : UInt8) (digits : Fixed k.toNat),
      write v = ⟨k :: digits.val, .ok ()⟩ ∧
      IsLeast {m | 1 ≤ m ∧ unsigned v < 256 ^ m} k.toNat ∧ ofBigEndian digits.val = unsigned v ∧
      ∀ what spelling rest, width.read what spelling (k :: (digits.val ++ rest)) = .ok v rest) ∧
    (∀ v : Int32, ∃ digits : Fixed 4, Writer.fullInteger32 v = ⟨4 :: digits.val, .ok ()⟩ ∧
      ∀ what rest, four.read what .any (4 :: (digits.val ++ rest)) = .ok v rest) ∧
    (∀ (width : IntegerWidth) (what : String) (input : Bytes) (v : width.Value) (rest : Bytes),
      width.read what .any input = .ok v rest ↔ ∃ (k : UInt8) (digits : Fixed k.toNat),
        k.toNat ≤ width.bytes ∧ input = k :: (digits.val ++ rest) ∧
        toInt v = twosComplement (zeroExtended width.bytes digits.val)) ∧
    ∀ (width : IntegerWidth) (what : String) (k : UInt8) (digits : Fixed k.toNat)
      (v : width.Value) (rest : Bytes),
      width.read what .any (k :: (digits.val ++ rest)) = .ok v rest →
      (toInt v < 0 → k.toNat = width.bytes) ∧
      ∀ (zeros : Nat) (k' : UInt8) (digits' : Fixed k'.toNat), k'.toNat ≤ width.bytes →
        digits'.val = List.replicate zeros 0 ++ digits.val →
        width.read what .any (k' :: (digits'.val ++ rest)) = .ok v rest := by
  refine ⟨fun width v => ?_, fun v => ?_, fun _ _ _ _ _ => read_any_eq_ok,
    fun width what k digits v rest h => ?_⟩
  · obtain ⟨k, digits, hwrite, hleast, hvalue⟩ := exists_written v
    exact ⟨k, digits, hwrite, hleast, hvalue, fun what => inverts what v _ hwrite⟩
  · refine ⟨⟨bigEndian 4 v.toUInt32.toNat, length_bigEndian 4 _⟩, rfl, fun what rest => ?_⟩
    -- Where every spelling passes, integers written in full have no reader of their own.
    exact Reader.Inverts.fullInteger32 what v _ rfl .any rest
  · obtain ⟨hk, hv⟩ := read_digits_eq_ok.mp h
    have hlen := digits.property
    refine ⟨fun hneg => ?_, fun zeros k' digits' hk' hzeros => ?_⟩
    · rw [← length_of_neg (by omega) hv hneg, hlen]
    · have hlen' := digits'.property
      rw [hzeros, List.length_append, List.length_replicate] at hlen'
      refine read_digits_eq_ok.mpr ⟨hk', ?_⟩
      rw [hzeros, zeroExtended_replicate_append (by omega), hv]

theorem written_shortest_read_exactly_padded :
    (four.read "count" .any [4, 255, 255, 255, 251] = .ok (-5 : Int32) [] ∧
      (4 : UInt8).toNat = four.bytes) ∧
    eight.read "amount" .any [1, 133] = .ok (133 : Int64) [] ∧
      eight.read "amount" .any [8, 0, 0, 0, 0, 0, 0, 0, 133] = .ok (133 : Int64) [] := by
  obtain ⟨-, -, -, hread⟩ := written_shortest_read_exactly
  have hnegative : four.read "count" .any [4, 255, 255, 255, 251] = .ok (-5 : Int32) [] := rfl
  have hpositive : eight.read "amount" .any [1, 133] = .ok (133 : Int64) [] := rfl
  obtain ⟨hfull, -⟩ := hread four "count" 4 ⟨[255, 255, 255, 251], rfl⟩ (-5 : Int32) [] hnegative
  obtain ⟨-, hpadded⟩ := hread eight "amount" 1 ⟨[133], rfl⟩ (133 : Int64) [] hpositive
  exact ⟨⟨hnegative, hfull (by decide)⟩, hpositive,
    hpadded 7 8 ⟨[0, 0, 0, 0, 0, 0, 0, 133], rfl⟩ (by decide) rfl⟩

end IntegerWidth

end ProofOfProof
