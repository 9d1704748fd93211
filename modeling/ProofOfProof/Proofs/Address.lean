import ProofOfProof.Address
import ProofOfProof.Proofs.Alphabet
import ProofOfProof.Proofs.Field

/-! An address and the bytes that its text spells determine each other, so the bytes on the wire
have no other spelling. -/

namespace ProofOfProof

namespace AddressKind

variable {kind : AddressKind}

theorem alphabet_nodup (kind : AddressKind) : kind.alphabet.symbols.Nodup := by
  cases kind with
  | standard => exact base58_nodup
  | multisig => exact base59_nodup

theorem one_lt_base (kind : AddressKind) : 1 < kind.alphabet.base := by
  cases kind <;> decide

theorem decodeText_eq_ok {text : List Char} {bytes : Bytes} :
    kind.decodeText text = .ok bytes ↔ kind.alphabet.decode text = .ok bytes := by
  cases kind with
  | standard =>
    rw [decodeText, alphabet]
    cases base58.decode text <;> simp
  | multisig => rw [decodeText, alphabet, Base59.decode_eq_ok, String.toList_ofList]

theorem decodeText_encode (kind : AddressKind) (bytes : Bytes) :
    kind.decodeText (kind.alphabet.encode bytes) = .ok bytes :=
  decodeText_eq_ok.mpr (Alphabet.decode_encode kind.alphabet_nodup kind.one_lt_base bytes)

theorem encode_of_decodeText {text : List Char} {bytes : Bytes}
    (h : kind.decodeText text = .ok bytes) : kind.alphabet.encode bytes = text :=
  Alphabet.encode_of_decode kind.one_lt_base (decodeText_eq_ok.mp h)

theorem ofByte_byte (kind : AddressKind) : ofByte kind.byte = .ok kind := by
  rw [ofByte, ofByte?_byte]

theorem byte_of_ofByte {b : UInt8} (h : ofByte b = .ok kind) : kind.byte = b := by
  by_cases h1 : b = 1
  · subst h1
    cases h
    rfl
  · by_cases h3 : b = 3
    · subst h3
      cases h
      rfl
    · have hnone : ofByte? b = none := by
        unfold ofByte?
        split
        · exact absurd rfl h1
        · exact absurd rfl h3
        · rfl
      rw [ofByte, hnone] at h
      cases h

end AddressKind

namespace Address

theorem text_of_parse {text : String} {a : Address} (h : parse text = .ok a) : a.text = text := by
  unfold parse at h
  split at h
  · cases h
  · cases h
    rfl

theorem found_eq_ok_iff {outcome : Except AddressFault Unit} {found kind : AddressKind} :
    (fun _ => found) <$> outcome = .ok kind ↔ outcome = .ok () ∧ found = kind := by
  cases outcome <;> simp

/-- The form of every address, and the checks of its kind. -/
theorem classify_eq_ok_iff {text : List Char} {kind : AddressKind} : classify text = .ok kind ↔
    (utf8Length text = addressLength ∧ (∀ c ∈ text, c.toNat < 128) ∧ text.head? = some 'V') ∧
      (text.getLast? = some '0' ∧ checkMultisig text = .ok () ∧ .multisig = kind ∨
        text.getLast? ≠ some '0' ∧ checkStandard text = .ok () ∧ .standard = kind) := by
  rw [classify]
  constructor
  · intro h
    by_cases hlen : utf8Length text = addressLength
    case neg =>
      rw [if_pos hlen] at h
      cases h
    by_cases hfar : (text.any fun c => 128 ≤ c.toNat) = true
    case pos =>
      rw [if_neg (not_not.mpr hlen), if_pos hfar] at h
      cases h
    by_cases hhead : text.head? = some 'V'
    case neg =>
      rw [if_neg (not_not.mpr hlen), if_neg hfar, if_pos hhead] at h
      cases h
    rw [if_neg (not_not.mpr hlen), if_neg hfar, if_neg (not_not.mpr hhead)] at h
    refine ⟨⟨hlen, by simpa using hfar, hhead⟩, ?_⟩
    by_cases hlast : text.getLast? = some '0'
    · rw [if_pos hlast, found_eq_ok_iff] at h
      exact .inl ⟨hlast, h⟩
    · rw [if_neg hlast, found_eq_ok_iff] at h
      exact .inr ⟨hlast, h⟩
  · rintro ⟨⟨hlen, hnear, hhead⟩, hkind⟩
    have hfar : ¬ (text.any fun c => 128 ≤ c.toNat) = true := by simpa using hnear
    rw [if_neg (not_not.mpr hlen), if_neg hfar, if_neg (not_not.mpr hhead)]
    rcases hkind with ⟨hlast, h⟩ | ⟨hlast, h⟩
    · rwa [if_pos hlast, found_eq_ok_iff]
    · rwa [if_neg hlast, found_eq_ok_iff]

/-- The characters behind the `V` that every address begins with. -/
theorem exists_tail (a : Address) : ∃ tail, a.text.toList = 'V' :: tail ∧ tail.length = 29 := by
  obtain ⟨⟨hlen, hascii, hhead⟩, -⟩ := classify_eq_ok_iff.mp a.admitted
  obtain ⟨tail, htail⟩ := List.head?_eq_some_iff.mp hhead
  rw [utf8Length_of_ascii hascii, htail, List.length_cons, addressLength] at hlen
  exact ⟨tail, htail, by omega⟩

/-- The text of an address is a numeral of 30 digits and `V` is digit 28 of both alphabets, so that
its number takes 22 bytes in either radix. -/
theorem length_decodeText {a : Address} {bytes : Bytes}
    (h : a.kind.decodeText a.text.toList = .ok bytes) : bytes.length = 22 := by
  obtain ⟨tail, htail, hlen⟩ := a.exists_tail
  rw [htail, AddressKind.decodeText_eq_ok] at h
  have hv : a.kind.alphabet.digit? 'V' = some 28 := by cases a.kind <;> decide
  have hlo : 256 ^ 21 ≤ 28 * a.kind.alphabet.base ^ tail.length := by
    rw [hlen]
    cases a.kind <;> decide
  have hhi : (28 + 1) * a.kind.alphabet.base ^ tail.length ≤ 256 ^ (21 + 1) := by
    rw [hlen]
    cases a.kind <;> decide
  exact Alphabet.length_of_decode a.kind.one_lt_base hv (by decide) hlo hhi h

theorem inverts (a : Address) : Address.read.Inverts a.write a := by
  refine (Reader.Inverts.byte a.kind.byte).bind (.check_reader a.kind.ofByte_byte ?_)
  refine .check_writer fun bytes hb => ?_
  have hle : bytes.length ≤ addressLength := by
    rw [length_decodeText hb]
    decide
  refine (Reader.Inverts.shortField (Nat.zero_le _) hle).last ?_
  have hparse : parse (String.ofList (a.kind.alphabet.encode bytes)) = .ok a := by
    rw [AddressKind.encode_of_decodeText hb, String.ofList_toList, parse_text]
  change Reader.check (parse _) >>= _ = _
  rw [hparse]
  exact if_pos rfl

theorem restores {a : Address} {spelling : Spelling} {input rest : Bytes} {faithful : Prop}
    (h : Address.read spelling input = .ok a rest) : a.write.Restores faithful input rest := by
  obtain ⟨b, mid, hb, h⟩ := Reader.bind_eq_ok.mp h
  obtain ⟨kind, hkind, h⟩ := Reader.check_bind_eq_ok.mp h
  obtain ⟨bytes, tail, hbytes, h⟩ := Reader.bind_eq_ok.mp h
  obtain ⟨found, hparse, h⟩ := Reader.check_bind_eq_ok.mp h
  by_cases hk : found.kind = kind
  · rw [if_pos hk] at h
    obtain ⟨rfl, rfl⟩ := Reader.pure_eq_ok.mp h
    have htext : found.kind.decodeText found.text.toList = .ok bytes := by
      rw [text_of_parse hparse, String.toList_ofList, hk, AddressKind.decodeText_encode]
    rw [← AddressKind.byte_of_ofByte hkind, ← hk] at hb
    exact (Writer.Restores.byte hb).bind (Writer.Restores.check htext (.shortField hbytes))
  · rw [if_neg hk] at h
    cases h

theorem checkStandard_eq_ok_iff {text : List Char} : checkStandard text = .ok () ↔
    base58.contains text = true ∧ checkChecksum 5 text = .ok () := by
  rw [checkStandard]
  by_cases h : base58.contains text = true
  · simp [h]
  · simp [h]

theorem checkMultisig_eq_ok_iff {text : List Char} : checkMultisig text = .ok () ↔
    base59.contains text = true ∧ checkThreshold text = .ok () ∧
      base58.contains (text.take 29) = true ∧ checkChecksum 4 text = .ok () := by
  rw [checkMultisig]
  by_cases h : base59.contains text = true
  · cases ht : checkThreshold text with
    | error fault => simp [h, bind, Except.bind]
    | ok _ =>
      by_cases hb : base58.contains (text.take 29) = true
      · simp [h, hb, bind, Except.bind]
      · simp [h, hb, bind, Except.bind]
  · simp [h]

theorem contains_of_classify {text : List Char} {kind : AddressKind}
    (h : classify text = .ok kind) : kind.alphabet.contains text = true := by
  obtain ⟨-, ⟨-, hchecks, rfl⟩ | ⟨-, hchecks, rfl⟩⟩ := classify_eq_ok_iff.mp h
  · exact (checkMultisig_eq_ok_iff.mp hchecks).1
  · exact (checkStandard_eq_ok_iff.mp hchecks).1

theorem write_eq_ok {a : Address} {bytes : Bytes} : a.write = ⟨bytes, .ok ()⟩ ↔
    ∃ spelled, a.kind.decodeText a.text.toList = .ok spelled ∧
      bytes = a.kind.byte :: 22 :: spelled := by
  constructor
  · intro h
    obtain ⟨front, _, field, hkind, hrest, rfl⟩ := Writer.bind_eq_ok.mp h
    obtain ⟨spelled, hspelled, hfield⟩ := Writer.check_bind_eq_ok.mp hrest
    obtain ⟨-, rfl⟩ := Writer.shortField_eq_ok.mp hfield
    obtain rfl := Writer.emit_eq_ok.mp hkind
    refine ⟨spelled, hspelled, ?_⟩
    rw [length_decodeText hspelled]
    rfl
  · rintro ⟨spelled, hspelled, rfl⟩
    have hlen := length_decodeText hspelled
    have hfield : Writer.shortField spelled = ⟨22 :: spelled, .ok ()⟩ :=
      Writer.shortField_eq_ok.mpr ⟨by omega, by rw [hlen]; rfl⟩
    exact Writer.bind_ok rfl (Writer.check_bind_eq_ok.mpr ⟨spelled, hspelled, hfield⟩)

theorem ends (a : Address) : a.write.Ends := by
  obtain ⟨spelled, hdecode⟩ := Alphabet.exists_decode (contains_of_classify a.admitted)
  exact ⟨_, write_eq_ok.mpr ⟨spelled, AddressKind.decodeText_eq_ok.mpr hdecode, rfl⟩⟩

theorem write_atMost (a : Address) : a.write.AtMost (1 + (addressLength + 1)) := by
  intro bytes hb
  obtain ⟨spelled, hspelled, rfl⟩ := write_eq_ok.mp hb
  simp only [List.length_cons, length_decodeText hspelled]
  decide

/-- Every address has an encoding, of 24 bytes, and no other bytes decode to it. -/
theorem decode_eq_ok_iff_encode (a : Address) (limits : Limits) :
    (∃ bytes, encode a = .ok bytes ∧ bytes.length = 24) ∧
      ∀ bytes, decode limits bytes = .ok a ↔ encode a = .ok bytes := by
  refine ⟨?_, fun bytes => ⟨fun h => ?_, fun h => ?_⟩⟩
  · obtain ⟨bytes, hbytes⟩ := a.ends
    obtain ⟨spelled, hspelled, rfl⟩ := write_eq_ok.mp hbytes
    refine ⟨_, Writer.toBytes_eq_ok.mpr hbytes, ?_⟩
    rw [List.length_cons, List.length_cons, length_decodeText hspelled]
  · obtain ⟨written, hwritten, hsame⟩ : a.write.Restores True bytes [] :=
      restores (Reader.whole_eq_ok.mp h)
    rw [List.append_nil] at hsame
    rw [hsame trivial]
    exact Writer.toBytes_eq_ok.mpr hwritten
  · exact a.inverts.whole_eq_ok (Writer.toBytes_eq_ok.mp h) .any

/-- A multisig address. -/
example : List.length <$> (parse "V23Cuyc34u5rdk9psJ86aFcwhB1md0" >>= encode) = .ok 24 := by
  decide +kernel

end Address

end ProofOfProof
