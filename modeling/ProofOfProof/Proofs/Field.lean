import ProofOfProof.Proofs.Integer
import ProofOfProof.Wire.Field

/-! Fields behind their length. Only the length of a long field can be spelled in more than one
way. -/

namespace ProofOfProof

variable {spelling : Spelling} {input rest : Bytes}

theorem Writer.shortField_eq_ok {field bytes : Bytes} : shortField field = ⟨bytes, .ok ()⟩ ↔
    field.length ≤ 255 ∧ bytes = UInt8.ofNat field.length :: field := by
  constructor
  · intro h
    obtain ⟨_, hle, hfields⟩ := check_bind_eq_ok.mp h
    cases hfields
    exact ⟨checkLimit_eq_ok_iff.mp hle, rfl⟩
  · rintro ⟨hle, rfl⟩
    exact check_bind_eq_ok.mpr ⟨(), checkLimit_eq_ok_iff.mpr hle, rfl⟩

theorem Writer.shortField_atMost {field : Bytes} {n : Nat} (h : field.length ≤ n) :
    (shortField field).AtMost (n + 1) := by
  intro bytes hb
  obtain ⟨-, rfl⟩ := shortField_eq_ok.mp hb
  simpa using h

theorem Writer.Ends.shortField {field : Bytes} (h : field.length ≤ 255) :
    (Writer.shortField field).Ends :=
  ⟨_, shortField_eq_ok.mpr ⟨h, rfl⟩⟩

theorem Reader.shortField_eq_ok {what : String} {min max : Nat} {field : Bytes} :
    shortField what min max spelling input = .ok field rest ↔
      (min ≤ field.length ∧ field.length ≤ max) ∧ field.length ≤ 255 ∧
        input = UInt8.ofNat field.length :: (field ++ rest) := by
  simp only [shortField, bind_eq_ok, byte_eq_ok, check_eq_ok, checkRange_eq_ok_iff, bytes_eq_ok]
  constructor
  · rintro ⟨length, _, rfl, _, _, ⟨hr, rfl⟩, hlen, rfl⟩
    have hlt := length.toNat_lt
    refine ⟨by omega, by omega, ?_⟩
    rw [hlen, UInt8.ofNat_toNat]
  · rintro ⟨hr, hle, rfl⟩
    have hto : (UInt8.ofNat field.length).toNat = field.length := toNat_ofNat_byte (by omega)
    refine ⟨_, _, rfl, (), _, ⟨?_, rfl⟩, hto.symm, rfl⟩
    rw [hto]
    omega

theorem Reader.Inverts.shortField {what : String} {min max : Nat} {field : Bytes}
    (hmin : min ≤ field.length) (hmax : field.length ≤ max) :
    (Reader.shortField what min max).Inverts (Writer.shortField field) field := by
  intro bytes hb spelling rest
  obtain ⟨hle, rfl⟩ := Writer.shortField_eq_ok.mp hb
  exact shortField_eq_ok.mpr ⟨⟨hmin, hmax⟩, hle, rfl⟩

theorem Writer.Restores.shortField {what : String} {min max : Nat} {field : Bytes}
    {faithful : Prop} (h : Reader.shortField what min max spelling input = .ok field rest) :
    (Writer.shortField field).Restores faithful input rest := by
  obtain ⟨-, hle, rfl⟩ := Reader.shortField_eq_ok.mp h
  exact ⟨_, Writer.shortField_eq_ok.mpr ⟨hle, rfl⟩, fun _ => rfl⟩

theorem Reader.shortFieldOf_eq_ok {n : Nat} {what : String} {field : Fixed n} :
    shortFieldOf n what spelling input = .ok field rest ↔
      Reader.shortField what n n spelling input = .ok field.val rest := by
  simp only [shortFieldOf, shortField, bind_eq_ok, byte_eq_ok, check_eq_ok, checkRange_eq_ok_iff,
    bytes_eq_ok, take_eq_ok]
  constructor
  · rintro ⟨length, _, rfl, _, _, ⟨hr, rfl⟩, rfl⟩
    have hn := field.property
    exact ⟨length, _, rfl, (), _, ⟨hr, rfl⟩, by omega, rfl⟩
  · rintro ⟨length, _, rfl, _, _, ⟨hr, rfl⟩, -, rfl⟩
    exact ⟨length, _, rfl, (), _, ⟨hr, rfl⟩, rfl⟩

theorem Reader.Inverts.shortFieldOf {n : Nat} (what : String) (field : Fixed n) :
    (Reader.shortFieldOf n what).Inverts (Writer.shortField field.val) field := by
  intro bytes hb spelling rest
  rw [shortFieldOf_eq_ok]
  have hn := field.property
  exact shortField (by omega) (by omega) bytes hb spelling rest

theorem Writer.Restores.shortFieldOf {n : Nat} {what : String} {field : Fixed n} {faithful : Prop}
    (h : Reader.shortFieldOf n what spelling input = .ok field rest) :
    (Writer.shortField field.val).Restores faithful input rest :=
  shortField (Reader.shortFieldOf_eq_ok.mp h)

/-- A field whose length byte its reader does not take, so that none of its bytes are read. -/
theorem Reader.Rejects.lengthByte {α : Type} {what : String} {min max : Nat} {field : Bytes}
    {next : UInt8 → Reader α} (h : ¬ (min ≤ field.length ∧ field.length ≤ max)) :
    (Reader.byte >>= fun length => Reader.check (checkRange what length.toNat min max) >>=
      fun _ => next length).Rejects (Writer.shortField field)
        (.outOfRange what field.length min max) := by
  intro bytes hb spelling rest
  obtain ⟨hle, rfl⟩ := Writer.shortField_eq_ok.mp hb
  have hto : (UInt8.ofNat field.length).toNat = field.length := toNat_ofNat_byte (by omega)
  have hcheck : checkRange what (UInt8.ofNat field.length).toNat min max =
      .error (.outOfRange what field.length min max) := by
    rw [checkRange, hto, if_pos (by omega)]
  refine ⟨field ++ rest, ?_⟩
  rw [List.cons_append, bind_of_ok (byte_eq_ok.mpr rfl), hcheck]
  rfl

theorem Reader.Rejects.shortField {what : String} {min max : Nat} {field : Bytes}
    (h : ¬ (min ≤ field.length ∧ field.length ≤ max)) : (Reader.shortField what min max).Rejects
      (Writer.shortField field) (.outOfRange what field.length min max) :=
  lengthByte h

theorem Reader.Rejects.shortFieldOf {n : Nat} {what : String} {field : Bytes}
    (h : field.length ≠ n) : (Reader.shortFieldOf n what).Rejects (Writer.shortField field)
      (.outOfRange what field.length n n) :=
  lengthByte (by omega)

theorem Writer.longField_eq_ok {field bytes : Bytes} : longField field = ⟨bytes, .ok ()⟩ ↔
    field.length ≤ 2147483647 ∧
      bytes = UInt8.ofNat (trimmed 4 field.length).length :: (trimmed 4 field.length ++ field) := by
  by_cases h : field.length ≤ 2147483647
  · have hok : longField field = ⟨UInt8.ofNat (trimmed 4 field.length).length ::
        (trimmed 4 field.length ++ field), .ok ()⟩ := by
      rw [longField, if_neg (by omega), integer32, toNat_toInt32 (by omega), numeral_eq]
      rfl
    rw [hok, mk.injEq]
    simp [h, eq_comm]
  · have hf : longField field = .fail (.constraint (.lengthBeyondWord field.length)) := by
      rw [longField, if_pos (by omega)]
    rw [hf, fail, mk.injEq]
    simp [h]

theorem Writer.Ends.longField {field : Bytes} (h : field.length ≤ 2147483647) :
    (Writer.longField field).Ends :=
  ⟨_, longField_eq_ok.mpr ⟨h, rfl⟩⟩

theorem Writer.longField_atMost {field : Bytes} {n : Nat} (h : field.length ≤ n) (least : Nat)
    (hn : n < 256 ^ least) (hl : 0 < least) (hw : least ≤ 4) :
    (longField field).AtMost (n + least + 1) := by
  intro bytes hb
  obtain ⟨-, rfl⟩ := longField_eq_ok.mp hb
  have ht := length_trimmed_le_of_lt (Nat.lt_of_le_of_lt h hn) hl hw
  simp only [List.length_cons, List.length_append]
  omega

/-- A length is read as a signed word, so it is below half the range of words. -/
theorem Reader.longField_eq_ok {what : String} {min max : Nat} {field : Bytes} :
    longField what min max spelling input = .ok field rest ↔
      (min ≤ field.length ∧ field.length ≤ max) ∧ field.length ≤ 2147483647 ∧
        numeral what 4 isTrimmed spelling input = .ok field.length (field ++ rest) := by
  simp only [longField, bind_eq_ok, check_eq_ok, checkRange_eq_ok_iff, bytes_eq_ok]
  constructor
  · rintro ⟨count, mid, hcount, _, _, ⟨hr, rfl⟩, hlen, rfl⟩
    have hlt := count.toInt_lt
    rw [integer32_eq_ok_of_nonneg (by omega), ← hlen] at hcount
    exact ⟨by omega, by omega, hcount⟩
  · rintro ⟨hr, hle, hn⟩
    have hto : (UInt32.ofNat field.length).toInt32.toInt = field.length :=
      toInt_toInt32_of_lt (by omega)
    refine ⟨_, _, (integer32_eq_ok_of_natCast (by omega)).mpr hn, (), _, ⟨?_, rfl⟩, ?_, rfl⟩
    · rw [hto]
      omega
    · rw [hto, Int.toNat_natCast]

theorem Reader.Inverts.longField {what : String} {min max : Nat} {field : Bytes}
    (hmin : min ≤ field.length) (hmax : field.length ≤ max) :
    (Reader.longField what min max).Inverts (Writer.longField field) field := by
  intro bytes hb spelling rest
  obtain ⟨hle, rfl⟩ := Writer.longField_eq_ok.mp hb
  refine longField_eq_ok.mpr ⟨⟨hmin, hmax⟩, hle, (numeral_eq_ok (by omega)).mpr ?_⟩
  refine ⟨trimmed 4 field.length, length_trimmed_le 4 _, ?_, by simp, ?_⟩
  · exact fun _ => isTrimmed_trimmed (by omega) field.length
  · rw [ofBigEndian_trimmed, Nat.mod_eq_of_lt (by omega)]

/-- A field of more bytes than its reader lets it have, though a writer gave it its length. -/
theorem Reader.Rejects.longField {what : String} {min max : Nat} {field : Bytes}
    (h : max < field.length) : (Reader.longField what min max).Rejects (Writer.longField field)
      (.outOfRange what field.length min max) := by
  intro bytes hb spelling rest
  obtain ⟨hle, rfl⟩ := Writer.longField_eq_ok.mp hb
  have hlt : field.length < 2147483648 := by omega
  have hlength : (Reader.integer32 what).Inverts (Writer.numeral 4 field.length)
      (UInt32.ofNat field.length).toInt32 := Inverts.length hlt (Nat.le_refl 4)
  have hcount := hlength _ (Writer.numeral_eq _ _) spelling (field ++ rest)
  have hto := toInt_toInt32_of_lt hlt
  have hcheck : checkRange what (UInt32.ofNat field.length).toInt32.toInt min max =
      .error (.outOfRange what field.length min max) := by
    rw [checkRange, hto, if_pos (by omega)]
  refine ⟨field ++ rest, ?_⟩
  rw [List.cons_append, List.append_assoc, Reader.longField]
  rw [List.cons_append] at hcount
  rw [bind_of_ok hcount, hcheck]
  rfl

theorem Writer.Restores.longField {what : String} {min max : Nat} {field : Bytes}
    (h : Reader.longField what min max spelling input = .ok field rest) :
    (Writer.longField field).Restores (spelling = .written) input rest := by
  obtain ⟨-, hle, hn⟩ := Reader.longField_eq_ok.mp h
  obtain ⟨digits, hlen, hw, rfl, hd⟩ := (Reader.numeral_eq_ok (by omega)).mp hn
  refine ⟨_, Writer.longField_eq_ok.mpr ⟨hle, rfl⟩, fun hf => ?_⟩
  rw [← hd, trimmed_ofBigEndian_of_isTrimmed (hw hf) hlen]
  simp

theorem Writer.length_longField {what : String} {min max : Nat} {field : Bytes}
    (h : Reader.longField what min max spelling input = .ok field rest) {bytes : Bytes}
    (hb : longField field = ⟨bytes, .ok ()⟩) :
    bytes.length + rest.length ≤ input.length ∨ bytes.length = 2 := by
  obtain ⟨-, -, hn⟩ := Reader.longField_eq_ok.mp h
  obtain ⟨-, rfl⟩ := longField_eq_ok.mp hb
  have hlen := Reader.length_numeral (by omega) (by omega) hn
  simp only [List.length_cons, List.length_append] at hlen ⊢
  omega

/-- A field whose content was itself read and written again, and may have changed its size. -/
theorem Writer.Restores.longPart {what : String} {min max : Nat} {raw part : Bytes}
    (h : Reader.longField what min max spelling input = .ok raw rest)
    (hle : part.length ≤ 2147483647) (hp : spelling = .written → raw = part) :
    (Writer.longField part).Restores (spelling = .written) input rest := by
  by_cases hf : spelling = .written
  · rw [← hp hf]
    exact longField h
  · exact ⟨_, Writer.longField_eq_ok.mpr ⟨hle, rfl⟩, fun hw => absurd hw hf⟩

end ProofOfProof
