import ProofOfProof.Proofs.Grammar

/-! The address of a public key. It is put together without being checked, and is an address for
every hash: no hash of 32 bytes is so short in base 58 that a character of the text is missing. -/

namespace ProofOfProof

namespace Address

/-- The standard address of a key under a hash. -/
def keyText (digest : Bytes → Hash) (key : Bytes) : List Char :=
  let front := 'V' :: (base58.encode (digest key).val).take 24
  front ++ (base58.encode (digest (asciiBytes front)).val).take 5

theorem standardText_keyText (digest : Bytes → Hash) (key : Bytes) :
    StandardText digest (keyText digest key) := by
  let front := 'V' :: (base58.encode (digest key).val).take 24
  have hfront : front.length = 25 := by
    have hlong := length_le_length_base58 (digest key)
    simp only [front, List.length_cons, List.length_take]
    omega
  have hsum : ((base58.encode (digest (asciiBytes front)).val).take 5).length = 5 := by
    have hlong := length_le_length_base58 (digest (asciiBytes front))
    rw [List.length_take]
    omega
  have hsymbols : ∀ c ∈ keyText digest key, c ∈ base58.symbols := by
    intro c hc
    rcases List.mem_append.mp hc with hc | hc
    · rcases List.mem_cons.mp hc with rfl | hc
      · decide
      · exact Alphabet.mem_symbols_of_mem_encode (List.mem_of_mem_take hc)
    · exact Alphabet.mem_symbols_of_mem_encode (List.mem_of_mem_take hc)
  have htake : (keyText digest key).take 25 = front := List.take_left' hfront
  have hdrop : (keyText digest key).drop 25 =
      (base58.encode (digest (asciiBytes front)).val).take 5 := List.drop_left' hfront
  refine ⟨⟨?_, fun c hc => (base58_ascii (hsymbols c hc)).1, rfl⟩, hsymbols, ?_⟩
  · rw [← List.take_append_drop 25 (keyText digest key), List.length_append, htake, hdrop, hfront,
      hsum]
  · rw [htake, hdrop]

theorem toList_ofPublicKey (key : Bytes) : (ofPublicKey key).text.toList = keyText sha256 key :=
  String.toList_ofList

theorem eq_of_text {a b : Address} (h : a.text = b.text) : a = b := by
  have hparse := parse_text a
  rw [h, parse_text b] at hparse
  cases hparse
  rfl

theorem belongsTo_iff {a : Address} {key : Bytes} :
    a.belongsTo key = true ↔ a.text = (ofPublicKey key).text := by
  rw [belongsTo, decide_eq_true_eq]
  exact ⟨fun h => congrArg text h, eq_of_text⟩

theorem exists_encode_decode (a : Address) (limits : Limits) :
    ∃ bytes, encode a = .ok bytes ∧ decode limits bytes = .ok a := by
  obtain ⟨bytes, hbytes⟩ := a.ends
  exact ⟨bytes, Writer.toBytes_eq_ok.mpr hbytes, a.inverts.whole_eq_ok hbytes .any⟩

/-- The address of a key is a standard address, read back from its text and from its bytes, and the
only one that belongs to the key. Its text is one of the grammar whatever the hash. -/
theorem parse_ofPublicKey (key : Bytes) :
    (ofPublicKey key).kind = .standard ∧ (ofPublicKey key).text.length = 30 ∧
    parse (ofPublicKey key).text = .ok (ofPublicKey key) ∧
    (∀ limits, ∃ bytes, encode (ofPublicKey key) = .ok bytes ∧
      decode limits bytes = .ok (ofPublicKey key)) ∧
    (∀ a : Address, a.belongsTo key = true ↔ a.text = (ofPublicKey key).text) ∧
    (∀ a : Address, a.kind = .multisig → a.belongsTo key = false) ∧
    (ofPublicKey key).text.toList = keyText sha256 key ∧
    ∀ digest, StandardText digest (keyText digest key) := by
  refine ⟨rfl, ?_, parse_text _, exists_encode_decode _, fun a => belongsTo_iff, fun a ha => ?_,
    toList_ofPublicKey key, fun digest => standardText_keyText digest key⟩
  · rw [← String.length_toList, toList_ofPublicKey]
    exact (standardText_keyText sha256 key).length
  · by_contra hkey
    have hsame : a = ofPublicKey key :=
      eq_of_text (belongsTo_iff.mp (Bool.eq_true_of_not_eq_false hkey))
    rw [hsame] at ha
    cases ha

end Address

end ProofOfProof
