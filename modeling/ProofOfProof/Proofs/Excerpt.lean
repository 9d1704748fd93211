import ProofOfProof.Proofs.Address

/-! The excerpt of an address. Where three digits of one radix count further than two of another, a
numeral keeps two thirds of its length, and leading zeros keep all of theirs: so the 29 characters
behind `V` spell enough bytes in either alphabet, whatever they are. -/

namespace ProofOfProof

namespace Radix

theorem lt_length_convert {source target top : Nat} {ds : List Nat} (hs : 1 < source)
    (ht : 1 < target) (hpow : target ^ 2 ≤ source ^ 3) (hpos : 0 < top) :
    2 * ds.length < 3 * (convert source target (top :: ds)).length := by
  have hvalue : source ^ ds.length ≤ Nat.ofDigits source (top :: ds).reverse := by
    have hscaled : 1 * source ^ ds.length ≤ top * source ^ ds.length :=
      Nat.mul_le_mul_right _ hpos
    rw [ofDigits_reverse_cons]
    omega
  have hlt : source ^ ds.length < target ^ (convert source target (top :: ds)).length := by
    rw [convert_eq_digits (by omega) ht]
    exact hvalue.trans_lt (Nat.lt_base_pow_length_digits ht)
  by_contra hshort
  -- Both sides cubed, the two radices meet as two digits of one against three of the other.
  have hcubes : (target ^ (convert source target (top :: ds)).length) ^ 3 ≤
      (source ^ ds.length) ^ 3 := by
    calc (target ^ (convert source target (top :: ds)).length) ^ 3
        = target ^ (3 * (convert source target (top :: ds)).length) := by
          rw [← Nat.pow_mul, Nat.mul_comm]
      _ ≤ target ^ (2 * ds.length) := Nat.pow_le_pow_right (by omega) (by omega)
      _ = (target ^ 2) ^ ds.length := Nat.pow_mul target 2 ds.length
      _ ≤ (source ^ 3) ^ ds.length := Nat.pow_le_pow_left hpow _
      _ = (source ^ ds.length) ^ 3 := Nat.pow_right_comm source 3 ds.length
  exact absurd (Nat.pow_lt_pow_left hlt (by omega)) (Nat.not_lt.mpr hcubes)

theorem le_length_transcribe {source target : Nat} (hs : 1 < source) (ht : 1 < target)
    (hpow : target ^ 2 ≤ source ^ 3) (ds : List Nat) :
    2 * ds.length ≤ 3 * (transcribe source target ds).length + 1 := by
  have hsplit := congrArg List.length (List.takeWhile_append_dropWhile (p := (· == 0)) (l := ds))
  rw [List.length_append] at hsplit
  rw [transcribe, List.length_append, List.length_reverse]
  cases hrest : ds.dropWhile (· == 0) with
  | nil =>
    simp only [hrest, List.length_nil] at hsplit
    omega
  | cons top tail =>
    have hpos : 0 < top := pos_of_mem_head?_dropWhile ds top (by simp [hrest])
    have hlong : 2 * tail.length < 3 * (convert source target (top :: tail)).length :=
      lt_length_convert hs ht hpow hpos
    simp only [hrest, List.length_cons] at hsplit
    omega

end Radix

/-- Every three symbols of a text spell two bytes or more, and what is left over one or more. -/
theorem Alphabet.le_length_of_decode {a : Alphabet} (hb : 1 < a.base) (hpow : 256 ^ 2 ≤ a.base ^ 3)
    {text : List Char} {bytes : Bytes} (h : a.decode text = .ok bytes) :
    2 * text.length ≤ 3 * bytes.length + 1 := by
  cases hds : a.digits text with
  | error c => simp [decode, hds] at h
  | ok ds =>
    obtain ⟨-, rfl⟩ := eq_map_symbol_of_digits hds
    rw [decode_eq_map_transcribe hds] at h
    cases h
    simpa using Radix.le_length_transcribe hb (by omega) hpow ds

theorem AddressKind.le_base_pow (kind : AddressKind) : 256 ^ 2 ≤ kind.alphabet.base ^ 3 := by
  cases kind <;> decide

namespace Address

theorem exists_decodeText_tail (a : Address) :
    ∃ body, a.kind.decodeText (a.text.toList.drop 1) = .ok body := by
  have hall := Alphabet.contains_iff.mp (contains_of_classify a.admitted)
  have htail : a.kind.alphabet.contains (a.text.toList.drop 1) = true :=
    Alphabet.contains_iff.mpr fun c hc => hall c (List.mem_of_mem_drop hc)
  obtain ⟨body, hbody⟩ := Alphabet.exists_decode htail
  exact ⟨body, AddressKind.decodeText_eq_ok.mpr hbody⟩

theorem length_of_decodeText_tail {a : Address} {body : Bytes}
    (h : a.kind.decodeText (a.text.toList.drop 1) = .ok body) : 15 ≤ body.length := by
  obtain ⟨tail, htail, hlen⟩ := a.exists_tail
  rw [htail, List.drop_one, List.tail_cons, AddressKind.decodeText_eq_ok] at h
  have hle := Alphabet.le_length_of_decode a.kind.one_lt_base a.kind.le_base_pow h
  omega

/-- Every address has an excerpt: the characters behind `V` spell bytes, and enough of them. -/
theorem exists_excerpt (a : Address) :
    ∃ body, a.kind.decodeText (a.text.toList.drop 1) = .ok body ∧ 15 ≤ body.length ∧
      ∃ excerpt, a.excerpt = .ok excerpt ∧ excerpt.val = body.take 15 := by
  obtain ⟨body, hbody⟩ := a.exists_decodeText_tail
  have hlong := length_of_decodeText_tail hbody
  have hexcerpt : a.excerpt = .ok (Fixed.first 15 ⟨body, rfl⟩ hlong) := by
    simp only [excerpt, hbody]
    exact dif_pos hlong
  exact ⟨body, hbody, hlong, _, hexcerpt, rfl⟩

end Address

end ProofOfProof
