import ProofOfProof.Proofs.Integer
import ProofOfProof.Wire.Sequence

/-! Lists behind their count, whose width on the wire is not the same for readers and writers. -/

namespace ProofOfProof

variable {α : Type} {spelling : Spelling} {input rest : Bytes}
variable {what : String} {min max : Nat} {item : Reader α} {items : List α}

theorem Reader.eq_ok_of_counted {count : Int32}
    (h : counted count what min max item spelling input = .ok items rest) :
    (min ≤ items.length ∧ items.length ≤ max) ∧ count.toInt = items.length ∧
      replicate items.length item spelling input = .ok items rest := by
  simp only [counted, bind_eq_ok, check_eq_ok, checkRange_eq_ok_iff] at h
  obtain ⟨_, _, ⟨hr, rfl⟩, hitems⟩ := h
  have hlen := length_of_replicate hitems
  rw [← hlen] at hitems
  exact ⟨by omega, by omega, hitems⟩

theorem Reader.sequence_eq_ok :
    sequence what min max item spelling input = .ok items rest ↔
      (min ≤ items.length ∧ items.length ≤ max) ∧ items.length < 2147483648 ∧ ∃ mid,
        numeral what 4 isTrimmed spelling input = .ok items.length mid ∧
          replicate items.length item spelling mid = .ok items rest := by
  constructor
  · intro h
    obtain ⟨count, mid, hcount, hitems⟩ := bind_eq_ok.mp h
    obtain ⟨hr, hlen, hitems⟩ := eq_ok_of_counted hitems
    have hlt := count.toInt_lt
    rw [integer32_eq_ok_of_nonneg (by omega), hlen, Int.toNat_natCast] at hcount
    exact ⟨hr, by omega, mid, hcount, hitems⟩
  · rintro ⟨hr, hlt, mid, hcount, hitems⟩
    have hto := toInt_toInt32_of_lt hlt
    refine bind_eq_ok.mpr ⟨_, mid, (integer32_eq_ok_of_natCast hlt).mpr hcount, ?_⟩
    refine check_bind_eq_ok.mpr ⟨(), checkRange_eq_ok_iff.mpr ?_, ?_⟩
    · rw [hto]
      omega
    · rwa [hto, Int.toNat_natCast]

theorem Reader.forall_mem_sequence {p : α → Prop}
    (h : sequence what min max item spelling input = .ok items rest)
    (hp : ∀ {a input rest}, item spelling input = .ok a rest → p a) : ∀ a ∈ items, p a := by
  obtain ⟨-, -, mid, -, hitems⟩ := sequence_eq_ok.mp h
  exact forall_mem_replicate hitems hp

theorem Reader.Inverts.counted {write : α → Writer Unit} (h : items.length < 2147483648)
    (hmin : min ≤ items.length) (hmax : items.length ≤ max)
    (hitem : ∀ a ∈ items, item.Inverts (write a) a) :
    (Reader.counted (UInt32.ofNat items.length).toInt32 what min max item).Inverts
      (Writer.each items write) items := by
  have hto := toInt_toInt32_of_lt h
  refine check_reader (x := ()) ?_ ?_
  · rw [checkRange_eq_ok_iff, hto]
    omega
  · rw [hto, Int.toNat_natCast]
    exact each hitem

theorem Writer.sequence_eq (h : items.length < 18446744073709551616) (write : α → Writer Unit) :
    sequence items write = numeral 8 items.length >>= fun _ => each items write := by
  rw [sequence, integer64, toNat_toInt64 h]

theorem Writer.Ends.sequence {write : α → Writer Unit} (h : ∀ a ∈ items, (write a).Ends) :
    (Writer.sequence items write).Ends :=
  .bind (.integer64 _) (.each h)

theorem Reader.Inverts.sequence {write : α → Writer Unit} (h : items.length < 2147483648)
    (hmin : min ≤ items.length) (hmax : items.length ≤ max)
    (hitem : ∀ a ∈ items, item.Inverts (write a) a) :
    (Reader.sequence what min max item).Inverts (Writer.sequence items write) items := by
  rw [Writer.sequence_eq (by omega)]
  exact (length h (by omega)).bind (counted h hmin hmax hitem)

theorem Writer.Restores.sequence {write : α → Writer Unit}
    (h : Reader.sequence what min max item spelling input = .ok items rest)
    (hitem : ∀ {a input rest}, item spelling input = .ok a rest →
      (write a).Restores (spelling = .written) input rest) :
    (Writer.sequence items write).Restores (spelling = .written) input rest := by
  obtain ⟨-, hlt, mid, hcount, hitems⟩ := Reader.sequence_eq_ok.mp h
  rw [Writer.sequence_eq (by omega)]
  exact (numeral (by omega) (by omega) hcount).bind (replicate hitems hitem)

theorem Writer.AtMost.sequence {write : α → Writer Unit} {n : Nat}
    (h : ∀ a ∈ items, (write a).AtMost n) :
    (Writer.sequence items write).AtMost (9 + items.length * n) :=
  (integer64_atMost _).bind (each h)

/-- Lists that are read and written under limits of their own. -/
theorem Reader.Normalises.sequence {write : α → Writer Unit} {limit : Nat} (hl : max ≤ limit)
    (h : item.Normalises write (· = .written)) :
    (Reader.sequence what 0 max item).Normalises (fun items => do
      .check (checkLimit what items.length limit)
      .sequence items write) (· = .written) := by
  intro spelling input items rest hr
  obtain ⟨⟨-, hlen⟩, hlt, -⟩ := sequence_eq_ok.mp hr
  have hitem : ∀ a ∈ items, item.Inverts (write a) a :=
    forall_mem_sequence hr fun ha => (h.of_ok ha).2
  refine ⟨.limit (Nat.le_trans hlen hl) ?_,
    .limit fun _ => .sequence hlt (Nat.zero_le _) hlen hitem⟩
  exact .sequence hr fun ha => (h.of_ok ha).1

end ProofOfProof
