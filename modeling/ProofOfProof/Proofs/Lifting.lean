import ProofOfProof.Proofs.Regular
import ProofOfProof.Proofs.Sequence
import ProofOfProof.Proofs.SignedInteger

/-! Lists in terms of the codec of their items. A count that is out of range ends the reading before
any item; otherwise a list is read by taking its items one after the other, up to the first that
fails. -/

namespace ProofOfProof

variable {α : Type} {spelling : Spelling} {input body rest left : Bytes}
variable {what : String} {min max count : Nat} {item : Reader α} {items : List α} {fault : Fault}

/-- `items` are taken one after the other, each from where the one in front of it stopped. -/
inductive Takes (item : EStateM Fault Bytes α) : List α → Bytes → Bytes → Prop
  | nil {input : Bytes} : Takes item [] input input
  | cons {a : α} {items : List α} {input mid rest : Bytes} :
      item input = .ok a mid → Takes item items mid rest → Takes item (a :: items) input rest

/-- `input` begins with a spelling of `count` in at most four bytes, behind which stands `body`. -/
def Declares (spelling : Spelling) (count : Int) (input body : Bytes) : Prop :=
  ∃ digits : Bytes, digits.length ≤ 4 ∧ (spelling = .written → isTrimmed digits = true) ∧
    input = UInt8.ofNat digits.length :: (digits ++ body) ∧
    count = twosComplement (zeroExtended 4 digits)

namespace Reader

theorem replicate_eq_ok_iff : replicate count item spelling input = .ok items rest ↔
    items.length = count ∧ Takes (item spelling) items input rest := by
  induction count generalizing input items with
  | zero =>
    constructor
    · intro h
      cases h
      exact ⟨rfl, .nil⟩
    · rintro ⟨hlen, htakes⟩
      cases htakes with
      | nil => rfl
      | cons _ _ => cases hlen
  | succ count ih =>
    rw [replicate_succ_eq_ok]
    constructor
    · rintro ⟨a, items', mid, rfl, ha, hitems⟩
      obtain ⟨hlen, htakes⟩ := ih.mp hitems
      exact ⟨by rw [List.length_cons, hlen], .cons ha htakes⟩
    · rintro ⟨hlen, htakes⟩
      cases htakes with
      | nil => cases hlen
      | cons ha htakes => exact ⟨_, _, _, rfl, ha, ih.mpr ⟨Nat.succ.inj hlen, htakes⟩⟩

theorem replicate_eq_error_iff : replicate count item spelling input = .error fault left ↔
    ∃ front mid, front.length < count ∧ Takes (item spelling) front input mid ∧
      item spelling mid = .error fault left := by
  induction count generalizing input with
  | zero =>
    constructor
    · intro h
      cases h
    · rintro ⟨front, mid, hlt, -⟩
      cases hlt
  | succ count ih =>
    -- Either the first item fails, or behind it the others do.
    simp only [replicate_succ, bind_eq_error, map_eq_error, ih]
    constructor
    · rintro (hfault | ⟨a, mid, ha, front, last, hlt, htakes, hfault⟩)
      · exact ⟨[], input, Nat.succ_pos count, .nil, hfault⟩
      · exact ⟨a :: front, last, Nat.succ_lt_succ hlt, .cons ha htakes, hfault⟩
    · rintro ⟨front, last, hlt, htakes, hfault⟩
      cases htakes with
      | nil => exact .inl hfault
      | cons ha htakes =>
        exact .inr ⟨_, _, ha, _, last, Nat.lt_of_succ_lt_succ hlt, htakes, hfault⟩

theorem exists_integer32_of_declares {n : Int} (what : String) (h : Declares spelling n input body) :
    ∃ word : Int32, word.toInt = n ∧ integer32 what spelling input = .ok word body := by
  obtain ⟨digits, hlen, hs, rfl, rfl⟩ := h
  have hlt : ofBigEndian digits < 256 ^ 4 :=
    Nat.lt_of_lt_of_le (ofBigEndian_lt digits) (Nat.pow_le_pow_right (by omega) hlen)
  refine ⟨(UInt32.ofNat (ofBigEndian digits)).toInt32, ?_, map_eq_ok.mpr ⟨_, ?_, rfl⟩⟩
  · exact (@IntegerWidth.toInt_eq_iff .four _ _ hlen).mpr (toNat_toInt32 hlt)
  · exact (numeral_eq_ok (by omega)).mpr ⟨digits, hlen, hs, rfl, rfl⟩

theorem counted_of_outside {word : Int32} (h : word.toInt < min ∨ max < word.toInt) :
    counted word what min max item spelling body =
      .error (.outOfRange what word.toInt min max) body := by
  rw [counted, checkRange, if_pos h]
  rfl

theorem counted_of_within {word : Int32} (hmin : min ≤ word.toInt) (hmax : word.toInt ≤ max) :
    counted word what min max item = replicate word.toInt.toNat item := by
  rw [counted, check_of_ok (checkRange_eq_ok_iff (u := ()).mpr ⟨hmin, hmax⟩)]
  rfl

theorem sequence_of_declares {n : Int} (h : Declares spelling n input body) :
    ∃ word : Int32, word.toInt = n ∧ sequence what min max item spelling input =
      counted word what min max item spelling body := by
  obtain ⟨word, hword, hread⟩ := exists_integer32_of_declares what h
  exact ⟨word, hword, bind_of_ok hread⟩

theorem sequence_append {write : α → Writer Unit} {bytes : Bytes} (hlt : items.length < 2147483648)
    (hmin : min ≤ items.length) (hmax : items.length ≤ max)
    (hitem : ∀ a ∈ items, ∀ part, write a = ⟨part, .ok ()⟩ →
      ∀ rest, item spelling (part ++ rest) = .ok a rest)
    (hw : Writer.sequence items write = ⟨bytes, .ok ()⟩) :
    sequence what min max item spelling (bytes ++ rest) = .ok items rest := by
  -- The law is known under one spelling, so it is that of a reader that does not ask for any.
  have hinv : ∀ a ∈ items, Inverts (fun _ => item spelling) (write a) a :=
    fun a ha part hpart _ => hitem a ha part hpart
  have hread : sequence what min max (fun _ => item spelling) spelling (bytes ++ rest) =
      .ok items rest := Inverts.sequence hlt hmin hmax hinv bytes hw spelling rest
  obtain ⟨hrange, -, mid, hcount, hitems⟩ := sequence_eq_ok.mp hread
  have htakes := replicate_eq_ok_iff.mp hitems
  exact sequence_eq_ok.mpr ⟨hrange, hlt, mid, hcount, replicate_eq_ok_iff.mpr htakes⟩

end Reader

/-- The codec of an item carries over to lists. A list in range comes back from what was written of
it, whatever follows. A count out of range is refused whichever reader there is for the items, and
nothing behind it is consumed; behind one in range the reading succeeds with the items that are
taken one after the other, or fails as the first of them that fails. -/
theorem sequence_lifts (write : α → Writer Unit) (item : Reader α) (what : String) (min max : Nat)
    (spelling : Spelling) :
    (∀ items : List α, items.length < 2147483648 → min ≤ items.length → items.length ≤ max →
      (∀ a ∈ items, (write a).Ends) →
      (∀ a ∈ items, ∀ bytes, write a = ⟨bytes, .ok ()⟩ →
        ∀ rest, item spelling (bytes ++ rest) = .ok a rest) →
      ∃ bytes, Writer.sequence items write = ⟨bytes, .ok ()⟩ ∧
        ∀ rest, Reader.sequence what min max item spelling (bytes ++ rest) = .ok items rest) ∧
    ∀ (count : Int) (input body : Bytes), Declares spelling count input body →
      (count < min ∨ max < count → ∀ other : Reader α,
        Reader.sequence what min max other spelling input =
          .error (.outOfRange what count min max) body) ∧
      (min ≤ count → count ≤ max →
        (∀ items rest, Reader.sequence what min max item spelling input = .ok items rest ↔
          items.length = count ∧ Takes (item spelling) items body rest) ∧
        ∀ fault left, Reader.sequence what min max item spelling input = .error fault left ↔
          ∃ front mid, front.length < count ∧ Takes (item spelling) front body mid ∧
            item spelling mid = .error fault left) := by
  refine ⟨fun items hlt hmin hmax hends hitem => ?_, fun count input body h => ⟨?_, ?_⟩⟩
  · obtain ⟨bytes, hw⟩ := Writer.Ends.sequence hends
    exact ⟨bytes, hw, fun rest => Reader.sequence_append hlt hmin hmax hitem hw⟩
  · intro hout other
    obtain ⟨word, rfl, hsequence⟩ := Reader.sequence_of_declares h
    rw [hsequence, Reader.counted_of_outside hout]
  · intro hmin hmax
    obtain ⟨word, rfl, hsequence⟩ := Reader.sequence_of_declares h
    rw [hsequence, Reader.counted_of_within hmin hmax]
    refine ⟨fun items rest => Reader.replicate_eq_ok_iff.trans (and_congr_left fun _ => ?_),
      fun fault left => Reader.replicate_eq_error_iff.trans ?_⟩
    · omega
    · refine exists_congr fun front => exists_congr fun mid => and_congr_left fun _ => ?_
      omega

theorem sequence_lifts_words :
    Reader.sequence "words" 0 3 .uint32 .any [1, 3, 0, 0, 0, 1, 0, 0, 0, 2, 0, 0, 0, 3, 9] =
      .ok [1, 2, 3] [9] ∧
    Reader.sequence "words" 0 3 .uint32 .any [4, 255, 255, 255, 251, 0, 0, 0, 1] =
      .error (.outOfRange "words" (-5) 0 3) [0, 0, 0, 1] ∧
    Reader.sequence "words" 0 3 .uint32 .any [1, 2, 0, 0, 0, 1, 0, 0] =
      .error (.truncated 4 2) [0, 0] := by
  obtain ⟨hback, hdeclared⟩ := sequence_lifts .uint32 .uint32 "words" 0 3 .any
  obtain ⟨bytes, hbytes, hread⟩ := hback [1, 2, 3] (by decide) (by decide) (by decide)
    (fun _ _ => ⟨_, rfl⟩) fun a _ part hpart rest => Reader.Inverts.uint32 a part hpart .any rest
  have hwritten : Writer.sequence [1, 2, 3] .uint32 =
      ⟨[1, 3, 0, 0, 0, 1, 0, 0, 0, 2, 0, 0, 0, 3], .ok ()⟩ := rfl
  rw [hwritten] at hbytes
  cases hbytes
  have hnegative : Declares .any (-5) [4, 255, 255, 255, 251, 0, 0, 0, 1] [0, 0, 0, 1] :=
    ⟨[255, 255, 255, 251], by decide, by decide, rfl, by decide⟩
  have htwo : Declares .any 2 [1, 2, 0, 0, 0, 1, 0, 0] [0, 0, 0, 1, 0, 0] :=
    ⟨[2], by decide, by decide, rfl, by decide⟩
  have hfirst : Takes (Reader.uint32 .any) [1] [0, 0, 0, 1, 0, 0] [0, 0] := .cons rfl .nil
  obtain ⟨-, hfault⟩ := (hdeclared _ _ _ htwo).2 (by decide) (by decide)
  refine ⟨hread [9], (hdeclared _ _ _ hnegative).1 (by decide) .uint32, ?_⟩
  exact (hfault _ _).mpr ⟨[1], [0, 0], by decide, hfirst, rfl⟩

end ProofOfProof
