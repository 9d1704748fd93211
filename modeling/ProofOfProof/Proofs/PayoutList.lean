import ProofOfProof.Proofs.Credit
import ProofOfProof.Proofs.Record

/-! Lists of payouts on the wire. A list is decoded exactly where it is spelled as a list of
ascending destinations, and then every entry of it is kept as it was written. -/

namespace ProofOfProof.Payouts

variable {entry : Entry} {entries : List Entry} {input rest : Bytes} {limits : Limits}

/-- A length or count below half the range of words, in any spelling of it. -/
def SpelledLength (n : Nat) (spelled : Bytes) : Prop :=
  n < 2147483648 ∧ ∃ digits : Bytes, digits.length ≤ 4 ∧ ofBigEndian digits = n ∧
    spelled = UInt8.ofNat digits.length :: digits

/-- A destination behind its length, and all eight bytes of an amount. -/
def SpelledEntry (entry : Entry) (spelled : Bytes) : Prop :=
  entry.1.length ≤ 10000 ∧ ∃ length, SpelledLength entry.1.length length ∧
    spelled = length ++ entry.1 ++ bigEndian 8 entry.2.toNat

inductive SpelledEntries : List Entry → Bytes → Prop
  | nil : SpelledEntries [] []
  | cons {entry : Entry} {entries : List Entry} {front back : Bytes} :
      SpelledEntry entry front → SpelledEntries entries back →
      SpelledEntries (entry :: entries) (front ++ back)

/-- A count, and behind it as many entries and nothing else. -/
def SpelledList (entries : List Entry) (spelled : Bytes) : Prop :=
  ∃ count body, SpelledLength entries.length count ∧ SpelledEntries entries body ∧
    spelled = count ++ body

theorem length_eq_ok {what : String} {n : Nat} (hn : n < 2147483648) :
    Reader.numeral what 4 isTrimmed .any input = .ok n rest ↔
      ∃ length, SpelledLength n length ∧ input = length ++ rest := by
  rw [Reader.numeral_eq_ok (by omega)]
  constructor
  · rintro ⟨digits, hlen, -, rfl, hd⟩
    exact ⟨_, ⟨hn, digits, hlen, hd, rfl⟩, rfl⟩
  · rintro ⟨_, ⟨-, digits, hlen, hd, rfl⟩, rfl⟩
    exact ⟨digits, hlen, by simp, rfl, hd⟩

theorem readEntry_eq_ok : readEntry .any input = .ok entry rest ↔
    ∃ spelled, SpelledEntry entry spelled ∧ input = spelled ++ rest := by
  simp only [readEntry, Reader.bind_eq_ok, Reader.longField_eq_ok, Reader.uint64_eq_ok,
    Reader.pure_eq_ok]
  constructor
  · rintro ⟨info, _, ⟨⟨-, hle⟩, hlt, hn⟩, amount, _, rfl, rfl, rfl⟩
    obtain ⟨length, hlength, rfl⟩ := (length_eq_ok (by omega)).mp hn
    exact ⟨_, ⟨hle, length, hlength, rfl⟩, by simp⟩
  · rintro ⟨_, ⟨hle, length, hlength, rfl⟩, rfl⟩
    have hlt := hlength.1
    refine ⟨entry.1, _, ⟨⟨Nat.zero_le _, hle⟩, by omega, ?_⟩, entry.2, rest, rfl, rfl, rfl⟩
    exact (length_eq_ok hlt).mpr ⟨length, hlength, by simp⟩

theorem replicate_eq_ok :
    Reader.replicate entries.length readEntry .any input = .ok entries rest ↔
      ∃ spelled, SpelledEntries entries spelled ∧ input = spelled ++ rest := by
  induction entries generalizing input with
  | nil =>
    constructor
    · intro h
      cases h
      exact ⟨[], .nil, rfl⟩
    · rintro ⟨_, h, rfl⟩
      cases h
      rfl
  | cons entry entries ih =>
    rw [List.length_cons, Reader.replicate_succ_eq_ok]
    constructor
    · rintro ⟨_, _, mid, he, hentry, hentries⟩
      cases he
      obtain ⟨front, hfront, rfl⟩ := readEntry_eq_ok.mp hentry
      obtain ⟨back, hback, rfl⟩ := ih.mp hentries
      exact ⟨front ++ back, .cons hfront hback, by simp⟩
    · rintro ⟨_, h, rfl⟩
      cases h with
      | @cons _ _ front back hfront hback =>
        refine ⟨entry, entries, back ++ rest, rfl, ?_, ih.mpr ⟨back, hback, rfl⟩⟩
        exact readEntry_eq_ok.mpr ⟨front, hfront, by simp⟩

theorem readEntries_eq_ok {what : String} {max : Nat} :
    Reader.sequence what 0 max readEntry .any input = .ok entries rest ↔
      entries.length ≤ max ∧ ∃ spelled, SpelledList entries spelled ∧ input = spelled ++ rest := by
  rw [Reader.sequence_eq_ok]
  constructor
  · rintro ⟨⟨-, hle⟩, hlt, mid, hmid, hentries⟩
    obtain ⟨count, hcount, rfl⟩ := (length_eq_ok hlt).mp hmid
    obtain ⟨body, hbody, rfl⟩ := replicate_eq_ok.mp hentries
    exact ⟨hle, _, ⟨count, body, hcount, hbody, rfl⟩, by simp⟩
  · rintro ⟨hle, _, ⟨count, body, hcount, hbody, rfl⟩, rfl⟩
    refine ⟨⟨Nat.zero_le _, hle⟩, hcount.1, body ++ rest, ?_, ?_⟩
    · exact (length_eq_ok hcount.1).mpr ⟨count, hcount, by simp⟩
    · exact replicate_eq_ok.mpr ⟨body, hbody, rfl⟩

/-- Of a list that is spelled as lists are only the order can be wrong. -/
theorem decode_of_spelled (h : SpelledList entries input) (hle : entries.length ≤ limits.payouts) :
    decode limits input = ofEntries entries := by
  have hread : Reader.sequence "pop-payouts" 0 limits.payouts readEntry .any input =
      .ok entries [] := readEntries_eq_ok.mpr ⟨hle, input, h, by simp⟩
  have hcheck : (Wire.read limits : Reader Payouts) .any input =
      Reader.check (ofEntries entries) .any [] := Reader.bind_of_ok hread
  rw [decode, Reader.whole, hcheck]
  cases ofEntries entries with
  | error fault => rfl
  | ok payouts => rfl

theorem spelled_of_decode {payouts : Payouts} (h : decode limits input = .ok payouts) :
    payouts.size ≤ limits.payouts ∧ SpelledList payouts.entries input := by
  obtain ⟨entries, mid, hentries, h⟩ := Reader.bind_eq_ok.mp (Reader.whole_eq_ok.mp h)
  obtain ⟨he, rfl⟩ := Reader.check_eq_ok.mp h
  obtain rfl := ofEntries_eq_ok.mp he
  obtain ⟨hle, spelled, hspelled, rfl⟩ := readEntries_eq_ok.mp hentries
  exact ⟨hle, by simpa using hspelled⟩

/-- Entries that ascend are the payouts that come of crediting them one by one. -/
theorem ofEntries_of_ascends (h : (entries.map Prod.fst).Pairwise (· < ·)) :
    ofEntries entries = .ok (empty.addAll entries) :=
  ofEntries_eq_ok.mpr (entries_addAll (ascends_iff_pairwise.mpr h))

theorem ofEntries_of_not_ascends (h : ¬ (entries.map Prod.fst).Pairwise (· < ·)) :
    ofEntries entries = .error (.content .payoutOrder) := by
  rw [← ascends_iff_pairwise] at h
  rw [ofEntries, dif_neg h]

/-- Payouts come back from their encoding. What is decoded is spelled as a list of so many entries,
all of which are kept; a list that is so spelled is refused only for its order. -/
theorem decode_spelled (limits : Limits) :
    (∀ (payouts : Payouts) (bytes : Bytes), encode payouts = .ok bytes →
      payouts.size ≤ limits.payouts → decode limits bytes = .ok payouts) ∧
    (∀ (payouts : Payouts) (input : Bytes), decode limits input = .ok payouts →
      payouts.size ≤ limits.payouts ∧ SpelledList payouts.entries input ∧
      (payouts.entries.map Prod.fst).Pairwise (· < ·) ∧
      ∀ info amount, (info, amount) ∈ payouts.entries ↔ payouts.get? info = some amount) ∧
    ∀ (entries : List Entry) (input : Bytes), SpelledList entries input →
      entries.length ≤ limits.payouts →
      ((entries.map Prod.fst).Pairwise (· < ·) →
        ∃ payouts : Payouts, decode limits input = .ok payouts ∧ payouts.entries = entries ∧
          empty.addAll entries = payouts) ∧
      (¬ (entries.map Prod.fst).Pairwise (· < ·) →
        (decode limits input : Except Fault Payouts) = .error (.content .payoutOrder)) := by
  refine ⟨?_, ?_, ?_⟩
  · intro payouts bytes hbytes hle
    exact (inverts hle).whole_eq_ok (Writer.toBytes_eq_ok.mp hbytes) .any
  · intro payouts input h
    obtain ⟨hle, hspelled⟩ := spelled_of_decode h
    have hnodup := nodup_destinations payouts.ascending
    exact ⟨hle, hspelled, ascends_iff_pairwise.mp payouts.ascending,
      fun info amount => mem_iff_lookup hnodup⟩
  · intro entries input hspelled hle
    rw [decode_of_spelled hspelled hle]
    refine ⟨fun h => ?_, ofEntries_of_not_ascends⟩
    have hentries := ofEntries_of_ascends h
    exact ⟨empty.addAll entries, hentries, ofEntries_eq_ok.mp hentries, rfl⟩

def misordered : List Entry := [([255], 1), ([], 2)]

def misorderedInput : Bytes :=
  ([2, 0, 2] : Bytes) ++ (([1, 1] ++ [255] ++ bigEndian 8 1) ++ (([0] ++ [] ++ bigEndian 8 2) ++ []))

theorem spelledList_misordered : SpelledList misordered misorderedInput := by
  have hfirst : SpelledEntry ([255], 1) ([1, 1] ++ [255] ++ bigEndian 8 1) :=
    ⟨by decide, _, ⟨by decide, [1], by decide, by decide, rfl⟩, rfl⟩
  have hsecond : SpelledEntry ([], 2) ([0] ++ [] ++ bigEndian 8 2) :=
    ⟨by decide, _, ⟨by decide, [], by decide, by decide, rfl⟩, rfl⟩
  refine ⟨[2, 0, 2], _, ⟨by decide, [0, 2], by decide, by decide, rfl⟩, ?_, rfl⟩
  exact .cons hfirst (.cons hsecond .nil)

theorem decode_spelled_misordered :
    SpelledList misordered misorderedInput ∧
    (decode {} misorderedInput : Except Fault Payouts) = .error (.content .payoutOrder) ∧
    ∃ bytes, encode (empty.addAll misordered) = .ok bytes ∧
      decode {} bytes = .ok (empty.addAll misordered) := by
  obtain ⟨hback, -, hrefused⟩ := decode_spelled {}
  obtain ⟨bytes, hbytes⟩ : ∃ bytes, encode (empty.addAll misordered) = .ok bytes :=
    exists_eq_ok (by decide +kernel)
  obtain ⟨-, hmisordered⟩ := hrefused misordered misorderedInput spelledList_misordered (by decide)
  exact ⟨spelledList_misordered, hmisordered (by decide), bytes, hbytes,
    hback _ bytes hbytes (by decide +kernel)⟩

end ProofOfProof.Payouts
