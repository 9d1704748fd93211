import ProofOfProof.Proofs.Checksum

/-! The grammar of addresses, said without the checks that `classify` makes and in which order. The
hash behind the checksum is left open, so that what holds of the texts does not lean on it. -/

namespace ProofOfProof

namespace Address

structure Shape (text : List Char) : Prop where
  length : text.length = 30
  ascii : ∀ c ∈ text, c.toNat < 128
  first : text[0]? = some 'V'

structure StandardText (digest : Bytes → Hash) (text : List Char) : Prop extends Shape text where
  symbols : ∀ c ∈ text, c ∈ base58.symbols
  checksum : text.drop 25 = (base58.encode (digest (asciiBytes (text.take 25))).val).take 5

/-- The texts that ask for `m` signatures from `n` keys. -/
structure MultisigText (digest : Bytes → Hash) (m n : Nat) (text : List Char) : Prop
    extends Shape text where
  last : text[29]? = some '0'
  symbols : ∀ c ∈ text.take 29, c ∈ base58.symbols
  signatures : (text[1]?.bind base58.digit?).map (· + 1) = some m
  keys : (text[2]?.bind base58.digit?).map (· + 1) = some n
  two_le : 2 ≤ n
  le : m ≤ n
  checksum : (text.drop 25).take 4 =
    (base58.encode (digest (asciiBytes (text.take 25))).val).take 4

section Threshold

variable {text : List Char} {m n : Nat}

theorem digit?_getD (text : List Char) (i : Nat) :
    base58.digit? (text.getD i '0') = text[i]?.bind base58.digit? := by
  rw [List.getD_eq_getElem?_getD]
  cases text[i]? with
  | none =>
    show base58.digit? '0' = none
    decide
  | some c => rfl

theorem threshold_eq_ok_iff : threshold text = .ok (m, n) ↔
    (text[1]?.bind base58.digit?).map (· + 1) = some m ∧
      (text[2]?.bind base58.digit?).map (· + 1) = some n := by
  rw [threshold, digit?_getD, digit?_getD]
  cases text[1]?.bind base58.digit? <;> cases text[2]?.bind base58.digit? <;> simp

/-- Two signatures from three keys. -/
example : threshold "V23Cuyc34u5rdk9psJ86aFcwhB1md0".toList = .ok (2, 3) := by decide

theorem checkThreshold_eq_ok_iff : checkThreshold text = .ok () ↔
    ∃ m n, threshold text = .ok (m, n) ∧ 2 ≤ n ∧ m ≤ n := by
  rw [checkThreshold]
  cases h : threshold text with
  | error fault => simp
  | ok pair =>
    obtain ⟨m, n⟩ := pair
    by_cases hfew : n < 2
    · simp [hfew]
    · by_cases hmore : n < m
      · simp [hfew, hmore]
      · simp [hfew, hmore]
        omega

/-- A digit of base 58 counts from 1 to 58. -/
theorem bounds_of_digit {c : Option Char} (h : (c.bind base58.digit?).map (· + 1) = some n) :
    1 ≤ n ∧ n ≤ 58 := by
  obtain ⟨d, hd, rfl⟩ := Option.map_eq_some_iff.mp h
  obtain ⟨x, -, hx⟩ := Option.bind_eq_some_iff.mp hd
  have hlt : d < 58 := (Alphabet.symbol_of_digit? hx).1
  omega

end Threshold

section Form

variable {text : List Char} {kind : AddressKind} {m n : Nat}

theorem Shape.head (h : Shape text) : text.head? = some 'V' := by
  rw [List.head?_eq_getElem?, h.first]

theorem Form.shape (h : Form kind text) : Shape text := by
  refine ⟨h.length, h.ascii, ?_⟩
  rw [← List.head?_eq_getElem?, h.head]

theorem standardText_iff_form : StandardText sha256 text ↔ Form .standard text := by
  constructor
  · intro h
    have hbody : base58.contains (text.take 29) = true :=
      Alphabet.contains_iff.mpr fun c hc => h.symbols c (List.mem_of_mem_take hc)
    exact ⟨h.length, h.head, hbody, h.checksum, by simp⟩
  · intro h
    exact ⟨h.shape, Alphabet.contains_iff.mp h.contains, h.ending⟩

theorem getLast?_eq_getElem?_of_length (h : text.length = 30) : text.getLast? = text[29]? := by
  rw [List.getLast?_eq_getElem?, h]

theorem multisigText_iff_form :
    MultisigText sha256 m n text ↔ Form .multisig text ∧ threshold text = .ok (m, n) := by
  constructor
  · intro h
    have hthreshold := threshold_eq_ok_iff.mpr ⟨h.signatures, h.keys⟩
    refine ⟨⟨h.length, h.head, Alphabet.contains_iff.mpr h.symbols, ?_, fun _ => ?_⟩, hthreshold⟩
    · have hlast := (getLast?_eq_getElem?_of_length h.length).trans h.last
      exact (drop_eq_ending_iff h.length (data text)).mpr ⟨h.checksum, hlast⟩
    · exact checkThreshold_eq_ok_iff.mpr ⟨m, n, hthreshold, h.two_le, h.le⟩
  · rintro ⟨h, hthreshold⟩
    obtain ⟨hchecksum, hlast⟩ := (drop_eq_ending_iff h.length (data text)).mp h.ending
    rw [getLast?_eq_getElem?_of_length h.length] at hlast
    obtain ⟨hsignatures, hkeys⟩ := threshold_eq_ok_iff.mp hthreshold
    obtain ⟨m', n', hsame, htwo, hle⟩ := checkThreshold_eq_ok_iff.mp (h.threshold rfl)
    rw [hthreshold] at hsame
    cases hsame
    exact ⟨h.shape, hlast, Alphabet.contains_iff.mp h.body, hsignatures, hkeys, htwo, hle,
      hchecksum⟩

theorem MultisigText.bounds {digest : Bytes → Hash} (h : MultisigText digest m n text) :
    1 ≤ m ∧ m ≤ n ∧ 2 ≤ n ∧ n ≤ 58 :=
  ⟨(bounds_of_digit h.signatures).1, h.le, h.two_le, (bounds_of_digit h.keys).2⟩

theorem exists_multisigText (h : Form .multisig text) :
    ∃ m n, threshold text = .ok (m, n) ∧ MultisigText sha256 m n text := by
  obtain ⟨m, n, hthreshold, -⟩ := checkThreshold_eq_ok_iff.mp (h.threshold rfl)
  exact ⟨m, n, hthreshold, multisigText_iff_form.mpr ⟨h, hthreshold⟩⟩

theorem exists_form_iff : (∃ kind, Form kind text) ↔
    StandardText sha256 text ∨ ∃ m n, MultisigText sha256 m n text := by
  constructor
  · rintro ⟨kind, h⟩
    cases kind with
    | standard => exact .inl (standardText_iff_form.mpr h)
    | multisig =>
      obtain ⟨m, n, -, htext⟩ := exists_multisigText h
      exact .inr ⟨m, n, htext⟩
  · rintro (h | ⟨m, n, h⟩)
    · exact ⟨.standard, standardText_iff_form.mp h⟩
    · exact ⟨.multisig, (multisigText_iff_form.mp h).1⟩

end Form

theorem exists_parse_iff_form {text : String} :
    (∃ a, parse text = .ok a) ↔ ∃ kind, Form kind text.toList := by
  constructor
  · rintro ⟨a, h⟩
    obtain rfl := text_of_parse h
    exact ⟨a.kind, classify_eq_ok_iff_form.mp a.admitted⟩
  · rintro ⟨kind, h⟩
    exact ⟨_, parse_text ⟨kind, text, classify_eq_ok_iff_form.mpr h⟩⟩

theorem cause_of_parse {text : String} {fault : Fault} (h : parse text = .error fault) :
    ∃ cause, fault = .address cause := by
  unfold parse at h
  split at h
  · cases h
    exact ⟨_, rfl⟩
  · cases h

theorem multisigThreshold_eq_none {a : Address} (hk : a.kind = .standard) :
    a.multisigThreshold = none := by
  simp only [multisigThreshold, hk]

theorem multisigThreshold_eq_some {a : Address} {m n : Nat} (hk : a.kind = .multisig)
    (h : threshold a.text.toList = .ok (m, n)) : a.multisigThreshold = some (m, n) := by
  simp only [multisigThreshold, hk, h]
  rfl

theorem grammar (a : Address) :
    a.kind = .standard ∧ StandardText sha256 a.text.toList ∧ a.multisigThreshold = none ∨
      a.kind = .multisig ∧ ∃ m n, MultisigText sha256 m n a.text.toList ∧
        a.multisigThreshold = some (m, n) ∧ 1 ≤ m ∧ m ≤ n ∧ 2 ≤ n ∧ n ≤ 58 := by
  have hform : Form a.kind a.text.toList := classify_eq_ok_iff_form.mp a.admitted
  cases hk : a.kind with
  | standard =>
    rw [hk] at hform
    exact .inl ⟨rfl, standardText_iff_form.mpr hform, multisigThreshold_eq_none hk⟩
  | multisig =>
    rw [hk] at hform
    obtain ⟨m, n, hthreshold, htext⟩ := exists_multisigText hform
    exact .inr ⟨rfl, m, n, htext, multisigThreshold_eq_some hk hthreshold, htext.bounds⟩

/-- A text is an address where the grammar has it, of the kind and with the threshold it has there;
every other text is refused as no address. -/
theorem parse_eq_ok_iff_grammar (text : String) :
    ((∃ a, parse text = .ok a) ↔
      StandardText sha256 text.toList ∨ ∃ m n, MultisigText sha256 m n text.toList) ∧
    (∀ a, parse text = .ok a → a.text = text ∧
      (a.kind = .standard ∧ StandardText sha256 text.toList ∧ a.multisigThreshold = none ∨
        a.kind = .multisig ∧ ∃ m n, MultisigText sha256 m n text.toList ∧
          a.multisigThreshold = some (m, n) ∧ 1 ≤ m ∧ m ≤ n ∧ 2 ≤ n ∧ n ≤ 58)) ∧
    ∀ fault, parse text = .error fault → ∃ cause, fault = .address cause := by
  refine ⟨exists_parse_iff_form.trans exists_form_iff, fun a h => ?_, fun fault => cause_of_parse⟩
  obtain rfl := text_of_parse h
  exact ⟨rfl, a.grammar⟩

end Address

end ProofOfProof
