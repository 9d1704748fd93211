import ProofOfProof.Fault
import ProofOfProof.Hash
import ProofOfProof.Radix.Alphabet

/-! Which texts are addresses.

A standard address is `V`, 24 data characters and 5 checksum characters, all of base 58. A multisig
address is `V`, the two characters of its threshold, 22 data characters, 4 checksum characters and
`0`. The checksum opens the base 58 text of the SHA-256 of the first 25 characters. -/

namespace ProofOfProof.Address

/-- The bytes a text takes in UTF-8. -/
def utf8Length (text : List Char) : Nat := text.foldr (fun c n => c.utf8Size + n) 0

def asciiBytes (text : List Char) : Bytes := text.map fun c => UInt8.ofNat c.toNat

/-- The part of an address that its checksum covers. -/
def data (text : List Char) : List Char := text.take 25

/-- The first `count` characters of the base 58 text of the SHA-256 of `data`. -/
def checksum (count : Nat) (data : List Char) : List Char :=
  (base58.encode (sha256 (asciiBytes data)).val).take count

/-- Compares the `count` characters after the data with the checksum of the data. -/
def checkChecksum (count : Nat) (text : List Char) : Except AddressFault Unit :=
  let expected := checksum count (data text)
  let got := (text.drop 25).take count
  if expected = got then .ok ()
  else .error (.checksum (String.ofList expected) (String.ofList got))

/-- How many signatures a multisig address asks for, and from how many keys. A digit counts one
more than its value, so that `1` reads as one. -/
def threshold (text : List Char) : Except AddressFault (Nat × Nat) :=
  match base58.digit? (text.getD 1 '0') with
  | none => .error .badM
  | some m =>
    match base58.digit? (text.getD 2 '0') with
    | none => .error .badN
    | some n => .ok (m + 1, n + 1)

def checkThreshold (text : List Char) : Except AddressFault Unit :=
  match threshold text with
  | .error fault => .error fault
  | .ok (m, n) =>
    if n < 2 then .error (.fewKeys n)
    else if n < m then .error .moreSignaturesThanKeys
    else .ok ()

def checkStandard (text : List Char) : Except AddressFault Unit :=
  if base58.contains text then checkChecksum 5 text else .error .notBase58

def checkMultisig (text : List Char) : Except AddressFault Unit :=
  if base59.contains text then do
    checkThreshold text
    if base58.contains (text.take 29) then checkChecksum 4 text else .error .bodyNotBase58
  else .error .notBase59

/-- The kind of address a text is, or the first rule it breaks. -/
def classify (text : List Char) : Except AddressFault AddressKind :=
  if utf8Length text ≠ addressLength then .error (.length (utf8Length text))
  else if text.any fun c => 128 ≤ c.toNat then .error .nonAscii
  else if text.head? ≠ some 'V' then .error .firstCharacter
  else if text.getLast? = some '0' then (fun _ => .multisig) <$> checkMultisig text
  else (fun _ => .standard) <$> checkStandard text

theorem base58_ascii {c : Char} (h : c ∈ base58.symbols) : c.toNat < 128 ∧ c ≠ '0' := by
  have hall : (base58.symbols.all fun c => decide (c.toNat < 128 ∧ c ≠ '0')) = true := by decide
  exact of_decide_eq_true (List.all_eq_true.mp hall c h)

theorem utf8Length_of_ascii {text : List Char} (h : ∀ c ∈ text, c.toNat < 128) :
    utf8Length text = text.length := by
  induction text with
  | nil => rfl
  | cons c text ih =>
    have hc : c.utf8Size = 1 := by
      have := h c (by simp)
      rw [Char.utf8Size_eq_one_iff, UInt32.le_iff_toNat_le]
      exact Nat.le_of_lt_succ this
    have hr : utf8Length text = text.length := ih fun x hx => h x (by simp [hx])
    unfold utf8Length at hr ⊢
    simp only [List.foldr_cons, List.length_cons, hc, hr]
    omega

/-- The standard address of a key: 24 characters of its hash behind `V`, and their checksum. -/
def ofKey (key : Bytes) : List Char :=
  let body := 'V' :: (base58.encode (sha256 key).val).take 24
  body ++ checksum 5 body

theorem length_le_length_base58 (hash : Hash) : 32 ≤ (base58.encode hash.val).length := by
  have := Alphabet.length_le_length_encode (a := base58) (by decide) (by decide) hash.val
  rwa [hash.property] at this

theorem mem_ofKey {key : Bytes} {c : Char} (h : c ∈ ofKey key) : c ∈ base58.symbols := by
  rcases List.mem_append.mp h with h | h
  · rcases List.mem_cons.mp h with rfl | h
    · decide
    · exact Alphabet.mem_symbols_of_mem_encode (List.mem_of_mem_take h)
  · exact Alphabet.mem_symbols_of_mem_encode (List.mem_of_mem_take h)

theorem length_ofKey (key : Bytes) : (ofKey key).length = 30 := by
  have hk := length_le_length_base58 (sha256 key)
  have hc := length_le_length_base58
    (sha256 (asciiBytes ('V' :: (base58.encode (sha256 key).val).take 24)))
  simp only [ofKey, checksum, List.length_append, List.length_cons, List.length_take]
  omega

theorem data_ofKey (key : Bytes) :
    data (ofKey key) = 'V' :: (base58.encode (sha256 key).val).take 24 := by
  have hk := length_le_length_base58 (sha256 key)
  rw [data, ofKey,
    List.take_append_of_le_length (by simp only [List.length_cons, List.length_take]; omega),
    List.take_of_length_le (by simp only [List.length_cons, List.length_take]; omega)]

theorem checkChecksum_ofKey (key : Bytes) : checkChecksum 5 (ofKey key) = .ok () := by
  have hk := length_le_length_base58 (sha256 key)
  have hdrop : (ofKey key).drop 25 = checksum 5 (data (ofKey key)) := by
    rw [data_ofKey]
    exact List.drop_left' (by simp only [List.length_cons, List.length_take]; omega)
  have hlen : (checksum 5 (data (ofKey key))).length ≤ 5 := by
    simp only [checksum, List.length_take]
    omega
  rw [checkChecksum, hdrop, List.take_of_length_le hlen, if_pos rfl]

theorem classify_ofKey (key : Bytes) : classify (ofKey key) = .ok .standard := by
  have hsym : ∀ c ∈ ofKey key, c.toNat < 128 ∧ c ≠ '0' := fun c hc => base58_ascii (mem_ofKey hc)
  have hlen : utf8Length (ofKey key) = 30 := by
    rw [utf8Length_of_ascii fun c hc => (hsym c hc).1, length_ofKey]
  have hascii : ((ofKey key).any fun c => decide (128 ≤ c.toNat)) = false := by
    simp only [List.any_eq_false, decide_eq_true_eq]
    intro c hc
    have := (hsym c hc).1
    omega
  have hhead : (ofKey key).head? = some 'V' := rfl
  have hlast : (ofKey key).getLast? ≠ some '0' := fun h =>
    (hsym '0' (List.mem_of_getLast? h)).2 rfl
  have hall : base58.contains (ofKey key) = true :=
    Alphabet.contains_iff.mpr fun c hc => mem_ofKey hc
  simp [classify, hlen, hascii, hhead, hlast, checkStandard, hall, checkChecksum_ofKey,
    addressLength, Functor.map, Except.map]

end ProofOfProof.Address
