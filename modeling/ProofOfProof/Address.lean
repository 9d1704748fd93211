import ProofOfProof.Address.Grammar
import ProofOfProof.Base59
import ProofOfProof.Wire.Encoding
import ProofOfProof.Wire.Field

/-! Addresses: texts of the address grammar. On the wire an address is the byte of its kind and
the bytes that its text spells in base 58, or in base 59 for a multisig address. -/

namespace ProofOfProof

structure Address where
  kind : AddressKind
  text : String
  admitted : Address.classify text.toList = .ok kind
  deriving DecidableEq

namespace Address

def parse (text : String) : Except Fault Address :=
  match h : classify text.toList with
  | .error fault => .error (.address fault)
  | .ok kind => .ok ⟨kind, text, h⟩

theorem parse_text (a : Address) : parse a.text = .ok a := by
  obtain ⟨kind, text, h⟩ := a
  unfold parse
  split
  · simp_all
  · next k hk =>
    rw [h] at hk
    cases hk
    rfl

/-- The standard address that belongs to a public key. -/
def ofPublicKey (key : Bytes) : Address :=
  ⟨.standard, String.ofList (ofKey key), by rw [String.toList_ofList, classify_ofKey]⟩

def belongsTo (a : Address) (key : Bytes) : Bool := decide (a = ofPublicKey key)

/-- Signatures asked for and keys they may come from; a standard address has no threshold. -/
def multisigThreshold (a : Address) : Option (Nat × Nat) :=
  match a.kind with
  | .standard => none
  | .multisig => (threshold a.text.toList).toOption

end Address

namespace AddressKind

/-- The alphabet in which addresses of a kind spell their bytes. -/
def alphabet : AddressKind → Alphabet
  | standard => base58
  | multisig => base59

/-- The bytes that a text spells for a kind of address. -/
def decodeText : AddressKind → List Char → Except Fault Bytes
  | standard, text =>
    match base58.decode text with
    | .error _ => .error (.address .notBase58)
    | .ok bytes => .ok bytes
  | multisig, text => Base59.decode (String.ofList text)

def ofByte (byte : UInt8) : Except Fault AddressKind :=
  match ofByte? byte with
  | none => .error (.discriminator (.addressKind byte))
  | some kind => .ok kind

end AddressKind

namespace Address

/-- The first bytes that the characters behind `V` spell. -/
def excerpt (a : Address) : Except Fault (Fixed addressExcerptLength) :=
  match a.kind.decodeText (a.text.toList.drop 1) with
  | .error fault => .error fault
  | .ok body =>
    if h : addressExcerptLength ≤ body.length then
      .ok (Fixed.first addressExcerptLength ⟨body, rfl⟩ h)
    else .error (.address (.shortBody body.length))

def write (a : Address) : Writer Unit := do
  .byte a.kind.byte
  let bytes ← .check (a.kind.decodeText a.text.toList)
  .shortField bytes

/-- Fails on bytes that spell no address, and on those of an address of another kind. -/
def read : Reader Address := do
  let kind ← Reader.check (AddressKind.ofByte (← Reader.byte))
  let bytes ← Reader.shortField "address-bytes" 0 addressLength
  let text := String.ofList (kind.alphabet.encode bytes)
  let a ← Reader.check (parse text)
  if a.kind = kind then pure a
  else .fail (.address (.kindMismatch kind text a.kind))

instance : Wire Address := ⟨write, fun _ => read⟩

end Address

end ProofOfProof
