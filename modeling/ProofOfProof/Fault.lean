import ProofOfProof.Address.Kind
import ProofOfProof.Bounds
import ProofOfProof.Numeral

/-! Why reading, writing or checking can fail. A fault holds its cause; `Fault.message` words it. -/

namespace ProofOfProof

/-- Why a text is no address, or not the address the wire announced. -/
inductive AddressFault
  | length (got : Nat)
  | nonAscii
  | firstCharacter
  | notBase58
  | notBase59
  | badM
  | badN
  | fewKeys (n : Nat)
  | moreSignaturesThanKeys
  | bodyNotBase58
  | checksum (expected got : String)
  | kindMismatch (announced : AddressKind) (text : String) (actual : AddressKind)
  | shortBody (got : Nat)
  deriving DecidableEq, Repr

/-- A value that stands for none of the known alternatives. -/
inductive DiscriminatorFault
  | addressKind (byte : UInt8)
  | validityLevel (level : UInt32)
  | statusBits (unknown : UInt32)
  | typeTag (first second expected : UInt8)
  deriving DecidableEq, Repr

/-- Why a value has no encoding. -/
inductive ConstraintFault
  | oversized (what : String) (length max : Nat)
  | lengthBeyondWord (length : Nat)
  | networkCollision (network : UInt8)
  | wideNonce (nonce : UInt64)
  | deepPath (layers : Nat)
  | version (entity : String) (version : UInt32)
  deriving DecidableEq, Repr

/-- Content that is well delimited and still not valid. -/
inductive ContentFault
  | trailing (count : Nat)
  | base59Character (byte : UInt8)
  | payoutOrder
  | memberName
  /-- An integer with more or fewer bytes than a writer gives it. -/
  | spelling (what : String)
  deriving DecidableEq, Repr

inductive ConfigFault
  /-- Not a document, or a field that is not a number in range. -/
  | unreadable
  | hashBounds (min max : Nat)
  | overLimit (field : String) (value limit : Nat)
  deriving DecidableEq, Repr

inductive Fault
  /-- A length or count outside the range of its field. -/
  | outOfRange (what : String) (got : Int) (min max : Nat)
  | truncated (need remaining : Nat)
  | unknownVersion (entity : String) (version : UInt32)
  | address (cause : AddressFault)
  | discriminator (cause : DiscriminatorFault)
  | constraint (cause : ConstraintFault)
  | content (cause : ContentFault)
  | config (cause : ConfigFault)
  deriving DecidableEq, Repr

def AddressFault.message : AddressFault → String
  | length got => s!"expected {addressLength} characters, got {got}"
  | nonAscii => "non-ascii characters"
  | firstCharacter => "must start with 'V'"
  | notBase58 => "address is not base58"
  | notBase59 => "multisig address is not base59"
  | badM => "bad multisig m"
  | badN => "bad multisig n"
  | fewKeys n => s!"multisig n must be at least 2, got {n}"
  | moreSignaturesThanKeys => "multisig address has more signatures than addresses"
  | bodyNotBase58 => "multisig address body is not base58"
  | checksum expected got => s!"checksum mismatch: expected {expected}, got {got}"
  | kindMismatch announced text actual =>
    s!"type byte says {announced.name}, text {text} says {actual.name}"
  | shortBody got => s!"decoded body has {got} bytes, need {addressExcerptLength}"

def DiscriminatorFault.message : DiscriminatorFault → String
  | addressKind byte => s!"address type {byte.toNat}"
  | validityLevel level => s!"validity level {level.toNat}"
  | statusBits unknown => "status bits " ++ hexNumeral 1 unknown.toNat
  | typeTag first second expected =>
    "network byte pair (" ++ hexNumeral 2 first.toNat ++ ", " ++ hexNumeral 2 second.toNat ++
      ") does not carry type " ++ hexNumeral 2 expected.toNat

def ConstraintFault.message : ConstraintFault → String
  | oversized what length max => s!"{what}: {length} exceeds maximum {max}"
  | lengthBeyondWord length => s!"var-len value of {length} bytes exceeds i32 range"
  | networkCollision network =>
    "network byte " ++ hexNumeral 2 network.toNat ++ " collides with type tag"
  | wideNonce nonce => "vbk nonce " ++ hexNumeral 1 nonce.toNat ++ " does not fit in 40 bits"
  | deepPath layers => s!"merkle path has {layers} layers, at most {maxMerkleLayers} allowed"
  | version entity number => s!"{entity}: cannot encode version {number.toNat}"

def ContentFault.message : ContentFault → String
  | trailing count => s!"{count} trailing bytes after entity"
  | base59Character byte => "invalid base59 character " ++ quotedByte byte
  | payoutOrder => "payout destinations out of order"
  | memberName => "key must be a string"
  | spelling what => s!"{what}: integer is not spelled as it is written"

def ConfigFault.message : ConfigFault → String
  | unreadable => "unreadable document"
  | hashBounds min max => s!"alt_hash_min {min} exceeds alt_hash_max {max}"
  | overLimit field value limit => s!"{field} {value} exceeds protocol limit {limit}"

namespace Fault

def message : Fault → String
  | outOfRange what got min max => s!"{what}: length {got} out of range [{min}, {max}]"
  | truncated need remaining =>
    s!"Unexpected end of stream: need {need} bytes, {remaining} remaining"
  | unknownVersion entity version => s!"{entity}: unsupported version {version.toNat}"
  | address cause => "Invalid address: " ++ cause.message
  | discriminator cause => "Unknown discriminator: " ++ cause.message
  | constraint cause => "Encoding constraint violated: " ++ cause.message
  | content cause => "Invalid encoding: " ++ cause.message
  | config cause => "Invalid configuration: " ++ cause.message

/-- Faults of an input that ends early or claims more than it has. -/
def isLength : Fault → Bool
  | truncated .. | outOfRange .. => true
  | _ => false

end Fault

end ProofOfProof
