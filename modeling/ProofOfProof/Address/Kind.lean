/-! The two kinds of address. -/

namespace ProofOfProof

inductive AddressKind
  | standard
  | multisig
  deriving DecidableEq, Repr

namespace AddressKind

def name : AddressKind → String
  | standard => "Standard"
  | multisig => "Multisig"

/-- The byte that stands for the kind on the wire. -/
def byte : AddressKind → UInt8
  | standard => 1
  | multisig => 3

def ofByte? : UInt8 → Option AddressKind
  | 1 => some standard
  | 3 => some multisig
  | _ => none

theorem ofByte?_byte (kind : AddressKind) : ofByte? kind.byte = some kind := by
  cases kind <;> rfl

end AddressKind

end ProofOfProof
