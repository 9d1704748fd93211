import ProofOfProof.Wire.Encoding

/-! The raw form of a block header: its own bytes, without a length around them. -/

namespace ProofOfProof

class RawHeader (α : Type) where
  write : α → Writer Unit
  read : Limits → Reader α

end ProofOfProof
