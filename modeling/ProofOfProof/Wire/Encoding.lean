import ProofOfProof.Limits
import ProofOfProof.Wire.Reader
import ProofOfProof.Wire.Writer

/-! Types with a form on the wire. -/

namespace ProofOfProof

class Wire (α : Type) where
  write : α → Writer Unit
  read : Limits → Reader α

/-- The encoding of a value, unless the value breaks a limit of the format. -/
def encode {α : Type} [Wire α] (a : α) : Except Fault Bytes := (Wire.write a).toBytes

def encodedSize {α : Type} [Wire α] (a : α) : Except Fault Nat := List.length <$> encode a

/-- The value whose encoding spans all of `input`. -/
def decode {α : Type} [Wire α] (limits : Limits) (input : Bytes) : Except Fault α :=
  (Wire.read limits).whole .any input

/-- The value of an input in which every integer is spelled as writers spell it. -/
def decodeWritten {α : Type} [Wire α] (limits : Limits) (input : Bytes) : Except Fault α :=
  (Wire.read limits).whole .written input

end ProofOfProof
