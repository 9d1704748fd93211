import ProofOfProof.Wire.Reader
import ProofOfProof.Wire.Writer

/-! The tag in front of a transaction: a type byte, with a network byte before it where there is
one. Nothing on the wire says whether there is, so a network byte never equals the type. -/

namespace ProofOfProof

structure TypeTag where
  network : Option UInt8
  type : UInt8
  deriving DecidableEq, Repr

namespace TypeTag

/-- The type of a transaction that transfers value. -/
def transfer : UInt8 := 1

/-- The type of a transaction that proves a publication. -/
def proof : UInt8 := 2

def write (tag : TypeTag) : Writer Unit :=
  match tag.network with
  | none => .byte tag.type
  | some network =>
    if network = tag.type then .fail (.constraint (.networkCollision network))
    else do
      .byte network
      .byte tag.type

/-- A first byte other than the expected type is taken for a network byte. -/
def read (expected : UInt8) : Reader TypeTag := do
  let first ← Reader.byte
  if first = expected then pure ⟨none, first⟩
  else do
    let second ← Reader.byte
    if second = expected then pure ⟨some first, second⟩
    else .fail (.discriminator (.typeTag first second expected))

end TypeTag

end ProofOfProof
