import ProofOfProof.Wire.Encoding
import ProofOfProof.Wire.Field

/-! What an altchain publishes: its identifier, the endorsed header, and who collects the reward.
The context travels before the payout. -/

namespace ProofOfProof

structure Publication where
  identifier : Int64
  header : Bytes
  payout : Bytes
  context : Bytes
  deriving DecidableEq

namespace Publication

def write (publication : Publication) : Writer Unit := do
  .check (checkLimit "publication-header" publication.header.length maxPublicationHeader)
  .check (checkLimit "publication-context" publication.context.length maxPublicationContext)
  .check (checkLimit "publication-payout" publication.payout.length maxPublicationPayout)
  .integer64 publication.identifier
  .longField publication.header
  .longField publication.context
  .longField publication.payout

def read : Reader Publication := do
  let identifier ← .integer64 "publication-identifier"
  let header ← .longField "publication-header" 0 maxPublicationHeader
  let context ← .longField "publication-context" 0 maxPublicationContext
  let payout ← .longField "publication-payout" 0 maxPublicationPayout
  return ⟨identifier, header, payout, context⟩

instance : Wire Publication := ⟨write, fun _ => read⟩

end Publication

end ProofOfProof
