import ProofOfProof.Bounds
import ProofOfProof.Wire.Reader
import ProofOfProof.Wire.Writer

/-! The version in front of every payload. -/

namespace ProofOfProof

def Writer.version (entity : String) (version : UInt32) : Writer Unit :=
  if version = payloadVersion then uint32 version
  else fail (.constraint (.version entity version))

def Reader.version (entity : String) : Reader UInt32 := do
  let version ← uint32
  if version = payloadVersion then pure version
  else fail (.unknownVersion entity version)

end ProofOfProof
