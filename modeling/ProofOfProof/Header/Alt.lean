import ProofOfProof.Header.Raw
import ProofOfProof.Wire.Field

/-! Altchain headers. The altchain computes its hashes itself and chooses their width, so both
travel as short fields and the raw form serves as the encoding. -/

namespace ProofOfProof

structure AltBlock where
  hash : Bytes
  previous : Bytes
  height : Int32
  timestamp : UInt32
  deriving DecidableEq

namespace AltBlock

def write (block : AltBlock) : Writer Unit := do
  .shortField block.hash
  .shortField block.previous
  .int32 block.height
  .uint32 block.timestamp

def read (limits : Limits) : Reader AltBlock := do
  let hash ← .shortField "alt-block-hash" limits.altHashMin limits.altHashMax
  let previous ← .shortField "alt-block-previous" limits.altHashMin limits.altHashMax
  let height ← .int32
  let timestamp ← .uint32
  return ⟨hash, previous, height, timestamp⟩

instance : RawHeader AltBlock := ⟨write, read⟩

instance : Wire AltBlock := ⟨write, read⟩

end AltBlock

end ProofOfProof
