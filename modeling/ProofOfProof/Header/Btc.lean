import ProofOfProof.Hash
import ProofOfProof.Header.Raw
import ProofOfProof.Wire.Field

/-! Bitcoin headers: 80 bytes, little-endian. The two hashes are kept in reverse of their order on
the wire, so that they compare with the hash of a block and with the root of a merkle path. -/

namespace ProofOfProof

structure BtcBlock where
  version : UInt32
  previous : Hash
  merkleRoot : Hash
  timestamp : UInt32
  bits : UInt32
  nonce : UInt32
  deriving DecidableEq

namespace BtcBlock

/-- The header with every field zero. -/
def empty : BtcBlock := ⟨0, .zero 32, .zero 32, 0, 0, 0⟩

def writeRaw (block : BtcBlock) : Writer Unit := do
  .uint32LE block.version
  .emit block.previous.reverse.val
  .emit block.merkleRoot.reverse.val
  .uint32LE block.timestamp
  .uint32LE block.bits
  .uint32LE block.nonce

def readRaw : Reader BtcBlock := do
  let version ← .uint32LE
  let previous ← .take 32
  let merkleRoot ← .take 32
  let timestamp ← .uint32LE
  let bits ← .uint32LE
  let nonce ← .uint32LE
  return ⟨version, previous.reverse, merkleRoot.reverse, timestamp, bits, nonce⟩

/-- The 80 bytes of the header. -/
def raw (block : BtcBlock) : Bytes := block.writeRaw.written

/-- The hash of a header, in reverse of the order in which it is computed. -/
def hash (block : BtcBlock) : Hash := (sha256d block.raw).reverse

instance : RawHeader BtcBlock := ⟨writeRaw, fun _ => readRaw⟩

instance : Wire BtcBlock where
  write block := .shortField block.raw
  read _ := do
    let raw ← .shortField "btc-header" btcHeaderSize btcHeaderSize
    .within raw readRaw

end BtcBlock

end ProofOfProof
