import ProofOfProof.Hash
import ProofOfProof.Header.Raw
import ProofOfProof.Wire.Field

/-! VeriBlock headers: 65 bytes, big-endian. The nonce has 40 bits. -/

namespace ProofOfProof

structure VbkBlock where
  height : Int32
  version : Int16
  previous : Fixed 12
  keystone : Fixed 9
  secondKeystone : Fixed 9
  merkleRoot : Fixed 16
  timestamp : Int32
  difficulty : Int32
  nonce : UInt64
  deriving DecidableEq

namespace VbkBlock

def checkNonce (nonce : UInt64) : Except Fault Unit :=
  if maxVbkNonce < nonce then .error (.constraint (.wideNonce nonce)) else .ok ()

def writeRaw (block : VbkBlock) : Writer Unit := do
  .check (checkNonce block.nonce)
  .int32 block.height
  .int16 block.version
  .emit block.previous.val
  .emit block.keystone.val
  .emit block.secondKeystone.val
  .emit block.merkleRoot.val
  .int32 block.timestamp
  .int32 block.difficulty
  .emit (bigEndian 5 block.nonce.toNat)

def readRaw : Reader VbkBlock := do
  let height ← .int32
  let version ← .int16
  let previous ← .take 12
  let keystone ← .take 9
  let secondKeystone ← .take 9
  let merkleRoot ← .take 16
  let timestamp ← .int32
  let difficulty ← .int32
  let nonce ← .bytes 5
  return ⟨height, version, previous, keystone, secondKeystone, merkleRoot, timestamp, difficulty,
    UInt64.ofNat (ofBigEndian nonce)⟩

/-- The 65 bytes of the header, unless the nonce is too wide for them. -/
def raw (block : VbkBlock) : Except Fault Bytes := block.writeRaw.toBytes

def hash (hasher : HeaderHash) (block : VbkBlock) : Except Fault (Fixed 24) := hasher <$> block.raw

/-- The id of a block is the last half of its hash. -/
def id (hasher : HeaderHash) (block : VbkBlock) : Except Fault (Fixed 12) :=
  (fun hash => hash.last 12 (by decide)) <$> block.hash hasher

instance : RawHeader VbkBlock := ⟨writeRaw, fun _ => readRaw⟩

instance : Wire VbkBlock where
  write block := do
    let raw ← .buffered block.writeRaw
    .shortField raw
  read _ := do
    let raw ← .shortField "vbk-header" vbkHeaderSize vbkHeaderSize
    .within raw readRaw

end VbkBlock

end ProofOfProof
