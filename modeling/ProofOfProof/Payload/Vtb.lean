import ProofOfProof.Merkle.PackagePath
import ProofOfProof.Payload.Version
import ProofOfProof.Transaction.Proof

/-! VeriBlock-to-Bitcoin publications: a transaction that proves one, mined in a VeriBlock block of
its own. -/

namespace ProofOfProof

structure Vtb where
  version : UInt32
  transaction : ProofTx
  path : PackagePath
  containing : VbkBlock
  deriving DecidableEq

namespace Vtb

instance : Wire Vtb where
  write vtb := do
    .version "VTB" vtb.version
    Wire.write vtb.transaction
    Wire.write vtb.path
    Wire.write vtb.containing
  read limits := do
    let version ← .version "VTB"
    let transaction ← Wire.read limits
    let path ← Wire.read limits
    let containing ← Wire.read limits
    return ⟨version, transaction, path, containing⟩

/-- The id joins the Bitcoin transaction with the pair of block of proof and containing block,
whose hash is filled up with zeros to 32 bytes. -/
def id (hasher : HeaderHash) (vtb : Vtb) : Except Fault Hash :=
  (fun containing =>
    let blocks := sha256Pair vtb.transaction.blockOfProof.hash.val
      (containing.val ++ List.replicate 8 0)
    sha256Pair vtb.transaction.btcTx.hash.val blocks.val) <$> vtb.containing.hash hasher

/-- Whether the path leads from the transaction to the containing block. -/
def isPathValid (vtb : Vtb) : Except Fault Bool :=
  (fun hash => decide (vtb.path.subject = hash ∧ vtb.path.root = vtb.containing.merkleRoot)) <$>
    vtb.transaction.hash

end Vtb

end ProofOfProof
