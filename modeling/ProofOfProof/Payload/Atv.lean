import ProofOfProof.Header.Vbk
import ProofOfProof.Merkle.PackagePath
import ProofOfProof.Payload.Version
import ProofOfProof.Transaction.Transfer

/-! Altchain-to-VeriBlock publications: a transaction with an altchain header, mined in a VeriBlock
block. -/

namespace ProofOfProof

structure Atv where
  version : UInt32
  transaction : TransferTx
  path : PackagePath
  blockOfProof : VbkBlock
  deriving DecidableEq

namespace Atv

instance : Wire Atv where
  write atv := do
    .version "ATV" atv.version
    Wire.write atv.transaction
    Wire.write atv.path
    Wire.write atv.blockOfProof
  read limits := do
    let version ← .version "ATV"
    let transaction ← Wire.read limits
    let path ← Wire.read limits
    let blockOfProof ← Wire.read limits
    return ⟨version, transaction, path, blockOfProof⟩

/-- The id is the hash of the encoding. -/
def id (atv : Atv) : Except Fault Hash := sha256 <$> encode atv

/-- Whether the path leads from the transaction to the block of proof. -/
def isPathValid (atv : Atv) : Except Fault Bool :=
  (fun hash => decide (atv.path.subject = hash ∧ atv.path.root = atv.blockOfProof.merkleRoot)) <$>
    atv.transaction.hash

end Atv

end ProofOfProof
