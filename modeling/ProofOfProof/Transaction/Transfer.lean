import ProofOfProof.Transaction.Output
import ProofOfProof.Transaction.Publication
import ProofOfProof.Transaction.Signed
import ProofOfProof.Wire.TypeTag

/-! Transactions that transfer value and carry a publication. -/

namespace ProofOfProof

structure TransferTx where
  tag : TypeTag
  source : Address
  amount : Coin
  outputs : List Output
  signatureIndex : Int64
  publication : Publication
  signature : Bytes
  publicKey : Bytes
  deriving DecidableEq

namespace TransferTx

/-- The body: all but signature and key. The outputs are counted by one byte. -/
def writeRaw (tx : TransferTx) : Writer Unit := do
  .check (checkLimit "tx-outputs" tx.outputs.length maxOutputs)
  tx.tag.write
  Wire.write tx.source
  Wire.write tx.amount
  .byte (UInt8.ofNat tx.outputs.length)
  .each tx.outputs Wire.write
  .integer64 tx.signatureIndex
  let publication ← .buffered (Wire.write tx.publication)
  .longField publication

/-- A body, as a transaction that is not signed yet. -/
def readRaw (limits : Limits) : Reader TransferTx := do
  let tag ← TypeTag.read TypeTag.transfer
  let source ← Wire.read limits
  let amount ← Wire.read limits
  let count ← .byte
  let outputs ← .replicate count.toNat (Wire.read limits)
  let signatureIndex ← .integer64 "signature-index"
  let publicationBytes ← .longField "publication-data" 0 maxPublicationSize
  let publication ← .within publicationBytes (Wire.read limits)
  return ⟨tag, source, amount, outputs, signatureIndex, publication, [], []⟩

def raw (tx : TransferTx) : Except Fault Bytes := tx.writeRaw.toBytes

/-- What the signature is over. -/
def hash (tx : TransferTx) : Except Fault Hash := sha256 <$> tx.raw

def hasValidSignature (tx : TransferTx) : Bool :=
  match tx.hash with
  | .error _ => false
  | .ok hash => verifySignature hash.val tx.signature tx.publicKey

/-- Whether the key owns the source address. -/
def isSignedBySource (tx : TransferTx) : Bool := tx.source.belongsTo tx.publicKey

instance : Wire TransferTx where
  write tx := do
    let body ← .buffered tx.writeRaw
    Signed.write ⟨body, tx.signature, tx.publicKey⟩
  read limits := do
    let signed ← Signed.read
    let tx ← .within signed.body (readRaw limits)
    return { tx with signature := signed.signature, publicKey := signed.publicKey }

end TransferTx

end ProofOfProof
