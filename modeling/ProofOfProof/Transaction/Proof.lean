import ProofOfProof.Address
import ProofOfProof.Header.Btc
import ProofOfProof.Header.Vbk
import ProofOfProof.Merkle.Path
import ProofOfProof.Transaction.Signed
import ProofOfProof.Wire.Sequence
import ProofOfProof.Wire.TypeTag

/-! Transactions that prove the publication of a VeriBlock block in Bitcoin. -/

namespace ProofOfProof

/-- A raw Bitcoin transaction, which is not looked into. -/
structure BtcTx where
  bytes : Bytes
  deriving DecidableEq

namespace BtcTx

def hash (tx : BtcTx) : Hash := sha256d tx.bytes

instance : Wire BtcTx where
  write tx := do
    .check (checkLimit "btc-tx" tx.bytes.length maxBtcTxSize)
    .longField tx.bytes
  read _ := BtcTx.mk <$> .longField "btc-tx" 0 maxBtcTxSize

end BtcTx

/-- `path` leads from `btcTx` to the root in `blockOfProof`. -/
structure ProofTx where
  tag : TypeTag
  address : Address
  published : VbkBlock
  btcTx : BtcTx
  path : MerklePath
  blockOfProof : BtcBlock
  context : List BtcBlock
  signature : Bytes
  publicKey : Bytes
  deriving DecidableEq

namespace ProofTx

/-- The body: all but signature, key and the subject of the path. -/
def writeRaw (tx : ProofTx) : Writer Unit := do
  tx.tag.write
  Wire.write tx.address
  Wire.write tx.published
  Wire.write tx.btcTx
  tx.path.write
  Wire.write tx.blockOfProof
  .check (checkLimit "btc-context" tx.context.length maxBtcContext)
  .sequence tx.context Wire.write

/-- A body, as a transaction that is not signed yet. The path starts at the hash of the Bitcoin
transaction. -/
def readRaw (limits : Limits) : Reader ProofTx := do
  let tag ← TypeTag.read TypeTag.proof
  let address ← Wire.read limits
  let published ← Wire.read limits
  let btcTx : BtcTx ← Wire.read limits
  let path ← MerklePath.read btcTx.hash
  let blockOfProof ← Wire.read limits
  let context ← .sequence "btc-context" 0 limits.btcContext (Wire.read limits)
  return ⟨tag, address, published, btcTx, path, blockOfProof, context, [], []⟩

def raw (tx : ProofTx) : Except Fault Bytes := tx.writeRaw.toBytes

def hash (tx : ProofTx) : Except Fault Hash := sha256 <$> tx.raw

def hasValidSignature (tx : ProofTx) : Bool :=
  match tx.hash with
  | .error _ => false
  | .ok hash => verifySignature hash.val tx.signature tx.publicKey

/-- Whether the path leads from the Bitcoin transaction to the block of proof. -/
def isPathValid (tx : ProofTx) : Bool :=
  tx.path.subject = tx.btcTx.hash ∧ tx.path.root = tx.blockOfProof.merkleRoot

instance : Wire ProofTx where
  write tx := do
    let body ← .buffered tx.writeRaw
    Signed.write ⟨body, tx.signature, tx.publicKey⟩
  read limits := do
    let signed ← Signed.read
    let tx ← .within signed.body (readRaw limits)
    return { tx with signature := signed.signature, publicKey := signed.publicKey }

end ProofTx

end ProofOfProof
