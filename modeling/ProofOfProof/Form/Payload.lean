import ProofOfProof.Form.Header
import ProofOfProof.Payload.PopData

/-! The JSON forms of transactions and payloads. -/

namespace ProofOfProof

instance : JsonForm Coin where
  toJson coin := toJson coin.units
  ofJson json := Coin.mk <$> ofJson json

namespace Output

def fieldNames : List String := ["address", "coin"]

instance : JsonForm Output where
  toJson output := .record fieldNames [toJson output.address, toJson output.coin]
  ofJson json := do
    let [address, coin] ← json.fieldsOf fieldNames | none
    return ⟨← ofJson address, ← ofJson coin⟩

end Output

namespace Publication

def fieldNames : List String := ["identifier", "header", "payout_info", "context_info"]

instance : JsonForm Publication where
  toJson publication := .record fieldNames
    [toJson publication.identifier, toJson publication.header, toJson publication.payout,
      toJson publication.context]
  ofJson json := do
    let [identifier, header, payout, context] ← json.fieldsOf fieldNames | none
    return ⟨← ofJson identifier, ← ofJson header, ← ofJson payout, ← ofJson context⟩

end Publication

instance : JsonForm BtcTx where
  toJson tx := toJson tx.bytes
  ofJson json := BtcTx.mk <$> ofJson json

namespace TransferTx

def fieldNames : List String :=
  ["network_or_type", "source_address", "source_amount", "outputs", "signature_index",
    "publication_data", "signature", "public_key"]

instance : JsonForm TransferTx where
  toJson tx := .record fieldNames
    [toJson tx.tag, toJson tx.source, toJson tx.amount, toJson tx.outputs,
      toJson tx.signatureIndex, toJson tx.publication, toJson tx.signature, toJson tx.publicKey]
  ofJson json := do
    let [tag, source, amount, outputs, signatureIndex, publication, signature, publicKey] ←
      json.fieldsOf fieldNames | none
    return ⟨← ofJson tag, ← ofJson source, ← ofJson amount, ← ofJson outputs,
      ← ofJson signatureIndex, ← ofJson publication, ← ofJson signature, ← ofJson publicKey⟩

end TransferTx

namespace ProofTx

def fieldNames : List String :=
  ["network_or_type", "address", "published_block", "bitcoin_transaction", "merkle_path",
    "block_of_proof", "block_of_proof_context", "signature", "public_key"]

instance : JsonForm ProofTx where
  toJson tx := .record fieldNames
    [toJson tx.tag, toJson tx.address, toJson tx.published, toJson tx.btcTx, toJson tx.path,
      toJson tx.blockOfProof, toJson tx.context, toJson tx.signature, toJson tx.publicKey]
  ofJson json := do
    let [tag, address, published, btcTx, path, blockOfProof, context, signature, publicKey] ←
      json.fieldsOf fieldNames | none
    return ⟨← ofJson tag, ← ofJson address, ← ofJson published, ← ofJson btcTx, ← ofJson path,
      ← ofJson blockOfProof, ← ofJson context, ← ofJson signature, ← ofJson publicKey⟩

end ProofTx

namespace Atv

def fieldNames : List String := ["version", "transaction", "merkle_path", "block_of_proof"]

instance : JsonForm Atv where
  toJson atv := .record fieldNames
    [toJson atv.version, toJson atv.transaction, toJson atv.path, toJson atv.blockOfProof]
  ofJson json := do
    let [version, transaction, path, blockOfProof] ← json.fieldsOf fieldNames | none
    return ⟨← ofJson version, ← ofJson transaction, ← ofJson path, ← ofJson blockOfProof⟩

end Atv

namespace Vtb

def fieldNames : List String := ["version", "transaction", "merkle_path", "containing_block"]

instance : JsonForm Vtb where
  toJson vtb := .record fieldNames
    [toJson vtb.version, toJson vtb.transaction, toJson vtb.path, toJson vtb.containing]
  ofJson json := do
    let [version, transaction, path, containing] ← json.fieldsOf fieldNames | none
    return ⟨← ofJson version, ← ofJson transaction, ← ofJson path, ← ofJson containing⟩

end Vtb

namespace PopData

def fieldNames : List String := ["version", "context", "vtbs", "atvs"]

instance : JsonForm PopData where
  toJson pop := .record fieldNames
    [toJson pop.version, toJson pop.context, toJson pop.vtbs, toJson pop.atvs]
  ofJson json := do
    let [version, context, vtbs, atvs] ← json.fieldsOf fieldNames | none
    return ⟨← ofJson version, ← ofJson context, ← ofJson vtbs, ← ofJson atvs⟩

end PopData

end ProofOfProof
