import ProofOfProof.Address
import ProofOfProof.Header.Alt
import ProofOfProof.Header.Btc
import ProofOfProof.Header.Vbk
import ProofOfProof.Json.Form
import ProofOfProof.Merkle.PackagePath
import ProofOfProof.Wire.TypeTag

/-! The JSON forms of addresses, headers and merkle paths. -/

namespace ProofOfProof

instance : JsonForm AddressKind where
  toJson kind := .string kind.name
  ofJson := Json.named [.standard, .multisig] AddressKind.name

instance : JsonForm Address where
  toJson a := .string a.text
  ofJson json :=
    match json with
    | .string text => (Address.parse text).toOption
    | _ => none

namespace TypeTag

instance : JsonForm TypeTag where
  toJson tag := .record ["network_byte", "type_id"] [toJson tag.network, toJson tag.type]
  ofJson json := do
    let [network, type] ← json.fields [("network_byte", some .null), ("type_id", none)] false | none
    return ⟨← ofJson network, ← ofJson type⟩

end TypeTag

namespace AltBlock

def fieldNames : List String := ["hash", "previous_block", "height", "timestamp"]

instance : JsonForm AltBlock where
  toJson block := .record fieldNames
    [toJson block.hash, toJson block.previous, toJson block.height, toJson block.timestamp]
  ofJson json := do
    let [hash, previous, height, timestamp] ← json.fieldsOf fieldNames | none
    return ⟨← ofJson hash, ← ofJson previous, ← ofJson height, ← ofJson timestamp⟩

end AltBlock

namespace BtcBlock

def fieldNames : List String :=
  ["version", "previous_block", "merkle_root", "timestamp", "bits", "nonce"]

instance : JsonForm BtcBlock where
  toJson block := .record fieldNames
    [toJson block.version, toJson block.previous, toJson block.merkleRoot, toJson block.timestamp,
      toJson block.bits, toJson block.nonce]
  ofJson json := do
    let [version, previous, merkleRoot, timestamp, bits, nonce] ← json.fieldsOf fieldNames | none
    return ⟨← ofJson version, ← ofJson previous, ← ofJson merkleRoot, ← ofJson timestamp,
      ← ofJson bits, ← ofJson nonce⟩

end BtcBlock

namespace VbkBlock

def fieldNames : List String :=
  ["height", "version", "previous_block", "previous_keystone", "second_previous_keystone",
    "merkle_root", "timestamp", "difficulty", "nonce"]

instance : JsonForm VbkBlock where
  toJson block := .record fieldNames
    [toJson block.height, toJson block.version, toJson block.previous, toJson block.keystone,
      toJson block.secondKeystone, toJson block.merkleRoot, toJson block.timestamp,
      toJson block.difficulty, toJson block.nonce]
  ofJson json := do
    let [height, version, previous, keystone, secondKeystone, merkleRoot, timestamp, difficulty,
      nonce] ← json.fieldsOf fieldNames | none
    return ⟨← ofJson height, ← ofJson version, ← ofJson previous, ← ofJson keystone,
      ← ofJson secondKeystone, ← ofJson merkleRoot, ← ofJson timestamp, ← ofJson difficulty,
      ← ofJson nonce⟩

end VbkBlock

namespace MerklePath

def fieldNames : List String := ["index", "subject", "layers"]

instance : JsonForm MerklePath where
  toJson path := .record fieldNames [toJson path.index, toJson path.subject, toJson path.layers]
  ofJson json := do
    let [index, subject, layers] ← json.fieldsOf fieldNames | none
    return ⟨← ofJson index, ← ofJson subject, ← ofJson layers⟩

end MerklePath

namespace PackagePath

def fieldNames : List String := ["tree_index", "index", "subject", "layers"]

instance : JsonForm PackagePath where
  toJson path := .record fieldNames
    [toJson path.tree, toJson path.index, toJson path.subject, toJson path.layers]
  ofJson json := do
    let [tree, index, subject, layers] ← json.fieldsOf fieldNames | none
    return ⟨← ofJson tree, ← ofJson index, ← ofJson subject, ← ofJson layers⟩

end PackagePath

end ProofOfProof
