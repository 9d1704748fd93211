import ProofOfProof.Endorsement.PopState
import ProofOfProof.Form.Header
import ProofOfProof.Index.Addon
import ProofOfProof.Limits
import ProofOfProof.Payouts
import ProofOfProof.Status

/-! The JSON forms of endorsements, payouts, statuses, addons and limits. -/

namespace ProofOfProof

namespace AltEndorsement

def fieldNames : List String :=
  ["id", "endorsed_hash", "containing_hash", "block_of_proof", "payout_info"]

instance : JsonForm AltEndorsement where
  toJson e := .record fieldNames
    [toJson e.id, toJson e.endorsed, toJson e.containing, toJson e.blockOfProof, toJson e.payout]
  ofJson json := do
    let [id, endorsed, containing, blockOfProof, payout] ← json.fieldsOf fieldNames | none
    return ⟨← ofJson id, ← ofJson endorsed, ← ofJson containing, ← ofJson blockOfProof,
      ← ofJson payout⟩

end AltEndorsement

namespace VbkEndorsement

def fieldNames : List String := AltEndorsement.fieldNames

instance : JsonForm VbkEndorsement where
  toJson e := .record fieldNames
    [toJson e.id, toJson e.endorsed, toJson e.containing, toJson e.blockOfProof, toJson e.payout]
  ofJson json := do
    let [id, endorsed, containing, blockOfProof, payout] ← json.fieldsOf fieldNames | none
    return ⟨← ofJson id, ← ofJson endorsed, ← ofJson containing, ← ofJson blockOfProof,
      ← ofJson payout⟩

end VbkEndorsement

namespace EndorsementKind

def name : EndorsementKind → String
  | alt => "Alt"
  | vbk => "Vbk"

instance : JsonForm EndorsementKind where
  toJson kind := .string kind.name
  ofJson := Json.named [.alt, .vbk] name

end EndorsementKind

/-- An object with one member, whose name is the kind. -/
instance : JsonForm Endorsement where
  toJson e :=
    match e with
    | .alt e => .record ["Alt"] [toJson e]
    | .vbk e => .record ["Vbk"] [toJson e]
  ofJson json :=
    match json with
    | .object [(.string "Alt", e)] => .alt <$> ofJson e
    | .object [(.string "Vbk", e)] => .vbk <$> ofJson e
    | _ => none

instance {α : Type} [JsonForm α] : JsonForm (PopState α) where
  toJson state := .record ["containing"] [toJson state.containing]
  ofJson json := do
    let [containing] ← json.fieldsOf ["containing"] | none
    return ⟨← ofJson containing⟩

/-- Destinations are the names of an object, and no text has names that are not strings: only
empty payouts have one. -/
instance : JsonForm Payouts where
  toJson payouts := .record ["payouts"]
    [.object (payouts.entries.map fun (info, amount) => (toJson info, toJson amount))]
  ofJson json := do
    let [.object []] ← json.fieldsOf ["payouts"] | none
    return .empty

instance : JsonForm ValidityLevel where
  toJson level := .string level.name
  ofJson := Json.named ValidityLevel.all ValidityLevel.name

instance : JsonForm BlockStatus where
  toJson status := toJson status.bits
  ofJson json := ofJson json >>= fun word => (BlockStatus.ofBits word).toOption

instance : JsonForm BtcAddon where
  toJson addon := .record ["refs"] [toJson addon.references]
  ofJson json := do
    let [references] ← json.fieldsOf ["refs"] | none
    return ⟨← ofJson references⟩

namespace VbkAddon

def fieldNames : List String := ["ref_count", "pop_state", "vtb_ids"]

instance : JsonForm VbkAddon where
  toJson addon := .record fieldNames
    [toJson addon.referenceCount, toJson addon.popState, toJson addon.vtbIds]
  ofJson json := do
    let [referenceCount, popState, vtbIds] ← json.fieldsOf fieldNames | none
    return ⟨← ofJson referenceCount, ← ofJson popState, ← ofJson vtbIds⟩

end VbkAddon

namespace AltAddon

def fieldNames : List String := ["pop_state", "atv_ids", "vtb_ids", "vbk_ids"]

instance : JsonForm AltAddon where
  toJson addon := .record fieldNames
    [toJson addon.popState, toJson addon.atvIds, toJson addon.vtbIds, toJson addon.vbkIds]
  ofJson json := do
    let [popState, atvIds, vtbIds, vbkIds] ← json.fieldsOf fieldNames | none
    return ⟨← ofJson popState, ← ofJson atvIds, ← ofJson vtbIds, ← ofJson vbkIds⟩

end AltAddon

namespace Limits

/-- A bound has to fit a 64-bit word. -/
def boundOfJson (json : Json) : Option Nat := Int.toNat <$> json.integerIn 0 0xffffffffffffffff

def toList (limits : Limits) : List Nat :=
  [limits.altHashMin, limits.altHashMax, limits.contextBlocks, limits.vtbs, limits.atvs,
    limits.btcContext, limits.payouts]

def fieldNames : List String :=
  ["alt_hash_min", "alt_hash_max", "max_context_vbk_blocks", "max_vtbs", "max_atvs",
    "max_btc_context", "max_payouts"]

def boundToJson (bound : Nat) : Json := .integer bound

/-- Every field may be absent and then has its default. -/
instance : JsonForm Limits where
  toJson limits := .record fieldNames (limits.toList.map boundToJson)
  ofJson json := do
    let defaults := ({} : Limits).toList.map fun bound => some (boundToJson bound)
    let [altHashMin, altHashMax, contextBlocks, vtbs, atvs, btcContext, payouts] ←
      json.fields (fieldNames.zip defaults) true | none
    return ⟨← boundOfJson altHashMin, ← boundOfJson altHashMax, ← boundOfJson contextBlocks,
      ← boundOfJson vtbs, ← boundOfJson atvs, ← boundOfJson btcContext, ← boundOfJson payouts⟩

end Limits

end ProofOfProof
