import ProofOfProof.Limits
import ProofOfProof.Toml.Document

/-! Limits from a TOML document, where each may be left at its default. -/

namespace ProofOfProof.Limits

/-- The integer under a name, which must not be negative. -/
def bound (table : Toml.Table) (name : String) (default : Nat) : Option Nat :=
  match table.lookup name with
  | none => some default
  | some (.leaf (.integer n)) => if 0 ≤ n then some n.toNat else none
  | some _ => none

/-- Limits of a table; other names in it are passed over. -/
def ofTable (table : Toml.Table) : Option Limits := do
  let d : Limits := {}
  return {
    altHashMin := ← bound table "alt_hash_min" d.altHashMin
    altHashMax := ← bound table "alt_hash_max" d.altHashMax
    contextBlocks := ← bound table "max_context_vbk_blocks" d.contextBlocks
    vtbs := ← bound table "max_vtbs" d.vtbs
    atvs := ← bound table "max_atvs" d.atvs
    btcContext := ← bound table "max_btc_context" d.btcContext
    payouts := ← bound table "max_payouts" d.payouts }

/-- The limits that a document gives, within those of the protocol. -/
def ofDocument (text : String) : Except Fault Limits :=
  match Toml.parse text >>= ofTable with
  | none => .error (.config .unreadable)
  | some limits =>
    match limits.validate with
    | .error fault => .error fault
    | .ok () => .ok limits

end ProofOfProof.Limits
