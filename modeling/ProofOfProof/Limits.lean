import ProofOfProof.Bounds
import ProofOfProof.Fault

/-! The bounds a chain chooses for itself within those of the protocol. Only readers look at
them. -/

namespace ProofOfProof

structure Limits where
  /-- The fewest bytes of an altchain hash. -/
  altHashMin : Nat := minAltHash
  /-- The most bytes of an altchain hash. -/
  altHashMax : Nat := maxAltHash
  contextBlocks : Nat := maxContextBlocks
  vtbs : Nat := maxVtbs
  atvs : Nat := maxAtvs
  /-- Bitcoin context blocks of one proof transaction. -/
  btcContext : Nat := maxBtcContext
  payouts : Nat := maxPayouts
  deriving DecidableEq, Repr

namespace Limits

instance : Inhabited Limits := ⟨{}⟩

/-- The upper bounds by the name of their field, each with the limit of the protocol, in the order
in which they are checked. -/
def upperBounds (limits : Limits) : List (String × Nat × Nat) := [
  ("alt_hash_max", limits.altHashMax, maxAltHash),
  ("max_context_vbk_blocks", limits.contextBlocks, maxContextBlocks),
  ("max_vtbs", limits.vtbs, maxVtbs),
  ("max_atvs", limits.atvs, maxAtvs),
  ("max_btc_context", limits.btcContext, maxBtcContext),
  ("max_payouts", limits.payouts, maxPayouts)]

/-- Fails on an inverted range, then on the first bound above the protocol's. -/
def validate (limits : Limits) : Except Fault Unit :=
  if limits.altHashMax < limits.altHashMin then
    .error (.config (.hashBounds limits.altHashMin limits.altHashMax))
  else
    match limits.upperBounds.find? fun (_, value, limit) => limit < value with
    | some (field, value, limit) => .error (.config (.overLimit field value limit))
    | none => .ok ()

end Limits

end ProofOfProof
