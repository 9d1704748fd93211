import ProofOfProof.Payload.Atv
import ProofOfProof.Payload.Vtb

/-! Endorsements: a block that is endorsed, the block that contains the payload endorsing it, and
the block of proof on the securing chain. The payout is known where an endorsement is made from its
payload, and is not stored. -/

namespace ProofOfProof

/-- An altchain block endorsed by an ATV. -/
structure AltEndorsement where
  id : Hash
  endorsed : Bytes
  containing : Bytes
  blockOfProof : Fixed 24
  payout : Bytes
  deriving DecidableEq

namespace AltEndorsement

def ofAtv (hasher : HeaderHash) (atv : Atv) (containing endorsed : Bytes) :
    Except Fault AltEndorsement := do
  let id ← atv.id
  let blockOfProof ← atv.blockOfProof.hash hasher
  return ⟨id, endorsed, containing, blockOfProof, atv.transaction.publication.payout⟩

instance : Wire AltEndorsement where
  write e := do
    .shortField e.id.val
    .shortField e.endorsed
    .shortField e.containing
    .shortField e.blockOfProof.val
  read limits := do
    let id ← .shortFieldOf 32 "alt-endorsement-id"
    let endorsed ← .shortField "alt-endorsement-endorsed" limits.altHashMin limits.altHashMax
    let containing ← .shortField "alt-endorsement-containing" limits.altHashMin limits.altHashMax
    let blockOfProof ← .shortFieldOf 24 "alt-endorsement-block-of-proof"
    return ⟨id, endorsed, containing, blockOfProof, []⟩

end AltEndorsement

/-- A VeriBlock block endorsed by a VTB. -/
structure VbkEndorsement where
  id : Hash
  endorsed : Fixed 24
  containing : Fixed 24
  blockOfProof : Hash
  payout : Bytes
  deriving DecidableEq

namespace VbkEndorsement

def ofVtb (hasher : HeaderHash) (vtb : Vtb) : Except Fault VbkEndorsement := do
  let id ← vtb.id hasher
  let endorsed ← vtb.transaction.published.hash hasher
  let containing ← vtb.containing.hash hasher
  return ⟨id, endorsed, containing, vtb.transaction.blockOfProof.hash, []⟩

instance : Wire VbkEndorsement where
  write e := do
    .shortField e.id.val
    .shortField e.endorsed.val
    .shortField e.containing.val
    .shortField e.blockOfProof.val
  read _ := do
    let id ← .shortFieldOf 32 "vbk-endorsement-id"
    let endorsed ← .shortFieldOf 24 "vbk-endorsement-endorsed"
    let containing ← .shortFieldOf 24 "vbk-endorsement-containing"
    let blockOfProof ← .shortFieldOf 32 "vbk-endorsement-block-of-proof"
    return ⟨id, endorsed, containing, blockOfProof, []⟩

end VbkEndorsement

inductive EndorsementKind
  | alt
  | vbk
  deriving DecidableEq, Repr

/-- An endorsement of either kind. The wire does not tell the kinds apart. -/
inductive Endorsement
  | alt (e : AltEndorsement)
  | vbk (e : VbkEndorsement)
  deriving DecidableEq

namespace Endorsement

def read (kind : EndorsementKind) (limits : Limits) : Reader Endorsement :=
  match kind with
  | .alt => alt <$> Wire.read limits
  | .vbk => vbk <$> Wire.read limits

def write : Endorsement → Writer Unit
  | alt e => Wire.write e
  | vbk e => Wire.write e

def kind : Endorsement → EndorsementKind
  | alt _ => .alt
  | vbk _ => .vbk

def id : Endorsement → Hash
  | alt e => e.id
  | vbk e => e.id

def endorsed : Endorsement → Bytes
  | alt e => e.endorsed
  | vbk e => e.endorsed.val

def containing : Endorsement → Bytes
  | alt e => e.containing
  | vbk e => e.containing.val

def blockOfProof : Endorsement → Bytes
  | alt e => e.blockOfProof.val
  | vbk e => e.blockOfProof.val

end Endorsement

end ProofOfProof
