import ProofOfProof.Form.Payload
import ProofOfProof.Form.Record
import ProofOfProof.Index
import ProofOfProof.Payouts

/-! All types with a form on the wire, under one index. -/

namespace ProofOfProof

inductive EntityKind
  | altBlock
  | btcBlock
  | vbkBlock
  | address
  | coin
  | output
  | publication
  | btcTx
  | transferTx
  | proofTx
  | packagePath
  | atv
  | vtb
  | popData
  | altEndorsement
  | vbkEndorsement
  | altPopState
  | vbkPopState
  | payouts
  | btcAddon
  | vbkAddon
  | altAddon
  | index (chain : Chain)
  deriving DecidableEq, Repr

namespace EntityKind

abbrev Value : EntityKind → Type
  | altBlock => AltBlock
  | btcBlock => BtcBlock
  | vbkBlock => VbkBlock
  | address => Address
  | coin => Coin
  | output => Output
  | publication => Publication
  | btcTx => BtcTx
  | transferTx => TransferTx
  | proofTx => ProofTx
  | packagePath => PackagePath
  | atv => Atv
  | vtb => Vtb
  | popData => PopData
  | altEndorsement => AltEndorsement
  | vbkEndorsement => VbkEndorsement
  | altPopState => PopState AltEndorsement
  | vbkPopState => PopState VbkEndorsement
  | payouts => Payouts
  | btcAddon => BtcAddon
  | vbkAddon => VbkAddon
  | altAddon => AltAddon
  | index chain => BlockIndex chain

instance (kind : EntityKind) : Wire kind.Value :=
  match kind with
  | altBlock => inferInstanceAs (Wire AltBlock)
  | btcBlock => inferInstanceAs (Wire BtcBlock)
  | vbkBlock => inferInstanceAs (Wire VbkBlock)
  | address => inferInstanceAs (Wire Address)
  | coin => inferInstanceAs (Wire Coin)
  | output => inferInstanceAs (Wire Output)
  | publication => inferInstanceAs (Wire Publication)
  | btcTx => inferInstanceAs (Wire BtcTx)
  | transferTx => inferInstanceAs (Wire TransferTx)
  | proofTx => inferInstanceAs (Wire ProofTx)
  | packagePath => inferInstanceAs (Wire PackagePath)
  | atv => inferInstanceAs (Wire Atv)
  | vtb => inferInstanceAs (Wire Vtb)
  | popData => inferInstanceAs (Wire PopData)
  | altEndorsement => inferInstanceAs (Wire AltEndorsement)
  | vbkEndorsement => inferInstanceAs (Wire VbkEndorsement)
  | altPopState => inferInstanceAs (Wire (PopState AltEndorsement))
  | vbkPopState => inferInstanceAs (Wire (PopState VbkEndorsement))
  | payouts => inferInstanceAs (Wire Payouts)
  | btcAddon => inferInstanceAs (Wire BtcAddon)
  | vbkAddon => inferInstanceAs (Wire VbkAddon)
  | altAddon => inferInstanceAs (Wire AltAddon)
  | index chain => inferInstanceAs (Wire (BlockIndex chain))

/-- The JSON form of every kind but indices, which have none. -/
def jsonForm? : (kind : EntityKind) → Option (JsonForm kind.Value)
  | altBlock => some (inferInstanceAs (JsonForm AltBlock))
  | btcBlock => some (inferInstanceAs (JsonForm BtcBlock))
  | vbkBlock => some (inferInstanceAs (JsonForm VbkBlock))
  | address => some (inferInstanceAs (JsonForm Address))
  | coin => some (inferInstanceAs (JsonForm Coin))
  | output => some (inferInstanceAs (JsonForm Output))
  | publication => some (inferInstanceAs (JsonForm Publication))
  | btcTx => some (inferInstanceAs (JsonForm BtcTx))
  | transferTx => some (inferInstanceAs (JsonForm TransferTx))
  | proofTx => some (inferInstanceAs (JsonForm ProofTx))
  | packagePath => some (inferInstanceAs (JsonForm PackagePath))
  | atv => some (inferInstanceAs (JsonForm Atv))
  | vtb => some (inferInstanceAs (JsonForm Vtb))
  | popData => some (inferInstanceAs (JsonForm PopData))
  | altEndorsement => some (inferInstanceAs (JsonForm AltEndorsement))
  | vbkEndorsement => some (inferInstanceAs (JsonForm VbkEndorsement))
  | altPopState => some (inferInstanceAs (JsonForm (PopState AltEndorsement)))
  | vbkPopState => some (inferInstanceAs (JsonForm (PopState VbkEndorsement)))
  | payouts => some (inferInstanceAs (JsonForm Payouts))
  | btcAddon => some (inferInstanceAs (JsonForm BtcAddon))
  | vbkAddon => some (inferInstanceAs (JsonForm VbkAddon))
  | altAddon => some (inferInstanceAs (JsonForm AltAddon))
  | index _ => none

end EntityKind

end ProofOfProof
