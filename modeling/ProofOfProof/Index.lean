import ProofOfProof.Header.Alt
import ProofOfProof.Header.Btc
import ProofOfProof.Header.Vbk
import ProofOfProof.Index.Addon
import ProofOfProof.Status

/-! The record that a node keeps of a block: height, raw header, status and addon. -/

namespace ProofOfProof

inductive Chain
  | btc
  | vbk
  | alt
  deriving DecidableEq, Repr

namespace Chain

abbrev Header : Chain → Type
  | btc => BtcBlock
  | vbk => VbkBlock
  | alt => AltBlock

abbrev Addon : Chain → Type
  | btc => BtcAddon
  | vbk => VbkAddon
  | alt => AltAddon

instance (chain : Chain) : DecidableEq chain.Header :=
  match chain with
  | btc => inferInstanceAs (DecidableEq BtcBlock)
  | vbk => inferInstanceAs (DecidableEq VbkBlock)
  | alt => inferInstanceAs (DecidableEq AltBlock)

instance (chain : Chain) : DecidableEq chain.Addon :=
  match chain with
  | btc => inferInstanceAs (DecidableEq BtcAddon)
  | vbk => inferInstanceAs (DecidableEq VbkAddon)
  | alt => inferInstanceAs (DecidableEq AltAddon)

instance (chain : Chain) : RawHeader chain.Header :=
  match chain with
  | btc => inferInstanceAs (RawHeader BtcBlock)
  | vbk => inferInstanceAs (RawHeader VbkBlock)
  | alt => inferInstanceAs (RawHeader AltBlock)

instance (chain : Chain) : Wire chain.Addon :=
  match chain with
  | btc => inferInstanceAs (Wire BtcAddon)
  | vbk => inferInstanceAs (Wire VbkAddon)
  | alt => inferInstanceAs (Wire AltAddon)

def emptyAddon : (chain : Chain) → chain.Addon
  | btc => BtcAddon.empty
  | vbk => VbkAddon.empty
  | alt => AltAddon.empty

end Chain

structure BlockIndex (chain : Chain) where
  height : UInt32
  header : chain.Header
  status : BlockStatus
  addon : chain.Addon
  deriving DecidableEq

namespace BlockIndex

variable {chain : Chain}

/-- The record of a block of which nothing is known yet. -/
def ofHeader (height : UInt32) (header : chain.Header) : BlockIndex chain :=
  ⟨height, header, .ofLevel .unknown, chain.emptyAddon⟩

instance : Wire (BlockIndex chain) where
  write index := do
    .uint32 index.height
    RawHeader.write index.header
    .uint32 index.status.bits
    Wire.write index.addon
  read limits := do
    let height ← .uint32
    let header ← RawHeader.read limits
    let word ← .uint32
    let status ← .check (BlockStatus.ofBits word)
    let addon ← Wire.read limits
    return ⟨height, header, status, addon⟩

end BlockIndex

end ProofOfProof
