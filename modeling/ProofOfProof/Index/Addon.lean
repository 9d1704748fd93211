import ProofOfProof.Endorsement.PopState
import ProofOfProof.Index.Ids

/-! What a block index keeps beside the header, for each of the three chains. -/

namespace ProofOfProof

/-- Heights of the VeriBlock blocks that refer to a Bitcoin block, one for each reference. -/
structure BtcAddon where
  references : List UInt32
  deriving DecidableEq

namespace BtcAddon

def empty : BtcAddon := ⟨[]⟩

def addReference (addon : BtcAddon) (height : UInt32) : BtcAddon :=
  ⟨addon.references ++ [height]⟩

/-- One reference from `height` less, where there is one. -/
def eraseReference? (addon : BtcAddon) (height : UInt32) : Option BtcAddon :=
  mk <$> Ids.erase? addon.references height

def referenceCount (addon : BtcAddon) : Nat := addon.references.length

instance : Wire BtcAddon where
  write addon := do
    .check (checkLimit "btc-addon-refs" addon.references.length maxBtcReferences)
    .sequence addon.references .uint32
  read _ := mk <$> .sequence "btc-addon-refs" 0 maxBtcReferences .uint32

end BtcAddon

structure VbkAddon where
  /-- How many altchain blocks refer to the block. -/
  referenceCount : UInt32
  popState : PopState VbkEndorsement
  vtbIds : List Hash
  deriving DecidableEq

namespace VbkAddon

def empty : VbkAddon := ⟨0, .empty, []⟩

/-- One reference more; the count stops at the greatest word. -/
def addReference (addon : VbkAddon) : VbkAddon :=
  { addon with
    referenceCount := if addon.referenceCount = 0xffffffff then addon.referenceCount
      else addon.referenceCount + 1 }

/-- One reference less, where there is one. -/
def eraseReference? (addon : VbkAddon) : Option VbkAddon :=
  if addon.referenceCount = 0 then none
  else some { addon with referenceCount := addon.referenceCount - 1 }

def insertIds (addon : VbkAddon) (ids : List Hash) : VbkAddon :=
  { addon with vtbIds := Ids.insertAll addon.vtbIds ids }

def eraseId? (addon : VbkAddon) (id : Hash) : Option VbkAddon :=
  (Ids.erase? addon.vtbIds id).map fun ids => { addon with vtbIds := ids }

instance : Wire VbkAddon where
  write addon := do
    .uint32 addon.referenceCount
    Wire.write addon.popState
    Ids.write "vbk-addon-vtb-ids" maxVtbs addon.vtbIds
  read limits := do
    let referenceCount ← .uint32
    let popState ← Wire.read limits
    let vtbIds ← Ids.read "vbk-addon-vtb-ids" maxVtbs
    return ⟨referenceCount, popState, vtbIds⟩

end VbkAddon

structure AltAddon where
  popState : PopState AltEndorsement
  atvIds : List Hash
  vtbIds : List Hash
  vbkIds : List (Fixed 12)
  deriving DecidableEq

namespace AltAddon

def empty : AltAddon := ⟨.empty, [], [], []⟩

def hasPayloads (addon : AltAddon) : Bool :=
  !(addon.atvIds.isEmpty && addon.vtbIds.isEmpty && addon.vbkIds.isEmpty)

def insertAtvIds (addon : AltAddon) (ids : List Hash) : AltAddon :=
  { addon with atvIds := Ids.insertAll addon.atvIds ids }

def insertVtbIds (addon : AltAddon) (ids : List Hash) : AltAddon :=
  { addon with vtbIds := Ids.insertAll addon.vtbIds ids }

def insertVbkIds (addon : AltAddon) (ids : List (Fixed 12)) : AltAddon :=
  { addon with vbkIds := Ids.insertAll addon.vbkIds ids }

def eraseAtvId? (addon : AltAddon) (id : Hash) : Option AltAddon :=
  (Ids.erase? addon.atvIds id).map fun ids => { addon with atvIds := ids }

def eraseVtbId? (addon : AltAddon) (id : Hash) : Option AltAddon :=
  (Ids.erase? addon.vtbIds id).map fun ids => { addon with vtbIds := ids }

def eraseVbkId? (addon : AltAddon) (id : Fixed 12) : Option AltAddon :=
  (Ids.erase? addon.vbkIds id).map fun ids => { addon with vbkIds := ids }

/-- Without any payload id; the endorsements stay. -/
def clearPayloads (addon : AltAddon) : AltAddon :=
  { addon with atvIds := [], vtbIds := [], vbkIds := [] }

instance : Wire AltAddon where
  write addon := do
    Wire.write addon.popState
    Ids.write "alt-addon-atv-ids" maxAtvs addon.atvIds
    Ids.write "alt-addon-vtb-ids" maxVtbs addon.vtbIds
    Ids.write "alt-addon-vbk-ids" maxContextBlocks addon.vbkIds
  read limits := do
    let popState ← Wire.read limits
    let atvIds ← Ids.read "alt-addon-atv-ids" maxAtvs
    let vtbIds ← Ids.read "alt-addon-vtb-ids" maxVtbs
    let vbkIds ← Ids.read "alt-addon-vbk-ids" maxContextBlocks
    return ⟨popState, atvIds, vtbIds, vbkIds⟩

end AltAddon

end ProofOfProof
