import ProofOfProof.Index
import ProofOfProof.Proofs.StatusWord

/-! What a node does to the record of a block. An operation that is refused changes nothing. -/

namespace ProofOfProof

inductive PopStep (α : Type)
  | insert (e : α)
  | erase (id : Hash)
  | clear

def PopState.apply {α : Type} [Identified α] (state : PopState α) : PopStep α → PopState α
  | .insert e => state.insert e
  | .erase id => ((state.erase? id).map Prod.snd).getD state
  | .clear => state.clear

inductive BtcStep
  | addReference (height : UInt32)
  | eraseReference (height : UInt32)

def BtcAddon.apply (addon : BtcAddon) : BtcStep → BtcAddon
  | .addReference height => addon.addReference height
  | .eraseReference height => (addon.eraseReference? height).getD addon

inductive VbkStep
  | addReference
  | eraseReference
  | endorsements (step : PopStep VbkEndorsement)
  | insertIds (ids : List Hash)
  | eraseId (id : Hash)

def VbkAddon.apply (addon : VbkAddon) : VbkStep → VbkAddon
  | .addReference => addon.addReference
  | .eraseReference => addon.eraseReference?.getD addon
  | .endorsements step => { addon with popState := addon.popState.apply step }
  | .insertIds ids => addon.insertIds ids
  | .eraseId id => (addon.eraseId? id).getD addon

inductive AltStep
  | endorsements (step : PopStep AltEndorsement)
  | insertAtvIds (ids : List Hash)
  | insertVtbIds (ids : List Hash)
  | insertVbkIds (ids : List (Fixed 12))
  | eraseAtvId (id : Hash)
  | eraseVtbId (id : Hash)
  | eraseVbkId (id : Fixed 12)
  | clearPayloads

def AltAddon.apply (addon : AltAddon) : AltStep → AltAddon
  | .endorsements step => { addon with popState := addon.popState.apply step }
  | .insertAtvIds ids => addon.insertAtvIds ids
  | .insertVtbIds ids => addon.insertVtbIds ids
  | .insertVbkIds ids => addon.insertVbkIds ids
  | .eraseAtvId id => (addon.eraseAtvId? id).getD addon
  | .eraseVtbId id => (addon.eraseVtbId? id).getD addon
  | .eraseVbkId id => (addon.eraseVbkId? id).getD addon
  | .clearPayloads => addon.clearPayloads

namespace Chain

abbrev AddonStep : Chain → Type
  | btc => BtcStep
  | vbk => VbkStep
  | alt => AltStep

def applyAddon : (chain : Chain) → chain.Addon → chain.AddonStep → chain.Addon
  | btc => BtcAddon.apply
  | vbk => VbkAddon.apply
  | alt => AltAddon.apply

end Chain

/-- The operations on a record; height and header never change. -/
inductive IndexStep (chain : Chain)
  | status (step : StatusStep)
  | addon (step : chain.AddonStep)

namespace BlockIndex

variable {chain : Chain}

def apply (index : BlockIndex chain) : IndexStep chain → BlockIndex chain
  | .status step => { index with status := index.status.apply step }
  | .addon step => { index with addon := chain.applyAddon index.addon step }

def run (index : BlockIndex chain) (steps : List (IndexStep chain)) : BlockIndex chain :=
  steps.foldl apply index

def runWord (word : UInt32) (steps : List (IndexStep chain)) : UInt32 :=
  steps.foldl (fun word step =>
    match step with
    | .status step => StatusWord.apply word step
    | .addon _ => word) word

theorem bits_run (index : BlockIndex chain) (steps : List (IndexStep chain)) :
    (index.run steps).status.bits = runWord index.status.bits steps := by
  induction steps generalizing index with
  | nil => rfl
  | cons step steps ih =>
    have hstep : (index.run (step :: steps)).status.bits =
        runWord (index.apply step).status.bits steps := ih (index.apply step)
    cases step with
    | status step => rw [hstep, apply, BlockStatus.bits_apply]; rfl
    | addon step => exact hstep

end BlockIndex

end ProofOfProof
