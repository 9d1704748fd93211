import ProofOfProof.Endorsement
import ProofOfProof.Wire.Sequence

/-! The endorsements that a block contains, in the order of their insertion. -/

namespace ProofOfProof

/-- Types of endorsement that a block can contain. -/
class Identified (α : Type) where
  id : α → Hash

instance : Identified AltEndorsement := ⟨AltEndorsement.id⟩

instance : Identified VbkEndorsement := ⟨VbkEndorsement.id⟩

structure PopState (α : Type) where
  containing : List α
  deriving DecidableEq

namespace PopState

variable {α : Type}

def empty : PopState α := ⟨[]⟩

section Operations

variable [Identified α]

/-- Puts `e` in the place of the first item with its id, or last. -/
def place (e : α) : List α → List α
  | [] => [e]
  | x :: items =>
    if Identified.id x = Identified.id e then e :: items else x :: place e items

def insert (state : PopState α) (e : α) : PopState α := ⟨place e state.containing⟩

def find? (state : PopState α) (id : Hash) : Option α :=
  state.containing.find? fun e => Identified.id e = id

/-- The first endorsement of this id, and the state without it. -/
def erase? (state : PopState α) (id : Hash) : Option (α × PopState α) :=
  (state.find? id).map fun e => (e, ⟨state.containing.eraseP fun e => Identified.id e = id⟩)

end Operations

def clear (_ : PopState α) : PopState α := empty

def size (state : PopState α) : Nat := state.containing.length

def isEmpty (state : PopState α) : Bool := state.containing.isEmpty

/-- Reading is bounded by the protocol alone: the limits of a chain are for payloads. -/
instance [Wire α] : Wire (PopState α) where
  write state := do
    .check (checkLimit "pop-state" state.containing.length maxEndorsements)
    .sequence state.containing Wire.write
  read limits := PopState.mk <$> .sequence "pop-state" 0 maxEndorsements (Wire.read limits)

end PopState

end ProofOfProof
