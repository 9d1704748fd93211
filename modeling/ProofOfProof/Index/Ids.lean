import ProofOfProof.Wire.Field
import ProofOfProof.Wire.Sequence

/-! Lists of payload ids in the order of their insertion. -/

namespace ProofOfProof.Ids

variable {n : Nat}

/-- Adds the ids that are not there yet, one after the other. -/
def insertAll (ids new : List (Fixed n)) : List (Fixed n) :=
  new.foldl (fun ids id => if id ∈ ids then ids else ids ++ [id]) ids

/-- The list without the first `id`, where there is one. -/
def erase? {α : Type} [DecidableEq α] (ids : List α) (id : α) : Option (List α) :=
  if id ∈ ids then some (ids.erase id) else none

def write (what : String) (max : Nat) (ids : List (Fixed n)) : Writer Unit := do
  .check (checkLimit what ids.length max)
  .sequence ids fun id => .shortField id.val

/-- Reading is bounded by the protocol alone, as writing is. -/
def read (what : String) (max : Nat) : Reader (List (Fixed n)) :=
  .sequence what 0 max (.shortFieldOf n what)

end ProofOfProof.Ids
