import ProofOfProof.Merkle.Tree
import ProofOfProof.Payload.Atv
import ProofOfProof.Payload.Vtb

/-! The payloads that an altchain block carries: VeriBlock blocks as context, then VTBs, then
ATVs. -/

namespace ProofOfProof

structure PopData where
  version : UInt32
  context : List VbkBlock
  vtbs : List Vtb
  atvs : List Atv
  deriving DecidableEq

namespace PopData

def empty : PopData := ⟨payloadVersion, [], [], []⟩

instance : Wire PopData where
  write pop := do
    .version "PopData" pop.version
    .check (checkLimit "popdata-context" pop.context.length maxContextBlocks)
    .check (checkLimit "popdata-vtbs" pop.vtbs.length maxVtbs)
    .check (checkLimit "popdata-atvs" pop.atvs.length maxAtvs)
    .sequence pop.context Wire.write
    .sequence pop.vtbs Wire.write
    .sequence pop.atvs Wire.write
  read limits := do
    let version ← .version "PopData"
    let context ← .sequence "popdata-context" 0 limits.contextBlocks (Wire.read limits)
    let vtbs ← .sequence "popdata-vtbs" 0 limits.vtbs (Wire.read limits)
    let atvs ← .sequence "popdata-atvs" 0 limits.atvs (Wire.read limits)
    return ⟨version, context, vtbs, atvs⟩

def isEmpty (pop : PopData) : Bool := pop.context.isEmpty && pop.vtbs.isEmpty && pop.atvs.isEmpty

/-- Whether an id comes up twice, or the first fault met before one does; `seen` holds the ids
before these. -/
def repeatsAmong {α β : Type} [DecidableEq β] (id : α → Except Fault β) :
    List β → List α → Except Fault Bool
  | _, [] => .ok false
  | seen, a :: items =>
    match id a with
    | .error fault => .error fault
    | .ok key => if key ∈ seen then .ok true else repeatsAmong id (key :: seen) items

def repeats {α β : Type} [DecidableEq β] (id : α → Except Fault β) (items : List α) :
    Except Fault Bool :=
  repeatsAmong id [] items

/-- Whether one of the sections repeats an id. -/
def hasDuplicates (hasher : HeaderHash) (pop : PopData) : Except Fault Bool :=
  match repeats (VbkBlock.id hasher) pop.context with
  | .ok false =>
    match repeats (Vtb.id hasher) pop.vtbs with
    | .ok false => repeats Atv.id pop.atvs
    | outcome => outcome
  | outcome => outcome

/-- The ids of a section in order, or the first fault. -/
def ids {α β : Type} (id : α → Except Fault β) (items : List α) : Except Fault (List β) :=
  items.mapM id

/-- The commitment to the version and to the ids of every section. -/
def commitment (version : UInt32) (context : List (Fixed 12)) (vtbs atvs : List Hash) : Hash :=
  let left := sha256dPair (MerkleTree.root (by decide) context).val
    (MerkleTree.root (by decide) vtbs).val
  let right := sha256dPair (MerkleTree.root (by decide) atvs).val
    (sha256d (bigEndian 4 version.toNat)).val
  sha256dPair left.val right.val

def merkleRoot (hasher : HeaderHash) (pop : PopData) : Except Fault Hash := do
  let context ← ids (VbkBlock.id hasher) pop.context
  let vtbs ← ids (Vtb.id hasher) pop.vtbs
  let atvs ← ids Atv.id pop.atvs
  return commitment pop.version context vtbs atvs

end PopData

end ProofOfProof
