import ProofOfProof.Hash
import ProofOfProof.Wire.Field

/-! The merkle path of a Bitcoin transaction: the siblings of its hash from the leaf up. The bits
of the leaf's index say on which side each sibling sits. -/

namespace ProofOfProof

def checkLayers (layers : List Hash) : Except Fault Unit :=
  let count := layers.length
  if maxMerkleLayers < count then .error (.constraint (.deepPath count)) else .ok ()

/-- The hash the path authenticates is no part of its encoding. -/
structure MerklePath where
  index : Int32
  subject : Hash
  layers : List Hash
  deriving DecidableEq

namespace MerklePath

/-- The index, the number of layers, the widths of the sizes and of the data, then the layers. -/
def writeRaw (path : MerklePath) : Writer Unit := do
  .check (checkLayers path.layers)
  .fullInteger32 path.index
  .fullInteger32 (Int32.ofNat path.layers.length)
  .fullInteger32 (Int32.ofNat merkleSizeWidth)
  .uint32 32
  .each path.layers fun layer => .shortField layer.val

def readRaw (subject : Hash) : Reader MerklePath := do
  let index ← .fullInteger32 "merkle-index"
  let count ← .fullInteger32 "merkle-num-layers"
  .check (checkRange "merkle-num-layers" count.toInt 0 maxMerkleLayers)
  let sizeWidth ← .fullInteger32 "merkle-size-of-size"
  .check (checkRange "merkle-size-of-size" sizeWidth.toInt merkleSizeWidth merkleSizeWidth)
  let dataWidth ← .uint32
  .check (checkRange "merkle-size-of-data" dataWidth.toNat 32 32)
  let layers ← .replicate count.toInt.toNat (.shortFieldOf 32 "merkle-layer")
  return ⟨index, subject, layers⟩

/-- The raw form as a long field. -/
def write (path : MerklePath) : Writer Unit := do
  let raw ← .buffered path.writeRaw
  .longField raw

def read (subject : Hash) : Reader MerklePath := do
  let raw ← .longField "merkle-path" 0 maxBodySize
  .within raw (readRaw subject)

/-- Joins a node with its sibling, which sits on the left where the lowest bit of `side` is set. -/
def join (pair : Bytes → Bytes → Hash) (side : Nat) (node sibling : Hash) : Hash :=
  if side % 2 = 1 then pair sibling.val node.val else pair node.val sibling.val

/-- The node above all `layers`, where each bit of `index` is the side of one layer. -/
def climb (index : Nat) (node : Hash) : List Hash → Hash
  | [] => node
  | sibling :: layers => climb (index / 2) (join sha256dPair index node sibling) layers

def root (path : MerklePath) : Hash := climb path.index.toUInt32.toNat path.subject path.layers

end MerklePath

end ProofOfProof
