import ProofOfProof.Merkle.Path
import ProofOfProof.Wire.Encoding
import ProofOfProof.Wire.Sequence

/-! The merkle path of a VeriBlock transaction. A block commits to two trees, of ordinary and of
proof transactions, which meet one layer below a package hash that is always on the left. -/

namespace ProofOfProof

structure PackagePath where
  /-- Which of the two trees holds the transaction. -/
  tree : Int32
  index : Int32
  subject : Hash
  layers : List Hash
  deriving DecidableEq

namespace PackagePath

def write (path : PackagePath) : Writer Unit := do
  .check (checkLayers path.layers)
  .fullInteger32 path.tree
  .fullInteger32 path.index
  .shortField path.subject.val
  .fullInteger32 (Int32.ofNat path.layers.length)
  .each path.layers fun layer => .shortField layer.val

def read : Reader PackagePath := do
  let tree ← .fullInteger32 "vbk-merkle-tree-index"
  let index ← .fullInteger32 "vbk-merkle-index"
  let subject ← .shortFieldOf 32 "vbk-merkle-subject"
  let count ← .fullInteger32 "vbk-merkle-layers"
  let layers ← .counted count "vbk-merkle-layers" 0 maxMerkleLayers
    (.shortFieldOf 32 "vbk-merkle-layer")
  return ⟨tree, index, subject, layers⟩

instance : Wire PackagePath := ⟨write, fun _ => read⟩

/-- The node above all `layers`. The last layer joins on the left and the one before it on the side
of `tree`; the bits of `index` are the sides of the others. -/
def climb (tree index : Nat) (node : Hash) : List Hash → Hash
  | [] => node
  | [package] => MerklePath.join sha256Pair 1 node package
  | sibling :: [package] =>
    MerklePath.join sha256Pair 1 (MerklePath.join sha256Pair tree node sibling) package
  | sibling :: layers =>
    climb tree (index / 2) (MerklePath.join sha256Pair index node sibling) layers

/-- The first half of the hash that the path leads to. -/
def root (path : PackagePath) : Fixed 16 :=
  (climb path.tree.toUInt32.toNat path.index.toUInt32.toNat path.subject path.layers).first 16
    (by decide)

end PackagePath

end ProofOfProof
