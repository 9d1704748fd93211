import ProofOfProof.Hash

/-! The tree over the ids of payloads: neighbours are joined by double SHA-256, cut to the width of
an id; a last node without a neighbour is joined with itself. -/

namespace ProofOfProof.MerkleTree

/-- The node above two nodes: the end of their double SHA-256. -/
def parent {n : Nat} (h : n ≤ 32) (left right : Fixed n) : Fixed n :=
  (sha256dPair left.val right.val).last n h

/-- The layer above a layer; `done` holds the nodes before these, the last one first. -/
def layerOnto {n : Nat} (h : n ≤ 32) : List (Fixed n) → List (Fixed n) → List (Fixed n)
  | [], done => done.reverse
  | [last], done => (parent h last last :: done).reverse
  | left :: right :: nodes, done => layerOnto h nodes (parent h left right :: done)

def layerAbove {n : Nat} (h : n ≤ 32) (nodes : List (Fixed n)) : List (Fixed n) :=
  layerOnto h nodes []

theorem length_layerOnto {n : Nat} (h : n ≤ 32) (nodes done : List (Fixed n)) :
    (layerOnto h nodes done).length = (nodes.length + 1) / 2 + done.length := by
  fun_induction layerOnto h nodes done with
  | case1 done => simp
  | case2 last done => simp; omega
  | case3 left right nodes done ih => simp only [ih, List.length_cons]; omega

theorem length_layerAbove {n : Nat} (h : n ≤ 32) (nodes : List (Fixed n)) :
    (layerAbove h nodes).length = (nodes.length + 1) / 2 := by
  simp [layerAbove, length_layerOnto]

/-- The top of the tree over `nodes`, zero for no nodes. -/
def top {n : Nat} (h : n ≤ 32) : List (Fixed n) → Fixed n
  | [] => .zero n
  | [node] => node
  | left :: right :: nodes => top h (layerAbove h (left :: right :: nodes))
  termination_by nodes => nodes.length
  decreasing_by simp only [length_layerAbove, List.length_cons]; omega

/-- The root is the top in reverse. -/
def root {n : Nat} (h : n ≤ 32) (ids : List (Fixed n)) : Fixed n := (top h ids).reverse

end ProofOfProof.MerkleTree
