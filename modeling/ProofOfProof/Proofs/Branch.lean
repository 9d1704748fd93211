import Mathlib.Data.Nat.Bitwise
import ProofOfProof.Merkle.Path
import ProofOfProof.Proofs.MerkleTree

/-! The branch of a leaf: a path made of siblings out of the tree itself. It leads from the leaf to
the root, wherever on the way a last node was joined with itself. -/

namespace ProofOfProof.MerkleTree

/-- The layer above, told by positions: node `j` joins the nodes at `2 * j` and `2 * j + 1`, or the
last node twice where it stands alone. -/
def above (nodes : List Hash) : List Hash :=
  List.ofFn fun j : Fin ((nodes.length + 1) / 2) =>
    sha256dPair nodes[2 * j.val].val nodes[min (2 * j.val + 1) (nodes.length - 1)].val

def level (leaves : List Hash) (k : Nat) : List Hash := above^[k] leaves

/-- How many layers are below the top. -/
def height (leaves : List Hash) : Nat := Nat.clog 2 leaves.length

/-- The node that is joined with the one at `i`. -/
def sibling (nodes : List Hash) (i : Nat) : Hash := nodes[min (i ^^^ 1) (nodes.length - 1)]!

/-- The siblings on the way up from leaf `i`. -/
def branch (leaves : List Hash) (i : Nat) : List Hash :=
  (List.range (height leaves)).map fun k => sibling (level leaves k) (i >>> k)

theorem getElem?_pairs (nodes : List Hash) (j : Nat) : (pairs nodes)[j]? =
    nodes[2 * j]?.map fun left => left.val ++ (nodes[2 * j + 1]?.getD left).val := by
  fun_induction pairs nodes generalizing j with
  | case1 => simp
  | case2 last =>
    cases j with
    | zero => simp
    | succ j => simp [Nat.mul_succ]
  | case3 left right nodes ih =>
    cases j with
    | zero => simp
    | succ j => simpa [Nat.mul_succ] using ih j

theorem layerAbove_eq_above (nodes : List Hash) :
    layerAbove (Nat.le_refl 32) nodes = above nodes := by
  refine List.ext_getElem? fun j => ?_
  rw [layerAbove_eq, List.getElem?_map, getElem?_pairs, above, List.getElem?_ofFn]
  by_cases hj : j < (nodes.length + 1) / 2
  · have hleft : nodes[2 * j]? = some nodes[2 * j] := List.getElem?_eq_getElem (by omega)
    have hright : nodes[2 * j + 1]?.getD nodes[2 * j] =
        nodes[min (2 * j + 1) (nodes.length - 1)] := by
      by_cases hpair : 2 * j + 1 < nodes.length
      · have hmin : min (2 * j + 1) (nodes.length - 1) = 2 * j + 1 := by omega
        simp only [hmin, List.getElem?_eq_getElem hpair, Option.getD_some]
      · have hmin : min (2 * j + 1) (nodes.length - 1) = 2 * j := by omega
        simp only [hmin, List.getElem?_eq_none (Nat.le_of_not_lt hpair), Option.getD_none]
    rw [dif_pos hj, hleft, Option.map_some, Option.map_some, hright, digest_full]
    rfl
  · have hleft : nodes[2 * j]? = none := List.getElem?_eq_none (by omega)
    rw [dif_neg hj, hleft, Option.map_none, Option.map_none]

theorem length_above (nodes : List Hash) : (above nodes).length = (nodes.length + 1) / 2 :=
  List.length_ofFn

theorem getElem_above {nodes : List Hash} {j : Nat} (hj : j < (above nodes).length)
    (hle : 2 * j < nodes.length) : (above nodes)[j] =
      sha256dPair nodes[2 * j].val nodes[min (2 * j + 1) (nodes.length - 1)].val :=
  List.getElem_ofFn _

/-- A node and its sibling are the two below the node that is half as far to the right. -/
theorem join_sibling {nodes : List Hash} {i : Nat} (hi : i < nodes.length)
    (hj : i / 2 < (above nodes).length) :
    MerklePath.join sha256dPair i nodes[i] (sibling nodes i) = (above nodes)[i / 2] := by
  have hlt : min (i ^^^ 1) (nodes.length - 1) < nodes.length := by omega
  rw [getElem_above hj (by omega), MerklePath.join, sibling, getElem!_pos nodes _ hlt]
  -- Only an even place can lack a neighbour, and then the bound makes the node its own sibling.
  by_cases hodd : i % 2 = 1
  · have hleft : min (i ^^^ 1) (nodes.length - 1) = 2 * (i / 2) := by
      rw [Nat.xor_one_of_odd (Nat.odd_iff.mpr hodd)]
      omega
    have hright : min (2 * (i / 2) + 1) (nodes.length - 1) = i := by omega
    rw [if_pos hodd]
    simp only [hleft, hright]
  · have hleft : 2 * (i / 2) = i := by omega
    have hright : i ^^^ 1 = i + 1 := Nat.xor_one_of_even (Nat.even_iff.mpr (by omega))
    rw [if_neg hodd]
    simp only [hleft, hright]

theorem height_above {nodes : List Hash} (h : 2 ≤ nodes.length) :
    height nodes = height (above nodes) + 1 := by
  rw [height, Nat.clog_of_two_le (by decide) h, height, length_above]
  rfl

theorem two_le_of_height {nodes : List Hash} (h : 0 < height nodes) : 2 ≤ nodes.length := by
  by_cases hle : nodes.length ≤ 1
  · rw [height, Nat.clog_of_right_le_one hle] at h
    cases h
  · omega

theorem branch_eq_cons {nodes : List Hash} (h : 2 ≤ nodes.length) (i : Nat) :
    branch nodes i = sibling nodes i :: branch (above nodes) (i / 2) := by
  rw [branch, height_above h, List.range_succ_eq_map, List.map_cons, List.map_map]
  congr 1
  refine List.map_congr_left fun k hk => ?_
  have hshift : i >>> (k + 1) = (i / 2) >>> k := Nat.shiftRight_succ_inside i k
  exact congrArg _ hshift

theorem two_le_level {nodes : List Hash} {k : Nat} (hk : k < height nodes) :
    2 ≤ (level nodes k).length := by
  induction k generalizing nodes with
  | zero => exact two_le_of_height hk
  | succ k ih =>
    rw [height_above (two_le_of_height (Nat.zero_lt_of_lt hk))] at hk
    exact ih (Nat.lt_of_succ_lt_succ hk)

theorem level_height {nodes : List Hash} (hne : nodes ≠ []) :
    level nodes (height nodes) = [top (Nat.le_refl 32) nodes] := by
  fun_induction top (Nat.le_refl 32) nodes with
  | case1 => exact absurd rfl hne
  | case2 node => simp [height, level]
  | case3 left right nodes ih =>
    rw [layerAbove_eq_above] at ih ⊢
    rw [height_above (by simp), level, Function.iterate_succ_apply]
    refine ih ?_
    rw [← List.length_pos_iff, length_above, List.length_cons]
    omega

theorem climb_branch {nodes : List Hash} {i : Nat} (hi : i < nodes.length) :
    MerklePath.climb i nodes[i] (branch nodes i) = top (Nat.le_refl 32) nodes := by
  fun_induction top (Nat.le_refl 32) nodes generalizing i with
  | case1 => cases hi
  | case2 node =>
    obtain rfl : i = 0 := Nat.lt_one_iff.mp hi
    simp [branch, height, MerklePath.climb]
  | case3 left right nodes ih =>
    have hj : i / 2 < (above (left :: right :: nodes)).length := by
      rw [length_above]
      omega
    rw [layerAbove_eq_above] at ih
    rw [branch_eq_cons (by simp), MerklePath.climb, join_sibling hi hj, layerAbove_eq_above]
    exact ih hj

theorem toNat_ofNat_index {i : Nat} (h : i < 2 ^ 31) : (Int32.ofNat i).toUInt32.toNat = i := by
  have hmod : (Int32.ofNat i).toUInt32.toNat = i % 2 ^ 32 := rfl
  rw [hmod, Nat.mod_eq_of_lt (by omega)]

/-- Layer by layer the leaves come down to one node, which in reverse is the root, and there the path
of every leaf leads. The index of a path has room for as many leaves. -/
theorem branch_leads_to_root {ids : List Hash} (hne : ids ≠ []) (hle : ids.length ≤ 2 ^ 31) :
    (∀ k < height ids, 2 ≤ (level ids k).length) ∧
    ∃ node, level ids (height ids) = [node] ∧ root (Nat.le_refl 32) ids = node.reverse ∧
      ∀ (i : Nat) (_ : i < ids.length), (MerklePath.mk (Int32.ofNat i) ids[i] (branch ids i)).root =
        (root (Nat.le_refl 32) ids).reverse := by
  refine ⟨fun k hk => two_le_level hk, top (Nat.le_refl 32) ids, level_height hne, rfl,
    fun i hi => ?_⟩
  have hindex : (Int32.ofNat i).toUInt32.toNat = i := toNat_ofNat_index (Nat.lt_of_lt_of_le hi hle)
  rw [MerklePath.root, root, Fixed.reverse_reverse, hindex]
  exact climb_branch hi

theorem branch_leads_to_root_three :
    (MerklePath.mk 2 (sha256 [3])
      [sha256 [3], sha256dPair (sha256 [1]).val (sha256 [2]).val]).root =
        (root (Nat.le_refl 32) [sha256 [1], sha256 [2], sha256 [3]]).reverse := by
  have hbranch (a b c : Hash) : branch [a, b, c] 2 = [c, sha256dPair a.val b.val] := by
    have hheight : height [a, b, c] = 2 := by
      change Nat.clog 2 3 = 2
      rfl
    rw [branch, hheight]
    simp [List.range_succ, level, above, sibling]
  obtain ⟨-, node, -, -, hroot⟩ :=
    @branch_leads_to_root [sha256 [1], sha256 [2], sha256 [3]] (by simp) (by simp)
  have hlast := hroot 2 (by simp)
  rw [hbranch] at hlast
  exact hlast

end ProofOfProof.MerkleTree
