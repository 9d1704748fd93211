import Mathlib.Data.List.Basic
import ProofOfProof.Merkle.PackagePath
import ProofOfProof.Proofs.Collision

/-! The way up from a leaf to a root. Both kinds of path fold their layers over a node and differ in
the sides of the siblings; where the sides are the same, a root fixes the leaf. -/

namespace ProofOfProof

/-- The string under a node, which joins the node below with its sibling. -/
def joined (left : Bool) (node sibling : Hash) : Bytes :=
  if left then sibling.val ++ node.val else node.val ++ sibling.val

theorem joined_inj {left : Bool} {a b s t : Hash} (h : joined left a s = joined left b t) :
    a = b := by
  cases left with
  | true =>
    obtain ⟨-, hnode⟩ := Fixed.append_inj h
    exact Subtype.ext hnode
  | false =>
    obtain ⟨hnode, -⟩ := Fixed.append_inj h
    exact hnode

section

variable (hash : Bytes → Hash)

/-- The strings that are hashed on the way up from a node. Each layer says whether its sibling is on
the left. -/
def ascent (node : Hash) : List (Bool × Hash) → List Bytes
  | [] => []
  | (left, sibling) :: layers =>
    joined left node sibling :: ascent (hash (joined left node sibling)) layers

def summit (node : Hash) : List (Bool × Hash) → Hash
  | [] => node
  | (left, sibling) :: layers => summit (hash (joined left node sibling)) layers

theorem summit_concat (node : Hash) (layers : List (Bool × Hash)) (left : Bool) (sibling : Hash) :
    summit hash node (layers ++ [(left, sibling)]) =
      hash (joined left (summit hash node layers) sibling) := by
  induction layers generalizing node with
  | nil => rfl
  | cons layer layers ih => exact ih _

theorem ascent_concat (node : Hash) (layers : List (Bool × Hash)) (left : Bool) (sibling : Hash) :
    ascent hash node (layers ++ [(left, sibling)]) =
      ascent hash node layers ++ [joined left (summit hash node layers) sibling] := by
  induction layers generalizing node with
  | nil => rfl
  | cons layer layers ih => exact congrArg _ (ih _)

variable {hash} {strings : List Bytes}

theorem eq_of_summit (h : ¬ Collision hash strings) {a b : Hash} {la lb : List (Bool × Hash)}
    (hsides : la.map Prod.fst = lb.map Prod.fst) (ha : ascent hash a la ⊆ strings)
    (hb : ascent hash b lb ⊆ strings) (hs : summit hash a la = summit hash b lb) : a = b := by
  induction la generalizing a b lb with
  | nil =>
    obtain rfl : lb = [] := List.map_eq_nil_iff.mp hsides.symm
    exact hs
  | cons layer la ih =>
    obtain ⟨left, s⟩ := layer
    cases lb with
    | nil => cases hsides
    | cons layer lb =>
      obtain ⟨left', t⟩ := layer
      obtain ⟨rfl, hrest⟩ := List.cons.inj hsides
      obtain ⟨hja, ha⟩ := List.cons_subset.mp ha
      obtain ⟨hjb, hb⟩ := List.cons_subset.mp hb
      have hhash : hash (joined left a s) = hash (joined left b t) := ih hrest ha hb hs
      exact joined_inj (eq_of_not_collision h hja hjb hhash)

/-- Where only a part `cut` of the last hash is known, the last strings may differ. -/
theorem eq_or_of_cut_summit {γ : Type} (cut : Hash → γ) (h : ¬ Collision hash strings)
    {a b : Hash} {la lb : List (Bool × Hash)} (hsides : la.map Prod.fst = lb.map Prod.fst)
    (ha : ascent hash a la ⊆ strings) (hb : ascent hash b lb ⊆ strings) (hne : la ≠ [])
    (hs : cut (summit hash a la) = cut (summit hash b lb)) :
    a = b ∨ ∃ x ∈ (ascent hash a la).getLast?, ∃ y ∈ (ascent hash b lb).getLast?,
      x ≠ y ∧ cut (hash x) = cut (hash y) := by
  rcases List.eq_nil_or_concat' la with rfl | ⟨front, ⟨left, s⟩, rfl⟩
  · exact absurd rfl hne
  rcases List.eq_nil_or_concat' lb with rfl | ⟨back, ⟨left', t⟩, rfl⟩
  · simp at hsides
  rw [List.map_append, List.map_append] at hsides
  obtain ⟨hfront, hleft⟩ := List.append_inj' hsides rfl
  obtain ⟨rfl, -⟩ := List.cons.inj hleft
  rw [ascent_concat] at ha hb ⊢
  rw [ascent_concat, List.getLast?_concat, List.getLast?_concat]
  rw [summit_concat, summit_concat] at hs
  -- The nodes below the last layer are known as whole hashes again.
  by_cases hj : joined left (summit hash a front) s = joined left (summit hash b back) t
  · have hnode : summit hash a front = summit hash b back := joined_inj hj
    exact .inl (eq_of_summit h hfront (List.append_subset.mp ha).1 (List.append_subset.mp hb).1
      hnode)
  · exact .inr ⟨_, rfl, _, rfl, hj, hs⟩

end

namespace MerklePath

/-- On which side the siblings of `count` layers are: a bit of the index for each. -/
def lefts : Nat → Nat → List Bool
  | _, 0 => []
  | index, count + 1 => decide (index % 2 = 1) :: lefts (index / 2) count

theorem length_lefts (index count : Nat) : (lefts index count).length = count := by
  induction count generalizing index with
  | zero => rfl
  | succ count ih => rw [lefts, List.length_cons, ih]

theorem join_eq (hash : Bytes → Hash) (side : Nat) (node sibling : Hash) :
    join (fun a b => hash (a ++ b)) side node sibling =
      hash (joined (decide (side % 2 = 1)) node sibling) := by
  rw [join, joined]
  by_cases hs : side % 2 = 1
  · rw [if_pos hs, if_pos (decide_eq_true hs)]
  · rw [if_neg hs, decide_eq_false hs]
    rfl

theorem climb_eq_summit (index : Nat) (node : Hash) (layers : List Hash) :
    climb index node layers = summit sha256d node ((lefts index layers.length).zip layers) := by
  induction layers generalizing index node with
  | nil => rfl
  | cons sibling layers ih =>
    have hjoin : join sha256dPair index node sibling = _ := join_eq sha256d index node sibling
    rw [climb, hjoin, ih]
    rfl

def ascending (path : MerklePath) : List (Bool × Hash) :=
  (lefts path.index.toUInt32.toNat path.layers.length).zip path.layers

def strings (path : MerklePath) : List Bytes := ascent sha256d path.subject path.ascending

theorem root_eq_summit (path : MerklePath) :
    path.root = summit sha256d path.subject path.ascending :=
  climb_eq_summit _ _ _

theorem sides_ascending (path : MerklePath) : path.ascending.map Prod.fst =
    lefts path.index.toUInt32.toNat path.layers.length :=
  List.map_fst_zip (Nat.le_of_eq (length_lefts _ _))

theorem subject_eq_of_root {hashed : List Bytes} (h : ¬ Collision sha256d hashed)
    {a b : MerklePath} (ha : a.strings ⊆ hashed) (hb : b.strings ⊆ hashed)
    (hindex : a.index = b.index) (hlength : a.layers.length = b.layers.length)
    (hroot : a.root = b.root) : a.subject = b.subject := by
  rw [root_eq_summit, root_eq_summit] at hroot
  refine eq_of_summit h ?_ ha hb hroot
  rw [sides_ascending, sides_ascending, hindex, hlength]

end MerklePath

namespace PackagePath

/-- On which side the siblings are: the last one on the left, the one before it where the tree says,
the others by the bits of the index. -/
def lefts (tree : Nat) : Nat → Nat → List Bool
  | _, 0 => []
  | _, 1 => [true]
  | _, 2 => [decide (tree % 2 = 1), true]
  | index, count + 3 => decide (index % 2 = 1) :: lefts tree (index / 2) (count + 2)

theorem length_lefts (tree index count : Nat) : (lefts tree index count).length = count := by
  fun_induction lefts tree index count with
  | case1 => rfl
  | case2 => rfl
  | case3 => rfl
  | case4 index count ih => rw [List.length_cons, ih]

theorem lefts_succ {tree index count : Nat} (h : 2 ≤ count) : lefts tree index (count + 1) =
    decide (index % 2 = 1) :: lefts tree (index / 2) count := by
  obtain ⟨more, rfl⟩ := Nat.exists_eq_add_of_le' h
  rfl

theorem climb_eq_summit (tree index : Nat) (node : Hash) (layers : List Hash) :
    climb tree index node layers =
      summit sha256 node ((lefts tree index layers.length).zip layers) := by
  have hjoin (side : Nat) (node sibling : Hash) :
      MerklePath.join sha256Pair side node sibling = _ :=
    MerklePath.join_eq sha256 side node sibling
  fun_induction climb tree index node layers with
  | case1 => rfl
  | case2 index node package =>
    rw [hjoin]
    rfl
  | case3 index node sibling package =>
    rw [hjoin, hjoin]
    rfl
  | case4 index node sibling layers hne hlast ih =>
    have hcount : 2 ≤ layers.length := by
      match layers with
      | [] => exact absurd rfl hne
      | [package] => exact absurd rfl (hlast package)
      | _ :: _ :: layers => exact Nat.le_add_left 2 layers.length
    rw [ih, hjoin, List.length_cons, lefts_succ hcount]
    rfl

def ascending (path : PackagePath) : List (Bool × Hash) :=
  (lefts path.tree.toUInt32.toNat path.index.toUInt32.toNat path.layers.length).zip path.layers

def strings (path : PackagePath) : List Bytes := ascent sha256 path.subject path.ascending

/-- The root keeps half of a hash. -/
theorem half_le : 16 ≤ 32 := by decide

theorem root_eq_summit (path : PackagePath) :
    path.root = (summit sha256 path.subject path.ascending).first 16 half_le :=
  congrArg (Fixed.first 16 · half_le) (climb_eq_summit _ _ _ _)

theorem sides_ascending (path : PackagePath) : path.ascending.map Prod.fst =
    lefts path.tree.toUInt32.toNat path.index.toUInt32.toNat path.layers.length :=
  List.map_fst_zip (Nat.le_of_eq (length_lefts _ _ _))

theorem length_ascending (path : PackagePath) : path.ascending.length = path.layers.length := by
  rw [ascending, List.length_zip, length_lefts, Nat.min_self]

/-- Paths of at least one layer that differ only in what they start from and in their siblings. -/
structure SameRoute (a b : PackagePath) : Prop where
  tree : a.tree = b.tree
  index : a.index = b.index
  length : a.layers.length = b.layers.length
  nonempty : a.layers ≠ []

/-- Two last strings may differ and still have one root. -/
def LastCollision (a b : PackagePath) : Prop :=
  ∃ x ∈ a.strings.getLast?, ∃ y ∈ b.strings.getLast?,
    x ≠ y ∧ (sha256 x).first 16 half_le = (sha256 y).first 16 half_le

theorem subject_eq_of_root {hashed : List Bytes} (h : ¬ Collision sha256 hashed)
    {a b : PackagePath} (ha : a.strings ⊆ hashed) (hb : b.strings ⊆ hashed)
    (hroute : SameRoute a b) (hroot : a.root = b.root) :
    a.subject = b.subject ∨ LastCollision a b := by
  have hsides : a.ascending.map Prod.fst = b.ascending.map Prod.fst := by
    rw [sides_ascending, sides_ascending, hroute.tree, hroute.index, hroute.length]
  have hlayers : a.ascending ≠ [] := by
    rw [← List.length_pos_iff, length_ascending, List.length_pos_iff]
    exact hroute.nonempty
  rw [root_eq_summit, root_eq_summit] at hroot
  exact eq_or_of_cut_summit (Fixed.first 16 · half_le) h hsides ha hb hlayers hroot

end PackagePath

end ProofOfProof
