import Mathlib.Data.Nat.Log
import ProofOfProof.Merkle.Tree
import ProofOfProof.Proofs.Collision

/-! What the root of a tree fixes. A last node without a neighbour is joined with itself, as if it
stood there twice, so a root does not fix its leaves where they repeat; where none does, and as long
as the height is known, it does. -/

namespace ProofOfProof.MerkleTree

variable {n : Nat} (h : n ≤ 32)

def digest (string : Bytes) : Fixed n := (sha256d string).last n h

def pairs : List (Fixed n) → List Bytes
  | [] => []
  | [last] => [last.val ++ last.val]
  | left :: right :: nodes => (left.val ++ right.val) :: pairs nodes

theorem parent_eq (left right : Fixed n) :
    parent h left right = digest h (left.val ++ right.val) := rfl

theorem layerOnto_eq (nodes done : List (Fixed n)) :
    layerOnto h nodes done = done.reverse ++ (pairs nodes).map (digest h) := by
  fun_induction layerOnto h nodes done with
  | case1 done => simp [pairs]
  | case2 last done => simp [pairs, parent_eq]
  | case3 left right nodes done ih =>
    rw [ih]
    simp [pairs, parent_eq]

theorem layerAbove_eq (nodes : List (Fixed n)) :
    layerAbove h nodes = (pairs nodes).map (digest h) :=
  layerOnto_eq h nodes []

/-- The strings that are hashed for the top of a tree. -/
def strings : List (Fixed n) → List Bytes
  | [] => []
  | [_] => []
  | left :: right :: nodes =>
    pairs (left :: right :: nodes) ++ strings (layerAbove h (left :: right :: nodes))
  termination_by nodes => nodes.length
  decreasing_by simp only [length_layerAbove, List.length_cons]; omega

theorem exists_of_mem_pairs {nodes : List (Fixed n)} {string : Bytes} (hs : string ∈ pairs nodes) :
    ∃ left ∈ nodes, ∃ right ∈ nodes, string = left.val ++ right.val := by
  fun_induction pairs nodes with
  | case1 => cases hs
  | case2 last =>
    rw [List.mem_singleton.mp hs]
    exact ⟨last, List.mem_cons_self, last, List.mem_cons_self, rfl⟩
  | case3 left right nodes ih =>
    rcases List.mem_cons.mp hs with rfl | hs
    · exact ⟨left, by simp, right, by simp, rfl⟩
    · obtain ⟨a, ha, b, hb, rfl⟩ := ih hs
      exact ⟨a, by simp [ha], b, by simp [hb], rfl⟩

theorem nodup_pairs {nodes : List (Fixed n)} (hnd : nodes.Nodup) : (pairs nodes).Nodup := by
  fun_induction pairs nodes with
  | case1 => exact List.nodup_nil
  | case2 last => exact List.nodup_singleton _
  | case3 left right nodes ih =>
    obtain ⟨hleft, hrest⟩ := List.nodup_cons.mp hnd
    refine List.nodup_cons.mpr ⟨fun hmem => ?_, ih (List.nodup_cons.mp hrest).2⟩
    obtain ⟨a, ha, b, -, he⟩ := exists_of_mem_pairs hmem
    obtain ⟨rfl, -⟩ := Fixed.append_inj he
    exact hleft (List.mem_cons_of_mem right ha)

theorem eq_of_pairs {xs ys : List (Fixed n)} (hx : xs.Nodup) (hy : ys.Nodup)
    (he : pairs xs = pairs ys) : xs = ys := by
  -- Where a list ends in one node its last pair repeats it, as no pair of the other list does.
  fun_induction pairs xs generalizing ys with
  | case1 =>
    match ys with
    | [] => rfl
    | [_] => cases he
    | _ :: _ :: _ => cases he
  | case2 last =>
    match ys with
    | [] => cases he
    | [y] =>
      obtain ⟨rfl, -⟩ := Fixed.append_inj (List.cons.inj he).1
      rfl
    | a :: b :: ys =>
      obtain ⟨hpair, -⟩ := List.cons.inj he
      obtain ⟨rfl, hb⟩ := Fixed.append_inj hpair
      obtain rfl := Subtype.ext hb
      simp at hy
  | case3 left right xs ih =>
    match ys with
    | [] => cases he
    | [y] =>
      obtain ⟨hpair, -⟩ := List.cons.inj he
      obtain ⟨rfl, hb⟩ := Fixed.append_inj hpair
      obtain rfl := Subtype.ext hb
      simp at hx
    | a :: b :: ys =>
      obtain ⟨hpair, hrest⟩ := List.cons.inj he
      obtain ⟨rfl, hb⟩ := Fixed.append_inj hpair
      obtain rfl := Subtype.ext hb
      have hx' := (List.nodup_cons.mp (List.nodup_cons.mp hx).2).2
      have hy' := (List.nodup_cons.mp (List.nodup_cons.mp hy).2).2
      rw [ih hx' hy' hrest]

/-- Lists over which trees are equally high. -/
def SameHeight {α β : Type} (xs : List α) (ys : List β) : Prop :=
  (xs = [] ∧ ys = []) ∨ (xs ≠ [] ∧ ys ≠ [] ∧ Nat.clog 2 xs.length = Nat.clog 2 ys.length)

theorem SameHeight.of_length {α β α' β' : Type} {xs : List α} {ys : List β} {xs' : List α'}
    {ys' : List β'} (hs : SameHeight xs ys) (hx : xs'.length = xs.length)
    (hy : ys'.length = ys.length) : SameHeight xs' ys' := by
  unfold SameHeight at hs ⊢
  simp only [ne_eq, ← List.length_eq_zero_iff] at hs ⊢
  rwa [hx, hy]

theorem SameHeight.symm {α β : Type} {xs : List α} {ys : List β} (hs : SameHeight xs ys) :
    SameHeight ys xs := by
  rcases hs with ⟨hx, hy⟩ | ⟨hx, hy, hclog⟩
  · exact .inl ⟨hy, hx⟩
  · exact .inr ⟨hy, hx, hclog.symm⟩

theorem SameHeight.two_le {α β : Type} {xs : List α} {ys : List β} (hs : SameHeight xs ys)
    (hx : 2 ≤ xs.length) : 2 ≤ ys.length := by
  rcases hs with ⟨rfl, -⟩ | ⟨-, -, hclog⟩
  · simp at hx
  · by_cases hy : 2 ≤ ys.length
    · exact hy
    · have hpos : 0 < Nat.clog 2 xs.length := Nat.clog_pos (by omega) hx
      rw [hclog, Nat.clog_of_right_le_one (by omega)] at hpos
      omega

theorem SameHeight.layerAbove {xs ys : List (Fixed n)} (hs : SameHeight xs ys)
    (hx : 2 ≤ xs.length) : SameHeight (layerAbove h xs) (MerkleTree.layerAbove h ys) := by
  have hy := hs.two_le hx
  rcases hs with ⟨rfl, -⟩ | ⟨-, -, hclog⟩
  · simp at hx
  have hlen (zs : List (Fixed n)) : (MerkleTree.layerAbove h zs).length = (zs.length + 2 - 1) / 2 :=
    length_layerAbove h zs
  rw [Nat.clog_of_two_le (by omega) hx, Nat.clog_of_two_le (by omega) hy] at hclog
  refine .inr ⟨?_, ?_, ?_⟩
  · rw [ne_eq, ← List.length_eq_zero_iff, hlen]
    omega
  · rw [ne_eq, ← List.length_eq_zero_iff, hlen]
    omega
  · rw [hlen, hlen]
    exact Nat.succ.inj hclog

theorem exists_cons_cons {α : Type} {xs : List α} (h : 2 ≤ xs.length) :
    ∃ a b ys, xs = a :: b :: ys := by
  rcases xs with _ | ⟨a, _ | ⟨b, ys⟩⟩
  · simp at h
  · simp at h
  · exact ⟨a, b, ys, rfl⟩

theorem eq_of_top {hashed : List Bytes} (hc : ¬ Collision (digest h) hashed)
    {xs ys : List (Fixed n)} (hx : xs.Nodup) (hy : ys.Nodup) (hs : SameHeight xs ys)
    (hxs : strings h xs ⊆ hashed) (hys : strings h ys ⊆ hashed) (ht : top h xs = top h ys) :
    xs = ys := by
  fun_induction strings h xs generalizing ys with
  | case1 =>
    rcases hs with ⟨-, rfl⟩ | ⟨hne, -⟩
    · rfl
    · exact absurd rfl hne
  | case2 x =>
    cases ys with
    | nil => simp [SameHeight] at hs
    | cons y ys =>
      cases ys with
      | nil =>
        rw [top, top] at ht
        rw [ht]
      | cons b ys => exact absurd (hs.symm.two_le (Nat.le_add_left 2 _)) (by simp)
  | case3 left right xs ih =>
    -- Equal layers come from equal pairs, and different pairs have different hashes, so the layer
    -- above repeats no node either.
    have htwo : 2 ≤ (left :: right :: xs).length := Nat.le_add_left 2 _
    have hlayer := hs.layerAbove h htwo
    obtain ⟨a, b, ys, rfl⟩ : ∃ a b zs, ys = a :: b :: zs := exists_cons_cons (hs.two_le htwo)
    rw [strings] at hys
    rw [top, top] at ht
    obtain ⟨hpx, hxs⟩ := List.append_subset.mp hxs
    obtain ⟨hpy, hys⟩ := List.append_subset.mp hys
    rw [layerAbove_eq, layerAbove_eq] at hlayer ht
    rw [layerAbove_eq] at hxs hys ih
    have hnx := nodup_map_of_not_collision hc hpx (nodup_pairs hx)
    have hny := nodup_map_of_not_collision hc hpy (nodup_pairs hy)
    have hmap := ih hnx hny hlayer hxs hys ht
    exact eq_of_pairs hx hy (eq_of_map_eq hc hpx hpy hmap)

theorem eq_of_root {hashed : List Bytes} (hc : ¬ Collision (digest h) hashed)
    {xs ys : List (Fixed n)} (hx : xs.Nodup) (hy : ys.Nodup) (hs : SameHeight xs ys)
    (hxs : strings h xs ⊆ hashed) (hys : strings h ys ⊆ hashed) (hr : root h xs = root h ys) :
    xs = ys := by
  have ht : top h xs = top h ys := by
    rw [← (top h xs).reverse_reverse, ← (top h ys).reverse_reverse]
    exact congrArg Fixed.reverse hr
  exact eq_of_top h hc hx hy hs hxs hys ht

example (a b c : Fixed n) : root h [a, b, c] = root h [a, b, c, c] := by
  rw [root, root, top, top]
  rfl

theorem digest_full (string : Bytes) : digest (Nat.le_refl 32) string = sha256d string :=
  Subtype.ext List.drop_zero

end ProofOfProof.MerkleTree
