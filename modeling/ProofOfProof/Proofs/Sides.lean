import ProofOfProof.Proofs.Ascent

/-! The side of each layer of a path, told by its place alone. What of the indices gives no layer its
side can change, and the root stays. -/

namespace ProofOfProof

/-- Every layer beside its side, which `onLeft` tells by its place. -/
def sided (onLeft : Nat → Prop) [DecidablePred onLeft] (layers : List Hash) : List (Bool × Hash) :=
  layers.zipIdx.map fun (layer, place) => (decide (onLeft place), layer)

theorem zip_map_range_eq_sided (onLeft : Nat → Prop) [DecidablePred onLeft] (layers : List Hash) :
    ((List.range layers.length).map fun place => decide (onLeft place)).zip layers =
      sided onLeft layers := by
  refine List.ext_getElem (by simp [sided]) fun place hl hr => ?_
  simp [sided]

theorem sided_congr {p q : Nat → Prop} [DecidablePred p] [DecidablePred q] {layers : List Hash}
    (h : ∀ place < layers.length, p place ↔ q place) : sided p layers = sided q layers := by
  rw [← zip_map_range_eq_sided, ← zip_map_range_eq_sided]
  congr 1
  refine List.map_congr_left fun place hm => ?_
  have hplace := h place (List.mem_range.mp hm)
  exact decide_eq_decide.mpr hplace

theorem testBit_toNat_lt {word : UInt32} {place : Nat} (h : word.toNat.testBit place = true) :
    place < 32 := by
  have hle : 2 ^ place ≤ word.toNat := Nat.ge_two_pow_of_testBit h
  have hlt : word.toNat < 2 ^ 32 := word.toNat_lt
  exact (Nat.pow_lt_pow_iff_right (by decide)).mp (Nat.lt_of_le_of_lt hle hlt)

theorem map_range_succ (f : Nat → Bool) (count : Nat) : (List.range (count + 1)).map f =
    f 0 :: (List.range count).map fun place => f (place + 1) := by
  rw [List.range_succ_eq_map, List.map_cons, List.map_map]
  rfl

namespace MerklePath

theorem lefts_eq_map (index count : Nat) : lefts index count =
    (List.range count).map fun place => decide (index.testBit place = true) := by
  induction count generalizing index with
  | zero => rfl
  | succ count ih =>
    have hhead : decide (index % 2 = 1) = decide (index.testBit 0 = true) := by
      simp
    have hhalf (place : Nat) : (index / 2).testBit place = index.testBit (place + 1) :=
      (Nat.testBit_succ index place).symm
    rw [lefts, ih, hhead, map_range_succ]
    simp only [hhalf]

/-- Whether the layer at a place is on the left: by its bit of the index, as an unsigned word. -/
def OnLeft (path : MerklePath) (place : Nat) : Prop :=
  place < 32 ∧ path.index.toUInt32.toNat.testBit place = true

instance (path : MerklePath) : DecidablePred path.OnLeft :=
  fun place => inferInstanceAs (Decidable (place < 32 ∧ _ = true))

theorem ascending_eq_sided (path : MerklePath) :
    path.ascending = sided path.OnLeft path.layers := by
  have hside (place : Nat) :
      path.OnLeft place ↔ path.index.toUInt32.toNat.testBit place = true :=
    ⟨fun h => h.2, fun h => ⟨testBit_toNat_lt h, h⟩⟩
  rw [ascending, lefts_eq_map, zip_map_range_eq_sided]
  exact sided_congr fun place _ => (hside place).symm

end MerklePath

namespace PackagePath

/-- Whether the layer at a place out of `count` is on the left. -/
def LeftAt (tree index count place : Nat) : Prop :=
  place + 1 = count ∨ (place + 2 = count ∧ tree % 2 = 1) ∨
    (place + 2 < count ∧ index.testBit place = true)

instance (tree index count : Nat) : DecidablePred (LeftAt tree index count) :=
  fun _ => inferInstanceAs (Decidable (_ ∨ (_ ∧ _) ∨ (_ ∧ _)))

theorem lefts_eq_map (tree index count : Nat) : lefts tree index count =
    (List.range count).map fun place => decide (LeftAt tree index count place) := by
  fun_induction lefts tree index count with
  | case1 => rfl
  | case2 => simp [LeftAt]
  | case3 => simp [LeftAt, List.range_succ]
  | case4 index count ih =>
    have hhead : decide (index % 2 = 1) = decide (LeftAt tree index (count + 3) 0) := by
      simp [LeftAt]
    have hstep (place : Nat) : LeftAt tree (index / 2) (count + 2) place ↔
        LeftAt tree index (count + 3) (place + 1) := by
      have hbit : index.testBit (place + 1) = (index / 2).testBit place :=
        Nat.testBit_succ index place
      rw [LeftAt, LeftAt, hbit]
      exact or_congr (by omega) (or_congr (and_congr (by omega) .rfl) (and_congr (by omega) .rfl))
    have hsplit := map_range_succ
      (fun place => decide (LeftAt tree index (count + 3) place)) (count + 2)
    simp only [← hstep] at hsplit
    rw [ih, hhead]
    exact hsplit.symm

theorem toInt_emod_two (tree : Int32) : tree.toInt % 2 = 1 ↔ tree.toUInt32.toNat % 2 = 1 := by
  have hcond := BitVec.toInt_eq_toNat_cond tree.toBitVec
  have hint : tree.toInt = tree.toBitVec.toInt := rfl
  have hnat : tree.toUInt32.toNat = tree.toBitVec.toNat := rfl
  rw [hint, hnat, hcond]
  split <;> omega

/-- The last layer is on the left and the one before it where the tree is odd; the others are where
their bits of the index are set. -/
def OnLeft (path : PackagePath) (place : Nat) : Prop :=
  place + 1 = path.layers.length ∨
    (place + 2 = path.layers.length ∧ path.tree.toInt % 2 = 1) ∨
    (place + 2 < path.layers.length ∧ place < 32 ∧
      path.index.toUInt32.toNat.testBit place = true)

instance (path : PackagePath) : DecidablePred path.OnLeft :=
  fun _ => inferInstanceAs (Decidable (_ ∨ (_ ∧ _) ∨ (_ ∧ _ ∧ _)))

theorem ascending_eq_sided (path : PackagePath) :
    path.ascending = sided path.OnLeft path.layers := by
  rw [ascending, lefts_eq_map, zip_map_range_eq_sided]
  refine sided_congr fun place _ => ?_
  rw [LeftAt, OnLeft, toInt_emod_two]
  constructor
  · rintro (hlast | htree | ⟨hplace, hbit⟩)
    · exact .inl hlast
    · exact .inr (.inl htree)
    · exact .inr (.inr ⟨hplace, testBit_toNat_lt hbit, hbit⟩)
  · rintro (hlast | htree | ⟨hplace, -, hbit⟩)
    · exact .inl hlast
    · exact .inr (.inl htree)
    · exact .inr (.inr ⟨hplace, hbit⟩)

end PackagePath

/-- Roots are folds with the layers on these sides. So only the lowest bit of the tree and the bits of
the index below the last two layers have a part in the root of a package path. -/
theorem root_eq_summit_sided :
    (∀ path : PackagePath, path.root =
      (summit sha256 path.subject (sided path.OnLeft path.layers)).first 16 PackagePath.half_le) ∧
    (∀ path : MerklePath, path.root = summit sha256d path.subject (sided path.OnLeft path.layers)) ∧
    ∀ a b : PackagePath, a.subject = b.subject → a.layers = b.layers →
      (∀ place, place + 2 < a.layers.length →
        a.index.toUInt32.toNat.testBit place = b.index.toUInt32.toNat.testBit place) →
      (2 ≤ a.layers.length → a.tree.toInt % 2 = b.tree.toInt % 2) → a.root = b.root := by
  refine ⟨fun path => ?_, fun path => ?_, fun a b hsubject hlayers hindex htree => ?_⟩
  · rw [path.root_eq_summit, path.ascending_eq_sided]
  · rw [path.root_eq_summit, path.ascending_eq_sided]
  · have hsides : a.ascending = b.ascending := by
      rw [a.ascending_eq_sided, b.ascending_eq_sided, ← hlayers]
      refine sided_congr fun place hplace => ?_
      rw [PackagePath.OnLeft, PackagePath.OnLeft, ← hlayers]
      refine or_congr .rfl (or_congr ?_ ?_)
      · exact and_congr_right fun hsecond => by rw [htree (by omega)]
      · exact and_congr_right fun hbelow => by rw [hindex place hbelow]
    rw [a.root_eq_summit, b.root_eq_summit, hsubject, hsides]

theorem root_eq_summit_sided_sample :
    (PackagePath.mk 1 0 (sha256 [0]) [sha256 [1], sha256 [2], sha256 [3]]).root =
      (PackagePath.mk (-1) (-2) (sha256 [0]) [sha256 [1], sha256 [2], sha256 [3]]).root ∧
    (PackagePath.mk 0 0 (sha256 [0]) [sha256 [1]]).root =
      (PackagePath.mk 7 (-5) (sha256 [0]) [sha256 [1]]).root := by
  obtain ⟨-, -, hroot⟩ := root_eq_summit_sided
  have htree : (1 : Int32).toInt % 2 = (-1 : Int32).toInt % 2 := by decide
  have hindex (place : Nat) (h : place < 1) : (0 : Int32).toUInt32.toNat.testBit place =
      (-2 : Int32).toUInt32.toNat.testBit place := by
    obtain rfl : place = 0 := Nat.lt_one_iff.mp h
    decide
  refine ⟨hroot _ _ rfl rfl (fun place h => ?_) fun _ => htree,
    hroot _ _ rfl rfl (fun place h => ?_) fun h => ?_⟩
  · exact hindex place (Nat.lt_of_add_lt_add_right h)
  · exact absurd h (by simp)
  · exact absurd h (by simp)

end ProofOfProof
