import ProofOfProof.Merkle.PackagePath
import ProofOfProof.Proofs.Field
import ProofOfProof.Proofs.Sequence

/-! Merkle paths on the wire. Their integers are written at full width, so a path grows where it
was spelled with less. -/

namespace ProofOfProof

variable {spelling : Spelling} {input rest : Bytes}

theorem checkLayers_eq_ok {layers : List Hash} {u : Unit} :
    checkLayers layers = .ok u ↔ layers.length ≤ maxMerkleLayers := by
  unfold checkLayers
  by_cases h : maxMerkleLayers < layers.length
  · simp [h]
  · simp [h]
    omega

/-- The count of the layers, which the writer keeps small, as its reader sees it. -/
theorem toInt_layerCount {layers : List Hash} (h : layers.length ≤ maxMerkleLayers) :
    (Int32.ofNat layers.length).toInt = layers.length := by
  rw [maxMerkleLayers] at h
  exact Int32.toInt_ofNat_of_lt (by omega)

theorem layerCount_eq {count : Int32} {layers : List Hash} (h : count.toInt = layers.length)
    (hl : layers.length ≤ maxMerkleLayers) : Int32.ofNat layers.length = count :=
  Int32.toInt_inj.mp (by rw [toInt_layerCount hl, h])

namespace MerklePath

theorem inverts_raw (path : MerklePath) : (readRaw path.subject).Inverts path.writeRaw path := by
  refine .check_writer fun _ hlayers => ?_
  have hle := checkLayers_eq_ok.mp hlayers
  have hcount := toInt_layerCount hle
  refine (Reader.Inverts.fullInteger32 _ path.index).bind ?_
  refine (Reader.Inverts.fullInteger32 _ _).bind (.check_reader (x := ()) ?_ ?_)
  · rw [checkRange_eq_ok_iff, hcount]
    omega
  refine (Reader.Inverts.fullInteger32 _ _).bind (.check_reader (x := ()) rfl ?_)
  refine (Reader.Inverts.uint32 32).bind (.check_reader (x := ()) rfl ?_)
  rw [hcount, Int.toNat_natCast]
  exact (Reader.Inverts.each fun layer _ => .shortFieldOf _ layer).last rfl

theorem restores_raw {subject : Hash} {path : MerklePath}
    (h : readRaw subject spelling input = .ok path rest) :
    path.subject = subject ∧ path.writeRaw.Restores (spelling = .written) input rest := by
  obtain ⟨index, _, hindex, h⟩ := Reader.bind_eq_ok.mp h
  obtain ⟨count, _, hcount, h⟩ := Reader.bind_eq_ok.mp h
  obtain ⟨_, hcountRange, h⟩ := Reader.check_bind_eq_ok.mp h
  obtain ⟨sizeWidth, _, hsizeWidth, h⟩ := Reader.bind_eq_ok.mp h
  obtain ⟨_, hsizeRange, h⟩ := Reader.check_bind_eq_ok.mp h
  obtain ⟨dataWidth, _, hdataWidth, h⟩ := Reader.bind_eq_ok.mp h
  obtain ⟨_, hdataRange, h⟩ := Reader.check_bind_eq_ok.mp h
  obtain ⟨layers, _, hlayers, h⟩ := Reader.bind_eq_ok.mp h
  obtain ⟨rfl, rfl⟩ := Reader.pure_eq_ok.mp h
  rw [checkRange_eq_ok_iff] at hcountRange hsizeRange hdataRange
  have hlen := Reader.length_of_replicate hlayers
  have hle : layers.length ≤ maxMerkleLayers := by omega
  obtain rfl : Int32.ofNat layers.length = count := layerCount_eq (by omega) hle
  obtain rfl : Int32.ofNat merkleSizeWidth = sizeWidth :=
    Int32.toInt_inj.mp (Int.le_antisymm hsizeRange.1 hsizeRange.2)
  obtain rfl : 32 = dataWidth := UInt32.toNat_inj.mp (by
    have hthirtytwo : UInt32.toNat 32 = 32 := rfl
    omega)
  refine ⟨rfl, .check (x := ()) (checkLayers_eq_ok.mpr hle) ?_⟩
  refine (Writer.Restores.fullInteger32 hindex).bind ?_
  refine (Writer.Restores.fullInteger32 hcount).bind ?_
  refine (Writer.Restores.fullInteger32 hsizeWidth).bind ?_
  refine (Writer.Restores.uint32 hdataWidth).bind ?_
  exact .replicate hlayers .shortFieldOf

theorem writeRaw_atMost (path : MerklePath) : path.writeRaw.AtMost 1339 := by
  refine .check fun _ hlayers => ?_
  have hle := checkLayers_eq_ok.mp hlayers
  have hlayer : ∀ layer ∈ path.layers, (Writer.shortField layer.val).AtMost 33 :=
    fun layer _ => Writer.shortField_atMost (Nat.le_of_eq layer.property)
  refine Writer.AtMost.mono (n := 5 + (5 + (5 + (4 + path.layers.length * 33)))) ?_ ?_
  · refine (Writer.fullInteger32_atMost _).bind ((Writer.fullInteger32_atMost _).bind ?_)
    refine (Writer.fullInteger32_atMost _).bind (.bind ?_ (.each hlayer))
    exact .emit (Nat.le_of_eq (length_bigEndian 4 32))
  · rw [maxMerkleLayers] at hle
    omega

theorem inverts (path : MerklePath) : (read path.subject).Inverts path.write path := by
  refine .buffered fun raw hraw => ?_
  have hle : raw.length ≤ maxBodySize := Nat.le_trans (path.writeRaw_atMost raw hraw) (by decide)
  exact (Reader.Inverts.longField (Nat.zero_le _) hle).last (path.inverts_raw.within_eq_pure hraw)

theorem restores {subject : Hash} {path : MerklePath}
    (h : read subject spelling input = .ok path rest) :
    path.subject = subject ∧ path.write.Restores (spelling = .written) input rest := by
  obtain ⟨raw, mid, hraw, h⟩ := Reader.bind_eq_ok.mp h
  obtain ⟨hpath, rfl⟩ := Reader.within_eq_ok.mp h
  obtain ⟨hsubject, bytes, hb, hsame⟩ := restores_raw hpath
  have hle := path.writeRaw_atMost bytes hb
  refine ⟨hsubject, .buffered hb (.longPart hraw (by omega) fun hw => ?_)⟩
  rw [hsame hw, List.append_nil]

theorem write_atMost (path : MerklePath) : path.write.AtMost 1342 :=
  .buffered fun raw hraw =>
    Writer.longField_atMost (path.writeRaw_atMost raw hraw) 2 (by decide) (by decide) (by decide)

end MerklePath

namespace PackagePath

theorem inverts (path : PackagePath) : read.Inverts path.write path := by
  refine .check_writer fun _ hlayers => ?_
  have hle := checkLayers_eq_ok.mp hlayers
  have hcount := toInt_layerCount hle
  refine (Reader.Inverts.fullInteger32 _ path.tree).bind ?_
  refine (Reader.Inverts.fullInteger32 _ path.index).bind ?_
  refine (Reader.Inverts.shortFieldOf _ path.subject).bind ?_
  refine (Reader.Inverts.fullInteger32 _ _).bind ?_
  refine Reader.Inverts.last (.check_reader (x := ()) ?_ ?_) rfl
  · rw [checkRange_eq_ok_iff, hcount]
    omega
  · rw [hcount, Int.toNat_natCast]
    exact .each fun layer _ => .shortFieldOf _ layer

theorem restores {path : PackagePath} (h : read spelling input = .ok path rest) :
    path.write.Restores (spelling = .written) input rest := by
  obtain ⟨tree, _, htree, h⟩ := Reader.bind_eq_ok.mp h
  obtain ⟨index, _, hindex, h⟩ := Reader.bind_eq_ok.mp h
  obtain ⟨subject, _, hsubject, h⟩ := Reader.bind_eq_ok.mp h
  obtain ⟨count, _, hcount, h⟩ := Reader.bind_eq_ok.mp h
  obtain ⟨layers, _, hlayers, h⟩ := Reader.bind_eq_ok.mp h
  obtain ⟨rfl, rfl⟩ := Reader.pure_eq_ok.mp h
  obtain ⟨hr, hlen, hitems⟩ := Reader.eq_ok_of_counted hlayers
  obtain rfl := layerCount_eq hlen hr.2
  refine .check (x := ()) (checkLayers_eq_ok.mpr hr.2) ?_
  refine (Writer.Restores.fullInteger32 htree).bind ?_
  refine (Writer.Restores.fullInteger32 hindex).bind ?_
  refine (Writer.Restores.shortFieldOf hsubject).bind ?_
  exact (Writer.Restores.fullInteger32 hcount).bind (.replicate hitems .shortFieldOf)

end PackagePath

end ProofOfProof
