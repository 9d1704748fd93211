import ProofOfProof.Header.Alt
import ProofOfProof.Header.Btc
import ProofOfProof.Header.Vbk
import ProofOfProof.Proofs.Field

/-! The headers of the three chains, raw and on the wire. None of them holds an integer that could
be spelled in two ways, so what is read is written back whatever the spelling. -/

namespace ProofOfProof

variable {spelling : Spelling} {input rest : Bytes} {faithful : Prop}

/-- Hashes as long as a chain lets its own be. -/
def Limits.AdmitsHash (limits : Limits) (hash : Bytes) : Prop :=
  limits.altHashMin ≤ hash.length ∧ hash.length ≤ limits.altHashMax

theorem Limits.admitsHash_of_shortField {limits : Limits} {what : String} {hash : Bytes}
    (h : Reader.shortField what limits.altHashMin limits.altHashMax spelling input =
      .ok hash rest) : limits.AdmitsHash hash :=
  (Reader.shortField_eq_ok.mp h).1

theorem Reader.Inverts.hash {limits : Limits} (what : String) {hash : Bytes}
    (h : limits.AdmitsHash hash) : (Reader.shortField what limits.altHashMin
      limits.altHashMax).Inverts (Writer.shortField hash) hash :=
  shortField h.1 h.2

namespace AltBlock

theorem inverts {limits : Limits} {block : AltBlock} (hh : limits.AdmitsHash block.hash)
    (hp : limits.AdmitsHash block.previous) : (read limits).Inverts block.write block := by
  refine (Reader.Inverts.hash _ hh).bind ?_
  refine (Reader.Inverts.hash _ hp).bind ?_
  refine (Reader.Inverts.int32 block.height).bind ?_
  exact (Reader.Inverts.uint32 block.timestamp).last rfl

theorem restores {limits : Limits} {block : AltBlock}
    (h : read limits spelling input = .ok block rest) :
    limits.AdmitsHash block.hash ∧ limits.AdmitsHash block.previous ∧
      block.write.Restores faithful input rest := by
  obtain ⟨hash, _, hhash, h⟩ := Reader.bind_eq_ok.mp h
  obtain ⟨previous, _, hprevious, h⟩ := Reader.bind_eq_ok.mp h
  obtain ⟨height, _, hheight, h⟩ := Reader.bind_eq_ok.mp h
  obtain ⟨timestamp, _, htimestamp, h⟩ := Reader.bind_eq_ok.mp h
  obtain ⟨rfl, rfl⟩ := Reader.pure_eq_ok.mp h
  refine ⟨limits.admitsHash_of_shortField hhash, limits.admitsHash_of_shortField hprevious, ?_⟩
  refine (Writer.Restores.shortField hhash).bind ?_
  refine (Writer.Restores.shortField hprevious).bind ?_
  exact (Writer.Restores.int32 hheight).bind (.uint32 htimestamp)

end AltBlock

namespace BtcBlock

theorem inverts_raw (block : BtcBlock) : readRaw.Inverts block.writeRaw block := by
  refine (Reader.Inverts.uint32LE block.version).bind ?_
  refine (Reader.Inverts.take block.previous.reverse).bind ?_
  refine (Reader.Inverts.take block.merkleRoot.reverse).bind ?_
  refine (Reader.Inverts.uint32LE block.timestamp).bind ?_
  refine (Reader.Inverts.uint32LE block.bits).bind ?_
  apply (Reader.Inverts.uint32LE block.nonce).last
  simp only [Fixed.reverse_reverse]

theorem restores_raw {block : BtcBlock} (h : readRaw spelling input = .ok block rest) :
    block.writeRaw.Restores faithful input rest := by
  obtain ⟨version, _, hversion, h⟩ := Reader.bind_eq_ok.mp h
  obtain ⟨previous, _, hprevious, h⟩ := Reader.bind_eq_ok.mp h
  obtain ⟨merkleRoot, _, hmerkleRoot, h⟩ := Reader.bind_eq_ok.mp h
  obtain ⟨timestamp, _, htimestamp, h⟩ := Reader.bind_eq_ok.mp h
  obtain ⟨bits, _, hbits, h⟩ := Reader.bind_eq_ok.mp h
  obtain ⟨nonce, _, hnonce, h⟩ := Reader.bind_eq_ok.mp h
  obtain ⟨rfl, rfl⟩ := Reader.pure_eq_ok.mp h
  rw [← previous.reverse_reverse] at hprevious
  rw [← merkleRoot.reverse_reverse] at hmerkleRoot
  refine (Writer.Restores.uint32LE hversion).bind ?_
  refine (Writer.Restores.take hprevious).bind ?_
  refine (Writer.Restores.take hmerkleRoot).bind ?_
  refine (Writer.Restores.uint32LE htimestamp).bind ?_
  exact (Writer.Restores.uint32LE hbits).bind (.uint32LE hnonce)

theorem length_raw (block : BtcBlock) : block.raw.length = btcHeaderSize := by
  have hp := block.previous.reverse.property
  have hm := block.merkleRoot.reverse.property
  have hraw : block.raw = littleEndian 4 block.version.toNat ++ (block.previous.reverse.val ++
      (block.merkleRoot.reverse.val ++ (littleEndian 4 block.timestamp.toNat ++
        (littleEndian 4 block.bits.toNat ++ littleEndian 4 block.nonce.toNat)))) := rfl
  rw [hraw]
  simp only [List.length_append, littleEndian, List.length_reverse, length_bigEndian, hp, hm]
  rfl

theorem inverts (limits : Limits) (block : BtcBlock) :
    (Wire.read limits).Inverts (Wire.write block) block :=
  have hlen := block.length_raw
  (Reader.Inverts.shortField (Nat.le_of_eq hlen.symm) (Nat.le_of_eq hlen)).last
    (block.inverts_raw.within_eq_pure rfl)

theorem restores {limits : Limits} {block : BtcBlock}
    (h : Wire.read limits spelling input = .ok block rest) :
    (Wire.write block).Restores faithful input rest := by
  obtain ⟨raw, mid, hraw, h⟩ := Reader.bind_eq_ok.mp h
  obtain ⟨hblock, rfl⟩ := Reader.within_eq_ok.mp h
  obtain ⟨bytes, hb, hsame⟩ : block.writeRaw.Restores True raw [] := restores_raw hblock
  obtain rfl : raw = block.raw := by
    rw [hsame trivial, BtcBlock.raw, hb, List.append_nil]
  exact .shortField hraw

theorem write_atMost (block : BtcBlock) : (Wire.write block).AtMost (btcHeaderSize + 1) :=
  Writer.shortField_atMost (Nat.le_of_eq block.length_raw)

end BtcBlock

namespace VbkBlock

theorem checkNonce_eq_ok {nonce : UInt64} {u : Unit} :
    checkNonce nonce = .ok u ↔ nonce.toNat < 256 ^ 5 := by
  rw [checkNonce]
  by_cases h : maxVbkNonce < nonce
  · rw [if_pos h]
    have hn : maxVbkNonce.toNat < nonce.toNat := UInt64.lt_iff_toNat_lt.mp h
    have hm : maxVbkNonce.toNat = 1099511627775 := rfl
    simp only [reduceCtorEq, false_iff]
    omega
  · rw [if_neg h]
    have hn : ¬ maxVbkNonce.toNat < nonce.toNat := fun hh => h (UInt64.lt_iff_toNat_lt.mpr hh)
    have hm : maxVbkNonce.toNat = 1099511627775 := rfl
    simp only [true_iff]
    omega

theorem inverts_raw (block : VbkBlock) : readRaw.Inverts block.writeRaw block := by
  refine .check_writer fun _ hnonce => ?_
  refine (Reader.Inverts.int32 block.height).bind ((Reader.Inverts.int16 block.version).bind ?_)
  refine (Reader.Inverts.take block.previous).bind ((Reader.Inverts.take block.keystone).bind ?_)
  refine (Reader.Inverts.take block.secondKeystone).bind ?_
  refine (Reader.Inverts.take block.merkleRoot).bind ?_
  refine (Reader.Inverts.int32 block.timestamp).bind ?_
  refine (Reader.Inverts.int32 block.difficulty).bind ?_
  have hbytes : (Reader.bytes 5).Inverts (.emit (bigEndian 5 block.nonce.toNat)) _ :=
    .emit fun _ _ => Reader.bytes_eq_ok.mpr ⟨length_bigEndian _ _, rfl⟩
  refine hbytes.last ?_
  rw [ofBigEndian_bigEndian, Nat.mod_eq_of_lt (checkNonce_eq_ok.mp hnonce), UInt64.ofNat_toNat]

theorem restores_raw {block : VbkBlock} (h : readRaw spelling input = .ok block rest) :
    block.writeRaw.Restores faithful input rest := by
  obtain ⟨height, _, hheight, h⟩ := Reader.bind_eq_ok.mp h
  obtain ⟨version, _, hversion, h⟩ := Reader.bind_eq_ok.mp h
  obtain ⟨previous, _, hprevious, h⟩ := Reader.bind_eq_ok.mp h
  obtain ⟨keystone, _, hkeystone, h⟩ := Reader.bind_eq_ok.mp h
  obtain ⟨secondKeystone, _, hsecondKeystone, h⟩ := Reader.bind_eq_ok.mp h
  obtain ⟨merkleRoot, _, hmerkleRoot, h⟩ := Reader.bind_eq_ok.mp h
  obtain ⟨timestamp, _, htimestamp, h⟩ := Reader.bind_eq_ok.mp h
  obtain ⟨difficulty, _, hdifficulty, h⟩ := Reader.bind_eq_ok.mp h
  obtain ⟨nonce, mid, hnonce, h⟩ := Reader.bind_eq_ok.mp h
  obtain ⟨rfl, rfl⟩ := Reader.pure_eq_ok.mp h
  obtain ⟨hlen, hmid⟩ := Reader.bytes_eq_ok.mp hnonce
  have hlt := ofBigEndian_lt nonce
  have hback := bigEndian_ofBigEndian nonce
  rw [hlen] at hlt hback
  have hto : (UInt64.ofNat (ofBigEndian nonce)).toNat = ofBigEndian nonce :=
    UInt64.toNat_ofNat_of_lt' (Nat.lt_trans hlt (by decide))
  have hok : (UInt64.ofNat (ofBigEndian nonce)).toNat < 256 ^ 5 := by rwa [hto]
  refine .check (x := ()) (checkNonce_eq_ok.mpr hok) ?_
  refine (Writer.Restores.int32 hheight).bind ((Writer.Restores.int16 hversion).bind ?_)
  refine (Writer.Restores.take hprevious).bind ((Writer.Restores.take hkeystone).bind ?_)
  refine (Writer.Restores.take hsecondKeystone).bind ((Writer.Restores.take hmerkleRoot).bind ?_)
  refine (Writer.Restores.int32 htimestamp).bind ((Writer.Restores.int32 hdifficulty).bind ?_)
  rw [hto, hback]
  exact .emit hmid

theorem length_of_writeRaw {block : VbkBlock} {raw : Bytes}
    (h : block.writeRaw = ⟨raw, .ok ()⟩) : raw.length = vbkHeaderSize := by
  obtain ⟨_, -, hfields⟩ := Writer.check_bind_eq_ok.mp h
  have hp := block.previous.property
  have hk := block.keystone.property
  have hs := block.secondKeystone.property
  have hm := block.merkleRoot.property
  have hraw : raw = bigEndian 4 block.height.toUInt32.toNat ++
      (bigEndian 2 block.version.toUInt16.toNat ++ (block.previous.val ++ (block.keystone.val ++
        (block.secondKeystone.val ++ (block.merkleRoot.val ++
          (bigEndian 4 block.timestamp.toUInt32.toNat ++
            (bigEndian 4 block.difficulty.toUInt32.toNat ++ bigEndian 5 block.nonce.toNat))))))) :=
    (congrArg Writer.written hfields).symm
  rw [hraw]
  simp only [List.length_append, length_bigEndian, hp, hk, hs, hm]
  rfl

theorem inverts (limits : Limits) (block : VbkBlock) :
    (Wire.read limits).Inverts (Wire.write block) block := by
  refine .buffered fun raw hraw => ?_
  have hlen := length_of_writeRaw hraw
  exact (Reader.Inverts.shortField (Nat.le_of_eq hlen.symm) (Nat.le_of_eq hlen)).last
    (block.inverts_raw.within_eq_pure hraw)

theorem restores {limits : Limits} {block : VbkBlock}
    (h : Wire.read limits spelling input = .ok block rest) :
    (Wire.write block).Restores faithful input rest := by
  obtain ⟨raw, mid, hraw, h⟩ := Reader.bind_eq_ok.mp h
  obtain ⟨hblock, rfl⟩ := Reader.within_eq_ok.mp h
  obtain ⟨bytes, hb, hsame⟩ : block.writeRaw.Restores True raw [] := restores_raw hblock
  obtain rfl : raw = bytes := by rw [hsame trivial, List.append_nil]
  exact .buffered hb (.shortField hraw)

theorem write_atMost (block : VbkBlock) : (Wire.write block).AtMost (vbkHeaderSize + 1) :=
  .buffered fun _ hraw => Writer.shortField_atMost (Nat.le_of_eq (length_of_writeRaw hraw))

end VbkBlock

end ProofOfProof
