import ProofOfProof.Payload.Atv
import ProofOfProof.Payload.Vtb
import ProofOfProof.Proofs.Inclusion

/-! What an id says of the payload it was computed of. An ATV is hashed as a whole, so its id fixes
every field. A VTB is hashed in steps over strings of one width each, so its id fixes what goes into
them: the Bitcoin transaction, the block of proof, and the hash of the containing block. -/

namespace ProofOfProof

open Writer (Separates)

theorem eq_or_collision_of_hash_eq {α : Type} {hash : Bytes → α} {x y : Bytes}
    (h : hash x = hash y) : x = y ∨ Collision hash [x, y] := by
  by_cases hxy : x = y
  · exact .inl hxy
  · exact .inr ⟨x, by simp, y, by simp, hxy, h⟩

def Fixed.append {n m : Nat} (a : Fixed n) (b : Fixed m) : Fixed (n + m) :=
  ⟨a.val ++ b.val, by rw [List.length_append, a.property, b.property]⟩

namespace TransferTx

theorem eq_of_unsigned {a b : TransferTx} (h : a.unsigned = b.unsigned)
    (hs : a.signature = b.signature) (hk : a.publicKey = b.publicKey) : a = b := by
  have hsigned (tx : TransferTx) :
      tx = { tx.unsigned with signature := tx.signature, publicKey := tx.publicKey } := rfl
  rw [hsigned a, hsigned b, h, hs, hk]

theorem separates {a b : TransferTx} (ha : a.tag.type = TypeTag.transfer)
    (hb : b.tag.type = TypeTag.transfer) : Separates (Wire.write a) (Wire.write b) (a = b) := by
  refine Separates.buffered fun body body' hbody hbody' => ?_
  have hsigned := Signed.inverts ⟨body, a.signature, a.publicKey⟩ (a.writeRaw_atMost body hbody)
  have hsigned' := Signed.inverts ⟨body', b.signature, b.publicKey⟩
    (b.writeRaw_atMost body' hbody')
  refine (Separates.of_inverts hsigned hsigned').mono fun hsame => ?_
  simp only [Signed.mk.injEq] at hsame
  obtain ⟨rfl, hsignature, hkey⟩ := hsame
  exact eq_of_unsigned ((separates_raw ha hb).eq_of_toBytes (Writer.toBytes_eq_ok.mpr hbody)
    (Writer.toBytes_eq_ok.mpr hbody')) hsignature hkey

end TransferTx

namespace Atv

theorem separates {a b : Atv} (ha : a.transaction.tag.type = TypeTag.transfer)
    (hb : b.transaction.tag.type = TypeTag.transfer) :
    Separates (Wire.write a) (Wire.write b) (a = b) := by
  refine (Separates.of_inverts (.version "ATV" _) (.version "ATV" _)).bind fun hversion => ?_
  refine (TransferTx.separates ha hb).bind fun htransaction => ?_
  refine (Separates.of_inverts a.path.inverts b.path.inverts).bind fun hpath => ?_
  refine (Separates.of_inverts (a.blockOfProof.inverts {}) (b.blockOfProof.inverts {})).mono ?_
  intro hblock
  obtain ⟨version, transaction, path, blockOfProof⟩ := a
  obtain ⟨version', transaction', path', blockOfProof'⟩ := b
  simp only at hversion htransaction hpath hblock
  rw [hversion, htransaction, hpath, hblock]

theorem id_eq_ok {atv : Atv} {id : Hash} :
    atv.id = .ok id ↔ ∃ bytes, encode atv = .ok bytes ∧ sha256 bytes = id := by
  rw [Atv.id]
  cases encode atv with
  | error fault => simp
  | ok bytes => simp

end Atv

namespace BtcBlock

theorem raw_inj {a b : BtcBlock} (h : a.raw = b.raw) : a = b := by
  have hwrite (block : BtcBlock) : block.writeRaw = ⟨block.raw, .ok ()⟩ := rfl
  refine (Separates.of_inverts a.inverts_raw b.inverts_raw).eq_of_toBytes
    (Writer.toBytes_eq_ok.mpr (hwrite a)) ?_
  rw [h]
  exact Writer.toBytes_eq_ok.mpr (hwrite b)

end BtcBlock

namespace Vtb

variable {hasher : HeaderHash} {vtb : Vtb} {id : Hash}

/-- Block of proof and containing block. The zeros behind the hash of the latter make both halves
equally wide. -/
def blocksString (vtb : Vtb) (containing : Fixed 24) : Fixed 64 :=
  vtb.transaction.blockOfProof.hash.append (containing.append (.zero 8))

/-- The Bitcoin transaction, and the hash of the blocks. -/
def idString (vtb : Vtb) (containing : Fixed 24) : Fixed 64 :=
  vtb.transaction.btcTx.hash.append (sha256 (vtb.blocksString containing).val)

theorem id_eq_ok : vtb.id hasher = .ok id ↔
    ∃ containing, vtb.containing.hash hasher = .ok containing ∧
      sha256 (vtb.idString containing).val = id := by
  rw [Vtb.id]
  cases vtb.containing.hash hasher with
  | error fault => simp
  | ok containing => simp [sha256Pair, idString, blocksString, Fixed.append, Fixed.zero]

/-- The steps of two ids at which strings may collide. -/
inductive Collides (a b : Vtb) (h h' : Fixed 24) : Prop
  | btcTx (collision : Collision sha256d [a.transaction.btcTx.bytes, b.transaction.btcTx.bytes])
  | blockOfProof (collision : Collision sha256d
      [a.transaction.blockOfProof.raw, b.transaction.blockOfProof.raw])
  | blocks (collision : Collision sha256 [(a.blocksString h).val, (b.blocksString h').val])
  | id (collision : Collision sha256 [(a.idString h).val, (b.idString h').val])

/-- From the outside in: each step gives equal strings or a collision, and equal strings fall apart
where their parts do. -/
theorem eq_or_collides {a b : Vtb} {h h' : Fixed 24}
    (he : sha256 (a.idString h).val = sha256 (b.idString h').val) :
    (a.transaction.btcTx.bytes = b.transaction.btcTx.bytes ∧
      a.transaction.blockOfProof = b.transaction.blockOfProof ∧ h = h') ∨ Collides a b h h' := by
  rcases eq_or_collision_of_hash_eq he with hid | hcollision
  swap
  · exact .inr (.id hcollision)
  obtain ⟨htx, hblocks⟩ := Fixed.append_inj hid
  rcases eq_or_collision_of_hash_eq (Subtype.ext hblocks) with hblocks | hcollision
  swap
  · exact .inr (.blocks hcollision)
  obtain ⟨hproof, hpadded⟩ := Fixed.append_inj hblocks
  obtain ⟨hcontaining, -⟩ := Fixed.append_inj hpadded
  have hraw : sha256d a.transaction.blockOfProof.raw = sha256d b.transaction.blockOfProof.raw := by
    rw [← Fixed.reverse_reverse (sha256d a.transaction.blockOfProof.raw),
      ← Fixed.reverse_reverse (sha256d b.transaction.blockOfProof.raw)]
    exact congrArg Fixed.reverse hproof
  rcases eq_or_collision_of_hash_eq htx with hbytes | hcollision
  swap
  · exact .inr (.btcTx hcollision)
  rcases eq_or_collision_of_hash_eq hraw with hraw | hcollision
  · exact .inl ⟨hbytes, BtcBlock.raw_inj hraw, hcontaining⟩
  · exact .inr (.blockOfProof hcollision)

end Vtb

/-- Payloads with one id are one payload, or two strings that were hashed for it collide. Of a VTB
only the Bitcoin transaction, the block of proof and the containing block count. -/
theorem payload_eq_of_id :
    (∀ (a b : Atv) (id : Hash), a.transaction.tag.type = TypeTag.transfer →
      b.transaction.tag.type = TypeTag.transfer → a.id = .ok id → b.id = .ok id →
      ∃ x y, encode a = .ok x ∧ encode b = .ok y ∧ (a = b ∨ Collision sha256 [x, y])) ∧
    ∀ (hasher : HeaderHash) (a b : Vtb) (id : Hash), a.id hasher = .ok id → b.id hasher = .ok id →
      ∃ h h', a.containing.hash hasher = .ok h ∧ b.containing.hash hasher = .ok h' ∧
        ((a.transaction.btcTx.bytes = b.transaction.btcTx.bytes ∧
            a.transaction.blockOfProof = b.transaction.blockOfProof ∧ h = h') ∨
          a.Collides b h h') := by
  refine ⟨fun a b id hta htb ha hb => ?_, fun hasher a b id ha hb => ?_⟩
  · obtain ⟨x, hx, hid⟩ := Atv.id_eq_ok.mp ha
    obtain ⟨y, hy, hid'⟩ := Atv.id_eq_ok.mp hb
    refine ⟨x, y, hx, hy, ?_⟩
    rcases eq_or_collision_of_hash_eq (hid.trans hid'.symm) with rfl | hcollision
    · exact .inl ((Atv.separates hta htb).eq_of_toBytes hx hy)
    · exact .inr hcollision
  · obtain ⟨h, hh, hid⟩ := Vtb.id_eq_ok.mp ha
    obtain ⟨h', hh', hid'⟩ := Vtb.id_eq_ok.mp hb
    exact ⟨h, h', hh, hh', Vtb.eq_or_collides (hid.trans hid'.symm)⟩

theorem payload_eq_of_id_resigned :
    (∃ x y, encode (Atv.sample [] []) = .ok x ∧ encode (Atv.sample [] []) = .ok y ∧
      (Atv.sample [] [] = Atv.sample [] [] ∨ Collision sha256 [x, y])) ∧
    ∃ a b, a = Vtb.sample [] [] ∧ b = Vtb.sample [] [1] ∧ a ≠ b ∧
      ∃ h h', a.containing.hash defaultHeaderHash = .ok h ∧
        b.containing.hash defaultHeaderHash = .ok h' ∧
        ((a.transaction.btcTx.bytes = b.transaction.btcTx.bytes ∧
            a.transaction.blockOfProof = b.transaction.blockOfProof ∧ h = h') ∨
          a.Collides b h h') := by
  obtain ⟨hatv, hvtb⟩ := payload_eq_of_id
  obtain ⟨bytes, hbytes⟩ : ∃ bytes, encode (Atv.sample [] []) = .ok bytes :=
    exists_eq_ok (by decide +kernel)
  have hid := Atv.id_eq_ok.mpr ⟨bytes, hbytes, rfl⟩
  obtain ⟨raw, hraw⟩ : ∃ raw, (Vtb.sample [] []).containing.raw = .ok raw :=
    exists_eq_ok (by decide +kernel)
  have hhash : (Vtb.sample [] []).containing.hash defaultHeaderHash =
      .ok (defaultHeaderHash raw) := by
    rw [VbkBlock.hash, hraw]
    rfl
  have hne : Vtb.sample [] [] ≠ Vtb.sample [] [1] := fun he =>
    absurd (congrArg (·.transaction.signature) he) (by decide)
  have hids (signature : Bytes) : (Vtb.sample [] signature).id defaultHeaderHash =
      .ok (sha256 ((Vtb.sample [] []).idString (defaultHeaderHash raw)).val) :=
    Vtb.id_eq_ok.mpr ⟨_, hhash, rfl⟩
  exact ⟨hatv _ _ _ rfl rfl hid hid, _, _, rfl, rfl, hne, hvtb _ _ _ _ (hids []) (hids [1])⟩

end ProofOfProof
