import ProofOfProof.Proofs.Component
import ProofOfProof.Proofs.Header
import ProofOfProof.Proofs.Merkle
import ProofOfProof.Proofs.Tag

/-! Transactions of both types. Readers cut the body out before they look into it, so whatever a
writer puts into a body has to stay below the limit for bodies. -/

namespace ProofOfProof

variable {spelling : Spelling} {input rest : Bytes} {limits : Limits}

namespace TransferTx

/-- What the wire cannot say of a transfer, and a reader takes for granted. -/
structure Shaped (tx : TransferTx) : Prop where
  type : tx.tag.type = TypeTag.transfer
  publication : ∀ bytes, encode tx.publication = .ok bytes → bytes.length ≤ maxPublicationSize

/-- The transaction before it is signed. -/
def unsigned (tx : TransferTx) : TransferTx := { tx with signature := [], publicKey := [] }

theorem inverts_raw {tx : TransferTx} (h : tx.Shaped) :
    (readRaw limits).Inverts tx.writeRaw tx.unsigned := by
  refine .limit fun hcount => ?_
  rw [maxOutputs] at hcount
  refine (TypeTag.inverts h.type).bind (tx.source.inverts.bind ?_)
  refine (tx.amount.inverts limits).bind ((Reader.Inverts.byte _).bind ?_)
  rw [toNat_ofNat_byte (by omega)]
  refine (Reader.Inverts.each fun output _ => output.inverts limits).bind ?_
  refine (Reader.Inverts.integer64 _ tx.signatureIndex).bind (.buffered fun raw hraw => ?_)
  have hle := h.publication raw (Writer.toBytes_eq_ok.mpr hraw)
  refine (Reader.Inverts.longField (Nat.zero_le _) hle).last ?_
  rw [(tx.publication.inverts limits).within_eq_pure hraw]
  rfl

theorem restores_raw {tx : TransferTx} (h : readRaw limits spelling input = .ok tx rest) :
    tx.Shaped ∧ tx.writeRaw.Restores (spelling = .written) input rest := by
  obtain ⟨tag, _, htag, h⟩ := Reader.bind_eq_ok.mp h
  obtain ⟨source, _, hsource, h⟩ := Reader.bind_eq_ok.mp h
  obtain ⟨amount, _, hamount, h⟩ := Reader.bind_eq_ok.mp h
  obtain ⟨count, _, hcount, h⟩ := Reader.bind_eq_ok.mp h
  obtain ⟨outputs, _, houtputs, h⟩ := Reader.bind_eq_ok.mp h
  obtain ⟨index, _, hindex, h⟩ := Reader.bind_eq_ok.mp h
  obtain ⟨raw, _, hraw, h⟩ := Reader.bind_eq_ok.mp h
  obtain ⟨publication, hpublication, h⟩ := Reader.within_bind_eq_ok.mp h
  obtain ⟨rfl, rfl⟩ := Reader.pure_eq_ok.mp h
  have hrawLe := (Reader.longField_eq_ok.mp hraw).1.2
  have hsize := Publication.write_atMost_of_read hpublication hrawLe
  obtain ⟨htype, htagRestores⟩ := TypeTag.restores htag
  obtain ⟨bytes, hbytes, hsame⟩ := Publication.restores hpublication
  have hlen : outputs.length = count.toNat := Reader.length_of_replicate houtputs
  have hle : outputs.length ≤ maxOutputs := by
    rw [hlen, maxOutputs]
    exact Nat.le_of_lt_succ count.toNat_lt
  refine ⟨⟨htype, fun part hpart => hsize part (Writer.toBytes_eq_ok.mp hpart)⟩, ?_⟩
  refine .limit hle ?_
  refine htagRestores.bind ((Address.restores hsource).bind ((Coin.restores hamount).bind ?_))
  refine Writer.Restores.bind ?_ ((Writer.Restores.replicate houtputs Output.restores).bind ?_)
  · rw [hlen, UInt8.ofNat_toNat]
    exact .byte hcount
  · refine (Writer.Restores.integer64 hindex).bind (.buffered hbytes ?_)
    refine .longPart hraw (Nat.le_trans (hsize bytes hbytes) (by decide)) fun hw => ?_
    rw [hsame hw, List.append_nil]

theorem writeRaw_atMost (tx : TransferTx) : tx.writeRaw.AtMost maxBodySize := by
  refine .limit fun hcount => ?_
  rw [maxOutputs] at hcount
  refine Writer.AtMost.mono
    (n := 2 + (32 + (9 + (1 + (tx.outputs.length * 41 + (9 + 21045)))))) ?_ ?_
  · refine (TypeTag.write_atMost _).bind (tx.source.write_atMost.bind ?_)
    refine tx.amount.write_atMost.bind ?_
    refine (Writer.AtMost.byte _).bind (.bind (.each fun output _ => output.write_atMost) ?_)
    refine (Writer.integer64_atMost _).bind (.buffered fun raw hraw => ?_)
    have hle := tx.publication.write_atMost raw hraw
    exact Writer.longField_atMost hle 2 (by decide) (by decide) (by decide)
  · rw [maxBodySize]
    omega

theorem inverts {tx : TransferTx} (h : tx.Shaped) :
    (Wire.read limits).Inverts (Wire.write tx) tx := by
  refine .buffered fun body hbody => ?_
  refine (Signed.inverts ⟨body, _, _⟩ (tx.writeRaw_atMost body hbody)).last ?_
  rw [(inverts_raw h).within_eq_pure hbody]
  rfl

theorem restores {tx : TransferTx} (h : Wire.read limits spelling input = .ok tx rest) :
    tx.Shaped ∧ (Wire.write tx).Restores (spelling = .written) input rest := by
  obtain ⟨signed, _, hsigned, h⟩ := Reader.bind_eq_ok.mp h
  obtain ⟨raw, hraw, h⟩ := Reader.within_bind_eq_ok.mp h
  obtain ⟨rfl, rfl⟩ := Reader.pure_eq_ok.mp h
  obtain ⟨hshaped, body, hbody, hsame⟩ := restores_raw hraw
  refine ⟨⟨hshaped.type, hshaped.publication⟩, .buffered hbody ?_⟩
  refine Signed.restores hsigned (raw.writeRaw_atMost body hbody) fun hw => ?_
  rw [hsame hw, List.append_nil]

end TransferTx

namespace ProofTx

/-- What the wire does not say of a proof, and a reader fills in. -/
structure Shaped (tx : ProofTx) : Prop where
  type : tx.tag.type = TypeTag.proof
  subject : tx.path.subject = tx.btcTx.hash

/-- Whether a chain lets proofs have as much context. -/
def Within (limits : Limits) (tx : ProofTx) : Prop := tx.context.length ≤ limits.btcContext

/-- The transaction before it is signed. -/
def unsigned (tx : ProofTx) : ProofTx := { tx with signature := [], publicKey := [] }

/-- What has been written keeps within the protocol, so a chain has to allow no more than that. -/
theorem inverts_raw {tx : ProofTx} (h : tx.Shaped)
    (hw : tx.context.length ≤ maxBtcContext → tx.Within limits) :
    (readRaw limits).Inverts tx.writeRaw tx.unsigned := by
  refine (TypeTag.inverts h.type).bind (tx.address.inverts.bind ?_)
  refine (tx.published.inverts limits).bind ((tx.btcTx.inverts limits).bind ?_)
  have hpath := tx.path.inverts
  rw [h.subject] at hpath
  refine hpath.bind ((tx.blockOfProof.inverts limits).bind (.limit fun hcount => ?_))
  have hlt : tx.context.length < 2147483648 := Nat.lt_of_le_of_lt hcount (by decide)
  exact (Reader.Inverts.sequence hlt (Nat.zero_le _) (hw hcount)
    fun block _ => block.inverts limits).last rfl

theorem restores_raw (hl : limits.btcContext ≤ maxBtcContext) {tx : ProofTx}
    (h : readRaw limits spelling input = .ok tx rest) :
    tx.Shaped ∧ tx.Within limits ∧ tx.writeRaw.Restores (spelling = .written) input rest := by
  obtain ⟨tag, _, htag, h⟩ := Reader.bind_eq_ok.mp h
  obtain ⟨address, _, haddress, h⟩ := Reader.bind_eq_ok.mp h
  obtain ⟨published, _, hpublished, h⟩ := Reader.bind_eq_ok.mp h
  obtain ⟨btcTx, _, hbtcTx, h⟩ := Reader.bind_eq_ok.mp h
  obtain ⟨path, _, hpath, h⟩ := Reader.bind_eq_ok.mp h
  obtain ⟨blockOfProof, _, hblockOfProof, h⟩ := Reader.bind_eq_ok.mp h
  obtain ⟨context, _, hcontext, h⟩ := Reader.bind_eq_ok.mp h
  obtain ⟨rfl, rfl⟩ := Reader.pure_eq_ok.mp h
  obtain ⟨htype, htagRestores⟩ := TypeTag.restores htag
  obtain ⟨hsubject, hpathRestores⟩ := MerklePath.restores hpath
  have hcount := (Reader.sequence_eq_ok.mp hcontext).1.2
  refine ⟨⟨htype, hsubject⟩, hcount, ?_⟩
  refine htagRestores.bind ((Address.restores haddress).bind ?_)
  refine (VbkBlock.restores hpublished).bind ((BtcTx.restores hbtcTx).bind ?_)
  refine hpathRestores.bind ((BtcBlock.restores hblockOfProof).bind ?_)
  refine .limit (Nat.le_trans hcount hl) ?_
  exact .sequence hcontext BtcBlock.restores

theorem writeRaw_atMost (tx : ProofTx) : tx.writeRaw.AtMost maxBodySize := by
  refine Writer.AtMost.mono
    (n := 2 + (32 + (66 + (4000004 + (1342 + (81 + (9 + 15000 * 81))))))) ?_ (by decide)
  refine (TypeTag.write_atMost _).bind (tx.address.write_atMost.bind ?_)
  refine tx.published.write_atMost.bind (tx.btcTx.write_atMost.bind (tx.path.write_atMost.bind ?_))
  refine tx.blockOfProof.write_atMost.bind (.limit fun hcount => ?_)
  refine (Writer.AtMost.sequence fun block _ => block.write_atMost).mono ?_
  exact Nat.add_le_add_left (Nat.mul_le_mul_right _ hcount) 9

theorem inverts {tx : ProofTx} (h : tx.Shaped) (hw : tx.Within limits) :
    (Wire.read limits).Inverts (Wire.write tx) tx := by
  refine .buffered fun body hbody => ?_
  refine (Signed.inverts ⟨body, _, _⟩ (tx.writeRaw_atMost body hbody)).last ?_
  rw [(inverts_raw h fun _ => hw).within_eq_pure hbody]
  rfl

theorem restores (hl : limits.btcContext ≤ maxBtcContext) {tx : ProofTx}
    (h : Wire.read limits spelling input = .ok tx rest) :
    tx.Shaped ∧ tx.Within limits ∧ (Wire.write tx).Restores (spelling = .written) input rest := by
  obtain ⟨signed, _, hsigned, h⟩ := Reader.bind_eq_ok.mp h
  obtain ⟨raw, hraw, h⟩ := Reader.within_bind_eq_ok.mp h
  obtain ⟨rfl, rfl⟩ := Reader.pure_eq_ok.mp h
  obtain ⟨hshaped, hwithin, body, hbody, hsame⟩ := restores_raw hl hraw
  refine ⟨⟨hshaped.type, hshaped.subject⟩, hwithin, .buffered hbody ?_⟩
  refine Signed.restores hsigned (raw.writeRaw_atMost body hbody) fun hw => ?_
  rw [hsame hw, List.append_nil]

end ProofTx

end ProofOfProof
