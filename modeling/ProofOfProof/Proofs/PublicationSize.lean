import ProofOfProof.Proofs.Constraint

/-! Writers bound the fields of a publication one by one and readers bound its encoding as a whole,
by less than the fields may add up to. A transfer, and so an ATV, comes back from its encoding
where its publication fits that bound, and only there. -/

namespace ProofOfProof

variable {limits : Limits}

def longFieldSize (field : Bytes) : Nat := 1 + (trimmed 4 field.length).length + field.length

theorem Writer.length_of_longField {field bytes : Bytes}
    (h : longField field = ⟨bytes, .ok ()⟩) : bytes.length = longFieldSize field := by
  obtain ⟨-, rfl⟩ := longField_eq_ok.mp h
  simp only [List.length_cons, List.length_append, longFieldSize]
  omega

namespace Publication

def size (p : Publication) : Nat :=
  1 + (trimmed 8 p.identifier.toUInt64.toNat).length + longFieldSize p.header +
    longFieldSize p.context + longFieldSize p.payout

theorem length_of_write {p : Publication} {bytes : Bytes}
    (h : Wire.write p = ⟨bytes, .ok ()⟩) : bytes.length = p.size := by
  obtain ⟨identifier, header, context, payout, ⟨hidentifier, -⟩, ⟨hheader, -⟩, ⟨hcontext, -⟩,
    ⟨hpayout, -⟩, rfl⟩ := write_eq_ok h
  have hi : identifier.length = 1 + (trimmed 8 p.identifier.toUInt64.toNat).length := by
    rw [Writer.integer64, Writer.numeral_eq] at hidentifier
    cases hidentifier
    rw [List.length_cons, Nat.add_comm]
  have hh := Writer.length_of_longField hheader
  have hc := Writer.length_of_longField hcontext
  have hp := Writer.length_of_longField hpayout
  simp only [List.length_append, size]
  omega

def oversize (p : Publication) : Fault :=
  .outOfRange "publication-data" p.size 0 maxPublicationSize

end Publication

namespace TransferTx

theorem shaped_of_size_le {tx : TransferTx} (ht : tx.tag.type = TypeTag.transfer)
    (hs : tx.publication.size ≤ maxPublicationSize) : tx.Shaped := by
  refine ⟨ht, fun bytes hb => ?_⟩
  rwa [Publication.length_of_write (Writer.toBytes_eq_ok.mp hb)]

theorem rejects_raw {tx : TransferTx} (ht : tx.tag.type = TypeTag.transfer)
    (hs : maxPublicationSize < tx.publication.size) :
    (readRaw limits).Rejects tx.writeRaw tx.publication.oversize := by
  -- All parts before the publication are read back, so its bound is the first thing to fail.
  refine .limit fun hcount => ?_
  rw [maxOutputs] at hcount
  refine .bind (TypeTag.inverts ht) (.bind tx.source.inverts ?_)
  refine .bind (tx.amount.inverts limits) (.bind (.byte _) ?_)
  rw [toNat_ofNat_byte (by omega)]
  refine .bind (.each fun output _ => output.inverts limits) ?_
  refine .bind (.integer64 _ tx.signatureIndex) (.buffered fun raw hraw => ?_)
  have hsize := Publication.length_of_write hraw
  rw [Publication.oversize, ← hsize]
  exact Reader.Rejects.first (.longField (by omega))

theorem rejects {tx : TransferTx} (ht : tx.tag.type = TypeTag.transfer)
    (hs : maxPublicationSize < tx.publication.size) :
    (Wire.read limits : Reader TransferTx).Rejects (Wire.write tx) tx.publication.oversize :=
  .buffered fun body hbody =>
    .within (Signed.inverts ⟨body, _, _⟩ (tx.writeRaw_atMost body hbody)) (rejects_raw ht hs) hbody

end TransferTx

theorem Atv.rejects {atv : Atv} (ht : atv.transaction.tag.type = TypeTag.transfer)
    (hs : maxPublicationSize < atv.transaction.publication.size) :
    (Wire.read limits : Reader Atv).Rejects (Wire.write atv)
      atv.transaction.publication.oversize :=
  .bind (.version _ atv.version) (TransferTx.rejects ht hs).before.first

theorem decode_of_inverts_or_rejects {α : Type} [Wire α] {a : α} {bytes : Bytes} {p : Prop}
    [Decidable p] {fault : Fault} (h : encode a = .ok bytes)
    (hi : p → (Wire.read limits).Inverts (Wire.write a) a)
    (hr : ¬ p → (Wire.read limits : Reader α).Rejects (Wire.write a) fault) :
    decode limits bytes = if p then .ok a else .error fault := by
  have hw := Writer.toBytes_eq_ok.mp h
  by_cases hp : p
  · rw [if_pos hp]
    exact (hi hp).whole_eq_ok hw .any
  · rw [if_neg hp]
    exact (hr hp).whole_eq_error hw .any

/-- What a transfer that was encoded decodes to, alone and in an ATV. -/
theorem decode_encode_transfer (limits : Limits) :
    (∀ (tx : TransferTx) (bytes : Bytes), tx.tag.type = TypeTag.transfer →
      encode tx = .ok bytes → decode limits bytes =
        if tx.publication.size ≤ maxPublicationSize then .ok tx
        else .error tx.publication.oversize) ∧
    ∀ (atv : Atv) (bytes : Bytes), atv.transaction.tag.type = TypeTag.transfer →
      encode atv = .ok bytes → decode limits bytes =
        if atv.transaction.publication.size ≤ maxPublicationSize then .ok atv
        else .error atv.transaction.publication.oversize := by
  refine ⟨fun tx bytes ht h => ?_, fun atv bytes ht h => ?_⟩
  · refine decode_of_inverts_or_rejects h (fun hs => ?_) fun hs => ?_
    · exact TransferTx.inverts (TransferTx.shaped_of_size_le ht hs)
    · exact TransferTx.rejects ht (Nat.lt_of_not_le hs)
  · refine decode_of_inverts_or_rejects h (fun hs => ?_) fun hs => ?_
    · exact Atv.inverts (TransferTx.shaped_of_size_le ht hs)
    · exact Atv.rejects ht (Nat.lt_of_not_le hs)

/-- A transfer whose publication has fields as large as each may be. -/
def TransferTx.full (identifier : Int64) : TransferTx where
  tag := ⟨none, TypeTag.transfer⟩
  source := Address.ofPublicKey [1]
  amount := ⟨1⟩
  outputs := []
  signatureIndex := 0
  publication := ⟨identifier, .replicate 1024 0, .replicate 10000 0, .replicate 10000 0⟩
  signature := []
  publicKey := []

def Atv.full (identifier : Int64) : Atv :=
  ⟨payloadVersion, .full identifier, ⟨0, 1, .zero 32, []⟩,
    ⟨5, 2, .zero 12, .zero 9, .zero 9, .zero 16, 1000, 7, 0⟩⟩

variable (identifier : Int64)

theorem TransferTx.size_full : (full identifier).publication.size =
    maxPublicationSize - 2 + (trimmed 8 identifier.toUInt64.toNat).length := by
  have hheader : longFieldSize (.replicate 1024 0) = 1027 := by
    rw [longFieldSize, List.length_replicate]
    decide +kernel
  have hlong : longFieldSize (.replicate 10000 0) = 10003 := by
    rw [longFieldSize, List.length_replicate]
    decide +kernel
  simp only [full, Publication.size, hheader, hlong]
  rw [maxPublicationSize, maxPublicationHeader, maxPublicationContext, maxPublicationPayout]
  omega

theorem TransferTx.writable_full : (full identifier).Writable where
  tag := nofun
  outputs := Nat.zero_le _
  publication :=
    ⟨Nat.le_of_eq List.length_replicate, Nat.le_of_eq List.length_replicate,
      Nat.le_of_eq List.length_replicate⟩
  signed := ⟨Nat.zero_le _, Nat.zero_le _⟩

theorem TransferTx.ends_full : (Wire.write (full identifier)).Ends :=
  (demands _).ends (writable_full identifier)

theorem Atv.ends_full : (Wire.write (full identifier)).Ends :=
  (demands _).ends ⟨rfl, TransferTx.writable_full identifier, Nat.zero_le _, Nat.two_pow_pos 40⟩

theorem decode_encode_transfer_full :
    (∃ bytes, encode (TransferTx.full 65535) = .ok bytes ∧
      decode {} bytes = .ok (TransferTx.full 65535)) ∧
    ∃ bytes, encode (Atv.full 65535) = .ok bytes ∧ decode {} bytes = .ok (Atv.full 65535) := by
  have hsize : (TransferTx.full 65535).publication.size ≤ maxPublicationSize := by
    rw [TransferTx.size_full]
    decide
  obtain ⟨transfer, htransfer⟩ := TransferTx.ends_full 65535
  obtain ⟨atv, hatv⟩ := Atv.ends_full 65535
  obtain ⟨htx, hatvs⟩ := decode_encode_transfer {}
  have hdecode := htx _ transfer rfl (Writer.toBytes_eq_ok.mpr htransfer)
  have hdecodeAtv := hatvs _ atv rfl (Writer.toBytes_eq_ok.mpr hatv)
  rw [if_pos hsize] at hdecode
  rw [Atv.full, if_pos hsize] at hdecodeAtv
  exact ⟨⟨transfer, Writer.toBytes_eq_ok.mpr htransfer, hdecode⟩,
    atv, Writer.toBytes_eq_ok.mpr hatv, hdecodeAtv⟩

/-- An identifier of three bytes makes such a transfer too large, and every field of it fits. -/
theorem decode_encode_full_of_large : ∃ bytes, encode (TransferTx.full 65536) = .ok bytes ∧
    decode {} bytes = (.error (.outOfRange "publication-data" 21037 0 21036) :
      Except Fault TransferTx) := by
  have hsize : (TransferTx.full 65536).publication.size = 21037 := by
    rw [TransferTx.size_full]
    decide
  obtain ⟨bytes, hbytes⟩ := TransferTx.ends_full 65536
  have hrejects : (Wire.read {} : Reader TransferTx).Rejects (Wire.write (TransferTx.full 65536))
      (Publication.oversize _) := TransferTx.rejects rfl (by rw [hsize]; decide)
  have hfault := hrejects.whole_eq_error hbytes .any
  rw [Publication.oversize, hsize] at hfault
  exact ⟨bytes, Writer.toBytes_eq_ok.mpr hbytes, hfault⟩

end ProofOfProof
