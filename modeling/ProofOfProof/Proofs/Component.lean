import ProofOfProof.Proofs.Address
import ProofOfProof.Proofs.Field
import ProofOfProof.Transaction.Proof
import ProofOfProof.Transaction.Transfer

/-! The parts of transactions. What has been read may take more or fewer bytes when it is written
again, and still has to fit the field that it came from. -/

namespace ProofOfProof

variable {spelling : Spelling} {input rest : Bytes} {limits : Limits}

namespace Coin

theorem inverts (limits : Limits) (coin : Coin) :
    (Wire.read limits).Inverts (Wire.write coin) coin :=
  (Reader.Inverts.integer64 _ coin.units).map Coin.mk

theorem restores {coin : Coin} (h : Wire.read limits spelling input = .ok coin rest) :
    (Wire.write coin).Restores (spelling = .written) input rest := by
  obtain ⟨units, hunits, rfl⟩ := Reader.map_eq_ok.mp h
  exact .integer64 hunits

theorem write_atMost (coin : Coin) : (Wire.write coin).AtMost 9 := Writer.integer64_atMost _

end Coin

namespace Output

theorem inverts (limits : Limits) (output : Output) :
    (Wire.read limits).Inverts (Wire.write output) output :=
  output.address.inverts.bind ((output.coin.inverts limits).last rfl)

theorem restores {output : Output} (h : Wire.read limits spelling input = .ok output rest) :
    (Wire.write output).Restores (spelling = .written) input rest := by
  obtain ⟨address, _, haddress, h⟩ := Reader.bind_eq_ok.mp h
  obtain ⟨coin, _, hcoin, h⟩ := Reader.bind_eq_ok.mp h
  obtain ⟨rfl, rfl⟩ := Reader.pure_eq_ok.mp h
  exact (Address.restores haddress).bind (Coin.restores hcoin)

theorem write_atMost (output : Output) : (Wire.write output).AtMost (32 + 9) :=
  output.address.write_atMost.bind output.coin.write_atMost

end Output

namespace Publication

theorem inverts (limits : Limits) (publication : Publication) :
    (Wire.read limits).Inverts (Wire.write publication) publication := by
  refine .limit fun hheader => .limit fun hcontext => .limit fun hpayout => ?_
  refine (Reader.Inverts.integer64 _ publication.identifier).bind ?_
  refine (Reader.Inverts.longField (Nat.zero_le _) hheader).bind ?_
  refine (Reader.Inverts.longField (Nat.zero_le _) hcontext).bind ?_
  exact (Reader.Inverts.longField (Nat.zero_le _) hpayout).last rfl

theorem restores {publication : Publication}
    (h : Wire.read limits spelling input = .ok publication rest) :
    (Wire.write publication).Restores (spelling = .written) input rest := by
  obtain ⟨identifier, _, hidentifier, h⟩ := Reader.bind_eq_ok.mp h
  obtain ⟨header, _, hheader, h⟩ := Reader.bind_eq_ok.mp h
  obtain ⟨context, _, hcontext, h⟩ := Reader.bind_eq_ok.mp h
  obtain ⟨payout, _, hpayout, h⟩ := Reader.bind_eq_ok.mp h
  obtain ⟨rfl, rfl⟩ := Reader.pure_eq_ok.mp h
  have hheaderLe := (Reader.longField_eq_ok.mp hheader).1.2
  have hcontextLe := (Reader.longField_eq_ok.mp hcontext).1.2
  have hpayoutLe := (Reader.longField_eq_ok.mp hpayout).1.2
  refine .limit hheaderLe ?_
  refine .limit hcontextLe ?_
  refine .limit hpayoutLe ?_
  refine (Writer.Restores.integer64 hidentifier).bind ?_
  refine (Writer.Restores.longField hheader).bind ?_
  exact (Writer.Restores.longField hcontext).bind (.longField hpayout)

/-- The four fields of an encoding. The lengths of the long ones take two bytes at most. -/
theorem write_eq_ok {publication : Publication} {bytes : Bytes}
    (h : Wire.write publication = ⟨bytes, .ok ()⟩) : ∃ identifier header context payout,
      (Writer.integer64 publication.identifier = ⟨identifier, .ok ()⟩ ∧ identifier.length ≤ 9) ∧
      (Writer.longField publication.header = ⟨header, .ok ()⟩ ∧ header.length ≤ 1027) ∧
      (Writer.longField publication.context = ⟨context, .ok ()⟩ ∧ context.length ≤ 10003) ∧
      (Writer.longField publication.payout = ⟨payout, .ok ()⟩ ∧ payout.length ≤ 10003) ∧
      bytes = identifier ++ (header ++ (context ++ payout)) := by
  have hlong {field part : Bytes} {max : Nat} (hp : Writer.longField field = ⟨part, .ok ()⟩)
      (hf : field.length ≤ max) (hm : max < 65536) : part.length ≤ max + 2 + 1 :=
    Writer.longField_atMost hf 2 hm (by omega) (by omega) part hp
  obtain ⟨_, hheaderLe, h⟩ := Writer.check_bind_eq_ok.mp h
  obtain ⟨_, hcontextLe, h⟩ := Writer.check_bind_eq_ok.mp h
  obtain ⟨_, hpayoutLe, h⟩ := Writer.check_bind_eq_ok.mp h
  rw [checkLimit_eq_ok_iff] at hheaderLe hcontextLe hpayoutLe
  obtain ⟨identifier, _, fields, hidentifier, h, hbytes⟩ := Writer.bind_eq_ok.mp h
  obtain ⟨header, _, bodies, hheader, h, hfields⟩ := Writer.bind_eq_ok.mp h
  obtain ⟨context, _, payout, hcontext, hpayout, hbodies⟩ := Writer.bind_eq_ok.mp h
  refine ⟨identifier, header, context, payout, ⟨hidentifier, ?_⟩, ⟨hheader, ?_⟩, ⟨hcontext, ?_⟩,
    ⟨hpayout, ?_⟩, by rw [hbytes, hfields, hbodies]⟩
  · exact Writer.integer64_atMost _ identifier hidentifier
  · exact hlong hheader hheaderLe (by decide)
  · exact hlong hcontext hcontextLe (by decide)
  · exact hlong hpayout hpayoutLe (by decide)

theorem write_atMost (publication : Publication) : (Wire.write publication).AtMost 21042 := by
  intro bytes hb
  obtain ⟨identifier, header, context, payout, ⟨-, hi⟩, ⟨-, hh⟩, ⟨-, hc⟩, ⟨-, hp⟩, rfl⟩ :=
    write_eq_ok hb
  simp only [List.length_append]
  omega

/-- What was read from a field of a publication fits such a field again. An integer without a byte
gains one; then the other fields leave room for it, be they as large as they may. -/
theorem write_atMost_of_read {publication : Publication} {raw : Bytes}
    (h : Wire.read limits spelling raw = .ok publication [])
    (hraw : raw.length ≤ maxPublicationSize) :
    (Wire.write publication).AtMost maxPublicationSize := by
  intro bytes hb
  obtain ⟨identifier, header, context, payout, ⟨hidentifier, hi⟩, ⟨hheader, hh⟩, ⟨hcontext, hc⟩,
    ⟨hpayout, hp⟩, rfl⟩ := write_eq_ok hb
  obtain ⟨_, _, hreadIdentifier, h⟩ := Reader.bind_eq_ok.mp h
  obtain ⟨_, _, hreadHeader, h⟩ := Reader.bind_eq_ok.mp h
  obtain ⟨_, _, hreadContext, h⟩ := Reader.bind_eq_ok.mp h
  obtain ⟨_, _, hreadPayout, h⟩ := Reader.bind_eq_ok.mp h
  obtain ⟨rfl, rfl⟩ := Reader.pure_eq_ok.mp h
  have hi' := Writer.length_integer64 hreadIdentifier hidentifier
  have hh' := Writer.length_longField hreadHeader hheader
  have hc' := Writer.length_longField hreadContext hcontext
  have hp' := Writer.length_longField hreadPayout hpayout
  have hmax : maxPublicationSize = 21036 := rfl
  rw [hmax] at hraw ⊢
  simp only [List.length_append, List.length_nil] at hp' ⊢
  -- Either no field grows, or one of them is two bytes long and the sum of the bounds is enough.
  omega

end Publication

namespace BtcTx

theorem inverts (limits : Limits) (tx : BtcTx) : (Wire.read limits).Inverts (Wire.write tx) tx := by
  refine .limit fun hle => ?_
  exact (Reader.Inverts.longField (Nat.zero_le _) hle).map BtcTx.mk

theorem restores {tx : BtcTx} (h : Wire.read limits spelling input = .ok tx rest) :
    (Wire.write tx).Restores (spelling = .written) input rest := by
  obtain ⟨bytes, hbytes, rfl⟩ := Reader.map_eq_ok.mp h
  have hle := (Reader.longField_eq_ok.mp hbytes).1.2
  exact .limit hle (.longField hbytes)

theorem write_atMost (tx : BtcTx) : (Wire.write tx).AtMost (maxBtcTxSize + 3 + 1) := by
  refine .limit fun hle => ?_
  exact Writer.longField_atMost hle 3 (by decide) (by decide) (by decide)

end BtcTx

namespace Signed

theorem inverts (signed : Signed) (h : signed.body.length ≤ maxBodySize) :
    read.Inverts signed.write signed := by
  refine .limit fun hsignature => .limit fun hkey => ?_
  refine (Reader.Inverts.longField (Nat.zero_le _) h).bind ?_
  refine (Reader.Inverts.shortField (Nat.zero_le _) hsignature).bind ?_
  exact (Reader.Inverts.shortField (Nat.zero_le _) hkey).last rfl

/-- The envelope around a body that was read and written again. -/
theorem restores {signed : Signed} (h : read spelling input = .ok signed rest) {body : Bytes}
    (hle : body.length ≤ maxBodySize) (hbody : spelling = .written → signed.body = body) :
    (write ⟨body, signed.signature, signed.publicKey⟩).Restores (spelling = .written) input
      rest := by
  obtain ⟨raw, _, hraw, h⟩ := Reader.bind_eq_ok.mp h
  obtain ⟨signature, _, hsignature, h⟩ := Reader.bind_eq_ok.mp h
  obtain ⟨key, _, hkey, h⟩ := Reader.bind_eq_ok.mp h
  obtain ⟨rfl, rfl⟩ := Reader.pure_eq_ok.mp h
  have hsignatureLe := (Reader.shortField_eq_ok.mp hsignature).1.2
  have hkeyLe := (Reader.shortField_eq_ok.mp hkey).1.2
  refine .limit hsignatureLe ?_
  refine .limit hkeyLe ?_
  refine (Writer.Restores.longPart hraw ?_ hbody).bind ?_
  · exact Nat.le_trans hle (by decide)
  · exact (Writer.Restores.shortField hsignature).bind (.shortField hkey)

end Signed

end ProofOfProof
