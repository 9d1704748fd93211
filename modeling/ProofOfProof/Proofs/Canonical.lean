import ProofOfProof.Entity
import ProofOfProof.Proofs.Delimiting
import ProofOfProof.Proofs.Payload
import ProofOfProof.Proofs.Record

/-! Decoding normalises. Whatever is accepted has an encoding that decodes to the same value, and
it is that encoding itself unless one of its integers is spelled otherwise than writers do. -/

namespace ProofOfProof.EntityKind

/-- Whether values of the kind hold integers whose length varies on the wire. -/
def hasIntegers : EntityKind → Bool
  | altBlock | btcBlock | vbkBlock | address | altEndorsement | vbkEndorsement => false
  | _ => true

/-- Whether decoding an input meets an integer that is spelled otherwise than a writer would. -/
def Misspelled (kind : EntityKind) (limits : Limits) (input : Bytes) : Prop :=
  ∃ what, (decodeWritten limits input : Except Fault kind.Value) =
    .error (.content (.spelling what))

theorem normalises (kind : EntityKind) {limits : Limits} (hl : limits.validate = .ok ()) :
    (Wire.read limits : Reader kind.Value).Normalises Wire.write
      fun spelling => kind.hasIntegers = false ∨ spelling = .written := by
  have hbounds := Limits.inProtocol_of_validate hl
  intro spelling input a rest h
  have hwritten (hi : kind.hasIntegers = true) :
      kind.hasIntegers = false ∨ spelling = .written → spelling = .written := by
    simp [hi]
  cases kind with
  | altBlock =>
    obtain ⟨hhash, hprevious, hrestores⟩ := AltBlock.restores h
    exact ⟨hrestores, AltBlock.inverts hhash hprevious⟩
  | btcBlock => exact ⟨BtcBlock.restores h, BtcBlock.inverts limits a⟩
  | vbkBlock => exact ⟨VbkBlock.restores h, VbkBlock.inverts limits a⟩
  | address => exact ⟨Address.restores h, Address.inverts a⟩
  | coin => exact ⟨(Coin.restores h).mono (hwritten rfl), Coin.inverts limits a⟩
  | output => exact ⟨(Output.restores h).mono (hwritten rfl), Output.inverts limits a⟩
  | publication =>
    exact ⟨(Publication.restores h).mono (hwritten rfl), Publication.inverts limits a⟩
  | btcTx => exact ⟨(BtcTx.restores h).mono (hwritten rfl), BtcTx.inverts limits a⟩
  | transferTx =>
    obtain ⟨hshaped, hrestores⟩ := TransferTx.restores h
    exact ⟨hrestores.mono (hwritten rfl), TransferTx.inverts hshaped⟩
  | proofTx =>
    obtain ⟨hshaped, hwithin, hrestores⟩ := ProofTx.restores hbounds.btcContext h
    exact ⟨hrestores.mono (hwritten rfl), ProofTx.inverts hshaped hwithin⟩
  | packagePath => exact ⟨(PackagePath.restores h).mono (hwritten rfl), PackagePath.inverts a⟩
  | atv =>
    obtain ⟨hshaped, hrestores⟩ := Atv.restores h
    exact ⟨hrestores.mono (hwritten rfl), Atv.inverts hshaped⟩
  | vtb =>
    obtain ⟨hshaped, hwithin, hrestores⟩ := Vtb.restores hbounds h
    exact ⟨hrestores.mono (hwritten rfl), Vtb.inverts hshaped hwithin⟩
  | popData =>
    obtain ⟨hshaped, hwithin, hrestores⟩ := PopData.restores hbounds h
    exact ⟨hrestores.mono (hwritten rfl), PopData.inverts hshaped hwithin⟩
  | altEndorsement => exact (AltEndorsement.normalises.of_ok h).imp_left (·.mono fun _ => trivial)
  | vbkEndorsement => exact (VbkEndorsement.normalises.of_ok h).imp_left (·.mono fun _ => trivial)
  | altPopState =>
    have hh := (PopState.normalises AltEndorsement.normalises).of_ok h
    exact hh.imp_left (·.mono (hwritten rfl))
  | vbkPopState =>
    have hh := (PopState.normalises VbkEndorsement.normalises).of_ok h
    exact hh.imp_left (·.mono (hwritten rfl))
  | payouts =>
    have hh := (Payouts.normalises hbounds.payouts).of_ok h
    exact hh.imp_left (·.mono (hwritten rfl))
  | btcAddon => exact (BtcAddon.normalises.of_ok h).imp_left (·.mono (hwritten rfl))
  | vbkAddon => exact (VbkAddon.normalises.of_ok h).imp_left (·.mono (hwritten rfl))
  | altAddon => exact (AltAddon.normalises.of_ok h).imp_left (·.mono (hwritten rfl))
  | index chain => exact (BlockIndex.normalises.of_ok h).imp_left (·.mono (hwritten rfl))

variable {kind : EntityKind} {limits : Limits} {input : Bytes} {a : kind.Value}

/-- A value that was decoded can be encoded, and comes back from its encoding. -/
theorem decode_encode_of_decode (hl : limits.validate = .ok ()) (h : decode limits input = .ok a) :
    ∃ bytes, encode a = .ok bytes ∧ decode limits bytes = .ok a := by
  obtain ⟨⟨bytes, hbytes, -⟩, hinverts⟩ := (kind.normalises hl).of_ok (Reader.whole_eq_ok.mp h)
  have hread := hinverts bytes hbytes .any []
  rw [List.append_nil] at hread
  exact ⟨bytes, Writer.toBytes_eq_ok.mpr hbytes, Reader.whole_eq_ok.mpr hread⟩

/-- A publication whose integers have no bytes grows when it is encoded. -/
theorem decode_encode_of_decode_padded :
    ∃ p : Publication, decode {} [0, 0, 0, 0] = .ok p ∧
      ∃ bytes, encode p = .ok bytes ∧ bytes.length = 8 ∧ decode {} bytes = .ok p := by
  have h : decode {} [0, 0, 0, 0] = .ok (⟨0, [], [], []⟩ : Publication) := by decide
  obtain ⟨bytes, hbytes, hback⟩ := @decode_encode_of_decode publication {} _ _ rfl h
  refine ⟨_, h, bytes, hbytes, ?_, hback⟩
  cases hbytes
  rfl

theorem decodeWritten_eq_ok_iff (h : decode limits input = .ok a) :
    decodeWritten limits input = .ok a ↔ ¬ kind.Misspelled limits input := by
  have hany := Reader.whole_eq_ok.mp h
  constructor
  · rintro hw ⟨what, hs⟩
    rw [hw] at hs
    cases hs
  · intro hm
    rcases (kind.regular_read limits).written input with hsame | ⟨what, rest, hs⟩
    · exact Reader.whole_eq_ok.mpr (hsame.trans hany)
    · refine absurd ⟨what, ?_⟩ hm
      rw [decodeWritten, Reader.whole, hs]

/-- An input that was decoded is the encoding of its value where its integers are spelled as
writers spell them, and only there; for kinds without integers it always is. -/
theorem encode_of_decode_iff (hl : limits.validate = .ok ()) (h : decode limits input = .ok a) :
    (encode a = .ok input ↔ ¬ kind.Misspelled limits input) ∧
      (kind.hasIntegers = false → encode a = .ok input) := by
  have hnormalises := kind.normalises hl
  have hrestored {spelling : Spelling} (hr : (Wire.read limits) spelling input = .ok a [])
      (hf : kind.hasIntegers = false ∨ spelling = .written) : encode a = .ok input := by
    obtain ⟨bytes, hbytes, hsame⟩ := (hnormalises.of_ok hr).1
    rw [List.append_nil] at hsame
    exact Writer.toBytes_eq_ok.mpr (hsame hf ▸ hbytes)
  refine ⟨⟨fun he => ?_, fun hm => ?_⟩, fun hi => hrestored (Reader.whole_eq_ok.mp h) (.inl hi)⟩
  · have hinverts := (hnormalises.of_ok (Reader.whole_eq_ok.mp h)).2
    have hread := hinverts input (Writer.toBytes_eq_ok.mp he) .written []
    rw [List.append_nil] at hread
    exact (decodeWritten_eq_ok_iff h).mp (Reader.whole_eq_ok.mpr hread)
  · have hw := (decodeWritten_eq_ok_iff h).mpr hm
    exact hrestored (Reader.whole_eq_ok.mp hw) (.inr rfl)

theorem encode_of_decode_iff_coin : encode (⟨1000⟩ : Coin) = .ok [2, 3, 0xe8] ∧
    encode (⟨[7], [], 5, 9⟩ : AltBlock) = .ok [1, 7, 0, 0, 0, 0, 5, 0, 0, 0, 9] := by
  have hcoin : decode {} [2, 3, 0xe8] = .ok (⟨1000⟩ : Coin) := by decide
  have hblock : decode {} [1, 7, 0, 0, 0, 0, 5, 0, 0, 0, 9] = .ok (⟨[7], [], 5, 9⟩ : AltBlock) := by
    decide
  refine ⟨(@encode_of_decode_iff coin {} _ _ rfl hcoin).1.mpr ?_,
    (@encode_of_decode_iff altBlock {} _ _ rfl hblock).2 rfl⟩
  rintro ⟨what, hs⟩
  cases hs

end ProofOfProof.EntityKind
