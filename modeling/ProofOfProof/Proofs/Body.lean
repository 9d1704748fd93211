import ProofOfProof.Proofs.Inclusion
import ProofOfProof.Proofs.PublicationSize

/-! The bodies of transactions, over which they are signed. A body says everything of its
transaction but who signed it, and it is never a body of the other type. -/

namespace ProofOfProof

variable {spelling : Spelling} {limits : Limits} {input rest raw : Bytes}

/-- A body determines its transaction but for signature and key, and in a proof also for the subject
of the path, which the body leaves out. -/
theorem raw_eq_iff :
    (∀ (a b : TransferTx) (raw : Bytes), a.tag.type = TypeTag.transfer →
      b.tag.type = TypeTag.transfer → a.raw = .ok raw →
      (b.raw = .ok raw ↔ a.unsigned = b.unsigned)) ∧
    ∀ (a b : ProofTx) (raw : Bytes), a.tag.type = TypeTag.proof → b.tag.type = TypeTag.proof →
      a.raw = .ok raw → (b.raw = .ok raw ↔ a.bare = b.bare) := by
  refine ⟨fun a b raw hta htb ha => ⟨fun hb => ?_, fun h => ?_⟩,
    fun a b raw hta htb ha => ⟨fun hb => ?_, fun h => ?_⟩⟩
  · exact (TransferTx.separates_raw hta htb).eq_of_toBytes ha hb
  · have hbody (tx : TransferTx) : tx.unsigned.raw = tx.raw := rfl
    rw [← hbody, ← h, hbody, ha]
  · exact (ProofTx.separates_raw hta htb).eq_of_toBytes ha hb
  · have hbody (tx : ProofTx) : tx.bare.raw = tx.raw := rfl
    rw [← hbody, ← h, hbody, ha]

namespace TransferTx

def onNetwork (network : Option UInt8) : TransferTx :=
  { sample with tag := ⟨network, TypeTag.transfer⟩ }

variable {network : Option UInt8}

theorem writable_onNetwork (h : network ≠ some TypeTag.transfer) :
    (onNetwork network).Writable := by
  have hpublication : sample.publication.Writable := ⟨by decide, by decide, by decide⟩
  exact ⟨h, Nat.zero_le _, hpublication, Nat.zero_le _, Nat.zero_le _⟩

theorem raw_onNetwork (h : network ≠ some TypeTag.transfer) :
    ∃ raw, (onNetwork network).raw = .ok raw := by
  obtain ⟨_, hwrite⟩ := (demands _).ends (writable_onNetwork h)
  obtain ⟨raw, hraw, -⟩ := Writer.check_bind_eq_ok.mp hwrite
  exact ⟨raw, hraw⟩

theorem shaped_onNetwork : (onNetwork network).Shaped := by
  have hsize : sample.publication.size ≤ maxPublicationSize := by decide
  exact shaped_of_size_le rfl hsize

end TransferTx

theorem ProofTx.raw_sample : ∃ raw, sample.raw = .ok raw := exists_eq_ok (by decide +kernel)

theorem raw_eq_iff_sample :
    (∃ raw, (TransferTx.onNetwork none).raw = .ok raw ∧
      { TransferTx.onNetwork none with publicKey := [1] }.raw = .ok raw ∧
      (TransferTx.onNetwork (some 2)).raw ≠ .ok raw) ∧
    ∃ raw, ProofTx.sample.raw = .ok raw ∧
      { ProofTx.sample with path.subject := .zero 32 }.raw = .ok raw ∧
      { ProofTx.sample with path.index := 2 }.raw ≠ .ok raw := by
  obtain ⟨htransfer, hproof⟩ := raw_eq_iff
  obtain ⟨raw, hraw⟩ : ∃ raw, (TransferTx.onNetwork none).raw = .ok raw :=
    TransferTx.raw_onNetwork nofun
  obtain ⟨raw', hraw'⟩ := ProofTx.raw_sample
  have hbare (tx : ProofTx) : tx.bare = { tx with path.subject := .zero 32 }.bare := rfl
  refine ⟨⟨raw, hraw, (htransfer _ _ raw rfl rfl hraw).mpr rfl, fun h => ?_⟩,
    ⟨raw', hraw', (hproof _ _ raw' rfl rfl hraw').mpr (hbare _), fun h => ?_⟩⟩
  · have htag := congrArg TransferTx.tag ((htransfer _ _ raw rfl rfl hraw).mp h)
    exact absurd htag (by decide)
  · have hpath := congrArg ProofTx.path ((hproof _ _ raw' rfl rfl hraw').mp h)
    exact absurd (congrArg MerklePath.index hpath) (by decide)

/-- `input` begins with a tag of this type, and with the kind and the size of an address. -/
def Opens (type : UInt8) (input : Bytes) : Prop :=
  ∃ (network : Option UInt8) (kind : AddressKind) (rest : Bytes), network ≠ some type ∧
    input = network.toList ++ type :: kind.byte :: 22 :: rest

/-- The type byte is the first or the second. Where it could be either, the other one would be an
address kind that there is not, or the size of an address would be one of the kinds. -/
theorem Opens.not_both (ht : Opens TypeTag.transfer input) : ¬ Opens TypeTag.proof input := by
  rintro ⟨network', kind', rest', -, h'⟩
  obtain ⟨network, kind, rest, -, h⟩ := ht
  rw [h] at h'
  cases network with
  | none =>
    cases network' with
    | none => simp [TypeTag.transfer, TypeTag.proof] at h'
    | some _ => cases kind <;> simp [TypeTag.proof, AddressKind.byte] at h'
  | some _ =>
    cases network' with
    | none => cases kind <;> simp [AddressKind.byte] at h'
    | some _ => simp [TypeTag.transfer, TypeTag.proof] at h'

theorem opens_of_parts {tag : TypeTag} {address : Address} {front back : Bytes}
    (ht : tag.write = ⟨front, .ok ()⟩) (ha : Wire.write address = ⟨back, .ok ()⟩) :
    Opens tag.type (front ++ (back ++ rest)) := by
  obtain ⟨hnetwork, rfl⟩ := TypeTag.write_eq_ok.mp ht
  obtain ⟨spelled, -, rfl⟩ := Address.write_eq_ok.mp ha
  exact ⟨tag.network, address.kind, spelled ++ rest, hnetwork, by simp⟩

theorem opens_of_write {tag : TypeTag} {address : Address} {more : Unit → Writer Unit}
    (h : (tag.write >>= fun _ => Wire.write address >>= more) = ⟨raw, .ok ()⟩) :
    Opens tag.type raw := by
  obtain ⟨_, _, _, htag, hnext, rfl⟩ := Writer.bind_eq_ok.mp h
  obtain ⟨_, _, _, haddress, -, rfl⟩ := Writer.bind_eq_ok.mp hnext
  exact opens_of_parts htag haddress

theorem opens_of_read {α : Type} {type : UInt8} {next : TypeTag → Address → Reader α} {a : α}
    (h : (TypeTag.read type >>= fun tag => Wire.read limits >>= next tag) spelling input =
      .ok a rest) : Opens type input := by
  obtain ⟨_, _, htag, h⟩ := Reader.bind_eq_ok.mp h
  obtain ⟨_, _, haddress, -⟩ := Reader.bind_eq_ok.mp h
  obtain ⟨htype, _, hfront, hinput⟩ := TypeTag.restores htag
  obtain ⟨_, hback, hmid⟩ := Address.restores haddress
  rw [hinput trivial, hmid trivial, ← htype]
  exact opens_of_parts hfront hback

theorem TransferTx.opens_of_readRaw {tx : TransferTx}
    (h : readRaw limits spelling input = .ok tx rest) : Opens TypeTag.transfer input :=
  opens_of_read h

theorem TransferTx.opens_of_raw {tx : TransferTx} (ht : tx.tag.type = TypeTag.transfer)
    (h : tx.raw = .ok raw) : Opens TypeTag.transfer raw := by
  obtain ⟨_, -, hbody⟩ := Writer.check_bind_eq_ok.mp (Writer.toBytes_eq_ok.mp h)
  exact ht ▸ opens_of_write hbody

theorem ProofTx.opens_of_readRaw {tx : ProofTx}
    (h : readRaw limits spelling input = .ok tx rest) : Opens TypeTag.proof input :=
  opens_of_read h

theorem ProofTx.opens_of_raw {tx : ProofTx} (ht : tx.tag.type = TypeTag.proof)
    (h : tx.raw = .ok raw) : Opens TypeTag.proof raw :=
  ht ▸ opens_of_write (Writer.toBytes_eq_ok.mp h)

theorem Reader.version_eq_ok {entity : String} {version : UInt32} :
    Reader.version entity spelling input = .ok version rest ↔
      version = payloadVersion ∧ input = bigEndian 4 payloadVersion.toNat ++ rest := by
  constructor
  · intro h
    obtain ⟨word, mid, hword, hv⟩ := bind_eq_ok.mp h
    by_cases hw : word = payloadVersion
    · rw [if_pos hw] at hv
      obtain ⟨rfl, rfl⟩ := pure_eq_ok.mp hv
      exact ⟨hw, hw ▸ uint32_eq_ok.mp hword⟩
    · rw [if_neg hw] at hv
      cases hv
  · rintro ⟨rfl, rfl⟩
    exact bind_eq_ok.mpr ⟨payloadVersion, rest, uint32_eq_ok.mpr rfl, rfl⟩

/-- What is signed in a payload that `input` begins with. -/
def Encloses (spelling : Spelling) (input body : Bytes) : Prop :=
  ∃ signed mid rest, input = bigEndian 4 payloadVersion.toNat ++ mid ∧
    Signed.read spelling mid = .ok signed rest ∧ signed.body = body

theorem Encloses.unique {body body' : Bytes} (h : Encloses spelling input body)
    (h' : Encloses spelling input body') : body = body' := by
  obtain ⟨signed, mid, _, hinput, hread, rfl⟩ := h
  obtain ⟨signed', mid', _, hinput', hread', rfl⟩ := h'
  obtain rfl := List.append_cancel_left (hinput.symm.trans hinput')
  rw [hread] at hread'
  cases hread'
  rfl

theorem encloses_of_payload {α β γ : Type} {entity : String} {body : Reader α}
    {sign : Signed → α → Reader β} {next : UInt32 → β → Reader γ} {c : γ}
    (h : (Reader.version entity >>= fun version =>
      (Signed.read >>= fun signed => .within signed.body body >>= sign signed) >>= next version)
        spelling input = .ok c rest) :
    ∃ a raw, Encloses spelling input raw ∧ body spelling raw = .ok a [] := by
  obtain ⟨_, mid, hversion, h⟩ := Reader.bind_eq_ok.mp h
  obtain ⟨_, _, htransaction, -⟩ := Reader.bind_eq_ok.mp h
  obtain ⟨signed, _, hsigned, h⟩ := Reader.bind_eq_ok.mp htransaction
  obtain ⟨a, hraw, -⟩ := Reader.within_bind_eq_ok.mp h
  exact ⟨a, signed.body, ⟨signed, mid, _, (Reader.version_eq_ok.mp hversion).2, hsigned, rfl⟩, hraw⟩

theorem Atv.encloses_of_read {atv : Atv} (h : Wire.read limits spelling input = .ok atv rest) :
    ∃ tx raw, Encloses spelling input raw ∧ TransferTx.readRaw limits spelling raw = .ok tx [] :=
  encloses_of_payload h

theorem Vtb.encloses_of_read {vtb : Vtb} (h : Wire.read limits spelling input = .ok vtb rest) :
    ∃ tx raw, Encloses spelling input raw ∧ ProofTx.readRaw limits spelling raw = .ok tx [] :=
  encloses_of_payload h

/-- The two types of transactions share no body, neither one that is read nor one that is signed,
and no payload can be taken for one of the other type. -/
theorem bodies_disjoint :
    (∀ (limits limits' : Limits) (input rest rest' : Bytes) (tx : TransferTx) (tx' : ProofTx),
      TransferTx.readRaw limits .any input = .ok tx rest →
      ProofTx.readRaw limits' .any input ≠ .ok tx' rest') ∧
    (∀ (tx : TransferTx) (tx' : ProofTx) (raw raw' : Bytes), tx.tag.type = TypeTag.transfer →
      tx'.tag.type = TypeTag.proof → tx.raw = .ok raw → tx'.raw = .ok raw' → raw ≠ raw') ∧
    ∀ (limits limits' : Limits) (input : Bytes) (atv : Atv) (vtb : Vtb),
      decode limits input = .ok atv → decode limits' input ≠ .ok vtb := by
  refine ⟨fun _ _ _ _ _ _ _ h h' => ?_, fun _ _ _ _ ht ht' h h' he => ?_,
    fun _ _ _ _ _ h h' => ?_⟩
  · exact (TransferTx.opens_of_readRaw h).not_both (ProofTx.opens_of_readRaw h')
  · exact (TransferTx.opens_of_raw ht h).not_both (he ▸ ProofTx.opens_of_raw ht' h')
  · obtain ⟨_, raw, henclosed, htransfer⟩ := Atv.encloses_of_read (Reader.whole_eq_ok.mp h)
    obtain ⟨_, raw', henclosed', hproof⟩ := Vtb.encloses_of_read (Reader.whole_eq_ok.mp h')
    obtain rfl := henclosed.unique henclosed'
    exact (TransferTx.opens_of_readRaw htransfer).not_both (ProofTx.opens_of_readRaw hproof)

/-- An ATV on the network whose number is the type of proofs, so that what is signed in it begins as
in a VTB. -/
def Atv.networked : Atv :=
  ⟨payloadVersion, .onNetwork (some TypeTag.proof), (full 0).path, (full 0).blockOfProof⟩

theorem Atv.ends_networked : (Wire.write networked).Ends :=
  (demands _).ends ⟨rfl, TransferTx.writable_onNetwork (by decide), Nat.zero_le _,
    Nat.two_pow_pos 40⟩

theorem bodies_disjoint_networked :
    (∃ raw tx, Atv.networked.transaction.raw = .ok raw ∧
      TransferTx.readRaw {} .any raw = .ok tx [] ∧
      (∀ tx' rest, ProofTx.readRaw {} .any raw ≠ .ok tx' rest) ∧
      ∃ raw', ProofTx.sample.raw = .ok raw' ∧ raw ≠ raw') ∧
    ∃ input, decode {} input = .ok Atv.networked ∧ ∀ vtb : Vtb, decode {} input ≠ .ok vtb := by
  obtain ⟨hread, hraws, hdecode⟩ := bodies_disjoint
  obtain ⟨raw, hraw⟩ : ∃ raw, Atv.networked.transaction.raw = .ok raw :=
    TransferTx.raw_onNetwork (by decide)
  obtain ⟨raw', hraw'⟩ := ProofTx.raw_sample
  have hbody : (TransferTx.readRaw {}).Inverts Atv.networked.transaction.writeRaw
      Atv.networked.transaction.unsigned := TransferTx.inverts_raw TransferTx.shaped_onNetwork
  have htx := Reader.whole_eq_ok.mp (hbody.whole_eq_ok (Writer.toBytes_eq_ok.mp hraw) .any)
  obtain ⟨input, hinput⟩ := Atv.ends_networked
  have hpayload : (Wire.read {}).Inverts (Wire.write Atv.networked) Atv.networked :=
    Atv.inverts TransferTx.shaped_onNetwork
  have hatv : decode {} input = .ok Atv.networked := hpayload.whole_eq_ok hinput .any
  refine ⟨⟨raw, _, hraw, htx, fun _ _ => hread {} {} _ _ _ _ _ htx, raw', hraw', ?_⟩,
    input, hatv, fun vtb => hdecode {} {} _ _ vtb hatv⟩
  exact hraws _ _ _ _ rfl rfl hraw hraw'

end ProofOfProof
