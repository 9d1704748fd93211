import ProofOfProof.Proofs.Body

/-! Over which bytes a transaction that was read is hashed. They are what writers make of its body,
and so the body itself where its integers are spelled as writers spell them. -/

namespace ProofOfProof

variable {spelling : Spelling} {limits : Limits} {input rest body : Bytes}

/-- `written` is how writers spell the value that `reader` takes from `body`. -/
structure Respells {α : Type} (reader : Reader α) (body written : Bytes) (a : α) : Prop where
  read_body : reader .any body = .ok a []
  read_written : reader .written written = .ok a []
  eq_iff : written = body ↔ reader .written body = .ok a []

theorem respells_of_read {α : Type} {reader : Reader α} {writer : Writer Unit} {a : α}
    (h : reader .any body = .ok a []) (hinverts : reader.Inverts writer a)
    (hrestores : ∀ {spelling}, reader spelling body = .ok a [] →
      writer.Restores (spelling = .written) body []) :
    ∃ written, writer.toBytes = .ok written ∧ Respells reader body written a := by
  obtain ⟨written, hwritten, -⟩ := hrestores h
  have hback := hinverts written hwritten .written []
  rw [List.append_nil] at hback
  refine ⟨written, Writer.toBytes_eq_ok.mpr hwritten, h, hback, ?_⟩
  constructor
  · rintro rfl
    exact hback
  · intro hbody
    obtain ⟨bytes, hbytes, hsame⟩ := hrestores hbody
    rw [hwritten] at hbytes
    cases hbytes
    rw [hsame rfl, List.append_nil]

theorem Respells.hash_eq_iff {α : Type} {reader : Reader α} {written : Bytes} {a : α}
    (h : Respells reader body written a) : sha256 written = sha256 body ↔
      reader .written body = .ok a [] ∨ Collision sha256 [written, body] := by
  rw [← h.eq_iff]
  by_cases hsame : written = body
  · simp [hsame]
  · constructor
    · intro hhash
      exact .inr ⟨written, by simp, body, by simp, hsame, hhash⟩
    · rintro (heq | hcollision)
      · rw [heq]
      · obtain ⟨x, hx, y, hy, hne, hhash⟩ := hcollision
        simp only [List.mem_cons, List.not_mem_nil, or_false] at hx hy
        rcases hx with rfl | rfl <;> rcases hy with rfl | rfl
        · exact absurd rfl hne
        · exact hhash
        · exact hhash.symm
        · exact absurd rfl hne

theorem Signed.eq_of_read {signed signed' : Signed} {rest' : Bytes}
    (h : read spelling input = .ok signed rest) (h' : read spelling input = .ok signed' rest') :
    signed = signed' := by
  rw [h] at h'
  injection h'

namespace TransferTx

theorem unsigned_of_readRaw {tx : TransferTx}
    (h : readRaw limits spelling input = .ok tx rest) : tx.unsigned = tx := by
  obtain ⟨_, _, -, h⟩ := Reader.bind_eq_ok.mp h
  obtain ⟨_, _, -, h⟩ := Reader.bind_eq_ok.mp h
  obtain ⟨_, _, -, h⟩ := Reader.bind_eq_ok.mp h
  obtain ⟨_, _, -, h⟩ := Reader.bind_eq_ok.mp h
  obtain ⟨_, _, -, h⟩ := Reader.bind_eq_ok.mp h
  obtain ⟨_, _, -, h⟩ := Reader.bind_eq_ok.mp h
  obtain ⟨_, _, -, h⟩ := Reader.bind_eq_ok.mp h
  obtain ⟨_, -, h⟩ := Reader.within_bind_eq_ok.mp h
  obtain ⟨rfl, -⟩ := Reader.pure_eq_ok.mp h
  rfl

theorem respells_raw {tx : TransferTx} (h : Wire.read limits .any input = .ok tx rest) :
    ∃ body written, Signed.read .any input = .ok ⟨body, tx.signature, tx.publicKey⟩ rest ∧
      tx.raw = .ok written ∧ Respells (readRaw limits) body written tx.unsigned := by
  obtain ⟨signed, _, hsigned, h⟩ := Reader.bind_eq_ok.mp h
  obtain ⟨unsigned, hbody, h⟩ := Reader.within_bind_eq_ok.mp h
  obtain ⟨rfl, rfl⟩ := Reader.pure_eq_ok.mp h
  have hunsigned := unsigned_of_readRaw hbody
  have hinverts : (readRaw limits).Inverts _ _ := inverts_raw (restores_raw hbody).1
  rw [hunsigned] at hinverts
  obtain ⟨written, hwritten, hrespells⟩ :=
    respells_of_read hbody hinverts fun h => (restores_raw h).2
  rw [← hunsigned] at hrespells
  exact ⟨signed.body, written, hsigned, hwritten, hrespells⟩

theorem hash_of_raw {tx : TransferTx} {written : Bytes} (h : tx.raw = .ok written) :
    tx.hash = .ok (sha256 written) ∧
      tx.hasValidSignature = verifySignature (sha256 written).val tx.signature tx.publicKey := by
  have hhash : tx.hash = .ok (sha256 written) := by
    rw [hash, h]
    rfl
  exact ⟨hhash, by rw [hasValidSignature, hhash]⟩

end TransferTx

namespace ProofTx

theorem unsigned_of_readRaw {tx : ProofTx}
    (h : readRaw limits spelling input = .ok tx rest) : tx.unsigned = tx := by
  obtain ⟨_, _, -, h⟩ := Reader.bind_eq_ok.mp h
  obtain ⟨_, _, -, h⟩ := Reader.bind_eq_ok.mp h
  obtain ⟨_, _, -, h⟩ := Reader.bind_eq_ok.mp h
  obtain ⟨_, _, -, h⟩ := Reader.bind_eq_ok.mp h
  obtain ⟨_, _, -, h⟩ := Reader.bind_eq_ok.mp h
  obtain ⟨_, _, -, h⟩ := Reader.bind_eq_ok.mp h
  obtain ⟨_, _, -, h⟩ := Reader.bind_eq_ok.mp h
  obtain ⟨rfl, -⟩ := Reader.pure_eq_ok.mp h
  rfl

theorem respells_raw (hl : limits.btcContext ≤ maxBtcContext) {tx : ProofTx}
    (h : Wire.read limits .any input = .ok tx rest) :
    ∃ body written, Signed.read .any input = .ok ⟨body, tx.signature, tx.publicKey⟩ rest ∧
      tx.raw = .ok written ∧ Respells (readRaw limits) body written tx.unsigned := by
  obtain ⟨signed, _, hsigned, h⟩ := Reader.bind_eq_ok.mp h
  obtain ⟨unsigned, hbody, h⟩ := Reader.within_bind_eq_ok.mp h
  obtain ⟨rfl, rfl⟩ := Reader.pure_eq_ok.mp h
  have hunsigned := unsigned_of_readRaw hbody
  obtain ⟨hshaped, hwithin, -⟩ := restores_raw hl hbody
  have hinverts := inverts_raw hshaped fun _ => hwithin
  rw [hunsigned] at hinverts
  obtain ⟨written, hwritten, hrespells⟩ :=
    respells_of_read hbody hinverts fun h => (restores_raw hl h).2.2
  rw [← hunsigned] at hrespells
  exact ⟨signed.body, written, hsigned, hwritten, hrespells⟩

theorem hash_of_raw {tx : ProofTx} {written : Bytes} (h : tx.raw = .ok written) :
    tx.hash = .ok (sha256 written) ∧
      tx.hasValidSignature = verifySignature (sha256 written).val tx.signature tx.publicKey := by
  have hhash : tx.hash = .ok (sha256 written) := by
    rw [hash, h]
    rfl
  exact ⟨hhash, by rw [hasValidSignature, hhash]⟩

end ProofTx

/-- A transaction that was read has a hash. It is that of its body in the spelling of writers, which
signature and path are checked against, and not of the body as it came unless the two are one or
collide. -/
theorem hash_of_read (limits : Limits) (input rest : Bytes) :
    (∀ tx : TransferTx, Wire.read limits .any input = .ok tx rest → ∃ body written,
      Signed.read .any input = .ok ⟨body, tx.signature, tx.publicKey⟩ rest ∧
      Respells (TransferTx.readRaw limits) body written tx.unsigned ∧
      tx.hash = .ok (sha256 written) ∧
      (tx.hash = .ok (sha256 body) ↔ TransferTx.readRaw limits .written body = .ok tx.unsigned [] ∨
        Collision sha256 [written, body]) ∧
      tx.hasValidSignature = verifySignature (sha256 written).val tx.signature tx.publicKey ∧
      ∀ atv : Atv, atv.transaction = tx → (atv.isPathValid = .ok true ↔
        atv.path.subject = sha256 written ∧ atv.path.root = atv.blockOfProof.merkleRoot)) ∧
    (limits.validate = .ok () → ∀ tx : ProofTx, Wire.read limits .any input = .ok tx rest →
      ∃ body written, Signed.read .any input = .ok ⟨body, tx.signature, tx.publicKey⟩ rest ∧
      Respells (ProofTx.readRaw limits) body written tx.unsigned ∧
      tx.hash = .ok (sha256 written) ∧
      (tx.hash = .ok (sha256 body) ↔ ProofTx.readRaw limits .written body = .ok tx.unsigned [] ∨
        Collision sha256 [written, body]) ∧
      tx.hasValidSignature = verifySignature (sha256 written).val tx.signature tx.publicKey ∧
      ∀ vtb : Vtb, vtb.transaction = tx → (vtb.isPathValid = .ok true ↔
        vtb.path.subject = sha256 written ∧ vtb.path.root = vtb.containing.merkleRoot)) := by
  refine ⟨fun tx h => ?_, fun hl tx h => ?_⟩
  · obtain ⟨body, written, hsigned, hraw, hrespells⟩ := TransferTx.respells_raw h
    obtain ⟨hhash, hsignature⟩ := TransferTx.hash_of_raw hraw
    refine ⟨body, written, hsigned, hrespells, hhash, ?_, hsignature, ?_⟩
    · rw [hhash, Except.ok.injEq, hrespells.hash_eq_iff]
    · rintro atv rfl
      simp [Atv.isPathValid_eq_ok, hraw]
  · have hbtc := (Limits.inProtocol_of_validate hl).btcContext
    obtain ⟨body, written, hsigned, hraw, hrespells⟩ := ProofTx.respells_raw hbtc h
    obtain ⟨hhash, hsignature⟩ := ProofTx.hash_of_raw hraw
    refine ⟨body, written, hsigned, hrespells, hhash, ?_, hsignature, ?_⟩
    · rw [hhash, Except.ok.injEq, hrespells.hash_eq_iff]
    · rintro vtb rfl
      simp [Vtb.isPathValid_eq_ok, hraw]

section Padded

/-- The body of a transfer. Its amount is five, behind a zero. -/
def paddedBody : Bytes :=
  let address : Bytes := [1, 22, 0x67, 0x5a, 0xe9, 0x80, 0x3a, 0x2c, 0x0e, 0x3a, 0xfe, 0x1e, 0xa3,
    0xb9, 0xf6, 0x89, 0x5c, 0xc8, 0x85, 0x88, 0x5b, 0xd7, 0x8c, 0x81]
  let publication : Bytes := [1, 0, 1, 0, 1, 0, 1, 0]
  [1] ++ address ++ [2, 0, 5] ++ [0] ++ [1, 0] ++ [1, 8] ++ publication

def paddedInput : Bytes := [1, 41] ++ paddedBody ++ [0, 0]

theorem signed_padded : Signed.read .any paddedInput = .ok ⟨paddedBody, [], []⟩ [] := by
  rw [← Reader.whole_eq_ok]
  decide

theorem misspelled_padded (tx : TransferTx) :
    TransferTx.readRaw {} .written paddedBody ≠ .ok tx [] := by
  rw [Ne, ← Reader.whole_eq_ok]
  intro h
  have hnone : ((TransferTx.readRaw {}).whole .written paddedBody).toOption = none := by
    decide +kernel
  rw [h] at hnone
  cases hnone

theorem hash_of_read_padded :
    (∃ (tx : TransferTx) (written : Bytes), decode {} paddedInput = .ok tx ∧
      written ≠ paddedBody ∧ tx.hash = .ok (sha256 written) ∧
      TransferTx.readRaw {} .any paddedBody = .ok tx.unsigned [] ∧
      TransferTx.readRaw {} .written written = .ok tx.unsigned []) ∧
    ∃ input body written, decode {} input = .ok ProofTx.sample ∧
      Signed.read .any input = .ok ⟨body, [], []⟩ [] ∧
      ProofTx.sample.hash = .ok (sha256 written) ∧
      ProofTx.readRaw {} .any body = .ok ProofTx.sample.unsigned [] ∧
      ProofTx.readRaw {} .written written = .ok ProofTx.sample.unsigned [] := by
  constructor
  · obtain ⟨tx, htx⟩ : ∃ tx, (decode {} paddedInput : Except Fault TransferTx) = .ok tx :=
      exists_eq_ok (by decide +kernel)
    obtain ⟨body, written, hsigned, hrespells, hhash, -⟩ :=
      (hash_of_read {} paddedInput []).1 tx (Reader.whole_eq_ok.mp htx)
    have hbody : paddedBody = body := congrArg Signed.body (Signed.eq_of_read signed_padded hsigned)
    rw [← hbody] at hrespells
    refine ⟨tx, written, htx, fun hsame => ?_, hhash, hrespells.read_body, hrespells.read_written⟩
    exact misspelled_padded _ (hrespells.eq_iff.mp hsame)
  · have hbtcTx : ProofTx.sample.btcTx.bytes.length ≤ 4000000 := by decide
    have hpath : ProofTx.sample.path.layers.length ≤ 40 := by decide
    obtain ⟨input, hinput⟩ : (Wire.write ProofTx.sample).Ends :=
      (ProofTx.demands _).ends ⟨(Option.some_ne_none _).symm, Nat.two_pow_pos 40, hbtcTx, hpath,
        Nat.zero_le _, Nat.zero_le _, Nat.zero_le _⟩
    have hinverts : (Wire.read {}).Inverts (Wire.write ProofTx.sample) ProofTx.sample :=
      ProofTx.inverts ⟨rfl, rfl⟩ (Nat.zero_le _)
    have hdecode := hinverts.whole_eq_ok hinput .any
    obtain ⟨body, written, hsigned, hrespells, hhash, -⟩ :=
      (hash_of_read {} input []).2 rfl ProofTx.sample (Reader.whole_eq_ok.mp hdecode)
    exact ⟨input, body, written, hdecode, hsigned, hhash, hrespells.read_body,
      hrespells.read_written⟩

/-- The hash of the transfer is not that of the body that was read. -/
theorem hash_padded_ne : ∃ (tx : TransferTx) (signed : Signed), decode {} paddedInput = .ok tx ∧
    Signed.read .any paddedInput = .ok signed [] ∧ tx.hash ≠ .ok (sha256 signed.body) := by
  have hhash : (decode {} paddedInput : Except Fault TransferTx).toOption.map
      (fun tx => decide (tx.hash = .ok (sha256 paddedBody))) = some false := by
    decide +kernel
  cases htx : (decode {} paddedInput : Except Fault TransferTx) with
  | error fault =>
    rw [htx] at hhash
    cases hhash
  | ok tx =>
    rw [htx] at hhash
    exact ⟨tx, _, rfl, signed_padded, of_decide_eq_false (Option.some.inj hhash)⟩

end Padded

end ProofOfProof
