import ProofOfProof.Proofs.Transaction

/-! What was written says what it was written of. No decoder is asked: a body can be told from every
other one also where it is too large to be read back. -/

namespace ProofOfProof

variable {α : Type}

/-- Strings that begin with what two writers wrote are different, unless `same` holds and the same
bytes come behind. -/
def Writer.Separates (first second : Writer Unit) (same : Prop) : Prop :=
  ∀ x y s t : Bytes, first = ⟨x, .ok ()⟩ → second = ⟨y, .ok ()⟩ → x ++ s = y ++ t → same ∧ s = t

namespace Writer.Separates

variable {first second : Writer Unit} {same : Prop}

theorem mono {weaker : Prop} (h : Separates first second same) (hw : same → weaker) :
    Separates first second weaker := by
  intro x y s t hx hy he
  obtain ⟨hsame, hrest⟩ := h x y s t hx hy he
  exact ⟨hw hsame, hrest⟩

theorem of_inverts {reader : Reader α} {a b : α} (ha : reader.Inverts first a)
    (hb : reader.Inverts second b) : Separates first second (a = b) := by
  intro x y s t hx hy he
  have hread := ha x hx .any s
  rw [he, hb y hy .any t] at hread
  cases hread
  exact ⟨rfl, rfl⟩

theorem bind {next next' : Unit → Writer Unit} {fronts : Prop} (h : Separates first second fronts)
    (hn : fronts → Separates (next ()) (next' ()) same) :
    Separates (first >>= next) (second >>= next') same := by
  intro x y s t hx hy he
  obtain ⟨front, _, back, hfront, hback, rfl⟩ := bind_eq_ok.mp hx
  obtain ⟨front', _, back', hfront', hback', rfl⟩ := bind_eq_ok.mp hy
  rw [List.append_assoc, List.append_assoc] at he
  obtain ⟨hfronts, hrest⟩ := h front front' _ _ hfront hfront' he
  exact hn hfronts back back' s t hback hback' hrest

theorem check {γ : Type} {outcome outcome' : Except Fault γ} {next next' : γ → Writer Unit}
    (h : ∀ x y, outcome = .ok x → outcome' = .ok y → Separates (next x) (next' y) same) :
    Separates (Writer.check outcome >>= next) (Writer.check outcome' >>= next') same := by
  intro x y s t hx hy
  obtain ⟨c, hc, hx⟩ := check_bind_eq_ok.mp hx
  obtain ⟨c', hc', hy⟩ := check_bind_eq_ok.mp hy
  exact h c c' hc hc' x y s t hx hy

theorem limit {what : String} {length length' max : Nat} {next next' : Unit → Writer Unit}
    (h : length ≤ max → length' ≤ max → Separates (next ()) (next' ()) same) :
    Separates (Writer.check (checkLimit what length max) >>= next)
      (Writer.check (checkLimit what length' max) >>= next') same :=
  check fun _ _ hl hl' => h (checkLimit_eq_ok_iff.mp hl) (checkLimit_eq_ok_iff.mp hl')

theorem buffered {part part' : Writer Unit} {next next' : Bytes → Writer Unit}
    (h : ∀ x y, part = ⟨x, .ok ()⟩ → part' = ⟨y, .ok ()⟩ → Separates (next x) (next' y) same) :
    Separates (Writer.buffered part >>= next) (Writer.buffered part' >>= next') same :=
  check fun x y hx hy => h x y (toBytes_eq_ok.mp hx) (toBytes_eq_ok.mp hy)

theorem longField (field field' : Bytes) :
    Separates (Writer.longField field) (Writer.longField field') (field = field') := by
  intro x y s t hx hy he
  have hle := (longField_eq_ok.mp hx).1
  have hle' := (longField_eq_ok.mp hy).1
  have hfield : (Reader.longField "" 0 2147483647).Inverts (Writer.longField field) field :=
    .longField (Nat.zero_le _) hle
  exact of_inverts hfield (.longField (Nat.zero_le _) hle') x y s t hx hy he

theorem eq_of_toBytes (h : Separates first second same) {bytes : Bytes}
    (hf : first.toBytes = .ok bytes) (hs : second.toBytes = .ok bytes) : same :=
  (h bytes bytes [] [] (toBytes_eq_ok.mp hf) (toBytes_eq_ok.mp hs) rfl).1

end Writer.Separates

open Writer (Separates)

namespace TransferTx

theorem separates_raw {a b : TransferTx} (ha : a.tag.type = TypeTag.transfer)
    (hb : b.tag.type = TypeTag.transfer) :
    Separates a.writeRaw b.writeRaw (a.unsigned = b.unsigned) := by
  have houtputs (hcount : a.outputs.length = b.outputs.length) :
      Separates (.each a.outputs Wire.write) (.each b.outputs Wire.write)
        (a.outputs = b.outputs) := by
    have hread : (Reader.replicate a.outputs.length (Wire.read {})).Inverts
        (.each a.outputs Wire.write) a.outputs := .each fun output _ => output.inverts {}
    rw [hcount] at hread
    exact .of_inverts hread (.each fun output _ => output.inverts {})
  have hpublication (raw raw' : Bytes) (hraw : Wire.write a.publication = ⟨raw, .ok ()⟩)
      (hraw' : Wire.write b.publication = ⟨raw', .ok ()⟩) :
      Separates (.longField raw) (.longField raw') (a.publication = b.publication) := by
    refine (Separates.longField raw raw').mono fun hsame => ?_
    rw [← hsame] at hraw'
    exact (Separates.of_inverts (a.publication.inverts {}) (b.publication.inverts {})).eq_of_toBytes
      (Writer.toBytes_eq_ok.mpr hraw) (Writer.toBytes_eq_ok.mpr hraw')
  refine Separates.limit fun hcount hcount' => ?_
  refine (Separates.of_inverts (TypeTag.inverts ha) (TypeTag.inverts hb)).bind fun htag => ?_
  refine (Separates.of_inverts a.source.inverts b.source.inverts).bind fun hsource => ?_
  refine (Separates.of_inverts (a.amount.inverts {}) (b.amount.inverts {})).bind fun hamount => ?_
  refine (Separates.of_inverts (.byte _) (.byte _)).bind fun hcounts => ?_
  have hlength : a.outputs.length = b.outputs.length := by
    rw [maxOutputs] at hcount hcount'
    have hbytes := congrArg UInt8.toNat hcounts
    rwa [toNat_ofNat_byte (by omega), toNat_ofNat_byte (by omega)] at hbytes
  refine (houtputs hlength).bind fun houts => ?_
  refine (Separates.of_inverts (.integer64 "" _) (.integer64 "" _)).bind fun hindex => ?_
  refine Separates.buffered fun raw raw' hraw hraw' => ?_
  refine (hpublication raw raw' hraw hraw').mono fun hpub => ?_
  simp only [unsigned, htag, hsource, hamount, houts, hindex, hpub]

end TransferTx

namespace ProofTx

/-- All that the body says. The hash that the path starts from follows from the Bitcoin
transaction. -/
def bare (tx : ProofTx) : ProofTx :=
  { tx with path := { tx.path with subject := .zero 32 }, signature := [], publicKey := [] }

theorem separates_raw {a b : ProofTx} (ha : a.tag.type = TypeTag.proof)
    (hb : b.tag.type = TypeTag.proof) : Separates a.writeRaw b.writeRaw (a.bare = b.bare) := by
  have hfill {tx : ProofTx} (h : tx.tag.type = TypeTag.proof) : (readRaw {}).Inverts tx.writeRaw
      { tx.unsigned with path := { tx.path with subject := tx.btcTx.hash } } := by
    let filled := { tx with path := { tx.path with subject := tx.btcTx.hash } }
    have hshaped : filled.Shaped := ⟨h, rfl⟩
    have hread : (readRaw {}).Inverts filled.writeRaw filled.unsigned := inverts_raw hshaped id
    have hwrite : filled.writeRaw = tx.writeRaw := rfl
    rwa [hwrite] at hread
  exact (Separates.of_inverts (hfill ha) (hfill hb)).mono (congrArg bare)

end ProofTx

end ProofOfProof
