import ProofOfProof.Proofs.Payload

/-! Which payloads have an encoding. A writer demands a condition if it reaches its end under it
and stops at a constraint of the format without it; what the parts of a writer demand, the whole
demands together. Everything else that could fail on the way is shown never to: an address spells
bytes, and what is nested in a long field is short enough for its length. -/

namespace ProofOfProof

/-- `writer` reaches its end where `holds`. Where not, a constraint of the format stops it. -/
structure Writer.Demands (writer : Writer Unit) (holds : Prop) : Prop where
  ends : holds → writer.Ends
  stops : ¬ holds → ∃ cause, writer.outcome = .error (.constraint cause)

namespace Writer.Demands

variable {α γ : Type} {writer part : Writer Unit} {next : Unit → Writer Unit} {p q : Prop}

theorem congr (h : writer.Demands p) (hpq : p ↔ q) : writer.Demands q :=
  ⟨fun hq => h.ends (hpq.mpr hq), fun hq => h.stops fun hp => hq (hpq.mp hp)⟩

theorem of_ends (h : writer.Ends) : writer.Demands True :=
  ⟨fun _ => h, fun hn => absurd trivial hn⟩

theorem bind (h : writer.Demands p) (hn : (next ()).Demands q) :
    (writer >>= next).Demands (p ∧ q) := by
  refine ⟨fun hpq => (h.ends hpq.1).bind (hn.ends hpq.2), fun hpq => ?_⟩
  by_cases hp : p
  · obtain ⟨bytes, hbytes⟩ := h.ends hp
    obtain ⟨cause, hcause⟩ := hn.stops fun hq => hpq ⟨hp, hq⟩
    have hok : writer.outcome = .ok () := by rw [hbytes]
    exact ⟨cause, by rw [bind_of_ok hok, hcause]⟩
  · obtain ⟨cause, hcause⟩ := h.stops hp
    exact ⟨cause, by rw [bind_of_error hcause]⟩

theorem after (h : writer.Ends) (hn : (next ()).Demands q) : (writer >>= next).Demands q :=
  ((of_ends h).bind hn).congr (and_iff_right trivial)

theorem check {outcome : Except Fault γ} {more : γ → Writer Unit}
    (hok : p → ∃ x, outcome = .ok x)
    (herror : ¬ p → ∃ cause, outcome = .error (.constraint cause))
    (hm : ∀ x, outcome = .ok x → (more x).Demands q) :
    (Writer.check outcome >>= more).Demands (p ∧ q) := by
  refine ⟨fun hpq => ?_, fun hpq => ?_⟩
  · obtain ⟨x, hx⟩ := hok hpq.1
    exact .check hx ((hm x hx).ends hpq.2)
  · by_cases hp : p
    · obtain ⟨x, hx⟩ := hok hp
      obtain ⟨cause, hcause⟩ := (hm x hx).stops fun hq => hpq ⟨hp, hq⟩
      exact ⟨cause, by rw [bind_of_ok (w := Writer.check outcome) hx, hcause]⟩
    · obtain ⟨cause, hcause⟩ := herror hp
      exact ⟨cause, by rw [bind_of_error (w := Writer.check outcome) hcause]⟩

theorem limit {what : String} {length max : Nat} (hn : length ≤ max → (next ()).Demands q) :
    (Writer.check (checkLimit what length max) >>= next).Demands (length ≤ max ∧ q) := by
  refine check (fun hle => ⟨(), checkLimit_eq_ok_iff.mpr hle⟩) (fun hle => ?_) fun _ hok =>
    hn (checkLimit_eq_ok_iff.mp hok)
  rw [checkLimit, if_pos (Nat.lt_of_not_le hle)]
  exact ⟨_, rfl⟩

theorem buffered {more : Bytes → Writer Unit} (h : part.Demands p)
    (hm : ∀ raw, part = ⟨raw, .ok ()⟩ → (more raw).Demands q) :
    (Writer.buffered part >>= more).Demands (p ∧ q) := by
  refine check (fun hp => ?_) (fun hp => ?_) fun raw hraw => hm raw (toBytes_eq_ok.mp hraw)
  · obtain ⟨raw, hraw⟩ := h.ends hp
    exact ⟨raw, toBytes_eq_ok.mpr hraw⟩
  · obtain ⟨cause, hcause⟩ := h.stops hp
    exact ⟨cause, by rw [toBytes, hcause]⟩

theorem each {write : α → Writer Unit} {items : List α} {holds : α → Prop}
    (h : ∀ a, (write a).Demands (holds a)) :
    (Writer.each items write).Demands (∀ a ∈ items, holds a) := by
  induction items with
  | nil => exact (of_ends (.emit [])).congr (by simp)
  | cons a items ih =>
    rw [each_cons]
    exact ((h a).bind ih).congr List.forall_mem_cons.symm

theorem sequence {write : α → Writer Unit} {items : List α} {holds : α → Prop}
    (h : ∀ a, (write a).Demands (holds a)) :
    (Writer.sequence items write).Demands (∀ a ∈ items, holds a) :=
  after (.integer64 _) (each h)

end Writer.Demands

/-! The bounds of the format, as numbers. -/

def TypeTag.Writable (tag : TypeTag) : Prop := tag.network ≠ some tag.type

def VbkBlock.Writable (block : VbkBlock) : Prop := block.nonce.toNat < 2 ^ 40

def MerklePath.Writable (path : MerklePath) : Prop := path.layers.length ≤ 40

def PackagePath.Writable (path : PackagePath) : Prop := path.layers.length ≤ 40

def BtcTx.Writable (tx : BtcTx) : Prop := tx.bytes.length ≤ 4000000

structure Publication.Writable (publication : Publication) : Prop where
  header : publication.header.length ≤ 1024
  context : publication.context.length ≤ 10000
  payout : publication.payout.length ≤ 10000

structure Signed.Writable (signature publicKey : Bytes) : Prop where
  signature : signature.length ≤ 72
  publicKey : publicKey.length ≤ 88

structure TransferTx.Writable (tx : TransferTx) : Prop where
  tag : tx.tag.Writable
  outputs : tx.outputs.length ≤ 255
  publication : tx.publication.Writable
  signed : Signed.Writable tx.signature tx.publicKey

structure ProofTx.Writable (tx : ProofTx) : Prop where
  tag : tx.tag.Writable
  published : tx.published.Writable
  btcTx : tx.btcTx.Writable
  path : tx.path.Writable
  context : tx.context.length ≤ 15000
  signed : Signed.Writable tx.signature tx.publicKey

structure Atv.Writable (atv : Atv) : Prop where
  version : atv.version = 1
  transaction : atv.transaction.Writable
  path : atv.path.Writable
  blockOfProof : atv.blockOfProof.Writable

structure Vtb.Writable (vtb : Vtb) : Prop where
  version : vtb.version = 1
  transaction : vtb.transaction.Writable
  path : vtb.path.Writable
  containing : vtb.containing.Writable

structure PopData.Writable (pop : PopData) : Prop where
  version : pop.version = 1
  contextLength : pop.context.length ≤ 50000
  vtbsLength : pop.vtbs.length ≤ 50000
  atvsLength : pop.atvs.length ≤ 50000
  context : ∀ block ∈ pop.context, block.Writable
  vtbs : ∀ vtb ∈ pop.vtbs, vtb.Writable
  atvs : ∀ atv ∈ pop.atvs, atv.Writable

namespace Writer

theorem Demands.version (entity : String) (version : UInt32) :
    (Writer.version entity version).Demands (version = 1) := by
  rw [Writer.version, payloadVersion]
  by_cases h : version = 1
  · rw [if_pos h]
    exact (of_ends (.emit _)).congr (by simp [h])
  · rw [if_neg h]
    exact ⟨fun hv => absurd hv h, fun _ => ⟨_, rfl⟩⟩

theorem Demands.layers {layers : List Hash} {next : Unit → Writer Unit}
    (hn : (next ()).Ends) : (Writer.check (checkLayers layers) >>= next).Demands
      (layers.length ≤ 40) := by
  refine (check (fun hle => ⟨(), checkLayers_eq_ok.mpr hle⟩) (fun hle => ?_) fun _ _ =>
    of_ends hn).congr (and_iff_left trivial)
  rw [checkLayers, if_pos (Nat.lt_of_not_le hle)]
  exact ⟨_, rfl⟩

theorem Ends.fullInteger32 (n : Int32) : (Writer.fullInteger32 n).Ends :=
  (Ends.emit _).bind (.emit _)

theorem Ends.hashes (layers : List Hash) :
    (Writer.each layers fun layer => .shortField layer.val).Ends :=
  .each fun layer _ => .shortField (by rw [layer.property]; decide)

end Writer

theorem TypeTag.demands (tag : TypeTag) : tag.write.Demands tag.Writable := by
  refine ⟨fun h => ⟨_, TypeTag.write_eq_ok.mpr ⟨h, rfl⟩⟩, fun h => ?_⟩
  obtain ⟨network, type⟩ := tag
  obtain rfl : network = some type := not_not.mp h
  exact ⟨.networkCollision type, by simp [write, Writer.fail]⟩

theorem VbkBlock.demands (block : VbkBlock) : (Wire.write block).Demands block.Writable := by
  have hfields : (Wire.write block).Demands ((block.Writable ∧ True) ∧ True) := by
    refine .buffered (.check (fun h => ⟨(), checkNonce_eq_ok.mpr h⟩) (fun h => ?_) fun _ _ =>
      .of_ends ⟨_, rfl⟩) fun raw hraw => .of_ends (.shortField ?_)
    · have hwide : maxVbkNonce < block.nonce := by
        rw [UInt64.lt_iff_toNat_lt]
        have hmax : maxVbkNonce.toNat = 2 ^ 40 - 1 := rfl
        rw [Writable] at h
        omega
      rw [checkNonce, if_pos hwide]
      exact ⟨_, rfl⟩
    · rw [length_of_writeRaw hraw]
      decide
  exact hfields.congr (by simp)

theorem MerklePath.demands (path : MerklePath) : path.write.Demands path.Writable := by
  refine (Writer.Demands.buffered (q := True) (.layers ?_) fun raw hraw => .of_ends ?_).congr
    (and_iff_left trivial)
  · refine (Writer.Ends.fullInteger32 _).bind ((Writer.Ends.fullInteger32 _).bind ?_)
    exact (Writer.Ends.fullInteger32 _).bind ((Writer.Ends.emit _).bind (.hashes _))
  · have hle := path.writeRaw_atMost raw hraw
    exact .longField (by omega)

theorem PackagePath.demands (path : PackagePath) : path.write.Demands path.Writable := by
  refine .layers ?_
  refine (Writer.Ends.fullInteger32 _).bind ((Writer.Ends.fullInteger32 _).bind ?_)
  refine Writer.Ends.bind (.shortField ?_) ((Writer.Ends.fullInteger32 _).bind (.hashes _))
  rw [path.subject.property]
  decide

theorem BtcTx.demands (tx : BtcTx) : (Wire.write tx).Demands tx.Writable := by
  refine (Writer.Demands.limit (q := True) fun hle => ?_).congr (and_iff_left trivial)
  rw [maxBtcTxSize] at hle
  exact .of_ends (.longField (by omega))

theorem BtcBlock.ends (block : BtcBlock) : (Wire.write block).Ends := by
  refine .shortField ?_
  rw [block.length_raw]
  decide

theorem Output.ends (output : Output) : (Wire.write output).Ends :=
  output.address.ends.bind (.integer64 _)

theorem Publication.demands (publication : Publication) :
    (Wire.write publication).Demands publication.Writable := by
  have hlong {field : Bytes} (h : field.length ≤ 10000) : (Writer.longField field).Ends :=
    .longField (by omega)
  have hfields : (Wire.write publication).Demands (publication.header.length ≤ 1024 ∧
      publication.context.length ≤ 10000 ∧ publication.payout.length ≤ 10000 ∧ True) := by
    refine .limit fun (hheader : _ ≤ 1024) => .limit fun hcontext => .limit fun hpayout =>
      .of_ends ?_
    refine (Writer.Ends.integer64 _).bind ((hlong (by omega)).bind ?_)
    exact (hlong hcontext).bind (hlong hpayout)
  exact hfields.congr ⟨fun ⟨hh, hc, hp, _⟩ => ⟨hh, hc, hp⟩, fun h => ⟨h.1, h.2, h.3, trivial⟩⟩

/-- The fields around a body, whatever the body is. -/
theorem Signed.demands {body : Bytes} (h : body.length ≤ maxBodySize)
    (signature publicKey : Bytes) :
    (write ⟨body, signature, publicKey⟩).Demands (Writable signature publicKey) := by
  rw [maxBodySize] at h
  have hfields : (write ⟨body, signature, publicKey⟩).Demands
      (signature.length ≤ 72 ∧ publicKey.length ≤ 88 ∧ True) := by
    refine .limit fun (hsignature : signature.length ≤ 72) => .limit
      fun (hkey : publicKey.length ≤ 88) => .of_ends ?_
    have hraw : (Writer.longField body).Ends := .longField (by omega)
    have hsigned : (Writer.shortField signature).Ends := .shortField (by omega)
    have hkeyed : (Writer.shortField publicKey).Ends := .shortField (by omega)
    exact hraw.bind (hsigned.bind hkeyed)
  exact hfields.congr ⟨fun h => ⟨h.1, h.2.1⟩, fun h => ⟨h.1, h.2, trivial⟩⟩

theorem TransferTx.demands (tx : TransferTx) : (Wire.write tx).Demands tx.Writable := by
  have hbody : tx.writeRaw.Demands
      (tx.outputs.length ≤ 255 ∧ tx.tag.Writable ∧ tx.publication.Writable ∧ True) := by
    refine .limit fun _ => tx.tag.demands.bind (.after tx.source.ends (.after (.integer64 _) ?_))
    refine .after (.emit _) (.after (.each fun output _ => output.ends) (.after (.integer64 _) ?_))
    refine .buffered tx.publication.demands fun raw hraw => .of_ends (.longField ?_)
    have hle := tx.publication.write_atMost raw hraw
    omega
  refine (hbody.buffered fun body hb => Signed.demands (tx.writeRaw_atMost body hb) _ _).congr ?_
  exact ⟨fun ⟨⟨ho, ht, hp, _⟩, hs⟩ => ⟨ht, ho, hp, hs⟩,
    fun h => ⟨⟨h.outputs, h.tag, h.publication, trivial⟩, h.signed⟩⟩

theorem ProofTx.demands (tx : ProofTx) : (Wire.write tx).Demands tx.Writable := by
  have hbody : tx.writeRaw.Demands (tx.tag.Writable ∧ tx.published.Writable ∧ tx.btcTx.Writable ∧
      tx.path.Writable ∧ tx.context.length ≤ 15000 ∧ ∀ block ∈ tx.context, True) := by
    refine tx.tag.demands.bind (.after tx.address.ends (tx.published.demands.bind ?_))
    refine tx.btcTx.demands.bind (tx.path.demands.bind (.after tx.blockOfProof.ends ?_))
    exact .limit fun _ => .sequence fun block => .of_ends block.ends
  refine (hbody.buffered fun body hb => Signed.demands (tx.writeRaw_atMost body hb) _ _).congr ?_
  exact ⟨fun ⟨⟨ht, hv, hb, hp, hc, _⟩, hs⟩ => ⟨ht, hv, hb, hp, hc, hs⟩,
    fun h => ⟨⟨h.tag, h.published, h.btcTx, h.path, h.context, fun _ _ => trivial⟩, h.signed⟩⟩

theorem Atv.demands (atv : Atv) : (Wire.write atv).Demands atv.Writable := by
  have hfields : (Wire.write atv).Demands (atv.version = 1 ∧ atv.transaction.Writable ∧
      atv.path.Writable ∧ atv.blockOfProof.Writable) :=
    (Writer.Demands.version _ _).bind (atv.transaction.demands.bind
      (atv.path.demands.bind atv.blockOfProof.demands))
  exact hfields.congr ⟨fun ⟨hv, ht, hp, hb⟩ => ⟨hv, ht, hp, hb⟩,
    fun h => ⟨h.version, h.transaction, h.path, h.blockOfProof⟩⟩

theorem Vtb.demands (vtb : Vtb) : (Wire.write vtb).Demands vtb.Writable := by
  have hfields : (Wire.write vtb).Demands (vtb.version = 1 ∧ vtb.transaction.Writable ∧
      vtb.path.Writable ∧ vtb.containing.Writable) :=
    (Writer.Demands.version _ _).bind (vtb.transaction.demands.bind
      (vtb.path.demands.bind vtb.containing.demands))
  exact hfields.congr ⟨fun ⟨hv, ht, hp, hb⟩ => ⟨hv, ht, hp, hb⟩,
    fun h => ⟨h.version, h.transaction, h.path, h.containing⟩⟩

theorem PopData.demands (pop : PopData) : (Wire.write pop).Demands pop.Writable := by
  have hfields : (Wire.write pop).Demands (pop.version = 1 ∧ pop.context.length ≤ 50000 ∧
      pop.vtbs.length ≤ 50000 ∧ pop.atvs.length ≤ 50000 ∧
        (∀ block ∈ pop.context, block.Writable) ∧ (∀ vtb ∈ pop.vtbs, vtb.Writable) ∧
          ∀ atv ∈ pop.atvs, atv.Writable) := by
    refine (Writer.Demands.version _ _).bind (.limit fun _ => .limit fun _ => .limit fun _ => ?_)
    exact (Writer.Demands.sequence VbkBlock.demands).bind
      ((Writer.Demands.sequence Vtb.demands).bind (.sequence Atv.demands))
  exact hfields.congr ⟨fun ⟨hv, hcl, hvl, hal, hc, hvs, ha⟩ => ⟨hv, hcl, hvl, hal, hc, hvs, ha⟩,
    fun h => ⟨h.version, h.contextLength, h.vtbsLength, h.atvsLength, h.context, h.vtbs, h.atvs⟩⟩

theorem Writer.Demands.encode_eq_ok_iff {α : Type} [Wire α] {a : α} {holds : Prop}
    (h : (Wire.write a).Demands holds) : ((∃ bytes, encode a = .ok bytes) ↔ holds) ∧
      (¬ holds → ∃ cause, encode a = .error (.constraint cause)) := by
  have hstops (hn : ¬ holds) : ∃ cause, encode a = .error (.constraint cause) := by
    obtain ⟨cause, hcause⟩ := h.stops hn
    exact ⟨cause, by rw [encode, toBytes, hcause]⟩
  refine ⟨⟨?_, fun hh => ?_⟩, hstops⟩
  · rintro ⟨bytes, hbytes⟩
    by_contra hn
    obtain ⟨cause, hcause⟩ := hstops hn
    cases hbytes.symm.trans hcause
  · obtain ⟨bytes, hbytes⟩ := h.ends hh
    exact ⟨bytes, toBytes_eq_ok.mpr hbytes⟩

/-- A payload has an encoding where every part of it keeps to the bounds of the format. Where one
does not, that is what its writer reports. -/
theorem PopData.encode_eq_ok_iff_writable (pop : PopData) :
    ((∃ bytes, encode pop = .ok bytes) ↔ pop.Writable) ∧
      (¬ pop.Writable → ∃ cause, encode pop = .error (.constraint cause)) :=
  pop.demands.encode_eq_ok_iff

end ProofOfProof
