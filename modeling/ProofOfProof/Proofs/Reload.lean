import ProofOfProof.Proofs.Operation
import ProofOfProof.Proofs.Record

/-! Records come back from their encoding, whatever was done to them before and however little a
chain lets its payloads be. Only the payouts of endorsements are lost. -/

namespace ProofOfProof

variable {limits : Limits}

theorem Writer.sequence_map {α : Type} {write : α → Writer Unit} {f : α → α}
    (h : ∀ a, write (f a) = write a) (items : List α) :
    sequence (items.map f) write = sequence items write := by
  simp only [sequence, each, List.length_map, List.foldr_map, h]

namespace PopState

variable {α : Type}

def map (f : α → α) (state : PopState α) : PopState α := ⟨state.containing.map f⟩

theorem inverts_map [Wire α] {f : α → α} {state : PopState α}
    (hwrite : ∀ e : α, Wire.write (f e) = Wire.write e)
    (h : ∀ e ∈ state.containing, (Wire.read limits).Inverts (Wire.write e) (f e)) :
    (Wire.read limits).Inverts (Wire.write state) (state.map f) := by
  refine .limit fun hcount => ?_
  rw [maxEndorsements, maxAtvs, maxVtbs] at hcount
  have hitem : ∀ e ∈ state.containing.map f, (Wire.read limits).Inverts (Wire.write e) e := by
    intro e hm
    obtain ⟨x, hx, rfl⟩ := List.mem_map.mp hm
    rw [hwrite]
    exact h x hx
  have hlen : (state.containing.map f).length = state.containing.length := List.length_map f
  rw [← Writer.sequence_map hwrite]
  exact (Reader.Inverts.sequence (by omega) (Nat.zero_le _) (by rwa [hlen]) hitem).map mk

end PopState

theorem Ids.inverts {n max : Nat} (what : String) (ids : List (Fixed n))
    (hmax : max < 2147483648) : (Ids.read what max).Inverts (Ids.write what max ids) ids := by
  refine .limit fun hle => ?_
  exact .sequence (by omega) (Nat.zero_le _) hle fun id _ => .shortFieldOf _ id

theorem BtcAddon.inverts (addon : BtcAddon) :
    (Wire.read limits).Inverts (Wire.write addon) addon := by
  refine .limit fun hle => ?_
  have hlt : addon.references.length < 2147483648 := Nat.lt_of_le_of_lt hle (by decide)
  exact (Reader.Inverts.sequence hlt (Nat.zero_le _) hle fun height _ => .uint32 height).map mk

def VbkAddon.stored (addon : VbkAddon) : VbkAddon :=
  { addon with popState := addon.popState.map VbkEndorsement.stored }

theorem VbkAddon.inverts_stored (addon : VbkAddon) :
    (Wire.read limits).Inverts (Wire.write addon) addon.stored := by
  have hstate : (Wire.read limits).Inverts (Wire.write addon.popState)
      (addon.popState.map VbkEndorsement.stored) :=
    PopState.inverts_map (fun _ => rfl) fun e _ => e.inverts_stored
  refine (Reader.Inverts.uint32 addon.referenceCount).bind (hstate.bind ?_)
  exact (Ids.inverts _ addon.vtbIds (by decide)).last rfl

def AltAddon.stored (addon : AltAddon) : AltAddon :=
  { addon with popState := addon.popState.map AltEndorsement.stored }

theorem AltAddon.inverts_of_popState {addon : AltAddon}
    (h : (Wire.read limits).Inverts (Wire.write addon.popState)
      (addon.popState.map AltEndorsement.stored)) :
    (Wire.read limits).Inverts (Wire.write addon) addon.stored := by
  refine h.bind ((Ids.inverts _ addon.atvIds (by decide)).bind ?_)
  refine (Ids.inverts _ addon.vtbIds (by decide)).bind ?_
  exact (Ids.inverts _ addon.vbkIds (by decide)).last rfl

theorem AltAddon.inverts_stored {addon : AltAddon}
    (h : ∀ e ∈ addon.popState.containing, limits.AdmitsEndorsement e) :
    (Wire.read limits).Inverts (Wire.write addon) addon.stored :=
  inverts_of_popState <|
    PopState.inverts_map (fun _ => rfl) fun e hm => AltEndorsement.inverts_stored (h e hm)

namespace Chain

/-- What is left of an addon in storage. -/
def stored : (chain : Chain) → chain.Addon → chain.Addon
  | btc, addon => addon
  | vbk, addon => VbkAddon.stored addon
  | alt, addon => AltAddon.stored addon

/-- Only hashes of altchain blocks can be of a length that a chain does not have. -/
def AdmitsHashes (limits : Limits) : (chain : Chain) → chain.Header → chain.Addon → Prop
  | btc, _, _ => True
  | vbk, _, _ => True
  | alt, header, addon =>
    limits.AdmitsHash (AltBlock.hash header) ∧ limits.AdmitsHash (AltBlock.previous header) ∧
      ∀ e ∈ (AltAddon.popState addon).containing, limits.AdmitsEndorsement e

variable (chain : Chain) {header : chain.Header} {addon : chain.Addon}

theorem inverts_header (h : AdmitsHashes limits chain header addon) :
    (RawHeader.read limits).Inverts (RawHeader.write header) header := by
  cases chain with
  | btc => exact BtcBlock.inverts_raw header
  | vbk => exact VbkBlock.inverts_raw header
  | alt => exact AltBlock.inverts h.1 h.2.1

theorem inverts_addon (h : AdmitsHashes limits chain header addon) :
    (Wire.read limits).Inverts (Wire.write addon) (chain.stored addon) := by
  cases chain with
  | btc => exact BtcAddon.inverts addon
  | vbk => exact VbkAddon.inverts_stored addon
  | alt => exact AltAddon.inverts_stored h.2.2

end Chain

namespace BlockIndex

variable {chain : Chain}

def stored (index : BlockIndex chain) : BlockIndex chain :=
  { index with addon := chain.stored index.addon }

theorem inverts_stored {index : BlockIndex chain}
    (h : chain.AdmitsHashes limits index.header index.addon) :
    (Wire.read limits).Inverts (Wire.write index) index.stored := by
  refine (Reader.Inverts.uint32 index.height).bind ((chain.inverts_header h).bind ?_)
  refine (Reader.Inverts.uint32 index.status.bits).bind ?_
  exact .check_reader (BlockStatus.ofBits_bits index.status) ((chain.inverts_addon h).last rfl)

/-- After any run the status word is one that is accepted, and a record that was written is read
back. Of the limits only those of altchain hashes matter. -/
theorem decode_encode_run {start : BlockIndex chain} {steps : List (IndexStep chain)}
    {bytes : Bytes} (h : encode (start.run steps) = .ok bytes)
    (hh : chain.AdmitsHashes limits (start.run steps).header (start.run steps).addon) :
    BlockStatus.ofBits (runWord start.status.bits steps) = .ok (start.run steps).status ∧
      decode limits bytes = .ok (start.run steps).stored := by
  refine ⟨?_, ?_⟩
  · rw [← bits_run]
    exact BlockStatus.ofBits_bits _
  · have hread := inverts_stored hh bytes (Writer.toBytes_eq_ok.mp h) .any []
    rw [List.append_nil] at hread
    exact Reader.whole_eq_ok.mpr hread

def sampleStart : BlockIndex .alt := ofHeader 7 (AltBlock.mk [1, 2] [] 7 0)

def sampleSteps : List (IndexStep .alt) := [
  .status (.set .hasPayloads),
  .status (.raise .connected),
  .addon (AltStep.insertAtvIds [.zero 32]),
  .addon (AltStep.endorsements (.insert ⟨.zero 32, [1, 2], [1, 3], .zero 24, [9]⟩))]

theorem decode_encode_run_sample : ∃ bytes, encode (sampleStart.run sampleSteps) = .ok bytes ∧
    BlockStatus.ofBits 0x102 = .ok (sampleStart.run sampleSteps).status ∧
    decode ⟨0, 2, 0, 0, 0, 0, 0⟩ bytes = .ok (sampleStart.run sampleSteps).stored := by
  obtain ⟨bytes, h⟩ : ∃ bytes, encode (sampleStart.run sampleSteps) = .ok bytes :=
    exists_eq_ok (by decide +kernel)
  have hashes : Chain.AdmitsHashes ⟨0, 2, 0, 0, 0, 0, 0⟩ .alt (sampleStart.run sampleSteps).header
      (sampleStart.run sampleSteps).addon := by
    refine ⟨⟨by decide, by decide⟩, ⟨by decide, by decide⟩, fun x hm => ?_⟩
    rcases List.mem_singleton.mp hm with rfl
    exact ⟨⟨by decide, by decide⟩, by decide, by decide⟩
  have hword : runWord sampleStart.status.bits sampleSteps = 0x102 := by decide +kernel
  obtain ⟨hstatus, hdecode⟩ := decode_encode_run h hashes
  rw [hword] at hstatus
  exact ⟨bytes, h, hstatus, hdecode⟩

end BlockIndex

end ProofOfProof
