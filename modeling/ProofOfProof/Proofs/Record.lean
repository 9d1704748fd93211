import ProofOfProof.Index
import ProofOfProof.Payouts
import ProofOfProof.Proofs.Header
import ProofOfProof.Proofs.Sequence
import ProofOfProof.Proofs.Status

/-! Records of a node. They are read under the limits of the protocol, so what is read keeps within
the limits of the writers. -/

namespace ProofOfProof

variable {limits : Limits}

def AltEndorsement.stored (e : AltEndorsement) : AltEndorsement := { e with payout := [] }

def VbkEndorsement.stored (e : VbkEndorsement) : VbkEndorsement := { e with payout := [] }

/-- Whether a chain lets hashes be as long as those of an endorsement. -/
def Limits.AdmitsEndorsement (limits : Limits) (e : AltEndorsement) : Prop :=
  limits.AdmitsHash e.endorsed ∧ limits.AdmitsHash e.containing

theorem AltEndorsement.inverts_stored {e : AltEndorsement} (h : limits.AdmitsEndorsement e) :
    (Wire.read limits).Inverts (Wire.write e) e.stored := by
  obtain ⟨hendorsed, hcontaining⟩ := h
  refine (Reader.Inverts.shortFieldOf _ e.id).bind ?_
  refine (Reader.Inverts.hash _ hendorsed).bind ((Reader.Inverts.hash _ hcontaining).bind ?_)
  exact (Reader.Inverts.shortFieldOf _ e.blockOfProof).last rfl

theorem VbkEndorsement.inverts_stored (e : VbkEndorsement) :
    (Wire.read limits).Inverts (Wire.write e) e.stored := by
  refine (Reader.Inverts.shortFieldOf _ e.id).bind ?_
  refine (Reader.Inverts.shortFieldOf _ e.endorsed).bind ?_
  refine (Reader.Inverts.shortFieldOf _ e.containing).bind ?_
  exact (Reader.Inverts.shortFieldOf _ e.blockOfProof).last rfl

theorem AltEndorsement.normalises :
    (Wire.read limits : Reader AltEndorsement).Normalises Wire.write fun _ => True := by
  intro spelling input e rest h
  obtain ⟨id, _, hid, h⟩ := Reader.bind_eq_ok.mp h
  obtain ⟨endorsed, _, hendorsed, h⟩ := Reader.bind_eq_ok.mp h
  obtain ⟨containing, _, hcontaining, h⟩ := Reader.bind_eq_ok.mp h
  obtain ⟨blockOfProof, _, hblockOfProof, h⟩ := Reader.bind_eq_ok.mp h
  obtain ⟨rfl, rfl⟩ := Reader.pure_eq_ok.mp h
  refine ⟨?_, ?_⟩
  · refine (Writer.Restores.shortFieldOf hid).bind ?_
    refine (Writer.Restores.shortField hendorsed).bind ?_
    exact (Writer.Restores.shortField hcontaining).bind (.shortFieldOf hblockOfProof)
  · exact inverts_stored ⟨limits.admitsHash_of_shortField hendorsed,
      limits.admitsHash_of_shortField hcontaining⟩

theorem VbkEndorsement.normalises :
    (Wire.read limits : Reader VbkEndorsement).Normalises Wire.write fun _ => True := by
  intro spelling input e rest h
  obtain ⟨id, _, hid, h⟩ := Reader.bind_eq_ok.mp h
  obtain ⟨endorsed, _, hendorsed, h⟩ := Reader.bind_eq_ok.mp h
  obtain ⟨containing, _, hcontaining, h⟩ := Reader.bind_eq_ok.mp h
  obtain ⟨blockOfProof, _, hblockOfProof, h⟩ := Reader.bind_eq_ok.mp h
  obtain ⟨rfl, rfl⟩ := Reader.pure_eq_ok.mp h
  refine ⟨?_, ?_⟩
  · refine (Writer.Restores.shortFieldOf hid).bind ?_
    refine (Writer.Restores.shortFieldOf hendorsed).bind ?_
    exact (Writer.Restores.shortFieldOf hcontaining).bind (.shortFieldOf hblockOfProof)
  · exact inverts_stored _

theorem PopState.normalises {α : Type} [Wire α]
    (h : (Wire.read limits : Reader α).Normalises Wire.write fun _ => True) :
    (Wire.read limits : Reader (PopState α)).Normalises Wire.write (· = .written) :=
  Reader.Normalises.map (.sequence (Nat.le_refl _) (h.mono fun _ _ => trivial))

theorem Ids.normalises {n : Nat} (what : String) (max : Nat) :
    (Ids.read what max : Reader (List (Fixed n))).Normalises (Ids.write what max)
      (· = .written) :=
  .sequence (Nat.le_refl _) fun _ _ id _ hid => ⟨.shortFieldOf hid, .shortFieldOf _ id⟩

namespace Payouts

theorem inverts_entry (entry : Entry) : readEntry.Inverts (writeEntry entry) entry := by
  refine .limit fun hle => ?_
  exact (Reader.Inverts.longField (Nat.zero_le _) hle).bind
    ((Reader.Inverts.uint64 entry.2).last rfl)

theorem normalises_entry : readEntry.Normalises writeEntry (· = .written) := by
  intro spelling input entry rest h
  obtain ⟨info, _, hinfo, h⟩ := Reader.bind_eq_ok.mp h
  obtain ⟨amount, _, hamount, h⟩ := Reader.bind_eq_ok.mp h
  obtain ⟨rfl, rfl⟩ := Reader.pure_eq_ok.mp h
  have hle := (Reader.longField_eq_ok.mp hinfo).1.2
  refine ⟨.limit hle ?_, inverts_entry _⟩
  exact (Writer.Restores.longField hinfo).bind (.uint64 hamount)

theorem ofEntries_eq_ok {entries : List Entry} {payouts : Payouts} :
    ofEntries entries = .ok payouts ↔ payouts.entries = entries := by
  rw [ofEntries]
  by_cases h : ascends entries = true
  · rw [dif_pos h]
    constructor
    · intro he
      cases he
      rfl
    · rintro rfl
      rfl
  · rw [dif_neg h]
    constructor
    · intro he
      cases he
    · rintro rfl
      exact absurd payouts.ascending h

theorem inverts {payouts : Payouts} (h : payouts.size ≤ limits.payouts) :
    (Wire.read limits).Inverts (Wire.write payouts) payouts := by
  refine .limit fun hcount => ?_
  rw [maxPayouts] at hcount
  have hentries : (Reader.sequence "pop-payouts" 0 limits.payouts readEntry).Inverts
      (.sequence payouts.entries writeEntry) payouts.entries :=
    .sequence (by omega) (Nat.zero_le _) h fun entry _ => inverts_entry entry
  exact hentries.last (Reader.check_of_ok (ofEntries_eq_ok.mpr rfl))

theorem normalises (hl : limits.payouts ≤ maxPayouts) :
    (Wire.read limits : Reader Payouts).Normalises Wire.write (· = .written) := by
  intro spelling input payouts rest h
  obtain ⟨entries, mid, hentries, h⟩ := Reader.bind_eq_ok.mp h
  obtain ⟨he, rfl⟩ := Reader.check_eq_ok.mp h
  obtain rfl := ofEntries_eq_ok.mp he
  have hsequence := (Reader.Normalises.sequence hl normalises_entry).of_ok hentries
  exact ⟨hsequence.1, inverts (Reader.sequence_eq_ok.mp hentries).1.2⟩

end Payouts

theorem BtcAddon.normalises :
    (Wire.read limits : Reader BtcAddon).Normalises Wire.write (· = .written) :=
  Reader.Normalises.map (.sequence (Nat.le_refl _)
    fun _ _ height _ hheight => ⟨.uint32 hheight, .uint32 height⟩)

theorem VbkAddon.normalises :
    (Wire.read limits : Reader VbkAddon).Normalises Wire.write (· = .written) := by
  intro spelling input addon rest h
  obtain ⟨count, _, hcount, h⟩ := Reader.bind_eq_ok.mp h
  obtain ⟨popState, _, hpopState, h⟩ := Reader.bind_eq_ok.mp h
  obtain ⟨vtbIds, _, hvtbIds, h⟩ := Reader.bind_eq_ok.mp h
  obtain ⟨rfl, rfl⟩ := Reader.pure_eq_ok.mp h
  obtain ⟨hstate, hstateInverts⟩ := (PopState.normalises VbkEndorsement.normalises).of_ok hpopState
  obtain ⟨hids, hidsInverts⟩ := (Ids.normalises _ _).of_ok hvtbIds
  exact ⟨(Writer.Restores.uint32 hcount).bind (hstate.bind hids),
    (Reader.Inverts.uint32 count).bind (hstateInverts.bind (hidsInverts.last rfl))⟩

theorem AltAddon.normalises :
    (Wire.read limits : Reader AltAddon).Normalises Wire.write (· = .written) := by
  intro spelling input addon rest h
  obtain ⟨popState, _, hpopState, h⟩ := Reader.bind_eq_ok.mp h
  obtain ⟨atvIds, _, hatvIds, h⟩ := Reader.bind_eq_ok.mp h
  obtain ⟨vtbIds, _, hvtbIds, h⟩ := Reader.bind_eq_ok.mp h
  obtain ⟨vbkIds, _, hvbkIds, h⟩ := Reader.bind_eq_ok.mp h
  obtain ⟨rfl, rfl⟩ := Reader.pure_eq_ok.mp h
  obtain ⟨hstate, hstateInverts⟩ := (PopState.normalises AltEndorsement.normalises).of_ok hpopState
  obtain ⟨hatv, hatvInverts⟩ := (Ids.normalises _ _).of_ok hatvIds
  obtain ⟨hvtb, hvtbInverts⟩ := (Ids.normalises _ _).of_ok hvtbIds
  obtain ⟨hvbk, hvbkInverts⟩ := (Ids.normalises _ _).of_ok hvbkIds
  exact ⟨hstate.bind (hatv.bind (hvtb.bind hvbk)),
    hstateInverts.bind (hatvInverts.bind (hvtbInverts.bind (hvbkInverts.last rfl)))⟩

theorem Chain.normalises_header (chain : Chain) :
    (RawHeader.read limits : Reader chain.Header).Normalises RawHeader.write fun _ => True := by
  intro spelling input header rest h
  cases chain with
  | btc => exact ⟨BtcBlock.restores_raw h, BtcBlock.inverts_raw header⟩
  | vbk => exact ⟨VbkBlock.restores_raw h, VbkBlock.inverts_raw header⟩
  | alt =>
    obtain ⟨hhash, hprevious, hrestores⟩ := AltBlock.restores h
    exact ⟨hrestores, AltBlock.inverts hhash hprevious⟩

theorem Chain.normalises_addon (chain : Chain) :
    (Wire.read limits : Reader chain.Addon).Normalises Wire.write (· = .written) := by
  cases chain with
  | btc => exact BtcAddon.normalises
  | vbk => exact VbkAddon.normalises
  | alt => exact AltAddon.normalises

theorem BlockIndex.normalises {chain : Chain} :
    (Wire.read limits : Reader (BlockIndex chain)).Normalises Wire.write (· = .written) := by
  intro spelling input index rest h
  obtain ⟨height, _, hheight, h⟩ := Reader.bind_eq_ok.mp h
  obtain ⟨header, _, hheader, h⟩ := Reader.bind_eq_ok.mp h
  obtain ⟨word, _, hword, h⟩ := Reader.bind_eq_ok.mp h
  obtain ⟨status, hstatus, h⟩ := Reader.check_bind_eq_ok.mp h
  obtain ⟨addon, _, haddon, h⟩ := Reader.bind_eq_ok.mp h
  obtain ⟨rfl, rfl⟩ := Reader.pure_eq_ok.mp h
  obtain ⟨hheaderRestores, hheaderInverts⟩ := chain.normalises_header.of_ok hheader
  obtain ⟨haddonRestores, haddonInverts⟩ := chain.normalises_addon.of_ok haddon
  obtain rfl := BlockStatus.bits_of_ofBits hstatus
  refine ⟨?_, ?_⟩
  · refine (Writer.Restores.uint32 hheight).bind ?_
    refine (hheaderRestores.mono fun _ => trivial).bind ?_
    exact (Writer.Restores.uint32 hword).bind haddonRestores
  · refine (Reader.Inverts.uint32 height).bind (hheaderInverts.bind ?_)
    refine (Reader.Inverts.uint32 status.bits).bind ?_
    exact .check_reader (BlockStatus.ofBits_bits status) (haddonInverts.last rfl)

end ProofOfProof
