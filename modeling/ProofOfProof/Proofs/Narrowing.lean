import ProofOfProof.Proofs.Canonical
import ProofOfProof.Proofs.Reload

/-! The limits of a chain only filter. What is read under them is what is read where nothing is
limited, as far as it keeps within them. -/

namespace ProofOfProof

namespace Reader

variable {α β : Type} {given : Prop} {strict wide : Reader α} {fits : α → Prop}

/-- Where `given` holds, `strict` reads what `wide` reads and fits; where it does not, nothing that
`wide` reads fits. So `given` is what was asked of the values before. -/
def Filters (given : Prop) (strict wide : Reader α) (fits : α → Prop) : Prop :=
  ∀ spelling input a rest, given ∧ strict spelling input = .ok a rest ↔
    wide spelling input = .ok a rest ∧ fits a

namespace Filters

theorem same {reader : Reader α} (h : ∀ spelling input a rest,
    reader spelling input = .ok a rest → (given ↔ fits a)) : Filters given reader reader fits := by
  intro spelling input a rest
  constructor
  · exact fun ⟨hg, hr⟩ => ⟨hr, (h _ _ _ _ hr).mp hg⟩
  · exact fun ⟨hr, hf⟩ => ⟨(h _ _ _ _ hr).mpr hf, hr⟩

theorem refl (reader : Reader α) : Filters True reader reader fun _ => True :=
  same fun _ _ _ _ _ => Iff.rfl

theorem pure {a : α} (h : given ↔ fits a) : Filters given (Pure.pure a) (Pure.pure a) fits :=
  same fun _ _ _ _ hr => (pure_eq_ok.mp hr).1 ▸ h

theorem bind {next next' : α → Reader β} {fits' : β → Prop} (h : Filters True strict wide fits)
    (hn : ∀ a, Filters (given ∧ fits a) (next a) (next' a) fits') :
    Filters given (strict >>= next) (wide >>= next') fits' := by
  intro spelling input b rest
  simp only [bind_eq_ok]
  constructor
  · rintro ⟨hg, a, mid, hr, hnext⟩
    obtain ⟨hw, hf⟩ := (h _ _ _ _).mp ⟨trivial, hr⟩
    obtain ⟨hnext', hf'⟩ := (hn a _ _ _ _).mp ⟨⟨hg, hf⟩, hnext⟩
    exact ⟨⟨a, mid, hw, hnext'⟩, hf'⟩
  · rintro ⟨⟨a, mid, hw, hnext'⟩, hf'⟩
    obtain ⟨⟨hg, hf⟩, hnext⟩ := (hn a _ _ _ _).mpr ⟨hnext', hf'⟩
    exact ⟨hg, a, mid, ((h _ _ _ _).mpr ⟨hw, hf⟩).2, hnext⟩

/-- What no limit is for is read alike. -/
theorem common {reader : Reader α} {next next' : α → Reader β} {fits' : β → Prop}
    (hn : ∀ a, Filters given (next a) (next' a) fits') :
    Filters given (reader >>= next) (reader >>= next') fits' := by
  refine (refl reader).bind fun a => ?_
  rw [and_true]
  exact hn a

theorem map {f : α → β} {fits' : β → Prop} (h : Filters True strict wide fits)
    (hf : ∀ a, given ∧ fits a ↔ fits' (f a)) :
    Filters given (f <$> strict) (f <$> wide) fits' := by
  rw [← bind_pure_comp, ← bind_pure_comp]
  exact h.bind fun a => pure (hf a)

theorem within (part : Bytes) (h : Filters True strict wide fits) :
    Filters True (within part strict) (within part wide) fits := by
  intro spelling input a rest
  have hpart := h spelling part a []
  rw [true_and] at hpart
  rw [true_and, within_eq_ok, within_eq_ok, hpart, and_right_comm]

theorem replicate (h : Filters True strict wide fits) (count : Nat) :
    Filters True (replicate count strict) (replicate count wide) fun items =>
      ∀ a ∈ items, fits a := by
  induction count with
  | zero => exact pure (by simp)
  | succ count ih =>
    rw [replicate_succ, replicate_succ]
    exact h.bind fun a => ih.map fun items => by simp

/-- A list that the protocol alone limits. -/
theorem sequence_common {what : String} {min max : Nat} (h : Filters True strict wide fits) :
    Filters True (sequence what min max strict) (sequence what min max wide) fun items =>
      ∀ a ∈ items, fits a :=
  .common fun _ => .common fun _ => h.replicate _

theorem sequence {what : String} {max max' : Nat} (h : Filters True strict wide fits)
    (hmax : 2147483648 ≤ max') :
    Filters True (sequence what 0 max strict) (sequence what 0 max' wide) fun items =>
      items.length ≤ max ∧ ∀ a ∈ items, fits a := by
  refine .common fun count => ?_
  -- No count is above the wider maximum, and one that was let pass is the number of the items.
  have hlt := count.toInt_lt
  intro spelling input items rest
  have hitems := h.replicate count.toInt.toNat spelling input items rest
  simp only [counted, check_bind_eq_ok, checkRange_eq_ok_iff, true_and, exists_const] at hitems ⊢
  constructor
  · rintro ⟨hr, hstrict⟩
    have hlen := length_of_replicate hstrict
    obtain ⟨hwide, hfits⟩ := hitems.mp hstrict
    exact ⟨⟨by omega, hwide⟩, by omega, hfits⟩
  · rintro ⟨⟨hr, hwide⟩, hle, hfits⟩
    have hlen := length_of_replicate hwide
    exact ⟨by omega, hitems.mpr ⟨hwide, hfits⟩⟩

end Filters

end Reader

open Reader (Filters)

/-- Limits that no length and no count on the wire can pass. -/
structure Limits.Widest (limits : Limits) : Prop where
  altHashMin : limits.altHashMin = 0
  altHashMax : 2147483648 ≤ limits.altHashMax
  contextBlocks : 2147483648 ≤ limits.contextBlocks
  vtbs : 2147483648 ≤ limits.vtbs
  atvs : 2147483648 ≤ limits.atvs
  btcContext : 2147483648 ≤ limits.btcContext
  payouts : 2147483648 ≤ limits.payouts

def Limits.widest : Limits :=
  ⟨0, 2147483648, 2147483648, 2147483648, 2147483648, 2147483648, 2147483648⟩

theorem Limits.widest_widest : widest.Widest := by
  constructor <;> decide

variable {limits wide : Limits}

theorem Limits.Widest.filters_hash (hw : wide.Widest) (what : String) :
    Filters True (.shortField what limits.altHashMin limits.altHashMax)
      (.shortField what wide.altHashMin wide.altHashMax) limits.AdmitsHash := by
  intro spelling input hash rest
  have hmin := hw.altHashMin
  have hmax := hw.altHashMax
  simp only [Reader.shortField_eq_ok, AdmitsHash, true_and]
  constructor
  · rintro ⟨hfits, hle, hinput⟩
    exact ⟨⟨⟨by omega, by omega⟩, hle, hinput⟩, hfits⟩
  · rintro ⟨⟨-, hle, hinput⟩, hfits⟩
    exact ⟨hfits, hle, hinput⟩

theorem AltBlock.filters_read (hw : wide.Widest) :
    Filters True (read limits) (read wide) fun block =>
      limits.AdmitsHash block.hash ∧ limits.AdmitsHash block.previous :=
  (hw.filters_hash _).bind fun _ => (hw.filters_hash _).bind fun _ => .common fun _ =>
    .common fun _ => .pure (by simp)

theorem AltEndorsement.filters_read (hw : wide.Widest) :
    Filters True (Wire.read limits) (Wire.read wide) limits.AdmitsEndorsement :=
  .common fun _ => (hw.filters_hash _).bind fun _ => (hw.filters_hash _).bind fun _ =>
    .common fun _ => .pure (by simp [Limits.AdmitsEndorsement])

theorem ProofTx.filters_readRaw (hw : wide.Widest) :
    Filters True (readRaw limits) (readRaw wide) (Within limits) := by
  have hblock : Filters True (Wire.read limits : Reader BtcBlock) (Wire.read wide) fun _ => True :=
    .refl _
  exact .common fun _ => .common fun _ => .common fun _ => .common fun _ => .common fun _ =>
    .common fun _ => (hblock.sequence hw.btcContext).bind fun _ => .pure (by simp [Within])

theorem ProofTx.filters_read (hw : wide.Widest) :
    Filters True (Wire.read limits) (Wire.read wide) (Within limits) :=
  .common fun signed => ((filters_readRaw hw).within signed.body).bind fun _ =>
    .pure (by simp [Within])

theorem Vtb.filters_read (hw : wide.Widest) :
    Filters True (Wire.read limits) (Wire.read wide) fun vtb : Vtb =>
      vtb.transaction.Within limits :=
  .common fun _ => (ProofTx.filters_read hw).bind fun _ => .common fun _ => .common fun _ =>
    .pure (by simp)

theorem PopData.within_iff {pop : PopData} : pop.Within limits ↔
    pop.context.length ≤ limits.contextBlocks ∧
      (pop.vtbs.length ≤ limits.vtbs ∧ ∀ vtb ∈ pop.vtbs, vtb.transaction.Within limits) ∧
        pop.atvs.length ≤ limits.atvs :=
  ⟨fun ⟨hcontext, hvtbs, hatvs, hbtc⟩ => ⟨hcontext, ⟨hvtbs, hbtc⟩, hatvs⟩,
    fun ⟨hcontext, ⟨hvtbs, hbtc⟩, hatvs⟩ => ⟨hcontext, hvtbs, hatvs, hbtc⟩⟩

theorem PopData.filters_read (hw : wide.Widest) :
    Filters True (Wire.read limits) (Wire.read wide) (Within limits) := by
  have hblock : Filters True (Wire.read limits : Reader VbkBlock) (Wire.read wide) fun _ => True :=
    .refl _
  have hatv : Filters True (Wire.read limits : Reader Atv) (Wire.read wide) fun _ => True :=
    .refl _
  exact .common fun _ => (hblock.sequence hw.contextBlocks).bind fun _ =>
    ((Vtb.filters_read hw).sequence hw.vtbs).bind fun _ => (hatv.sequence hw.atvs).bind fun _ =>
      .pure (by simp [within_iff, and_assoc])

theorem Payouts.filters_read (hw : wide.Widest) :
    Filters True (Wire.read limits) (Wire.read wide) fun payouts : Payouts =>
      payouts.entries.length ≤ limits.payouts := by
  refine ((Filters.refl readEntry).sequence hw.payouts).bind fun entries => ?_
  refine .same fun _ _ payouts _ h => ?_
  obtain rfl := ofEntries_eq_ok.mp (Reader.check_eq_ok.mp h).1
  simp

theorem PopState.filters_read (hw : wide.Widest) :
    Filters True (Wire.read limits) (Wire.read wide) fun state : PopState AltEndorsement =>
      ∀ e ∈ state.containing, limits.AdmitsEndorsement e :=
  (AltEndorsement.filters_read hw).sequence_common.map fun _ => by simp

theorem AltAddon.filters_read (hw : wide.Widest) :
    Filters True (Wire.read limits) (Wire.read wide) fun addon : AltAddon =>
      ∀ e ∈ addon.popState.containing, limits.AdmitsEndorsement e :=
  (PopState.filters_read hw).bind fun _ => .common fun _ => .common fun _ => .common fun _ =>
    .pure (by simp)

theorem BlockIndex.filters_read (hw : wide.Widest) {chain : Chain} :
    Filters True (Wire.read limits) (Wire.read wide) fun index : BlockIndex chain =>
      chain.AdmitsHashes limits index.header index.addon := by
  cases chain with
  | btc | vbk => exact .refl _
  | alt =>
    exact .common fun _ => (AltBlock.filters_read hw).bind fun _ => .common fun _ =>
      .common fun _ => (AltAddon.filters_read hw).bind fun _ =>
        .pure (by simp [Chain.AdmitsHashes, and_assoc])

/-- Limits of which none lets pass what the one of `loose` does not. -/
structure Limits.Tightens (limits loose : Limits) : Prop where
  altHashMin : loose.altHashMin ≤ limits.altHashMin
  altHashMax : limits.altHashMax ≤ loose.altHashMax
  contextBlocks : limits.contextBlocks ≤ loose.contextBlocks
  vtbs : limits.vtbs ≤ loose.vtbs
  atvs : limits.atvs ≤ loose.atvs
  btcContext : limits.btcContext ≤ loose.btcContext
  payouts : limits.payouts ≤ loose.payouts

namespace Limits.Tightens

variable {loose : Limits}

theorem admitsHash (ht : limits.Tightens loose) {hash : Bytes} (h : limits.AdmitsHash hash) :
    loose.AdmitsHash hash :=
  ⟨Nat.le_trans ht.altHashMin h.1, Nat.le_trans h.2 ht.altHashMax⟩

theorem admitsEndorsement (ht : limits.Tightens loose) {e : AltEndorsement}
    (h : limits.AdmitsEndorsement e) : loose.AdmitsEndorsement e :=
  ⟨ht.admitsHash h.1, ht.admitsHash h.2⟩

theorem within_popData (ht : limits.Tightens loose) {pop : PopData} (h : pop.Within limits) :
    pop.Within loose where
  context := Nat.le_trans h.context ht.contextBlocks
  vtbs := Nat.le_trans h.vtbs ht.vtbs
  atvs := Nat.le_trans h.atvs ht.atvs
  btcContext vtb hm := Nat.le_trans (h.btcContext vtb hm) ht.btcContext

theorem admitsHashes (ht : limits.Tightens loose) {chain : Chain} {header : chain.Header}
    {addon : chain.Addon} (h : chain.AdmitsHashes limits header addon) :
    chain.AdmitsHashes loose header addon := by
  cases chain with
  | btc => trivial
  | vbk => trivial
  | alt =>
    exact ⟨ht.admitsHash h.1, ht.admitsHash h.2.1, fun e hm => ht.admitsEndorsement (h.2.2 e hm)⟩

end Limits.Tightens

namespace EntityKind

/-- Whether a value keeps within the limits of a chain. Only altchain hashes, the sections of
payloads, Bitcoin contexts and payouts have limits that a chain can choose. -/
def Within (limits : Limits) : (kind : EntityKind) → kind.Value → Prop
  | altBlock, a => limits.AdmitsHash (AltBlock.hash a) ∧ limits.AdmitsHash (AltBlock.previous a)
  | proofTx, a => ProofTx.Within limits a
  | vtb, a => ProofTx.Within limits (Vtb.transaction a)
  | popData, a => PopData.Within limits a
  | altEndorsement, a => limits.AdmitsEndorsement a
  | altPopState, a => ∀ e ∈ PopState.containing a, limits.AdmitsEndorsement e
  | payouts, a => (Payouts.entries a).length ≤ limits.payouts
  | altAddon, a => ∀ e ∈ (AltAddon.popState a).containing, limits.AdmitsEndorsement e
  | index chain, a => chain.AdmitsHashes limits (BlockIndex.header a) (BlockIndex.addon a)
  | _, _ => True

theorem Within.mono {loose : Limits} (ht : limits.Tightens loose) {kind : EntityKind}
    {a : kind.Value} (h : kind.Within limits a) : kind.Within loose a := by
  cases kind with
  | altBlock => exact ⟨ht.admitsHash h.1, ht.admitsHash h.2⟩
  | proofTx | vtb => exact Nat.le_trans h ht.btcContext
  | popData => exact ht.within_popData h
  | altEndorsement => exact ht.admitsEndorsement h
  | altPopState | altAddon => exact fun e hm => ht.admitsEndorsement (h e hm)
  | payouts => exact Nat.le_trans h ht.payouts
  | index chain => exact ht.admitsHashes h
  | _ => trivial

theorem filters_read (hw : wide.Widest) (kind : EntityKind) :
    Filters True (Wire.read limits) (Wire.read wide) (kind.Within limits) := by
  cases kind with
  | altBlock => exact AltBlock.filters_read hw
  | proofTx => exact ProofTx.filters_read hw
  | vtb => exact Vtb.filters_read hw
  | popData => exact PopData.filters_read hw
  | altEndorsement => exact AltEndorsement.filters_read hw
  | altPopState => exact PopState.filters_read hw
  | payouts => exact Payouts.filters_read hw
  | altAddon => exact AltAddon.filters_read hw
  | index chain => exact BlockIndex.filters_read hw
  | _ => exact .refl _

theorem decode_filters (hw : wide.Widest) {kind : EntityKind} {input : Bytes} {a : kind.Value} :
    decode limits input = .ok a ↔ decode wide input = .ok a ∧ kind.Within limits a := by
  have hfilters : Filters True (Wire.read limits) (Wire.read wide) (kind.Within limits) :=
    filters_read hw kind
  have hread := hfilters .any input a []
  rwa [true_and, ← Reader.whole_eq_ok, ← Reader.whole_eq_ok] at hread

/-- What a chain accepts is what keeps within its limits, of what is accepted under limits that
nothing can pass. So no two chains read an input as two values, and one with tighter limits reads
no other values than before. -/
theorem decode_eq_ok_iff_within (kind : EntityKind) (limits : Limits) (input : Bytes)
    (a : kind.Value) :
    (∀ wide : Limits, wide.Widest →
      (decode limits input = .ok a ↔ decode wide input = .ok a ∧ kind.Within limits a)) ∧
    (∀ (other : Limits) (b : kind.Value), decode limits input = .ok a →
      decode other input = .ok b → a = b) ∧
    ∀ loose : Limits, limits.Tightens loose → decode limits input = .ok a →
      decode loose input = .ok a := by
  refine ⟨fun _ hw => decode_filters hw, fun other b ha hb => ?_, fun loose ht ha => ?_⟩
  · have hwide := (decode_filters Limits.widest_widest).mp ha
    have hwide' := (decode_filters Limits.widest_widest).mp hb
    exact Except.ok.inj (hwide.1.symm.trans hwide'.1)
  · obtain ⟨hwide, hwithin⟩ := (decode_filters Limits.widest_widest).mp ha
    exact (decode_filters Limits.widest_widest).mpr ⟨hwide, hwithin.mono ht⟩

theorem decode_eq_ok_iff_within_altBlock : ∃ (input : Bytes) (block : AltBlock),
    decode ⟨1, 2, 0, 0, 0, 0, 0⟩ input = .ok block ∧ decode .widest input = .ok block ∧
      decode {} input = .ok block ∧ (∀ other, decode {} input = .ok other → block = other) ∧
        decode ⟨2, 1, 0, 0, 0, 0, 0⟩ input ≠ .ok block := by
  have hok : decode ⟨1, 2, 0, 0, 0, 0, 0⟩ [1, 7, 2, 8, 9, 0, 0, 0, 5, 0, 0, 0, 9] =
      .ok (⟨[7], [8, 9], 5, 9⟩ : AltBlock) := by decide
  obtain ⟨hiff, hsame, hloose⟩ := decode_eq_ok_iff_within altBlock _ _ _
  refine ⟨_, _, hok, ((hiff _ Limits.widest_widest).mp hok).1,
    hloose _ (by constructor <;> decide) hok, fun other => hsame _ other hok, fun hc => ?_⟩
  obtain ⟨hinverted, -, -⟩ := decode_eq_ok_iff_within altBlock ⟨2, 1, 0, 0, 0, 0, 0⟩ _ _
  have hhash := ((hinverted _ Limits.widest_widest).mp hc).2.1
  exact absurd hhash.1 (by decide)

end EntityKind

end ProofOfProof
