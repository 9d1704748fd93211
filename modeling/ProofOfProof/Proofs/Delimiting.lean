import ProofOfProof.Entity
import ProofOfProof.Proofs.Regular

/-! Every reader of a stream delimits itself. What it makes of an input it makes of every longer
one, the cursor included; what it consumes it needs to the last byte. -/

namespace ProofOfProof

open Reader

theorem AltBlock.regular_read (limits : Limits) : Regular (AltBlock.read limits) :=
  (Regular.shortField _ _ _).bind fun _ => (Regular.shortField _ _ _).bind fun _ =>
    Regular.int32.bind fun _ => Regular.uint32.bind fun _ => .pure _

theorem BtcBlock.regular_readRaw : Regular BtcBlock.readRaw :=
  Regular.uint32LE.bind fun _ => (Regular.take _).bind fun _ => (Regular.take _).bind fun _ =>
    Regular.uint32LE.bind fun _ => Regular.uint32LE.bind fun _ => Regular.uint32LE.bind fun _ =>
      .pure _

theorem BtcBlock.regular_read (limits : Limits) : Regular (Wire.read limits : Reader BtcBlock) :=
  (Regular.shortField _ _ _).bind fun _ => BtcBlock.regular_readRaw.within _

theorem VbkBlock.regular_readRaw : Regular VbkBlock.readRaw :=
  Regular.int32.bind fun _ => Regular.int16.bind fun _ => (Regular.take _).bind fun _ =>
    (Regular.take _).bind fun _ => (Regular.take _).bind fun _ => (Regular.take _).bind fun _ =>
      Regular.int32.bind fun _ => Regular.int32.bind fun _ => (Regular.bytes _).bind fun _ =>
        .pure _

theorem VbkBlock.regular_read (limits : Limits) : Regular (Wire.read limits : Reader VbkBlock) :=
  (Regular.shortField _ _ _).bind fun _ => VbkBlock.regular_readRaw.within _

theorem Address.regular_read : Regular Address.read :=
  Regular.byte.bind fun _ => (Regular.check _).bind fun _ => (Regular.shortField _ _ _).bind
    fun _ => (Regular.check _).bind fun _ => .ite (.pure _) (.fail _)

theorem Coin.regular_read (limits : Limits) : Regular (Wire.read limits : Reader Coin) :=
  (Regular.integer64 _).map _

theorem Output.regular_read (limits : Limits) : Regular (Wire.read limits : Reader Output) :=
  Address.regular_read.bind fun _ => (Coin.regular_read limits).bind fun _ => .pure _

theorem Publication.regular_read : Regular Publication.read :=
  (Regular.integer64 _).bind fun _ => (Regular.longField _ _ _).bind fun _ =>
    (Regular.longField _ _ _).bind fun _ => (Regular.longField _ _ _).bind fun _ => .pure _

theorem BtcTx.regular_read (limits : Limits) : Regular (Wire.read limits : Reader BtcTx) :=
  (Regular.longField _ _ _).map _

theorem Signed.regular_read : Regular Signed.read :=
  (Regular.longField _ _ _).bind fun _ => (Regular.shortField _ _ _).bind fun _ =>
    (Regular.shortField _ _ _).bind fun _ => .pure _

theorem TransferTx.regular_readRaw (limits : Limits) : Regular (TransferTx.readRaw limits) :=
  (Regular.typeTag _).bind fun _ => Address.regular_read.bind fun _ =>
    (Coin.regular_read limits).bind fun _ => Regular.byte.bind fun _ =>
      ((Output.regular_read limits).replicate _).bind fun _ => (Regular.integer64 _).bind fun _ =>
        (Regular.longField _ _ _).bind fun _ => (Publication.regular_read.within _).bind fun _ =>
          .pure _

theorem TransferTx.regular_read (limits : Limits) :
    Regular (Wire.read limits : Reader TransferTx) :=
  Signed.regular_read.bind fun _ => ((TransferTx.regular_readRaw limits).within _).bind fun _ =>
    .pure _

theorem MerklePath.regular_readRaw (subject : Hash) : Regular (MerklePath.readRaw subject) :=
  (Regular.fullInteger32 _).bind fun _ => (Regular.fullInteger32 _).bind fun _ =>
    (Regular.check _).bind fun _ => (Regular.fullInteger32 _).bind fun _ =>
      (Regular.check _).bind fun _ => Regular.uint32.bind fun _ => (Regular.check _).bind fun _ =>
        ((Regular.shortFieldOf _ _).replicate _).bind fun _ => .pure _

theorem MerklePath.regular_read (subject : Hash) : Regular (MerklePath.read subject) :=
  (Regular.longField _ _ _).bind fun _ => (MerklePath.regular_readRaw subject).within _

theorem ProofTx.regular_readRaw (limits : Limits) : Regular (ProofTx.readRaw limits) :=
  (Regular.typeTag _).bind fun _ => Address.regular_read.bind fun _ =>
    (VbkBlock.regular_read limits).bind fun _ => (BtcTx.regular_read limits).bind fun _ =>
      (MerklePath.regular_read _).bind fun _ => (BtcBlock.regular_read limits).bind fun _ =>
        (Regular.sequence _ _ _ (BtcBlock.regular_read limits)).bind fun _ => .pure _

theorem ProofTx.regular_read (limits : Limits) : Regular (Wire.read limits : Reader ProofTx) :=
  Signed.regular_read.bind fun _ => ((ProofTx.regular_readRaw limits).within _).bind fun _ =>
    .pure _

theorem PackagePath.regular_read : Regular PackagePath.read :=
  (Regular.fullInteger32 _).bind fun _ => (Regular.fullInteger32 _).bind fun _ =>
    (Regular.shortFieldOf _ _).bind fun _ => (Regular.fullInteger32 _).bind fun _ =>
      (Regular.counted _ _ _ _ (.shortFieldOf _ _)).bind fun _ => .pure _

theorem Atv.regular_read (limits : Limits) : Regular (Wire.read limits : Reader Atv) :=
  (Regular.version _).bind fun _ => (TransferTx.regular_read limits).bind fun _ =>
    PackagePath.regular_read.bind fun _ => (VbkBlock.regular_read limits).bind fun _ => .pure _

theorem Vtb.regular_read (limits : Limits) : Regular (Wire.read limits : Reader Vtb) :=
  (Regular.version _).bind fun _ => (ProofTx.regular_read limits).bind fun _ =>
    PackagePath.regular_read.bind fun _ => (VbkBlock.regular_read limits).bind fun _ => .pure _

theorem PopData.regular_read (limits : Limits) : Regular (Wire.read limits : Reader PopData) :=
  (Regular.version _).bind fun _ =>
    (Regular.sequence _ _ _ (VbkBlock.regular_read limits)).bind fun _ =>
      (Regular.sequence _ _ _ (Vtb.regular_read limits)).bind fun _ =>
        (Regular.sequence _ _ _ (Atv.regular_read limits)).bind fun _ => .pure _

theorem AltEndorsement.regular_read (limits : Limits) :
    Regular (Wire.read limits : Reader AltEndorsement) :=
  (Regular.shortFieldOf _ _).bind fun _ => (Regular.shortField _ _ _).bind fun _ =>
    (Regular.shortField _ _ _).bind fun _ => (Regular.shortFieldOf _ _).bind fun _ => .pure _

theorem VbkEndorsement.regular_read (limits : Limits) :
    Regular (Wire.read limits : Reader VbkEndorsement) :=
  (Regular.shortFieldOf _ _).bind fun _ => (Regular.shortFieldOf _ _).bind fun _ =>
    (Regular.shortFieldOf _ _).bind fun _ => (Regular.shortFieldOf _ _).bind fun _ => .pure _

theorem Endorsement.regular_read (kind : EndorsementKind) (limits : Limits) :
    Regular (Endorsement.read kind limits) := by
  cases kind with
  | alt => exact (AltEndorsement.regular_read limits).map _
  | vbk => exact (VbkEndorsement.regular_read limits).map _

theorem PopState.regular_read {α : Type} [Wire α] {limits : Limits}
    (h : Regular (Wire.read limits : Reader α)) :
    Regular (Wire.read limits : Reader (PopState α)) :=
  (Regular.sequence _ _ _ h).map _

theorem Payouts.regular_read (limits : Limits) : Regular (Wire.read limits : Reader Payouts) :=
  (Regular.sequence _ _ _ ((Regular.longField _ _ _).bind fun _ =>
    Regular.uint64.bind fun _ => .pure _)).bind fun _ => .check _

theorem Ids.regular_read {n : Nat} (what : String) (max : Nat) :
    Regular (Ids.read what max : Reader (List (Fixed n))) :=
  .sequence _ _ _ (.shortFieldOf _ _)

theorem Chain.regular_readHeader (chain : Chain) (limits : Limits) :
    Regular (RawHeader.read limits : Reader chain.Header) := by
  cases chain with
  | btc => exact BtcBlock.regular_readRaw
  | vbk => exact VbkBlock.regular_readRaw
  | alt => exact AltBlock.regular_read limits

theorem BtcAddon.regular_read (limits : Limits) : Regular (Wire.read limits : Reader BtcAddon) :=
  (Regular.sequence _ _ _ .uint32).map _

theorem VbkAddon.regular_read (limits : Limits) : Regular (Wire.read limits : Reader VbkAddon) :=
  Regular.uint32.bind fun _ =>
    (PopState.regular_read (VbkEndorsement.regular_read limits)).bind fun _ =>
      (Ids.regular_read _ _).bind fun _ => .pure _

theorem AltAddon.regular_read (limits : Limits) : Regular (Wire.read limits : Reader AltAddon) :=
  (PopState.regular_read (AltEndorsement.regular_read limits)).bind fun _ =>
    (Ids.regular_read _ _).bind fun _ => (Ids.regular_read _ _).bind fun _ =>
      (Ids.regular_read _ _).bind fun _ => .pure _

theorem Chain.regular_readAddon (chain : Chain) (limits : Limits) :
    Regular (Wire.read limits : Reader chain.Addon) := by
  cases chain with
  | btc => exact BtcAddon.regular_read limits
  | vbk => exact VbkAddon.regular_read limits
  | alt => exact AltAddon.regular_read limits

theorem BlockIndex.regular_read {chain : Chain} (limits : Limits) :
    Regular (Wire.read limits : Reader (BlockIndex chain)) :=
  Regular.uint32.bind fun _ => (chain.regular_readHeader limits).bind fun _ =>
    Regular.uint32.bind fun _ => (Regular.check _).bind fun _ =>
      (chain.regular_readAddon limits).bind fun _ => .pure _

theorem EntityKind.regular_read (kind : EntityKind) (limits : Limits) :
    Regular (Wire.read limits : Reader kind.Value) := by
  cases kind with
  | altBlock => exact AltBlock.regular_read limits
  | btcBlock => exact BtcBlock.regular_read limits
  | vbkBlock => exact VbkBlock.regular_read limits
  | address => exact Address.regular_read
  | coin => exact Coin.regular_read limits
  | output => exact Output.regular_read limits
  | publication => exact Publication.regular_read
  | btcTx => exact BtcTx.regular_read limits
  | transferTx => exact TransferTx.regular_read limits
  | proofTx => exact ProofTx.regular_read limits
  | packagePath => exact PackagePath.regular_read
  | atv => exact Atv.regular_read limits
  | vtb => exact Vtb.regular_read limits
  | popData => exact PopData.regular_read limits
  | altEndorsement => exact AltEndorsement.regular_read limits
  | vbkEndorsement => exact VbkEndorsement.regular_read limits
  | altPopState => exact PopState.regular_read (AltEndorsement.regular_read limits)
  | vbkPopState => exact PopState.regular_read (VbkEndorsement.regular_read limits)
  | payouts => exact Payouts.regular_read limits
  | btcAddon => exact BtcAddon.regular_read limits
  | vbkAddon => exact VbkAddon.regular_read limits
  | altAddon => exact AltAddon.regular_read limits
  | index chain => exact BlockIndex.regular_read limits

/-- The readers of a stream: one for every type with a form on the wire, and those that ask for
more than limits. -/
inductive StreamReader
  | entity (kind : EntityKind)
  | rawPath (subject : Hash)
  | path (subject : Hash)
  | endorsement (kind : EndorsementKind)

namespace StreamReader

abbrev Value : StreamReader → Type
  | entity kind => kind.Value
  | rawPath _ => MerklePath
  | path _ => MerklePath
  | endorsement _ => Endorsement

def read (limits : Limits) : (stream : StreamReader) → Reader stream.Value
  | entity kind => (Wire.read limits : Reader kind.Value)
  | rawPath subject => MerklePath.readRaw subject
  | path subject => MerklePath.read subject
  | endorsement kind => Endorsement.read kind limits

theorem regular_read (stream : StreamReader) (limits : Limits) : Regular (stream.read limits) := by
  cases stream with
  | entity kind => exact kind.regular_read limits
  | rawPath subject => exact MerklePath.regular_readRaw subject
  | path subject => exact MerklePath.regular_read subject
  | endorsement kind => exact Endorsement.regular_read kind limits

/-- What a run makes of an input, unless it lacks bytes, it makes of the input with anything behind
it. So a value needs every byte it consumes, and tolerates none behind them where it has to span
its input. -/
theorem self_delimiting (stream : StreamReader) (limits : Limits) (input : Bytes) :
    (¬ EndsEarly ((stream.read limits).run input).1 → ∀ suffix,
      (stream.read limits).run (input ++ suffix) = (stream.read limits).run input) ∧
    ∀ a consumed, (stream.read limits).run input = (.ok a, consumed) →
      consumed ≤ input.length ∧
      (∀ n < consumed, EndsEarly ((stream.read limits).run (input.take n)).1 ∧
        EndsEarly ((stream.read limits).whole .any (input.take n))) ∧
      ∀ suffix, suffix ≠ [] → (stream.read limits).whole .any (input.take consumed ++ suffix) =
        .error (.content (.trailing suffix.length)) := by
  have hreg := stream.regular_read limits
  refine ⟨fun hr suffix => hreg.run_append hr suffix, fun a consumed hr => ?_⟩
  obtain ⟨hle, hfront⟩ := hreg.run_eq_ok hr
  refine ⟨hle, fun n hn => ?_, fun suffix hne => whole_of_rest (hfront suffix) hne⟩
  have hearly := hreg.endsEarly_take hr hn
  exact ⟨hearly, endsEarly_whole hearly⟩

theorem self_delimiting_coin :
    EndsEarly (((entity .coin).read {}).whole .any [2, 3]) ∧
    ((entity .coin).read {}).whole .any [2, 3, 0xe8, 0] = .error (.content (.trailing 1)) := by
  have hrun : ((entity .coin).read {}).run [2, 3, 0xe8] = (.ok ⟨1000⟩, 3) := by rfl
  obtain ⟨-, hparts, hsuffix⟩ := (self_delimiting (entity .coin) {} [2, 3, 0xe8]).2 ⟨1000⟩ 3 hrun
  exact ⟨(hparts 2 (by decide)).2, hsuffix [0] (by decide)⟩

end StreamReader

end ProofOfProof
