import ProofOfProof.Payload.PopData
import ProofOfProof.Proofs.Transaction

/-! Payloads. An encoding gives back the payload it is of, wherever a reader's limits have room for
it. -/

namespace ProofOfProof

variable {spelling : Spelling} {input rest : Bytes} {limits : Limits}

/-- Whether no limit is above the one of the protocol. -/
structure Limits.InProtocol (limits : Limits) : Prop where
  contextBlocks : limits.contextBlocks ≤ maxContextBlocks
  vtbs : limits.vtbs ≤ maxVtbs
  atvs : limits.atvs ≤ maxAtvs
  btcContext : limits.btcContext ≤ maxBtcContext
  payouts : limits.payouts ≤ maxPayouts

theorem Limits.inProtocol_of_validate (h : limits.validate = .ok ()) : limits.InProtocol := by
  rw [validate] at h
  by_cases hinverted : limits.altHashMax < limits.altHashMin
  · rw [if_pos hinverted] at h
    cases h
  rw [if_neg hinverted] at h
  split at h
  · cases h
  · next hfind =>
    have hall := List.find?_eq_none.mp hfind
    simp only [upperBounds, List.forall_mem_cons, decide_eq_true_eq, Nat.not_lt] at hall
    obtain ⟨-, hcontext, hvtbs, hatvs, hbtc, hpayouts, -⟩ := hall
    exact ⟨hcontext, hvtbs, hatvs, hbtc, hpayouts⟩

namespace Atv

theorem inverts {atv : Atv} (h : atv.transaction.Shaped) :
    (Wire.read limits).Inverts (Wire.write atv) atv := by
  refine (Reader.Inverts.version _ atv.version).bind ?_
  refine (TransferTx.inverts h).bind ?_
  exact atv.path.inverts.bind ((atv.blockOfProof.inverts limits).last rfl)

theorem restores {atv : Atv} (h : Wire.read limits spelling input = .ok atv rest) :
    atv.transaction.Shaped ∧ (Wire.write atv).Restores (spelling = .written) input rest := by
  obtain ⟨version, _, hversion, h⟩ := Reader.bind_eq_ok.mp h
  obtain ⟨transaction, _, htransaction, h⟩ := Reader.bind_eq_ok.mp h
  obtain ⟨path, _, hpath, h⟩ := Reader.bind_eq_ok.mp h
  obtain ⟨blockOfProof, _, hblockOfProof, h⟩ := Reader.bind_eq_ok.mp h
  obtain ⟨rfl, rfl⟩ := Reader.pure_eq_ok.mp h
  obtain ⟨hshaped, hrestores⟩ := TransferTx.restores htransaction
  refine ⟨hshaped, (Writer.Restores.version hversion).bind ?_⟩
  exact hrestores.bind ((PackagePath.restores hpath).bind (VbkBlock.restores hblockOfProof))

end Atv

namespace Vtb

theorem inverts {vtb : Vtb} (h : vtb.transaction.Shaped) (hw : vtb.transaction.Within limits) :
    (Wire.read limits).Inverts (Wire.write vtb) vtb := by
  refine (Reader.Inverts.version _ vtb.version).bind ?_
  refine (ProofTx.inverts h hw).bind ?_
  exact vtb.path.inverts.bind ((vtb.containing.inverts limits).last rfl)

theorem restores (hl : limits.InProtocol) {vtb : Vtb}
    (h : Wire.read limits spelling input = .ok vtb rest) :
    vtb.transaction.Shaped ∧ vtb.transaction.Within limits ∧
      (Wire.write vtb).Restores (spelling = .written) input rest := by
  obtain ⟨version, _, hversion, h⟩ := Reader.bind_eq_ok.mp h
  obtain ⟨transaction, _, htransaction, h⟩ := Reader.bind_eq_ok.mp h
  obtain ⟨path, _, hpath, h⟩ := Reader.bind_eq_ok.mp h
  obtain ⟨containing, _, hcontaining, h⟩ := Reader.bind_eq_ok.mp h
  obtain ⟨rfl, rfl⟩ := Reader.pure_eq_ok.mp h
  obtain ⟨hshaped, hwithin, hrestores⟩ := ProofTx.restores hl.btcContext htransaction
  refine ⟨hshaped, hwithin, (Writer.Restores.version hversion).bind ?_⟩
  exact hrestores.bind ((PackagePath.restores hpath).bind (VbkBlock.restores hcontaining))

end Vtb

namespace PopData

/-- What readers take for granted in the transactions of a payload. -/
structure Shaped (pop : PopData) : Prop where
  vtbs : ∀ vtb ∈ pop.vtbs, vtb.transaction.Shaped
  atvs : ∀ atv ∈ pop.atvs, atv.transaction.Shaped

/-- Whether a chain lets payloads be as large. -/
structure Within (limits : Limits) (pop : PopData) : Prop where
  context : pop.context.length ≤ limits.contextBlocks
  vtbs : pop.vtbs.length ≤ limits.vtbs
  atvs : pop.atvs.length ≤ limits.atvs
  btcContext : ∀ vtb ∈ pop.vtbs, vtb.transaction.Within limits

theorem inverts {pop : PopData} (h : pop.Shaped) (hw : pop.Within limits) :
    (Wire.read limits).Inverts (Wire.write pop) pop := by
  refine (Reader.Inverts.version _ pop.version).bind ?_
  refine .limit fun hcontext => .limit fun hvtbs => .limit fun hatvs => ?_
  rw [maxContextBlocks] at hcontext
  rw [maxVtbs] at hvtbs
  rw [maxAtvs] at hatvs
  refine (Reader.Inverts.sequence (by omega) (Nat.zero_le _) hw.context
    fun block _ => block.inverts limits).bind ?_
  refine (Reader.Inverts.sequence (by omega) (Nat.zero_le _) hw.vtbs
    fun vtb hm => Vtb.inverts (h.vtbs vtb hm) (hw.btcContext vtb hm)).bind ?_
  exact (Reader.Inverts.sequence (by omega) (Nat.zero_le _) hw.atvs
    fun atv hm => Atv.inverts (h.atvs atv hm)).last rfl

theorem restores (hl : limits.InProtocol) {pop : PopData}
    (h : Wire.read limits spelling input = .ok pop rest) :
    pop.Shaped ∧ pop.Within limits ∧
      (Wire.write pop).Restores (spelling = .written) input rest := by
  obtain ⟨version, _, hversion, h⟩ := Reader.bind_eq_ok.mp h
  obtain ⟨context, _, hcontext, h⟩ := Reader.bind_eq_ok.mp h
  obtain ⟨vtbs, _, hvtbs, h⟩ := Reader.bind_eq_ok.mp h
  obtain ⟨atvs, _, hatvs, h⟩ := Reader.bind_eq_ok.mp h
  obtain ⟨rfl, rfl⟩ := Reader.pure_eq_ok.mp h
  have hcontextLe := (Reader.sequence_eq_ok.mp hcontext).1.2
  have hvtbsLe := (Reader.sequence_eq_ok.mp hvtbs).1.2
  have hatvsLe := (Reader.sequence_eq_ok.mp hatvs).1.2
  have hvtb : ∀ vtb ∈ vtbs, vtb.transaction.Shaped ∧ vtb.transaction.Within limits :=
    Reader.forall_mem_sequence hvtbs fun hv => (Vtb.restores hl hv).imp_right And.left
  have hatv : ∀ atv ∈ atvs, atv.transaction.Shaped :=
    Reader.forall_mem_sequence hatvs fun ha => (Atv.restores ha).1
  refine ⟨⟨fun vtb hm => (hvtb vtb hm).1, hatv⟩,
    ⟨hcontextLe, hvtbsLe, hatvsLe, fun vtb hm => (hvtb vtb hm).2⟩, ?_⟩
  refine (Writer.Restores.version hversion).bind ?_
  refine .limit (Nat.le_trans hcontextLe hl.contextBlocks) ?_
  refine .limit (Nat.le_trans hvtbsLe hl.vtbs) ?_
  refine .limit (Nat.le_trans hatvsLe hl.atvs) ?_
  refine (Writer.Restores.sequence hcontext VbkBlock.restores).bind ?_
  refine (Writer.Restores.sequence hvtbs fun hv => (Vtb.restores hl hv).2.2).bind ?_
  exact .sequence hatvs fun ha => (Atv.restores ha).2

/-- A payload of the shape that readers fix comes back from its encoding in all of its parts, as
long as it keeps within the limits that they are given. -/
theorem decode_of_encode {pop : PopData} {bytes : Bytes} (h : encode pop = .ok bytes)
    (hs : pop.Shaped) (hw : pop.Within limits) : decode limits bytes = .ok pop := by
  have hread := inverts hs hw bytes (Writer.toBytes_eq_ok.mp h) .any []
  rw [List.append_nil] at hread
  exact Reader.whole_eq_ok.mpr hread

/-- A payload with one item in each section. -/
def sample : PopData :=
  let address := Address.ofPublicKey [1]
  let block : VbkBlock := ⟨5, 2, .zero 12, .zero 9, .zero 9, .zero 16, 1000, 7, 1099511627775⟩
  let path : PackagePath := ⟨0, 1, .zero 32, [.zero 32, .zero 32]⟩
  let publication : Publication := ⟨-1, [1, 2], [3], []⟩
  let transfer : TransferTx :=
    ⟨⟨some 170, 1⟩, address, ⟨1000⟩, [⟨address, ⟨0⟩⟩], 7, publication, [4], [5]⟩
  let btcTx : BtcTx := ⟨[6, 7, 8]⟩
  let proof : ProofTx := ⟨⟨none, 2⟩, address, block, btcTx, ⟨3, btcTx.hash, [.zero 32]⟩, .empty,
    [.empty, .empty], [], []⟩
  ⟨1, [block], [⟨1, proof, path, block⟩], [⟨1, transfer, path, block⟩]⟩

theorem decode_of_encode_sample :
    ∃ bytes, encode sample = .ok bytes ∧ decode {} bytes = .ok sample := by
  have hok : (encode sample).toOption.isSome = true := by decide +kernel
  cases h : encode sample with
  | error fault =>
    rw [h] at hok
    cases hok
  | ok bytes =>
    refine ⟨bytes, rfl, decode_of_encode h ⟨?_, ?_⟩ ⟨by decide, by decide, by decide, ?_⟩⟩
    · intro vtb hm
      obtain rfl := List.mem_singleton.mp hm
      exact ⟨rfl, rfl⟩
    · intro atv hm
      obtain rfl := List.mem_singleton.mp hm
      refine ⟨rfl, fun part hpart => ?_⟩
      cases hpart
      decide
    · intro vtb hm
      obtain rfl := List.mem_singleton.mp hm
      unfold ProofTx.Within
      decide

end PopData

end ProofOfProof
