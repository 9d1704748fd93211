import ProofOfProof.Payload.Atv
import ProofOfProof.Payload.Vtb
import ProofOfProof.Proofs.Ascent
import ProofOfProof.Proofs.Separation

/-! What a path proves. At one place under one root there is one transaction, unless the two checks
themselves hash strings that collide. -/

namespace ProofOfProof

theorem decide_hash_eq_ok {body : Except Fault Bytes} {p : Hash → Prop} [DecidablePred p] :
    (fun hash => decide (p hash)) <$> (sha256 <$> body) = .ok true ↔
      ∃ raw, body = .ok raw ∧ p (sha256 raw) := by
  cases body with
  | error fault => simp
  | ok raw => simp

theorem Atv.isPathValid_eq_ok {atv : Atv} : atv.isPathValid = .ok true ↔ ∃ raw,
    atv.transaction.raw = .ok raw ∧ atv.path.subject = sha256 raw ∧
      atv.path.root = atv.blockOfProof.merkleRoot :=
  decide_hash_eq_ok

theorem Vtb.isPathValid_eq_ok {vtb : Vtb} : vtb.isPathValid = .ok true ↔ ∃ raw,
    vtb.transaction.raw = .ok raw ∧ vtb.path.subject = sha256 raw ∧
      vtb.path.root = vtb.containing.merkleRoot :=
  decide_hash_eq_ok

namespace PackagePath

/-- A collision in the checks of two bodies against their paths: among all of the strings, or of the
part of the last hashes that makes the root. -/
def Collides (a b : PackagePath) (raw raw' : Bytes) : Prop :=
  Collision sha256 (raw :: raw' :: (a.strings ++ b.strings)) ∨ LastCollision a b

/-- What holds of two bodies that are one body holds of those that two paths lead from. -/
theorem same_or_collides {a b : PackagePath} {body body' : Except Fault Bytes} {root : Fixed 16}
    {same : Prop} (hroute : SameRoute a b)
    (ha : ∃ raw, body = .ok raw ∧ a.subject = sha256 raw ∧ a.root = root)
    (hb : ∃ raw, body' = .ok raw ∧ b.subject = sha256 raw ∧ b.root = root)
    (hsame : ∀ raw, body = .ok raw → body' = .ok raw → same) :
    ∃ raw raw', body = .ok raw ∧ body' = .ok raw' ∧ (same ∨ Collides a b raw raw') := by
  obtain ⟨raw, hraw, hsubject, hroot⟩ := ha
  obtain ⟨raw', hraw', hsubject', hroot'⟩ := hb
  refine ⟨raw, raw', hraw, hraw', ?_⟩
  have hcase : raw = raw' ∨ Collides a b raw raw' := by
    refine eq_or_collision fun all h hsa hsb => ?_
    rw [← hsubject, ← hsubject']
    exact subject_eq_of_root h hsa hsb hroute (hroot.trans hroot'.symm)
  rcases hcase with rfl | hcollides
  · exact .inl (hsame raw hraw hraw')
  · exact .inr hcollides

end PackagePath

theorem MerklePath.eq_or_collides {a b : MerklePath} {tx tx' : Bytes} (hindex : a.index = b.index)
    (hlength : a.layers.length = b.layers.length) (ha : a.subject = sha256d tx)
    (hb : b.subject = sha256d tx') (hroot : a.root = b.root) :
    tx = tx' ∨ Collision sha256d (tx :: tx' :: (a.strings ++ b.strings)) := by
  rw [← or_false (Collision _ _)]
  refine eq_or_collision fun all h hsa hsb => .inl ?_
  rw [← ha, ← hb]
  exact subject_eq_of_root h hsa hsb hindex hlength hroot

/-- Two valid paths to one place lead from one transaction, in ATVs, VTBs and proofs alike. -/
theorem transaction_eq_of_isPathValid :
    (∀ a b : Atv, a.transaction.tag.type = TypeTag.transfer →
      b.transaction.tag.type = TypeTag.transfer → a.isPathValid = .ok true →
      b.isPathValid = .ok true → a.blockOfProof.merkleRoot = b.blockOfProof.merkleRoot →
      a.path.SameRoute b.path → ∃ raw raw', a.transaction.raw = .ok raw ∧
        b.transaction.raw = .ok raw' ∧
          (a.transaction.unsigned = b.transaction.unsigned ∨ a.path.Collides b.path raw raw')) ∧
    (∀ a b : Vtb, a.transaction.tag.type = TypeTag.proof → b.transaction.tag.type = TypeTag.proof →
      a.isPathValid = .ok true → b.isPathValid = .ok true →
      a.containing.merkleRoot = b.containing.merkleRoot → a.path.SameRoute b.path →
      ∃ raw raw', a.transaction.raw = .ok raw ∧ b.transaction.raw = .ok raw' ∧
        (a.transaction.bare = b.transaction.bare ∨ a.path.Collides b.path raw raw')) ∧
    ∀ a b : ProofTx, a.isPathValid = true → b.isPathValid = true →
      a.blockOfProof.merkleRoot = b.blockOfProof.merkleRoot → a.path.index = b.path.index →
      a.path.layers.length = b.path.layers.length →
      a.btcTx.bytes = b.btcTx.bytes ∨ Collision sha256d
        (a.btcTx.bytes :: b.btcTx.bytes :: (a.path.strings ++ b.path.strings)) := by
  refine ⟨fun a b hta htb ha hb hroots hroute => ?_, fun a b hta htb ha hb hroots hroute => ?_,
    fun a b ha hb hroots hindex hlength => ?_⟩
  · have hleads := Atv.isPathValid_eq_ok.mp ha
    rw [hroots] at hleads
    exact PackagePath.same_or_collides hroute hleads (Atv.isPathValid_eq_ok.mp hb) fun _ =>
      (TransferTx.separates_raw hta htb).eq_of_toBytes
  · have hleads := Vtb.isPathValid_eq_ok.mp ha
    rw [hroots] at hleads
    exact PackagePath.same_or_collides hroute hleads (Vtb.isPathValid_eq_ok.mp hb) fun _ =>
      (ProofTx.separates_raw hta htb).eq_of_toBytes
  · obtain ⟨hsubject, hroot⟩ := of_decide_eq_true ha
    obtain ⟨hsubject', hroot'⟩ := of_decide_eq_true hb
    rw [hroots, ← hroot'] at hroot
    exact MerklePath.eq_or_collides hindex hlength hsubject hsubject' hroot

section Samples

def TransferTx.sample : TransferTx :=
  ⟨⟨none, 1⟩, Address.ofPublicKey [1], ⟨1000⟩, [], 7, ⟨5, [1], [2], [3]⟩, [], []⟩

def ProofTx.sample : ProofTx :=
  let btcTx : BtcTx := ⟨[6, 7, 8]⟩
  let path : MerklePath := ⟨1, btcTx.hash, [.zero 32]⟩
  ⟨⟨none, 2⟩, Address.ofPublicKey [1], ⟨5, 2, .zero 12, .zero 9, .zero 9, .zero 16, 0, 0, 0⟩, btcTx,
    path, { BtcBlock.empty with merkleRoot := path.root }, [], [], []⟩

def PackagePath.sample (raw : Bytes) : PackagePath := ⟨1, 0, sha256 raw, [.zero 32, .zero 32]⟩

def VbkBlock.under (path : PackagePath) : VbkBlock :=
  ⟨5, 2, .zero 12, .zero 9, .zero 9, path.root, 0, 0, 0⟩

def Atv.sample (raw signature : Bytes) : Atv :=
  ⟨1, { TransferTx.sample with signature := signature }, .sample raw, .under (.sample raw)⟩

def Vtb.sample (raw signature : Bytes) : Vtb :=
  ⟨1, { ProofTx.sample with signature := signature }, .sample raw, .under (.sample raw)⟩

theorem TransferTx.raw_signed (tx : TransferTx) (signature : Bytes) :
    { tx with signature := signature }.raw = tx.raw := rfl

theorem ProofTx.raw_signed (tx : ProofTx) (signature : Bytes) :
    { tx with signature := signature }.raw = tx.raw := rfl

theorem transaction_eq_of_isPathValid_sample :
    (∃ raw body body', (Atv.sample raw []).transaction.raw = .ok body ∧
      (Atv.sample raw [1]).transaction.raw = .ok body' ∧
        ((Atv.sample raw []).transaction.unsigned = (Atv.sample raw [1]).transaction.unsigned ∨
          (Atv.sample raw []).path.Collides (Atv.sample raw [1]).path body body')) ∧
    (∃ raw body body', (Vtb.sample raw []).transaction.raw = .ok body ∧
      (Vtb.sample raw [1]).transaction.raw = .ok body' ∧
        ((Vtb.sample raw []).transaction.bare = (Vtb.sample raw [1]).transaction.bare ∨
          (Vtb.sample raw []).path.Collides (Vtb.sample raw [1]).path body body')) ∧
    ∃ tx, tx = { ProofTx.sample with signature := [1] } ∧
      (ProofTx.sample.btcTx.bytes = tx.btcTx.bytes ∨
        Collision sha256d (ProofTx.sample.btcTx.bytes :: tx.btcTx.bytes ::
          (ProofTx.sample.path.strings ++ tx.path.strings))) := by
  obtain ⟨hatv, hvtb, hproof⟩ := transaction_eq_of_isPathValid
  obtain ⟨raw, hraw⟩ : ∃ raw, TransferTx.sample.raw = .ok raw := exists_eq_ok (by decide +kernel)
  obtain ⟨raw', hraw'⟩ : ∃ raw, ProofTx.sample.raw = .ok raw := exists_eq_ok (by decide +kernel)
  have hvalid (signature : Bytes) : (Atv.sample raw signature).isPathValid = .ok true :=
    Atv.isPathValid_eq_ok.mpr ⟨raw, (TransferTx.raw_signed _ signature).trans hraw, rfl, rfl⟩
  have hvalid' (signature : Bytes) : (Vtb.sample raw' signature).isPathValid = .ok true :=
    Vtb.isPathValid_eq_ok.mpr ⟨raw', (ProofTx.raw_signed _ signature).trans hraw', rfl, rfl⟩
  have hroute (body : Bytes) : (PackagePath.sample body).SameRoute (.sample body) :=
    ⟨rfl, rfl, rfl, List.cons_ne_nil _ _⟩
  refine ⟨⟨raw, ?_⟩, ⟨raw', ?_⟩, _, rfl, ?_⟩
  · exact hatv _ _ rfl rfl (hvalid []) (hvalid [1]) rfl (hroute raw)
  · exact hvtb _ _ rfl rfl (hvalid' []) (hvalid' [1]) rfl (hroute raw')
  · exact hproof _ _ (decide_eq_true ⟨rfl, rfl⟩) (decide_eq_true ⟨rfl, rfl⟩) rfl rfl rfl

end Samples

end ProofOfProof
