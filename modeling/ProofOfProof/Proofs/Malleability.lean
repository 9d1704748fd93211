import ProofOfProof.Transaction.Signed

/-! A signature over the curve has a twin, with the other sign of `s`, that every key accepts or
refuses along with it. Verification takes neither for the other, and refuses one of them whatever
was signed; the check of a transaction normalizes first, and so is blind to which twin it is given.
It is as blind to what stands in front of the point in a key. -/

namespace ProofOfProof

namespace Secp256k1

/-- The signature with the other sign of `s`. -/
def Signature.twin (signature : Signature) : Signature := ⟨signature.r, n - signature.s⟩

variable {signature : Signature}

/-- The order of the group is odd, so that no `s` is its own mirror image. -/
theorem Signature.isHigh_twin (h : signature.s ≤ n) :
    signature.twin.isHigh = !signature.isHigh := by
  have hodd : n % 2 = 1 := rfl
  change decide (n / 2 < n - signature.s) = !decide (n / 2 < signature.s)
  rw [← decide_not, decide_eq_decide]
  omega

theorem Signature.normalize_twin (h : signature.s ≤ n) :
    signature.twin.normalize = signature.normalize := by
  have hback : signature.twin.twin = signature := by
    cases signature
    simp only [twin, mk.injEq, true_and] at h ⊢
    omega
  rw [normalize, normalize, isHigh_twin h]
  cases signature.isHigh with
  | true => rfl
  | false => exact hback

theorem Signature.le_of_ofLaxDer {bytes : Bytes} (h : ofLaxDer bytes = some signature) :
    signature.s ≤ n := by
  simp only [ofLaxDer, Option.bind_eq_bind, Option.bind_eq_some_iff] at h
  obtain ⟨content, -, ⟨r, rest⟩, -, ⟨s, more⟩, -, hs⟩ := h
  cases hs
  unfold ofScalars
  split
  · next hlt => exact Nat.le_of_lt hlt.2
  · decide

theorem verify_of_isHigh (h : signature.isHigh = true) (message : Nat) (key : Point) :
    verify message signature key = false := by
  rw [verify, if_pos (.inr (.inr h))]

/-- Verification by itself takes one of the twins at most, so it is the lower one that it took
where it takes what is normalized. -/
theorem verify_normalize (h : signature.s ≤ n) (message : Nat) (key : Point) :
    verify message signature.normalize key = true ↔
      verify message signature key ≠ verify message signature.twin key := by
  have htwin := Signature.isHigh_twin h
  rw [Signature.normalize]
  cases hhigh : signature.isHigh with
  | true =>
    rw [verify_of_isHigh hhigh, if_pos rfl, ← Signature.twin]
    simp
  | false =>
    rw [hhigh] at htwin
    rw [verify_of_isHigh htwin]
    simp

end Secp256k1

open Secp256k1

variable {txHash signature publicKey key : Bytes} {sig : Signature}

theorem keyPoint_eq_none (h : publicKey.length < 65) : keyPoint publicKey = none := by
  rw [keyPoint, if_pos h]

theorem keyPoint_of_le (h : 65 ≤ publicKey.length) :
    keyPoint publicKey = pointOfBytes (publicKey.drop (publicKey.length - 65)) := by
  rw [keyPoint, if_neg (by omega)]

theorem verifySignature_eq_of_keyPoint (h : keyPoint publicKey = keyPoint key) :
    verifySignature txHash signature publicKey = verifySignature txHash signature key := by
  rw [verifySignature, verifySignature, h]

/-- Nothing is seen of a signature but what is left of it once it is normalized. -/
theorem verifySignature_eq_true_iff (h : Signature.ofLaxDer signature = some sig) :
    verifySignature txHash signature publicKey = true ↔ ∃ point, keyPoint publicKey = some point ∧
      verify (ofBigEndian (sha256 txHash).val % n) sig.normalize point = true := by
  rw [verifySignature, h]
  cases keyPoint publicKey <;> simp

/-- Byte strings that are read as the twins of one signature are both accepted or both refused,
though where they are accepted it is one of the twins, and not the other, that verification takes by
itself. What a key has in front of its last 65 bytes does not matter either; a key that has fewer
accepts nothing. -/
theorem verifySignature_blind (txHash : Bytes) :
    (∀ (publicKey a b : Bytes) (r s : Nat), Signature.ofLaxDer a = some ⟨r, s⟩ →
      Signature.ofLaxDer b = some ⟨r, n - s⟩ →
      verifySignature txHash a publicKey = verifySignature txHash b publicKey) ∧
    (∀ (publicKey a : Bytes) (r s : Nat), Signature.ofLaxDer a = some ⟨r, s⟩ →
      (verifySignature txHash a publicKey = true ↔ ∃ point, keyPoint publicKey = some point ∧
        let message := ofBigEndian (sha256 txHash).val % n
        verify message ⟨r, s⟩ point ≠ verify message ⟨r, n - s⟩ point)) ∧
    (∀ signature publicKey key : Bytes, 65 ≤ publicKey.length → 65 ≤ key.length →
      publicKey.drop (publicKey.length - 65) = key.drop (key.length - 65) →
      verifySignature txHash signature publicKey = verifySignature txHash signature key) ∧
    ∀ signature publicKey : Bytes, publicKey.length < 65 →
      verifySignature txHash signature publicKey = false := by
  refine ⟨fun publicKey a b r s ha hb => ?_, fun publicKey a r s ha => ?_,
    fun signature publicKey key hp hk h => ?_, fun signature publicKey h => ?_⟩
  · have htwin : (⟨r, n - s⟩ : Signature).normalize = (⟨r, s⟩ : Signature).normalize :=
      Signature.normalize_twin (Signature.le_of_ofLaxDer ha)
    rw [Bool.eq_iff_iff, verifySignature_eq_true_iff ha, verifySignature_eq_true_iff hb, htwin]
  · have hle := Signature.le_of_ofLaxDer ha
    simp only [verifySignature_eq_true_iff ha, verify_normalize hle]
    exact Iff.rfl
  · apply verifySignature_eq_of_keyPoint
    rw [keyPoint_of_le hp, keyPoint_of_le hk, h]
  · rw [verifySignature, keyPoint_eq_none h]

section Twins

/-! The message over the hash of zeros, taken for `r` and for `s` alike. Verification then adds the
key to the generator, so it accepts the key that lacks just the generator of a point with this
`r`. -/

def twinScalar : Nat := 0x66687aadf862bd776c8fc18b8e9f8e20089714856ee233b3902a591d0d5f2925

def twinPoint : Bytes :=
  4 :: bigEndian 32 0x515bca6a68438358e09d0267548715da15589e142ee3a6f439ebc7cb86a5e980 ++
    bigEndian 32 0x4bd494a297ab4951bf52436baa4c9a261bdc428f4c6463bedca2c5e795b17c70

/-- The twin in the lower half, with a zero too many in front. -/
def lowerTwin : Bytes :=
  0x30 :: 69 :: 0x02 :: 32 :: bigEndian 32 twinScalar ++ 0x02 :: 33 :: bigEndian 33 twinScalar

/-- The twin in the upper half, with a long length of the sequence. -/
def upperTwin : Bytes :=
  0x30 :: 0x81 :: 69 :: 0x02 :: 32 :: bigEndian 32 twinScalar ++
    0x02 :: 33 :: bigEndian 33 (n - twinScalar)

theorem verifySignature_blind_twins :
    verifySignature (Fixed.zero 32).val lowerTwin twinPoint = true ∧
    verifySignature (Fixed.zero 32).val upperTwin twinPoint = true ∧
    (∃ point, keyPoint twinPoint = some point ∧
      let message := ofBigEndian (sha256 (Fixed.zero 32).val).val % n
      verify message ⟨twinScalar, n - twinScalar⟩ point ≠
        verify message ⟨twinScalar, n - (n - twinScalar)⟩ point) ∧
    verifySignature (Fixed.zero 32).val upperTwin (List.replicate 23 7 ++ twinPoint) = true ∧
    verifySignature (Fixed.zero 32).val upperTwin twinPoint.tail = false := by
  obtain ⟨htwins, hpoint, hprefix, hshort⟩ := verifySignature_blind (Fixed.zero 32).val
  have hlower : Signature.ofLaxDer lowerTwin = some ⟨twinScalar, twinScalar⟩ := by
    decide +kernel
  have hupper : Signature.ofLaxDer upperTwin = some ⟨twinScalar, n - twinScalar⟩ := by
    decide +kernel
  have hfirst : verifySignature (Fixed.zero 32).val lowerTwin twinPoint = true := by
    decide +kernel
  have hsecond : verifySignature (Fixed.zero 32).val upperTwin twinPoint = true := by
    rw [← htwins twinPoint lowerTwin upperTwin twinScalar twinScalar hlower hupper, hfirst]
  have hlonger := hprefix upperTwin twinPoint (List.replicate 23 7 ++ twinPoint) (by decide)
    (by decide) (by decide +kernel)
  exact ⟨hfirst, hsecond, (hpoint twinPoint upperTwin _ _ hupper).mp hsecond,
    hlonger.symm.trans hsecond, hshort upperTwin twinPoint.tail (by decide)⟩

end Twins

end ProofOfProof
