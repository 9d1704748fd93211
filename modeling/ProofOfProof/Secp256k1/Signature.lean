import ProofOfProof.Bytes
import ProofOfProof.Secp256k1.Curve

/-! Signatures over the curve: their lenient DER form, the two values of `s` that verify alike, and
verification itself. -/

namespace ProofOfProof.Secp256k1

structure Signature where
  r : Nat
  s : Nat
  deriving DecidableEq, Repr

/-- The length in front of an integer: one byte below 128, or the count of the bytes that hold it.
Leading zero bytes are no part of the seven that fit. -/
def integerLength : Bytes → Option (Nat × Bytes)
  | [] => none
  | b :: bytes =>
    if b < 0x80 then some (b.toNat, bytes)
    else
      let count := b.toNat - 0x80
      let (front, rest) := bytes.splitAt count
      let digits := front.dropWhile (· == 0)
      if front.length < count ∨ 8 ≤ digits.length then none else some (ofBigEndian digits, rest)

def integer : Bytes → Option (Nat × Bytes)
  | 0x02 :: bytes => do
    let (length, rest) ← integerLength bytes
    let (front, rest) := rest.splitAt length
    if front.length < length then none else some (ofBigEndian front, rest)
  | _ => none

/-- The content of a sequence, whose own length is skipped and not looked at. -/
def sequenceContent : Bytes → Option Bytes
  | 0x30 :: b :: bytes =>
    if b < 0x80 then some bytes
    else
      let count := b.toNat - 0x80
      let (front, rest) := bytes.splitAt count
      if front.length < count then none else some rest
  | _ => none

namespace Signature

/-- Two integers below the group order; otherwise zeros, which no key has ever signed with. -/
def ofScalars (r s : Nat) : Signature := if r < n ∧ s < n then ⟨r, s⟩ else ⟨0, 0⟩

/-- A signature in lenient DER: padded integers, long lengths, wrong sequence lengths and trailing
bytes are all let through. -/
def ofLaxDer (bytes : Bytes) : Option Signature := do
  let content ← sequenceContent bytes
  let (r, rest) ← integer content
  let (s, _) ← integer rest
  return ofScalars r s

def isHigh (signature : Signature) : Bool := n / 2 < signature.s

/-- The signature with the lower of `s` and `n - s`. -/
def normalize (signature : Signature) : Signature :=
  if signature.isHigh then ⟨signature.r, n - signature.s⟩ else signature

end Signature

/-- A point in uncompressed form, or in the hybrid form whose tag also gives the parity of `y`. -/
def pointOfBytes : Bytes → Option Point
  | tag :: bytes =>
    if bytes.length = 64 then
      let x := ofBigEndian (bytes.take 32)
      let y := ofBigEndian (bytes.drop 32)
      let tagged := tag = 0x04 ∨ tag = 0x06 ∧ y % 2 = 0 ∨ tag = 0x07 ∧ y % 2 = 1
      if tagged ∧ x < p ∧ y < p ∧ isOnCurve x y then some (.affine x y) else none
    else none
  | [] => none

/-- Whether `key` signed the message; a signature with a high `s` never verifies. -/
def verify (message : Nat) (signature : Signature) (key : Point) : Bool :=
  if signature.r = 0 ∨ signature.s = 0 ∨ signature.isHigh then false
  else
    let w := inverse n signature.s
    let u := message * w % n
    let v := signature.r * w % n
    match (generator.multiply u).add (key.multiply v) with
    | .infinity => false
    | .affine x _ => x % n == signature.r

end ProofOfProof.Secp256k1
