import ProofOfProof.Hash
import ProofOfProof.Secp256k1.Signature
import ProofOfProof.Wire.Field

/-! The envelope of a VeriBlock transaction: its raw body, a signature and a public key. The
signature is over the hash of the body. -/

namespace ProofOfProof

/-- A raw body with its signature and the X.509 form of the key. -/
structure Signed where
  body : Bytes
  signature : Bytes
  publicKey : Bytes
  deriving DecidableEq

namespace Signed

def write (signed : Signed) : Writer Unit := do
  .check (checkLimit "signature" signed.signature.length maxSignatureSize)
  .check (checkLimit "public-key" signed.publicKey.length maxPublicKeySize)
  .longField signed.body
  .shortField signed.signature
  .shortField signed.publicKey

def read : Reader Signed := do
  let body ← .longField "tx-raw" 0 maxBodySize
  let signature ← .shortField "signature" 0 maxSignatureSize
  let publicKey ← .shortField "public-key" 0 maxPublicKeySize
  return ⟨body, signature, publicKey⟩

end Signed

/-- The point at the end of an X.509 key, if the key is long enough to hold one. -/
def keyPoint (publicKey : Bytes) : Option Secp256k1.Point :=
  let size := publicKey.length
  if size < 65 then none else Secp256k1.pointOfBytes (publicKey.drop (size - 65))

/-- Whether `signature` is one of the key over a transaction hash. Either value of `s` is accepted:
the signature is normalized before it is verified. -/
def verifySignature (txHash signature publicKey : Bytes) : Bool :=
  match keyPoint publicKey, Secp256k1.Signature.ofLaxDer signature with
  | some key, some sig =>
    Secp256k1.verify (ofBigEndian (sha256 txHash).val % Secp256k1.n) sig.normalize key
  | _, _ => false

end ProofOfProof
