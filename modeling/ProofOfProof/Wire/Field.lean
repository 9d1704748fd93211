import ProofOfProof.Wire.Integer

/-! Byte strings behind their length: one byte of it for short fields, an integer for long ones.
A length is checked before its bytes are taken. -/

namespace ProofOfProof

namespace Writer

/-- A field of at most 255 bytes behind its length byte. -/
def shortField (bytes : Bytes) : Writer Unit := do
  check (checkLimit "single-byte-length value" bytes.length 255)
  byte (UInt8.ofNat bytes.length)
  emit bytes

/-- A field behind its length as an integer, which has to fit a signed 32-bit word. -/
def longField (bytes : Bytes) : Writer Unit := do
  let length := bytes.length
  if 2147483647 < length then
    fail (.constraint (.lengthBeyondWord length))
  else
    integer32 (UInt32.ofNat length).toInt32
    emit bytes

end Writer

namespace Reader

def shortField (what : String) (min max : Nat) : Reader Bytes := do
  let length ← byte
  check (checkRange what length.toNat min max)
  bytes length.toNat

/-- A short field whose length byte must be `n`. -/
def shortFieldOf (n : Nat) (what : String) : Reader (Fixed n) := do
  let length ← byte
  check (checkRange what length.toNat n n)
  take n

def longField (what : String) (min max : Nat) : Reader Bytes := do
  let length ← integer32 what
  check (checkRange what length.toInt min max)
  bytes length.toInt.toNat

end Reader

end ProofOfProof
