import ProofOfProof.Wire.Range
import ProofOfProof.Wire.Reader
import ProofOfProof.Wire.Writer

/-! Integers behind a length byte. Written, an integer takes the fewest bytes that hold its
unsigned form, and never none; read, missing leading bytes count as zero, so only a numeral of
full width can be negative. Some fields write all bytes of their integers instead. -/

namespace ProofOfProof

namespace Writer

/-- The shortest numeral of the `width` low-order bytes of `n`, behind its length. -/
def numeral (width n : Nat) : Writer Unit := do
  let bytes := trimmed width n
  byte (UInt8.ofNat bytes.length)
  emit bytes

def integer64 (n : Int64) : Writer Unit := numeral 8 n.toUInt64.toNat

def integer32 (n : Int32) : Writer Unit := numeral 4 n.toUInt32.toNat

/-- All four bytes of a number, behind their length. -/
def fullInteger32 (n : Int32) : Writer Unit := do
  byte 4
  int32 n

end Writer

namespace Reader

/-- A numeral of at most `width` bytes behind its length, as an unsigned number. -/
def numeral (what : String) (width : Nat) (isWritten : Bytes → Bool) : Reader Nat := do
  let length ← byte
  check (checkRange what length.toNat 0 width)
  let digits ← bytes length.toNat
  checkSpelling what (isWritten digits)
  return ofBigEndian digits

def integer64 (what : String) : Reader Int64 :=
  (fun n => (UInt64.ofNat n).toInt64) <$> numeral what 8 isTrimmed

def integer32 (what : String) : Reader Int32 :=
  (fun n => (UInt32.ofNat n).toInt32) <$> numeral what 4 isTrimmed

/-- An integer that is written with all four of its bytes. -/
def fullInteger32 (what : String) : Reader Int32 :=
  (fun n => (UInt32.ofNat n).toInt32) <$> numeral what 4 fun digits => digits.length == 4

end Reader

end ProofOfProof
