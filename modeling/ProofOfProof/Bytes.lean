/-! Byte strings, byte strings of a fixed width, and the two ways to lay a number out in bytes. -/

namespace ProofOfProof

abbrev Bytes := List UInt8

/-- The byte strings of exactly `n` bytes. -/
abbrev Fixed (n : Nat) := {bytes : Bytes // bytes.length = n}

abbrev Hash := Fixed 32

namespace Fixed

def zero (n : Nat) : Fixed n := ⟨List.replicate n 0, List.length_replicate⟩

instance {n : Nat} : Inhabited (Fixed n) := ⟨zero n⟩

def reverse {n : Nat} (bytes : Fixed n) : Fixed n :=
  ⟨bytes.val.reverse, by rw [List.length_reverse, bytes.property]⟩

@[simp] theorem reverse_reverse {n : Nat} (bytes : Fixed n) : bytes.reverse.reverse = bytes :=
  Subtype.ext (List.reverse_reverse bytes.val)

/-- The first `n` bytes of a string that has at least as many. -/
def first (n : Nat) {m : Nat} (bytes : Fixed m) (h : n ≤ m) : Fixed n :=
  ⟨bytes.val.take n, by rw [List.length_take, bytes.property]; omega⟩

/-- The last `n` bytes of a string that has at least as many. -/
def last (n : Nat) {m : Nat} (bytes : Fixed m) (h : n ≤ m) : Fixed n :=
  ⟨bytes.val.drop (m - n), by rw [List.length_drop, bytes.property]; omega⟩

def ofBytes? (n : Nat) (bytes : Bytes) : Option (Fixed n) :=
  if h : bytes.length = n then some ⟨bytes, h⟩ else none

end Fixed

/-- The `width` low-order bytes of `n`, the most significant one first. -/
def bigEndian : Nat → Nat → Bytes
  | 0, _ => []
  | width + 1, n => bigEndian width (n / 256) ++ [UInt8.ofNat n]

@[simp] theorem length_bigEndian (width n : Nat) : (bigEndian width n).length = width := by
  induction width generalizing n with
  | zero => rfl
  | succ width ih => simp [bigEndian, ih]

/-- The number a byte string spells in radix 256, the most significant digit first. -/
def ofBigEndian (bytes : Bytes) : Nat :=
  bytes.foldl (fun n b => n * 256 + b.toNat) 0

theorem ofBigEndian_append_singleton (bytes : Bytes) (b : UInt8) :
    ofBigEndian (bytes ++ [b]) = ofBigEndian bytes * 256 + b.toNat := by
  simp [ofBigEndian]

/-- The `width` low-order bytes of `n`, the least significant one first. -/
def littleEndian (width n : Nat) : Bytes := (bigEndian width n).reverse

def ofLittleEndian (bytes : Bytes) : Nat := ofBigEndian bytes.reverse

/-- A big-endian numeral without its leading zero bytes; the last byte always stays. -/
def trim : Bytes → Bytes
  | 0 :: b :: bytes => trim (b :: bytes)
  | bytes => bytes

/-- Whether a big-endian numeral is the shortest one of its number. -/
def isTrimmed (bytes : Bytes) : Bool := !bytes.isEmpty && trim bytes == bytes

/-- The shortest big-endian numeral of the `width` low-order bytes of `n`. -/
def trimmed (width n : Nat) : Bytes := trim (bigEndian width n)

end ProofOfProof
