/-! The curve y² = x³ + 7 over the field of `p` elements, with its group of prime order `n`. -/

namespace ProofOfProof.Secp256k1

/-- The size of the field. -/
def p : Nat := 0xfffffffffffffffffffffffffffffffffffffffffffffffffffffffefffffc2f

/-- The order of the group. -/
def n : Nat := 0xfffffffffffffffffffffffffffffffebaaedce6af48a03bbfd25e8cd0364141

inductive Point
  | infinity
  | affine (x y : Nat)
  deriving DecidableEq, Repr

def generator : Point :=
  .affine 0x79be667ef9dcbbac55a06295ce870b07029bfcdb2dce28d959f2815b16f81798
    0x483ada7726a3c4655da4fbfc0e1108a8fd17b448a68554199c47d08ffb10d4b8

/-- `base ^ exponent` modulo `m`. -/
def powMod (m base exponent : Nat) : Nat :=
  if exponent = 0 then 1 % m
  else
    let half := powMod m base (exponent / 2)
    let square := half * half % m
    if exponent % 2 = 1 then square * base % m else square
  termination_by exponent
  decreasing_by omega

def inverse (prime a : Nat) : Nat := powMod prime a (prime - 2)

def subtract (a b : Nat) : Nat := (a + (p - b % p)) % p

def isOnCurve (x y : Nat) : Bool := y * y % p == (x * x * x + 7) % p

namespace Point

/-- The third point on a line of the given slope, mirrored. -/
def chord (slope x₁ y₁ x₂ : Nat) : Point :=
  let x := subtract (subtract (slope * slope) x₁) x₂
  .affine x (subtract (slope * subtract x₁ x) y₁)

def double : Point → Point
  | infinity => infinity
  | affine x y =>
    if y % p = 0 then infinity
    else chord (3 * x * x * inverse p (2 * y) % p) x y x

def add : Point → Point → Point
  | infinity, b => b
  | a, infinity => a
  | affine x₁ y₁, affine x₂ y₂ =>
    if x₁ = x₂ then
      if y₁ = y₂ then double (affine x₁ y₁) else infinity
    else chord (subtract y₂ y₁ * inverse p (subtract x₂ x₁) % p) x₁ y₁ x₂

/-- The sum of `k` copies of a point. -/
def multiply (k : Nat) (point : Point) : Point :=
  if k = 0 then infinity
  else
    let half := double (multiply (k / 2) point)
    if k % 2 = 1 then add half point else half
  termination_by k
  decreasing_by omega

end Point

end ProofOfProof.Secp256k1
