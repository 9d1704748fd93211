import ProofOfProof.Address

/-! Amounts, and the outputs that pay them. -/

namespace ProofOfProof

/-- An amount in atomic units. -/
structure Coin where
  units : Int64
  deriving DecidableEq, Repr

instance : Wire Coin where
  write coin := .integer64 coin.units
  read _ := Coin.mk <$> .integer64 "coin"

structure Output where
  address : Address
  coin : Coin
  deriving DecidableEq

instance : Wire Output where
  write output := do
    Wire.write output.address
    Wire.write output.coin
  read limits := do
    let address ← Wire.read limits
    let coin ← Wire.read limits
    return ⟨address, coin⟩

end ProofOfProof
