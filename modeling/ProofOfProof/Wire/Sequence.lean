import ProofOfProof.Wire.Integer

/-! Lists behind their count. The count is checked before any item is read. -/

namespace ProofOfProof

/-- The count, then every item in order. -/
def Writer.sequence {α : Type} (items : List α) (item : α → Writer Unit) : Writer Unit := do
  integer64 (UInt64.ofNat items.length).toInt64
  each items item

/-- As many items as a count says, which has to be in range; the first item that fails makes the
whole fail. -/
def Reader.counted {α : Type} (count : Int32) (what : String) (min max : Nat) (item : Reader α) :
    Reader (List α) := do
  check (checkRange what count.toInt min max)
  replicate count.toInt.toNat item

/-- A count, then that many items. -/
def Reader.sequence {α : Type} (what : String) (min max : Nat) (item : Reader α) :
    Reader (List α) := do
  let count ← integer32 what
  counted count what min max item

end ProofOfProof
