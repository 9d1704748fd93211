import ProofOfProof.Fault

/-! The range every length and count must lie in. -/

namespace ProofOfProof

/-- A negative length is out of every range. -/
def checkRange (what : String) (got : Int) (min max : Nat) : Except Fault Unit :=
  if got < min ∨ max < got then .error (.outOfRange what got min max) else .ok ()

/-- Refuses to write what no reader would take back. -/
def checkLimit (what : String) (length max : Nat) : Except Fault Unit :=
  if max < length then .error (.constraint (.oversized what length max)) else .ok ()

theorem checkRange_eq_ok_iff {what : String} {got : Int} {min max : Nat} {u : Unit} :
    checkRange what got min max = .ok u ↔ (min : Int) ≤ got ∧ got ≤ max := by
  unfold checkRange
  split
  · simp; omega
  · simp; omega

theorem checkLimit_eq_ok_iff {what : String} {length max : Nat} {u : Unit} :
    checkLimit what length max = .ok u ↔ length ≤ max := by
  unfold checkLimit
  split
  · simp; omega
  · simp; omega

end ProofOfProof
