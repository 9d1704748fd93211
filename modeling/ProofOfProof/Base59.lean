import ProofOfProof.Fault
import ProofOfProof.Radix.Alphabet

/-! Texts in base 59: base 58 with one more digit, so that a text can end in `0`. -/

namespace ProofOfProof.Base59

def encode (bytes : Bytes) : String := String.ofList (base59.encode bytes)

/-- The bytes of a text. A fault shows the first byte, in UTF-8, of the first foreign character. -/
def decode (text : String) : Except Fault Bytes :=
  match base59.decode text.toList with
  | .error c => .error (.content (.base59Character ((String.utf8EncodeChar c).headD 0)))
  | .ok bytes => .ok bytes

theorem decode_eq_ok {text : String} {bytes : Bytes} :
    decode text = .ok bytes ↔ base59.decode text.toList = .ok bytes := by
  cases h : base59.decode text.toList <;> simp [decode, h]

def accepts (text : String) : Bool := base59.contains text.toList

end ProofOfProof.Base59
