/-! Hexadecimal numerals, and the quoted form of one byte, as they appear in messages. -/

namespace ProofOfProof

/-- A lowercase hexadecimal numeral behind `0x`, with at least `digits` digits. -/
def hexNumeral (digits n : Nat) : String :=
  let shown := Nat.toDigits 16 n
  "0x" ++ String.ofList (List.replicate (digits - shown.length) '0' ++ shown)

/-- Bytes that no printable Latin-1 character has: controls, the no-break space, the soft hyphen. -/
def isUnprintable (b : UInt8) : Bool :=
  b < 0x20 || 0x7f ≤ b && b ≤ 0xa0 || b == 0xad

/-- A byte as a Latin-1 character between single quotes, escaped where it cannot be shown. -/
def quotedByte (b : UInt8) : String :=
  let shown :=
    if b = 0 then "\\0"
    else if b = 9 then "\\t"
    else if b = 10 then "\\n"
    else if b = 13 then "\\r"
    else if b = 39 then "\\'"
    else if b = 92 then "\\\\"
    else if isUnprintable b then "\\u\x7b" ++ String.ofList (Nat.toDigits 16 b.toNat) ++ "\x7d"
    else String.singleton (Char.ofNat b.toNat)
  "'" ++ shown ++ "'"

end ProofOfProof
