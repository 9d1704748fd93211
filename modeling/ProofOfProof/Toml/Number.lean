import ProofOfProof.Toml.Lexical

/-! Numbers and times of a TOML document. All but integers are only skipped. -/

namespace ProofOfProof.Toml

/-- The digits in front, where single underscores may stand between them. -/
def digitRun (digit : Char → Option Nat) : List Char → List Nat × List Char
  | [] => ([], [])
  | c :: cs =>
    match digit c with
    | some d =>
      let (ds, rest) := digitRun digit cs
      (d :: ds, rest)
    | none =>
      match c, cs with
      | '_', e :: cs =>
        match digit e with
        | some d =>
          let (ds, rest) := digitRun digit cs
          (d :: ds, rest)
        | none => ([], c :: e :: cs)
      | _, cs => ([], c :: cs)

def someDigits (digit : Char → Option Nat) : List Char → Option (List Nat × List Char)
  | [] => none
  | c :: cs => if (digit c).isSome then some (digitRun digit (c :: cs)) else none

def decimalDigit (c : Char) : Option Nat := if c.isDigit then some (c.toNat - 48) else none

def digitIn (base : Nat) (c : Char) : Option Nat := (hexDigit c).filter (· < base)

def numberOf (base : Nat) (ds : List Nat) : Nat := ds.foldl (fun n d => base * n + d) 0

def sign : List Char → Bool × List Char
  | '-' :: cs => (true, cs)
  | '+' :: cs => (false, cs)
  | cs => (false, cs)

/-- The digits of a decimal integer: a lone zero, or digits that do not start with one. -/
def decimalDigits : List Char → Option (List Nat × List Char)
  | '0' :: cs => some ([0], cs)
  | cs => someDigits decimalDigit cs

/-- An integer of 64 bits, in radix 10, 16, 8 or 2. Only a decimal one has a sign. -/
def integer (cs : List Char) : Option (Int × List Char) := do
  let inRadix (base : Nat) (cs : List Char) : Option (Int × List Char) := do
    let (ds, rest) ← someDigits (digitIn base) cs
    let n := numberOf base ds
    if n ≤ 0x7fffffffffffffff then some (n, rest) else none
  match cs with
  | '0' :: 'x' :: cs => inRadix 16 cs
  | '0' :: 'o' :: cs => inRadix 8 cs
  | '0' :: 'b' :: cs => inRadix 2 cs
  | cs =>
    let (negative, cs) := sign cs
    let (ds, rest) ← decimalDigits cs
    let n : Int := numberOf 10 ds
    let n := if negative then -n else n
    if -0x8000000000000000 ≤ n ∧ n ≤ 0x7fffffffffffffff then some (n, rest) else none

/-- Whether a decimal rounds to infinity as a binary number of 64 bits: from half a step above the
greatest finite one. -/
def roundsToInfinity (mantissa : Nat) (exponent : Int) : Bool :=
  let digits := (Nat.toDigits 10 mantissa).length
  if mantissa = 0 ∨ (digits : Int) + exponent < 300 then false
  else if 400 < (digits : Int) + exponent then true
  else
    let threshold := Nat.pow 2 1024 - Nat.pow 2 970
    if 0 ≤ exponent then threshold ≤ mantissa * Nat.pow 10 exponent.toNat
    else threshold * Nat.pow 10 exponent.natAbs ≤ mantissa

def exponent : List Char → Option (Option Int × List Char)
  | c :: cs =>
    if c = 'e' ∨ c = 'E' then do
      let (negative, cs) := sign cs
      let (ds, rest) ← someDigits decimalDigit cs
      let n : Int := numberOf 10 ds
      some (some (if negative then -n else n), rest)
    else some (none, c :: cs)
  | [] => some (none, [])

/-- What is behind a number with a fraction or an exponent. One that rounds to infinity is refused,
though its negative is not. -/
def skipDecimal (cs : List Char) : Option (List Char) := do
  let (negative, cs) := sign cs
  let (whole, cs) ← decimalDigits cs
  let (fraction, cs) ←
    match cs with
    | '.' :: cs => someDigits decimalDigit cs
    | cs => some ([], cs)
  let (shift, rest) ← exponent cs
  if fraction.isEmpty ∧ shift.isNone then none
  else if !negative &&
      roundsToInfinity (numberOf 10 (whole ++ fraction)) (shift.getD 0 - fraction.length) then none
  else some rest

def skipSpecial (cs : List Char) : Option (List Char) :=
  match (sign cs).2 with
  | 'i' :: 'n' :: 'f' :: rest => some rest
  | 'n' :: 'a' :: 'n' :: rest => some rest
  | _ => none

def field (count min max : Nat) (cs : List Char) : Option (Nat × List Char) := do
  let ds ← (cs.take count).mapM decimalDigit
  let n := numberOf 10 ds
  if ds.length = count ∧ min ≤ n ∧ n ≤ max then some (n, cs.drop count) else none

def expect (c : Char) : List Char → Option (List Char)
  | d :: cs => if d = c then some cs else none
  | [] => none

def daysIn (year month : Nat) : Nat :=
  if month = 2 then
    if year % 4 = 0 ∧ (year % 100 ≠ 0 ∨ year % 400 = 0) then 29 else 28
  else if month = 4 ∨ month = 6 ∨ month = 9 ∨ month = 11 then 30
  else 31

def skipDate (cs : List Char) : Option (List Char) := do
  let (year, cs) ← field 4 0 9999 cs
  let cs ← expect '-' cs
  let (month, cs) ← field 2 1 12 cs
  let cs ← expect '-' cs
  let (_, cs) ← field 2 1 (daysIn year month) cs
  some cs

/-- What is behind a time of day, where a second may be a leap second. -/
def skipTime (cs : List Char) : Option (List Char) := do
  let (_, cs) ← field 2 0 23 cs
  let cs ← expect ':' cs
  let (_, cs) ← field 2 0 59 cs
  let cs ← expect ':' cs
  let (_, cs) ← field 2 0 60 cs
  match cs with
  | '.' :: c :: rest => if c.isDigit then some (rest.dropWhile Char.isDigit) else some cs
  | _ => some cs

def skipOffset (cs : List Char) : Option (List Char) :=
  match cs with
  | [] => some []
  | c :: rest =>
    if c = 'Z' ∨ c = 'z' then some rest
    else if c = '+' ∨ c = '-' then do
      let (_, rest) ← field 2 0 23 rest
      let rest ← expect ':' rest
      let (_, rest) ← field 2 0 59 rest
      some rest
    else some cs

def skipDateTime (cs : List Char) : Option (List Char) :=
  match skipDate cs with
  | none => skipTime cs
  | some rest =>
    match rest with
    | [] => some rest
    | c :: behind =>
      if c = 'T' ∨ c = 't' ∨ c = ' ' then
        match skipTime behind with
        | none => some rest
        | some behind => skipOffset behind
      else some rest

end ProofOfProof.Toml
