import ProofOfProof.Json

/-! JSON values from their text. Blanks may stand between tokens; each part of the parser returns
what it leaves of the text. -/

namespace ProofOfProof.Json.Parser

def isBlank (c : Char) : Bool := c = ' ' || c = '\n' || c = '\t' || c = '\r'

def skipBlanks : List Char → List Char
  | [] => []
  | c :: cs => if isBlank c then skipBlanks cs else c :: cs

/-- The number of the digits in front, on top of `n`. -/
def digits (n : Nat) : List Char → Nat × List Char
  | [] => (n, [])
  | c :: cs => if c.isDigit then digits (n * 10 + (c.toNat - 48)) cs else (n, c :: cs)

def someDigits : List Char → Option (Nat × List Char)
  | c :: cs => if c.isDigit then some (digits 0 (c :: cs)) else none
  | [] => none

/-- Digits without a zero in front of others. -/
def integerPart : List Char → Option (Nat × List Char)
  | '0' :: c :: cs => if c.isDigit then none else some (0, c :: cs)
  | cs => someDigits cs

def skipFraction : List Char → Option (Bool × List Char)
  | '.' :: cs => (fun (_, rest) => (true, rest)) <$> someDigits cs
  | cs => some (false, cs)

def skipSign : List Char → List Char
  | '+' :: cs => cs
  | '-' :: cs => cs
  | cs => cs

def skipExponent : List Char → Option (Bool × List Char)
  | 'e' :: cs => (fun (_, rest) => (true, rest)) <$> someDigits (skipSign cs)
  | 'E' :: cs => (fun (_, rest) => (true, rest)) <$> someDigits (skipSign cs)
  | cs => some (false, cs)

/-- A number without its sign. Minus zero is no integer. -/
def unsigned (negative : Bool) (cs : List Char) : Option (Json × List Char) := do
  let (n, cs) ← integerPart cs
  let (fraction, cs) ← skipFraction cs
  let (exponent, cs) ← skipExponent cs
  if fraction || exponent || negative && n == 0 then return (.foreign, cs)
  return (.integer (if negative then -(n : Int) else n), cs)

def number : List Char → Option (Json × List Char)
  | '-' :: cs => unsigned true cs
  | cs => unsigned false cs

/-- A part of a string: a character, or one half of a surrogate pair. -/
inductive Part
  | scalar (c : Char)
  | half (unit : Nat)

def hexValue (c : Char) : Option Nat :=
  if c.isDigit then some (c.toNat - 48)
  else if 'a' ≤ c ∧ c ≤ 'f' then some (c.toNat - 87)
  else if 'A' ≤ c ∧ c ≤ 'F' then some (c.toNat - 55)
  else none

def unicodeEscape (a b c d : Char) : Option Part := do
  let n := 4096 * (← hexValue a) + 256 * (← hexValue b) + 16 * (← hexValue c) + (← hexValue d)
  return if 0xD800 ≤ n ∧ n < 0xE000 then .half n else .scalar (Char.ofNat n)

def simpleEscape : Char → Option Char
  | '"' => some '"'
  | '\\' => some '\\'
  | '/' => some '/'
  | 'b' => some '\x08'
  | 'f' => some '\x0c'
  | 'n' => some '\n'
  | 'r' => some '\r'
  | 't' => some '\t'
  | _ => none

/-- The parts of a string up to its closing quote; `done` holds the parts before, the last first. -/
def parts (done : List Part) : List Char → Option (List Part × List Char)
  | [] => none
  | '"' :: cs => some (done.reverse, cs)
  | '\\' :: 'u' :: a :: b :: c :: d :: cs =>
    match unicodeEscape a b c d with
    | none => none
    | some part => parts (part :: done) cs
  | '\\' :: e :: cs =>
    match simpleEscape e with
    | none => none
    | some c => parts (.scalar c :: done) cs
  | c :: cs => if c.toNat < 32 then none else parts (.scalar c :: done) cs

/-- The text of the parts, where every half of a pair meets the other. -/
def textOf (done : List Char) : List Part → Option (List Char)
  | [] => some done.reverse
  | .scalar c :: ps => textOf (c :: done) ps
  | .half high :: .half low :: ps =>
    if high < 0xDC00 ∧ 0xDC00 ≤ low then
      textOf (Char.ofNat (0x10000 + 1024 * (high - 0xD800) + (low - 0xDC00)) :: done) ps
    else none
  | .half _ :: _ => none

def string (cs : List Char) : Option (Json × List Char) :=
  match parts [] cs with
  | none => none
  | some (ps, rest) =>
    match textOf [] ps with
    | none => some (.foreign, rest)
    | some text => some (.string (String.ofList text), rest)

mutual

def value : Nat → List Char → Option (Json × List Char)
  | 0, _ => none
  | fuel + 1, cs =>
    match skipBlanks cs with
    | 'n' :: 'u' :: 'l' :: 'l' :: rest => some (.null, rest)
    | 't' :: 'r' :: 'u' :: 'e' :: rest => some (.bool true, rest)
    | 'f' :: 'a' :: 'l' :: 's' :: 'e' :: rest => some (.bool false, rest)
    | '"' :: rest => string rest
    | '[' :: rest =>
      match skipBlanks rest with
      | ']' :: rest => some (.array [], rest)
      | rest => items fuel [] rest
    | '\x7b' :: rest =>
      match skipBlanks rest with
      | '\x7d' :: rest => some (.object [], rest)
      | rest => members fuel [] rest
    | rest => number rest

/-- The items of an array up to its end; `done` holds the items before, the last first. -/
def items : Nat → List Json → List Char → Option (Json × List Char)
  | 0, _, _ => none
  | fuel + 1, done, cs =>
    match value fuel cs with
    | none => none
    | some (item, rest) =>
      match skipBlanks rest with
      | ',' :: rest => items fuel (item :: done) rest
      | ']' :: rest => some (.array (item :: done).reverse, rest)
      | _ => none

/-- The members of an object up to its end; `done` holds the members before, the last first. -/
def members : Nat → List (Json × Json) → List Char → Option (Json × List Char)
  | 0, _, _ => none
  | fuel + 1, done, cs =>
    match skipBlanks cs with
    | '"' :: rest =>
      match string rest with
      | none => none
      | some (name, rest) =>
        match skipBlanks rest with
        | ':' :: rest =>
          match value fuel rest with
          | none => none
          | some (item, rest) =>
            match skipBlanks rest with
            | ',' :: rest => members fuel ((name, item) :: done) rest
            | '\x7d' :: rest => some (.object ((name, item) :: done).reverse, rest)
            | _ => none
        | _ => none
    | _ => none

end

end ProofOfProof.Json.Parser

namespace ProofOfProof.Json

/-- The one value that a text holds, with nothing but blanks around it. -/
def parse (text : String) : Option Json :=
  let cs := text.toList
  match Parser.value (2 * cs.length + 2) cs with
  | none => none
  | some (json, rest) => if (Parser.skipBlanks rest).isEmpty then some json else none

end ProofOfProof.Json
