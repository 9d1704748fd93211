/-! Characters, blanks, comments, strings and keys of a TOML document. Each reader returns what it
leaves of the text. -/

namespace ProofOfProof.Toml

def isBlank (c : Char) : Bool := c = ' ' || c = '\t'

def skipBlanks : List Char → List Char
  | [] => []
  | c :: cs => if isBlank c then skipBlanks cs else c :: cs

def newline : List Char → Option (List Char)
  | '\n' :: cs => some cs
  | '\r' :: '\n' :: cs => some cs
  | _ => none

/-- Characters that a comment or a string may show as they are. -/
def isShown (c : Char) : Bool := c = '\t' || 0x20 ≤ c.toNat && c.toNat ≠ 0x7f

def skipComment : List Char → List Char
  | '#' :: cs => cs.dropWhile isShown
  | cs => cs

def lineEnd (cs : List Char) : Option (List Char) :=
  match skipComment (skipBlanks cs) with
  | [] => some []
  | rest => newline rest

def skipLines : Nat → List Char → List Char
  | 0, cs => cs
  | fuel + 1, cs =>
    match skipComment (skipBlanks cs) with
    | '\n' :: rest => skipLines fuel rest
    | '\r' :: '\n' :: rest => skipLines fuel rest
    | rest => rest

def hexDigit (c : Char) : Option Nat :=
  if c.isDigit then some (c.toNat - 48)
  else if 'a' ≤ c ∧ c ≤ 'f' then some (c.toNat - 87)
  else if 'A' ≤ c ∧ c ≤ 'F' then some (c.toNat - 55)
  else none

def hexEscape (count : Nat) (cs : List Char) : Option (Char × List Char) := do
  let digits ← (cs.take count).mapM hexDigit
  if digits.length < count then none
  else
    let n := digits.foldl (fun n d => 16 * n + d) 0
    if h : n.isValidChar then some (Char.ofNatAux n h, cs.drop count) else none

def escape : List Char → Option (Char × List Char)
  | 'b' :: cs => some ('\x08', cs)
  | 't' :: cs => some ('\t', cs)
  | 'n' :: cs => some ('\n', cs)
  | 'f' :: cs => some ('\x0c', cs)
  | 'r' :: cs => some ('\r', cs)
  | '"' :: cs => some ('"', cs)
  | '\\' :: cs => some ('\\', cs)
  | 'u' :: cs => hexEscape 4 cs
  | 'U' :: cs => hexEscape 8 cs
  | _ => none

/-- A string of one line, behind its opening quote; `done` holds the characters before, the last
first. Between single quotes nothing is escaped. -/
def lineString (quote : Char) : Nat → List Char → List Char → Option (String × List Char)
  | 0, _, _ => none
  | _ + 1, _, [] => none
  | fuel + 1, done, c :: cs =>
    if c = quote then some (String.ofList done.reverse, cs)
    else if quote = '"' ∧ c = '\\' then
      match escape cs with
      | none => none
      | some (e, cs) => lineString quote fuel (e :: done) cs
    else if isShown c then lineString quote fuel (c :: done) cs
    else none

/-- What is behind a string of many lines, behind its opening quotes. Up to two quotes may stand
inside, and up to two in front of the three that close it. A backslash at the end of a line takes
the line break away. -/
def skipLongString (quote : Char) : Nat → List Char → Option (List Char)
  | 0, _ => none
  | _ + 1, [] => none
  | fuel + 1, c :: cs =>
    if c = quote then
      let run := (cs.takeWhile (· = quote)).length + 1
      if run < 3 then skipLongString quote fuel (cs.drop (run - 1))
      else if run < 6 then some (cs.drop (run - 1))
      else none
    else if quote = '"' ∧ c = '\\' then
      match newline (skipBlanks cs) with
      | some rest => skipLongString quote fuel rest
      | none =>
        match escape cs with
        | none => none
        | some (_, rest) => skipLongString quote fuel rest
    else if isShown c then skipLongString quote fuel cs
    else
      match newline (c :: cs) with
      | some rest => skipLongString quote fuel rest
      | none => none

def skipString : List Char → Option (List Char)
  | '"' :: '"' :: '"' :: cs => skipLongString '"' (cs.length + 1) cs
  | '\'' :: '\'' :: '\'' :: cs => skipLongString '\'' (cs.length + 1) cs
  | '"' :: cs => (·.2) <$> lineString '"' (cs.length + 1) [] cs
  | '\'' :: cs => (·.2) <$> lineString '\'' (cs.length + 1) [] cs
  | _ => none

def isBare (c : Char) : Bool := c.isAlphanum || c = '_' || c = '-'

def simpleKey : List Char → Option (String × List Char)
  | '"' :: cs => lineString '"' (cs.length + 1) [] cs
  | '\'' :: cs => lineString '\'' (cs.length + 1) [] cs
  | cs =>
    let name := cs.takeWhile isBare
    if name.isEmpty then none else some (String.ofList name, cs.dropWhile isBare)

def keysOnto : Nat → List String → List Char → Option (List String × List Char)
  | 0, _, _ => none
  | fuel + 1, done, cs =>
    match simpleKey (skipBlanks cs) with
    | none => none
    | some (key, rest) =>
      match skipBlanks rest with
      | '.' :: rest => keysOnto fuel (key :: done) rest
      | rest => some ((key :: done).reverse, rest)

/-- The most levels of nesting, of values in each other and of tables along a path. -/
def maxDepth : Nat := 79

def keys (cs : List Char) : Option (List String × List Char) := keysOnto maxDepth [] cs

end ProofOfProof.Toml
