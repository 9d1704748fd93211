import ProofOfProof.Toml.Number

/-! TOML documents: what their lines say, and the table they say it about. A key is given once; a
header defines a table once; dotted keys extend only tables that dotted keys began. -/

namespace ProofOfProof.Toml

/-- Integers are told apart from everything else that a key can be given. -/
inductive Value
  | integer (n : Int)
  | other
  deriving DecidableEq, Repr

/-- What spoke of a table first: its own header, that of a table below it, or a dotted key. -/
inductive Origin
  | header
  | implied
  | dotted
  deriving DecidableEq, Repr

inductive Node
  | leaf (value : Value)
  | table (origin : Origin) (entries : List (String × Node))
  /-- Tables under one repeated header, the last one first. -/
  | tables (items : List (List (String × Node)))

abbrev Table := List (String × Node)

namespace Table

def insert (key : String) (node : Node) : Table → Table
  | [] => [(key, node)]
  | entry :: table => if entry.1 = key then (key, node) :: table else entry :: insert key node table

/-- The table with `value` under a path of keys and a last one. Only a `direct` table takes a key
without a path. -/
def assign (direct : Bool) : List String → String → Value → Table → Option Table
  | [], key, value, table =>
    if direct && (table.lookup key).isNone then some (insert key (.leaf value) table) else none
  | k :: path, key, value, table =>
    match table.lookup k with
    | none => (fun sub => insert k (.table .dotted sub) table) <$> assign true path key value []
    | some (.table .dotted sub) =>
      (fun sub => insert k (.table .dotted sub) table) <$> assign true path key value sub
    | some (.table .implied sub) =>
      (fun sub => insert k (.table .implied sub) table) <$> assign false path key value sub
    | some (.tables (last :: earlier)) =>
      (fun last => insert k (.tables (last :: earlier)) table) <$> assign false path key value last
    | some _ => none

/-- The table with the entry at the end of a header's path changed. Tables on the way that are not
there yet are implied. -/
def change (f : Option Node → Option Node) : List String → Table → Option Table
  | [], _ => none
  | [k], table => (fun node => insert k node table) <$> f (table.lookup k)
  | k :: path, table =>
    match table.lookup k with
    | none => (fun sub => insert k (.table .implied sub) table) <$> change f path []
    | some (.table origin sub) =>
      (fun sub => insert k (.table origin sub) table) <$> change f path sub
    | some (.tables (last :: earlier)) =>
      (fun last => insert k (.tables (last :: earlier)) table) <$> change f path last
    | some _ => none

end Table

structure Assignment where
  path : List String
  key : String
  value : Value

def Table.assignAll (assignments : List Assignment) (table : Table) : Option Table :=
  assignments.foldlM (fun table a => table.assign true a.path a.key a.value) table

inductive Line
  | blank
  | assignment (a : Assignment)
  | header (repeated : Bool) (path : List String)

structure Section where
  repeated : Bool
  path : List String
  assignments : List Assignment

namespace Section

def addTo (part : Section) (root : Table) : Option Table :=
  root.change (fun node =>
    match part.repeated, node with
    | false, none => .table .header <$> Table.assignAll part.assignments []
    | false, some (.table .implied sub) => .table .header <$> Table.assignAll part.assignments sub
    | true, none => (.tables [·]) <$> Table.assignAll part.assignments []
    | true, some (.tables earlier) =>
      (fun last => .tables (last :: earlier)) <$> Table.assignAll part.assignments []
    | _, _ => none) part.path

end Section

def Assignment.of (keys : List String) (value : Value) : Option Assignment :=
  (fun key => ⟨keys.dropLast, key, value⟩) <$> keys.getLast?

def scalar (cs : List Char) : Option (Value × List Char) :=
  match skipDateTime cs with
  | some rest => some (.other, rest)
  | none =>
    match skipDecimal cs with
    | some rest => some (.other, rest)
    | none =>
      match skipSpecial cs with
      | some rest => some (.other, rest)
      | none => (fun (n, rest) => (.integer n, rest)) <$> integer cs

mutual

/-- A value, with `depth` levels of nesting allowed in it. -/
def value : Nat → Nat → List Char → Option (Value × List Char)
  | 0, _, _ => none
  | fuel + 1, depth, cs =>
    match cs with
    | '"' :: _ => (fun rest => (.other, rest)) <$> skipString cs
    | '\'' :: _ => (fun rest => (.other, rest)) <$> skipString cs
    | '[' :: rest =>
      match depth with
      | 0 => none
      | depth + 1 => (fun rest => (.other, rest)) <$> items fuel depth rest
    | '\x7b' :: rest =>
      match depth with
      | 0 => none
      | depth + 1 =>
        match skipBlanks rest with
        | '\x7d' :: rest => some (.other, rest)
        | rest => (fun rest => (.other, rest)) <$> pairs fuel depth [] rest
    | 't' :: 'r' :: 'u' :: 'e' :: rest => some (.other, rest)
    | 'f' :: 'a' :: 'l' :: 's' :: 'e' :: rest => some (.other, rest)
    | _ => scalar cs

/-- What is behind the items of an array, which may end in a comma and take many lines. -/
def items : Nat → Nat → List Char → Option (List Char)
  | 0, _, _ => none
  | fuel + 1, depth, cs =>
    match skipLines (cs.length + 1) cs with
    | ']' :: rest => some rest
    | cs =>
      match value fuel depth cs with
      | none => none
      | some (_, rest) =>
        match skipLines (rest.length + 1) rest with
        | ',' :: rest => items fuel depth rest
        | ']' :: rest => some rest
        | _ => none

/-- What is behind the pairs of an inline table, which stands on one line. -/
def pairs : Nat → Nat → Table → List Char → Option (List Char)
  | 0, _, _, _ => none
  | fuel + 1, depth, table, cs =>
    match keys cs with
    | some (path, '=' :: rest) =>
      match value fuel depth (skipBlanks rest) with
      | none => none
      | some (v, rest) =>
        match Assignment.of path v >>= fun a => table.assign true a.path a.key a.value with
        | none => none
        | some table =>
          match skipBlanks rest with
          | ',' :: rest => pairs fuel depth table rest
          | '\x7d' :: rest => some rest
          | _ => none
    | _ => none

end

def line (cs : List Char) : Option (Line × List Char) :=
  match skipBlanks cs with
  | [] => some (.blank, [])
  | '#' :: rest => (fun rest => (.blank, rest)) <$> lineEnd ('#' :: rest)
  | '\n' :: rest => some (.blank, rest)
  | '\r' :: rest => (fun rest => (.blank, rest)) <$> newline ('\r' :: rest)
  | '[' :: '[' :: rest =>
    match keys rest with
    | some (path, ']' :: ']' :: rest) =>
      (fun rest => (.header true path, rest)) <$> lineEnd rest
    | _ => none
  | '[' :: rest =>
    match keys rest with
    | some (path, ']' :: rest) => (fun rest => (.header false path, rest)) <$> lineEnd rest
    | _ => none
  | cs =>
    match keys cs with
    | some (path, '=' :: rest) => do
      let rest := skipBlanks rest
      let (v, rest) ← value (2 * rest.length + 2) maxDepth rest
      let a ← Assignment.of path v
      (fun rest => (.assignment a, rest)) <$> lineEnd rest
    | _ => none

/-- All lines of a text; `done` holds the lines before, the last first. -/
def lines : Nat → List Line → List Char → Option (List Line)
  | _, done, [] => some done.reverse
  | 0, _, _ => none
  | fuel + 1, done, cs =>
    match line cs with
    | none => none
    | some (l, rest) => lines fuel (l :: done) rest

/-- The table that the lines speak of, where `assignments` stand above the first of them. -/
def build (root : Table) (current : Section) : List Line → Option Table
  | [] => if current.path.isEmpty then root.assignAll current.assignments.reverse
    else { current with assignments := current.assignments.reverse : Section }.addTo root
  | .blank :: rest => build root current rest
  | .assignment a :: rest =>
    build root { current with assignments := a :: current.assignments } rest
  | .header repeated path :: rest =>
    match build root current [] with
    | none => none
    | some root => build root ⟨repeated, path, []⟩ rest

def parse (text : String) : Option Table :=
  -- A byte order mark may stand in front.
  let cs := match text.toList with
    | c :: cs => if c.toNat = 0xfeff then cs else c :: cs
    | [] => []
  lines (cs.length + 1) [] cs >>= build [] ⟨false, [], []⟩

end ProofOfProof.Toml
