/-! JSON values, and their text without blanks. -/

namespace ProofOfProof

/-- Names of members are values here, though only strings have a text as names. -/
inductive Json
  | null
  | bool (b : Bool)
  | integer (n : Int)
  | string (text : String)
  | array (items : List Json)
  | object (members : List (Json × Json))
  /-- A number that is no integer, or a string that is no Unicode text. Nothing here writes one. -/
  | foreign
  deriving Repr

namespace Json

/-- A character inside a string: quotes, backslashes and controls are escaped. -/
def escape (c : Char) : List Char :=
  if c = '"' then ['\\', '"']
  else if c = '\\' then ['\\', '\\']
  else if c = '\n' then ['\\', 'n']
  else if c = '\r' then ['\\', 'r']
  else if c = '\t' then ['\\', 't']
  else if c.toNat = 8 then ['\\', 'b']
  else if c.toNat = 12 then ['\\', 'f']
  else if c.toNat < 32 then
    ['\\', 'u', '0', '0', Nat.digitChar (c.toNat / 16), Nat.digitChar (c.toNat % 16)]
  else [c]

def quoted (text : String) (rest : List Char) : List Char :=
  '"' :: (text.toList.flatMap escape ++ '"' :: rest)

def decimal (n : Int) : List Char :=
  if n < 0 then '-' :: Nat.toDigits 10 n.natAbs else Nat.toDigits 10 n.natAbs

mutual

/-- The text of a value, with `rest` behind it. -/
def render : Json → List Char → List Char
  | null, rest => 'n' :: 'u' :: 'l' :: 'l' :: rest
  | bool true, rest => 't' :: 'r' :: 'u' :: 'e' :: rest
  | bool false, rest => 'f' :: 'a' :: 'l' :: 's' :: 'e' :: rest
  | integer n, rest => decimal n ++ rest
  | string text, rest => quoted text rest
  | array [], rest => '[' :: ']' :: rest
  | array (item :: items), rest => '[' :: item.render (renderItems items rest)
  | object [], rest => '\x7b' :: '\x7d' :: rest
  | object ((name, value) :: members), rest =>
    '\x7b' :: name.render (':' :: value.render (renderMembers members rest))
  | foreign, rest => rest

def renderItems : List Json → List Char → List Char
  | [], rest => ']' :: rest
  | item :: items, rest => ',' :: item.render (renderItems items rest)

def renderMembers : List (Json × Json) → List Char → List Char
  | [], rest => '\x7d' :: rest
  | (name, value) :: members, rest =>
    ',' :: name.render (':' :: value.render (renderMembers members rest))

end

mutual

/-- Whether a value has a text: all names in it are strings, and nothing in it is foreign. -/
def hasText : Json → Bool
  | array items => itemsHaveText items
  | object members => membersHaveText members
  | foreign => false
  | _ => true

def itemsHaveText : List Json → Bool
  | [] => true
  | item :: items => item.hasText && itemsHaveText items

def membersHaveText : List (Json × Json) → Bool
  | [] => true
  | (.string _, value) :: members => value.hasText && membersHaveText members
  | _ => false

end

def text? (json : Json) : Option String :=
  if json.hasText then some (String.ofList (json.render [])) else none

/-- An object with these names in front of these values. -/
def record (names : List String) (values : List Json) : Json :=
  .object ((names.map .string).zip values)

def isString : Json → Bool
  | string _ => true
  | _ => false

/-- The only value under a name, or what stands for it where the name is absent. -/
def member (name : String) (absent : Option Json) (members : List (Json × Json)) : Option Json :=
  match members.filter fun m => match m.1 with | string text => text == name | _ => false with
  | [] => absent
  | [m] => some m.2
  | _ => none

/-- The values of a record in the order of its fields, each with what stands for it where it is
absent. An object gives them by name, each once, and may have other members; an array gives them by
place, and may leave out the last of them if `shorter` allows it. -/
def fields (names : List (String × Option Json)) (shorter : Bool) : Json → Option (List Json)
  | object members =>
    if members.all (·.1.isString) then
      names.mapM fun (name, absent) => member name absent members
    else none
  | array items =>
    if items.length = names.length then some items
    else if shorter && items.length < names.length then
      (items ++ ·) <$> (names.drop items.length).mapM (·.2)
    else none
  | _ => none

def fieldsOf (names : List String) : Json → Option (List Json) :=
  fields (names.map fun name => (name, none)) false

end Json

end ProofOfProof
