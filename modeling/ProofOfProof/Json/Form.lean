import ProofOfProof.Bytes
import ProofOfProof.Fault
import ProofOfProof.Json.Parser

/-! Types with a form in JSON: numbers within their width, byte strings as arrays of numbers. -/

namespace ProofOfProof

class JsonForm (α : Type) where
  toJson : α → Json
  ofJson : Json → Option α

export JsonForm (toJson ofJson)

/-- The text of a value. There is none for an object whose names are not strings. -/
def toJsonText {α : Type} [JsonForm α] (a : α) : Except Fault String :=
  match (toJson a).text? with
  | some text => .ok text
  | none => .error (.content .memberName)

/-- The value of a text, if the text holds just that. -/
def ofJsonText? {α : Type} [JsonForm α] (text : String) : Option α := Json.parse text >>= ofJson

/-- An integer from `min` to `max`. -/
def Json.integerIn (min max : Int) : Json → Option Int
  | .integer n => if min ≤ n ∧ n ≤ max then some n else none
  | _ => none

instance : JsonForm UInt8 where
  toJson n := .integer n.toNat
  ofJson json := (fun n => UInt8.ofNat n.toNat) <$> json.integerIn 0 0xff

instance : JsonForm UInt32 where
  toJson n := .integer n.toNat
  ofJson json := (fun n => UInt32.ofNat n.toNat) <$> json.integerIn 0 0xffffffff

instance : JsonForm UInt64 where
  toJson n := .integer n.toNat
  ofJson json := (fun n => UInt64.ofNat n.toNat) <$> json.integerIn 0 0xffffffffffffffff

instance : JsonForm Int16 where
  toJson n := .integer n.toInt
  ofJson json := Int16.ofInt <$> json.integerIn (-0x8000) 0x7fff

instance : JsonForm Int32 where
  toJson n := .integer n.toInt
  ofJson json := Int32.ofInt <$> json.integerIn (-0x80000000) 0x7fffffff

instance : JsonForm Int64 where
  toJson n := .integer n.toInt
  ofJson json := Int64.ofInt <$> json.integerIn (-0x8000000000000000) 0x7fffffffffffffff

instance {α : Type} [JsonForm α] : JsonForm (List α) where
  toJson items := .array (items.map toJson)
  ofJson json :=
    match json with
    | .array items => items.mapM ofJson
    | _ => none

instance {α : Type} [JsonForm α] : JsonForm (Option α) where
  toJson a :=
    match a with
    | none => .null
    | some a => toJson a
  ofJson json :=
    match json with
    | .null => some none
    | json => some <$> ofJson json

instance {n : Nat} : JsonForm (Fixed n) where
  toJson bytes := toJson bytes.val
  ofJson json := ofJson json >>= Fixed.ofBytes? n

/-- The form of one of finitely many names: the name, or an object that holds null under it. -/
def Json.named {α : Type} (all : List α) (name : α → String) : Json → Option α
  | .string text => all.find? fun a => name a == text
  | .object [(.string text, .null)] => all.find? fun a => name a == text
  | _ => none

end ProofOfProof
