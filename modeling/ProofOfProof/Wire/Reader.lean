import ProofOfProof.Bytes
import ProofOfProof.Fault

/-! Readers consume a byte string from its front. A reader that fails leaves what it has not
consumed, and never puts back what it has. -/

namespace ProofOfProof

/-- Which spellings of an integer a reader lets pass. -/
inductive Spelling
  /-- Every spelling that fits the width of the integer. -/
  | any
  /-- Only the one that a writer gives. -/
  | written
  deriving DecidableEq, Repr

/-- A step over the bytes that are left. -/
abbrev Reader (α : Type) := ReaderT Spelling (EStateM Fault Bytes) α

namespace Reader

@[simp] theorem pure_apply {α : Type} (a : α) (spelling : Spelling) (input : Bytes) :
    (pure a : Reader α) spelling input = .ok a input := rfl

theorem bind_apply {α β : Type} (reader : Reader α) (next : α → Reader β) (spelling : Spelling)
    (input : Bytes) :
    (reader >>= next) spelling input =
      match reader spelling input with
      | .ok a rest => next a spelling rest
      | .error fault rest => .error fault rest := by
  change EStateM.bind (reader spelling) (fun a => next a spelling) input = _
  unfold EStateM.bind
  cases reader spelling input <;> rfl

theorem map_apply {α β : Type} (f : α → β) (reader : Reader α) (spelling : Spelling)
    (input : Bytes) :
    (f <$> reader) spelling input =
      match reader spelling input with
      | .ok a rest => .ok (f a) rest
      | .error fault rest => .error fault rest := by
  change EStateM.map f (reader spelling) input = _
  unfold EStateM.map
  cases reader spelling input <;> rfl

def fail {α : Type} (fault : Fault) : Reader α := throw fault

/-- The next `n` bytes. When fewer are left it consumes none. -/
def take (n : Nat) : Reader (Fixed n) := fun _ input =>
  let (front, rest) := input.splitAt n
  if h : front.length = n then .ok ⟨front, h⟩ rest
  else .error (.truncated n input.length) input

def bytes (n : Nat) : Reader Bytes := Subtype.val <$> take n

theorem take_append {n : Nat} (front : Fixed n) (spelling : Spelling) (rest : Bytes) :
    take n spelling (front.val ++ rest) = .ok front rest := by
  obtain ⟨front, rfl⟩ := front
  simp [take, List.splitAt_eq]

def byte : Reader UInt8 := fun _ input =>
  match input with
  | [] => .error (.truncated 1 0) []
  | b :: rest => .ok b rest

def uint32 : Reader UInt32 := (fun bytes => UInt32.ofNat (ofBigEndian bytes)) <$> bytes 4

def int32 : Reader Int32 := UInt32.toInt32 <$> uint32

def int16 : Reader Int16 :=
  (fun bytes => (UInt16.ofNat (ofBigEndian bytes)).toInt16) <$> bytes 2

def uint64 : Reader UInt64 := (fun bytes => UInt64.ofNat (ofBigEndian bytes)) <$> bytes 8

/-- A 32-bit word, the least significant byte first. -/
def uint32LE : Reader UInt32 := (fun bytes => UInt32.ofNat (ofLittleEndian bytes)) <$> bytes 4

/-- Succeeds only where no byte is left. -/
def finish : Reader Unit := fun _ input =>
  match input with
  | [] => .ok () []
  | _ => .error (.content (.trailing input.length)) input

/-- Reads a value that must span all of `input`. -/
def whole {α : Type} (reader : Reader α) (spelling : Spelling) (input : Bytes) : Except Fault α :=
  match reader spelling input with
  | .error fault _ => .error fault
  | .ok a rest =>
    match finish spelling rest with
    | .error fault _ => .error fault
    | .ok () _ => .ok a

/-- Reads a value that must span all of `part`, a string already cut out of the input. -/
def within {α : Type} (part : Bytes) (reader : Reader α) : Reader α := fun spelling input =>
  match reader.whole spelling part with
  | .error fault => .error fault input
  | .ok a => .ok a input

/-- Fails with the first fault of a check that consumes nothing. -/
def check {α : Type} : Except Fault α → Reader α
  | .error fault => fail fault
  | .ok a => pure a

/-- Fails on an integer spelled in another way than writers do, where only theirs is let pass. -/
def checkSpelling (what : String) (isWritten : Bool) : Reader Unit := fun spelling input =>
  if spelling = .written ∧ isWritten = false then .error (.content (.spelling what)) input
  else .ok () input

/-- Runs `item` `count` times; `done` holds the items before these, the last one first. -/
def repeatOnto {α : Type} (item : Reader α) : Nat → List α → Reader (List α)
  | 0, done => fun _ input => .ok done.reverse input
  | count + 1, done => fun spelling input =>
    match item spelling input with
    | .error fault rest => .error fault rest
    | .ok a rest => repeatOnto item count (a :: done) spelling rest

/-- `count` items in order; the first item that fails makes the whole fail. -/
def replicate {α : Type} (count : Nat) (item : Reader α) : Reader (List α) :=
  repeatOnto item count []

end Reader

end ProofOfProof
