import ProofOfProof.Bytes
import ProofOfProof.Fault

/-! Writers emit bytes in order and may stop at a fault. What a writer emits before its fault
stays emitted. -/

namespace ProofOfProof

/-- The bytes written so far, and what comes of the writing. -/
structure Writer (α : Type) where
  written : Bytes
  outcome : Except Fault α

namespace Writer

instance : Monad Writer where
  pure a := ⟨[], .ok a⟩
  bind w next :=
    match w.outcome with
    | .error fault => ⟨w.written, .error fault⟩
    | .ok a =>
      let rest := next a
      ⟨w.written ++ rest.written, rest.outcome⟩

theorem pure_eq {α : Type} (a : α) : (pure a : Writer α) = ⟨[], .ok a⟩ := rfl

theorem bind_of_ok {α β : Type} {w : Writer α} {a : α} (h : w.outcome = .ok a)
    (next : α → Writer β) :
    w >>= next = ⟨w.written ++ (next a).written, (next a).outcome⟩ := by
  change (match w.outcome with | .error _ => _ | .ok _ => _) = _
  rw [h]

theorem bind_of_error {α β : Type} {w : Writer α} {fault : Fault} (h : w.outcome = .error fault)
    (next : α → Writer β) : w >>= next = ⟨w.written, .error fault⟩ := by
  change (match w.outcome with | .error _ => _ | .ok _ => _) = _
  rw [h]

def emit (bytes : Bytes) : Writer Unit := ⟨bytes, .ok ()⟩

def fail {α : Type} (fault : Fault) : Writer α := ⟨[], .error fault⟩

/-- Fails with the fault of a check, writing nothing. -/
def check {α : Type} (outcome : Except Fault α) : Writer α := ⟨[], outcome⟩

/-- All bytes of a writer that reaches its end. -/
def toBytes (w : Writer Unit) : Except Fault Bytes :=
  match w.outcome with
  | .error fault => .error fault
  | .ok () => .ok w.written

/-- The bytes of a writer with a buffer of its own; nothing is written here. -/
def buffered (w : Writer Unit) : Writer Bytes := check w.toBytes

def byte (b : UInt8) : Writer Unit := emit [b]

def uint32 (n : UInt32) : Writer Unit := emit (bigEndian 4 n.toNat)

def int32 (n : Int32) : Writer Unit := uint32 n.toUInt32

def int16 (n : Int16) : Writer Unit := emit (bigEndian 2 n.toUInt16.toNat)

def uint64 (n : UInt64) : Writer Unit := emit (bigEndian 8 n.toNat)

/-- A 32-bit word, the least significant byte first. -/
def uint32LE (n : UInt32) : Writer Unit := emit (littleEndian 4 n.toNat)

/-- Every item in order, up to the first that fails. -/
def each {α : Type} (items : List α) (item : α → Writer Unit) : Writer Unit :=
  items.foldr (fun a rest => do item a; rest) (pure ())

end Writer

end ProofOfProof
