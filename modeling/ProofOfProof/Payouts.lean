import ProofOfProof.Wire.Encoding
import ProofOfProof.Wire.Field
import ProofOfProof.Wire.Sequence

/-! What is owed to each payout destination, in ascending order of the destinations' bytes. -/

namespace ProofOfProof

/-- The sum of two amounts, or the greatest amount where it has none. -/
def addSaturating (a b : UInt64) : UInt64 :=
  let sum := a.toNat + b.toNat
  if sum < UInt64.size then UInt64.ofNat sum else UInt64.ofNat (UInt64.size - 1)

namespace Payouts

abbrev Entry := Bytes × UInt64

/-- Whether each destination comes before the next one in lexicographic order. -/
def ascends : List Entry → Bool
  | a :: b :: entries => if a.1 < b.1 then ascends (b :: entries) else false
  | _ => true

/-- Credits `amount` to a destination of an ascending list. -/
def credit (info : Bytes) (amount : UInt64) : List Entry → List Entry
  | [] => [(info, amount)]
  | entry :: entries =>
    if info < entry.1 then (info, amount) :: entry :: entries
    else if info = entry.1 then (info, addSaturating entry.2 amount) :: entries
    else entry :: credit info amount entries

theorem ascends_cons_iff {a : Entry} {entries : List Entry} :
    ascends (a :: entries) = true ↔
      (∀ b ∈ entries.head?, a.1 < b.1) ∧ ascends entries = true := by
  cases entries with
  | nil => simp [ascends]
  | cons b entries => simp [ascends]

theorem head?_credit (info : Bytes) (amount : UInt64) (entries : List Entry) :
    ∀ b ∈ (credit info amount entries).head?, b.1 = info ∨ ∃ c ∈ entries.head?, b.1 = c.1 := by
  cases entries with
  | nil => simp [credit]
  | cons c entries =>
    rw [credit]
    split
    · simp
    · split <;> simp

theorem ascends_credit {info : Bytes} {amount : UInt64} {entries : List Entry}
    (h : ascends entries = true) : ascends (credit info amount entries) = true := by
  induction entries with
  | nil => rfl
  | cons c entries ih =>
    have hc := ascends_cons_iff.mp h
    rw [credit]
    split
    · next hlt => exact ascends_cons_iff.mpr ⟨by simpa using hlt, h⟩
    · next hnlt =>
      split
      · next heq => exact ascends_cons_iff.mpr ⟨by simpa [heq] using hc.1, hc.2⟩
      · next hne =>
        refine ascends_cons_iff.mpr ⟨fun b hb => ?_, ih hc.2⟩
        rcases head?_credit info amount entries b hb with hi | ⟨d, hd, he⟩
        · rw [hi]
          exact Std.lt_of_le_of_ne (List.not_lt.mp hnlt) (Ne.symm hne)
        · rw [he]
          exact hc.1 d hd

end Payouts

structure Payouts where
  entries : List Payouts.Entry
  ascending : Payouts.ascends entries = true
  deriving DecidableEq

namespace Payouts

def empty : Payouts := ⟨[], rfl⟩

/-- Credits `amount` to a destination; what it is owed never passes the greatest amount. -/
def add (payouts : Payouts) (info : Bytes) (amount : UInt64) : Payouts :=
  ⟨credit info amount payouts.entries, ascends_credit payouts.ascending⟩

/-- All credits together. They are taken in descending order of their destinations, so that each
one meets its place at the front. -/
def ofCredits (credits : List Entry) : Payouts :=
  (credits.mergeSort fun a b => decide (a.1 ≤ b.1)).foldr
    (fun entry payouts => payouts.add entry.1 entry.2) empty

def get? (payouts : Payouts) (info : Bytes) : Option UInt64 := payouts.entries.lookup info

def size (payouts : Payouts) : Nat := payouts.entries.length

def isEmpty (payouts : Payouts) : Bool := payouts.entries.isEmpty

/-- The sum of all amounts, or the greatest amount where it has none. -/
def total (payouts : Payouts) : UInt64 :=
  payouts.entries.foldl (fun sum entry => addSaturating sum entry.2) 0

def writeEntry (entry : Entry) : Writer Unit := do
  .check (checkLimit "payout-info" entry.1.length maxPublicationPayout)
  .longField entry.1
  .uint64 entry.2

def readEntry : Reader Entry := do
  let info ← .longField "payout-info" 0 maxPublicationPayout
  let amount ← .uint64
  return (info, amount)

/-- Entries as they came from the wire, which have to ascend. -/
def ofEntries (entries : List Entry) : Except Fault Payouts :=
  if h : ascends entries = true then .ok ⟨entries, h⟩
  else .error (.content .payoutOrder)

instance : Wire Payouts where
  write payouts := do
    .check (checkLimit "pop-payouts" payouts.entries.length maxPayouts)
    .sequence payouts.entries writeEntry
  read limits := do
    let entries ← .sequence "pop-payouts" 0 limits.payouts readEntry
    .check (ofEntries entries)

end Payouts

end ProofOfProof
