import ProofOfProof.Fault

/-! How far a block has been validated, and what is known of it. One word holds both: the level in
its low four bits and one bit for each flag above them. -/

namespace ProofOfProof

/-- A block at a level has passed the checks of every lower one. -/
inductive ValidityLevel
  | unknown
  | validTree
  | connected
  | maybeApplicable
  | applicable
  deriving DecidableEq, Repr

namespace ValidityLevel

def rank : ValidityLevel → Nat
  | unknown => 0
  | validTree => 1
  | connected => 2
  | maybeApplicable => 3
  | applicable => 4

def name : ValidityLevel → String
  | unknown => "Unknown"
  | validTree => "ValidTree"
  | connected => "Connected"
  | maybeApplicable => "CanBeAppliedMaybeWithOtherChain"
  | applicable => "CanBeApplied"

def all : List ValidityLevel := [unknown, validTree, connected, maybeApplicable, applicable]

def ofWord (word : UInt32) : Except Fault ValidityLevel :=
  match all[word.toNat]? with
  | some level => .ok level
  | none => .error (.discriminator (.validityLevel word))

end ValidityLevel

inductive StatusFlag
  | bootstrap
  | failedBlock
  | failedPop
  | failedChild
  | hasPayloads
  | applied
  | deleted
  deriving DecidableEq, Repr

namespace StatusFlag

def all : List StatusFlag :=
  [bootstrap, failedBlock, failedPop, failedChild, hasPayloads, applied, deleted]

def index : StatusFlag → Nat
  | bootstrap => 0
  | failedBlock => 1
  | failedPop => 2
  | failedChild => 3
  | hasPayloads => 4
  | applied => 5
  | deleted => 6

def name : StatusFlag → String
  | bootstrap => "bootstrap"
  | failedBlock => "failed-block"
  | failedPop => "failed-pop"
  | failedChild => "failed-child"
  | hasPayloads => "has-payloads"
  | applied => "applied"
  | deleted => "deleted"

def mask (flag : StatusFlag) : BitVec 7 := BitVec.twoPow 7 flag.index

def bits (flag : StatusFlag) : UInt32 := UInt32.ofNat (16 * flag.mask.toNat)

end StatusFlag

structure BlockStatus where
  level : ValidityLevel
  flags : BitVec 7
  deriving DecidableEq, Repr

namespace BlockStatus

def ofLevel (level : ValidityLevel) : BlockStatus := ⟨level, 0⟩

def bits (status : BlockStatus) : UInt32 :=
  UInt32.ofNat (status.level.rank + 16 * status.flags.toNat)

/-- The status of a word, whose level has to be known and whose every other bit has to be a flag. -/
def ofBits (word : UInt32) : Except Fault BlockStatus :=
  match ValidityLevel.ofWord (word &&& 0xf) with
  | .error fault => .error fault
  | .ok level =>
    let foreign := word &&& 0xfffff800
    if foreign = 0 then .ok ⟨level, BitVec.ofNat 7 (word.toNat / 16)⟩
    else .error (.discriminator (.statusBits foreign))

def has (status : BlockStatus) (flag : StatusFlag) : Bool := status.flags.getLsbD flag.index

def set (status : BlockStatus) (flag : StatusFlag) : BlockStatus :=
  { status with flags := status.flags ||| flag.mask }

def unset (status : BlockStatus) (flag : StatusFlag) : BlockStatus :=
  { status with flags := status.flags &&& ~~~flag.mask }

def isFailed (status : BlockStatus) : Bool :=
  status.has .failedBlock || status.has .failedPop || status.has .failedChild

def isValid (status : BlockStatus) (level : ValidityLevel) : Bool :=
  !status.isFailed && level.rank ≤ status.level.rank

/-- The status raised to `level`, where that is higher and no payload has failed. -/
def raise? (status : BlockStatus) (level : ValidityLevel) : Option BlockStatus :=
  if status.has .failedPop ∨ level.rank ≤ status.level.rank then none
  else some { status with level := level }

def lower? (status : BlockStatus) (level : ValidityLevel) : Option BlockStatus :=
  if status.has .failedPop ∨ status.level.rank ≤ level.rank then none
  else some { status with level := level }

def text (status : BlockStatus) : String :=
  String.intercalate "|"
    (status.level.name :: (StatusFlag.all.filter status.has).map StatusFlag.name)

end BlockStatus

end ProofOfProof
