import ProofOfProof.Proofs.Record

/-! The wire does not say of which kind an endorsement is. Still no input can be read as both: each
field says how long it is, and the last field is as long as a hash of one chain or of the other. -/

namespace ProofOfProof

variable {limits : Limits} {spelling : Spelling} {input rest : Bytes}

def EndorsementKind.other : EndorsementKind → EndorsementKind
  | alt => vbk
  | vbk => alt

/-- Whether a chain lets hashes be as long as those of an endorsement, which are of a fixed length
in VeriBlock. -/
def Limits.Admits (limits : Limits) : Endorsement → Prop
  | .alt e => limits.AdmitsEndorsement e
  | .vbk _ => True

/-- The run ends at a length that is not in its range. -/
def Reader.EndsAtLength {α : Type} (result : EStateM.Result Fault Bytes α) : Prop :=
  ∃ what got min max left, result = .error (.outOfRange what got min max) left

/-- Wherever `reader` is given what `writer` writes, it ends at a length. -/
def Reader.Misfits {α : Type} (reader : Reader α) (writer : Writer Unit) : Prop :=
  ∃ what got min max, reader.Rejects writer (.outOfRange what got min max)

namespace Reader.Misfits

variable {α β : Type} {reader : Reader α} {writer : Writer Unit} {more : Unit → Writer Unit}
variable {what : String} {field : Bytes}

theorem endsAtLength {bytes : Bytes} (h : reader.Misfits writer) (hw : writer = ⟨bytes, .ok ()⟩)
    (spelling : Spelling) (rest : Bytes) : EndsAtLength (reader spelling (bytes ++ rest)) := by
  obtain ⟨what, got, min, max, hr⟩ := h
  obtain ⟨left, hleft⟩ := hr bytes hw spelling rest
  exact ⟨what, got, min, max, left, hleft⟩

theorem map (f : α → β) (h : reader.Misfits writer) : (f <$> reader).Misfits writer := by
  obtain ⟨what, got, min, max, hr⟩ := h
  exact ⟨what, got, min, max, hr.map f⟩

theorem bind {next : α → Reader β} {a : α} (h : reader.Inverts writer a)
    (hn : (next a).Misfits (more ())) : (reader >>= next).Misfits (writer >>= more) := by
  obtain ⟨what, got, min, max, hr⟩ := hn
  exact ⟨what, got, min, max, .bind h hr⟩

theorem shortFieldOf {n : Nat} {next : Fixed n → Reader α} (h : field.length ≠ n) :
    (Reader.shortFieldOf n what >>= next).Misfits (Writer.shortField field) :=
  ⟨_, _, _, _, .first (.shortFieldOf h)⟩

/-- A field has another length than its reader asks for, or is passed over. -/
theorem shortFieldOf_bind {n : Nat} {next : Fixed n → Reader α}
    (h : ∀ hn : field.length = n, (next ⟨field, hn⟩).Misfits (more ())) :
    (Reader.shortFieldOf n what >>= next).Misfits (Writer.shortField field >>= more) := by
  by_cases hn : field.length = n
  · exact bind (.shortFieldOf what ⟨field, hn⟩) (h hn)
  · exact ⟨_, _, _, _, .before (.first (.shortFieldOf hn))⟩

theorem shortField_bind {min max : Nat} {next : Bytes → Reader α}
    (h : (next field).Misfits (more ())) :
    (Reader.shortField what min max >>= next).Misfits (Writer.shortField field >>= more) := by
  by_cases hr : min ≤ field.length ∧ field.length ≤ max
  · exact bind (.shortField hr.1 hr.2) h
  · exact ⟨_, _, _, _, .before (.first (.shortField hr))⟩

end Reader.Misfits

/-- A hash of another length is refused where it stands. Behind hashes of the right length it is the
block of proof that is refused. -/
theorem AltEndorsement.misfits (e : AltEndorsement) (limits : Limits) :
    (Wire.read limits : Reader VbkEndorsement).Misfits (Wire.write e) := by
  have hproof : e.blockOfProof.val.length ≠ 32 := by
    rw [e.blockOfProof.property]
    decide
  refine .bind (.shortFieldOf _ e.id) (.shortFieldOf_bind fun _ => ?_)
  exact .shortFieldOf_bind fun _ => .shortFieldOf hproof

theorem VbkEndorsement.misfits (e : VbkEndorsement) (limits : Limits) :
    (Wire.read limits : Reader AltEndorsement).Misfits (Wire.write e) := by
  have hproof : e.blockOfProof.val.length ≠ 24 := by
    rw [e.blockOfProof.property]
    decide
  exact .bind (.shortFieldOf _ e.id) (.shortField_bind (.shortField_bind (.shortFieldOf hproof)))

namespace Endorsement

/-- What comes back of an endorsement: all but its payout. -/
def stored : Endorsement → Endorsement
  | alt e => alt e.stored
  | vbk e => vbk e.stored

theorem inverts_stored {e : Endorsement} (h : limits.Admits e) :
    (read e.kind limits).Inverts e.write e.stored := by
  cases e with
  | alt e => exact (AltEndorsement.inverts_stored h).map alt
  | vbk e => exact (VbkEndorsement.inverts_stored e).map vbk

theorem restores {kind : EndorsementKind} {e : Endorsement}
    (h : read kind limits spelling input = .ok e rest) :
    e.kind = kind ∧ e.write.Restores True input rest := by
  cases kind with
  | alt =>
    obtain ⟨a, ha, rfl⟩ := Reader.map_eq_ok.mp h
    exact ⟨rfl, (AltEndorsement.normalises.of_ok ha).1⟩
  | vbk =>
    obtain ⟨a, ha, rfl⟩ := Reader.map_eq_ok.mp h
    exact ⟨rfl, (VbkEndorsement.normalises.of_ok ha).1⟩

theorem misfits_other (e : Endorsement) (limits : Limits) :
    (read e.kind.other limits).Misfits e.write := by
  cases e with
  | alt e => exact (e.misfits limits).map vbk
  | vbk e => exact (e.misfits limits).map alt

/-- An input that is read as one kind is refused as the other, at a length, and under any limits.
What is written of an endorsement comes back as its own kind, without the payout. -/
theorem kinds_exclusive :
    (∀ (kind : EndorsementKind) (limits limits' : Limits) (input rest : Bytes) (e : Endorsement),
      read kind limits .any input = .ok e rest →
      Reader.EndsAtLength (read kind.other limits' .any input)) ∧
    ∀ (e : Endorsement) (bytes : Bytes), e.write.toBytes = .ok bytes →
      (∀ limits : Limits, limits.Admits e → read e.kind limits .any bytes = .ok e.stored []) ∧
      ∀ limits, Reader.EndsAtLength (read e.kind.other limits .any bytes) := by
  refine ⟨fun kind limits limits' input rest e h => ?_, fun e bytes h => ?_⟩
  · obtain ⟨rfl, bytes, hwrite, hinput⟩ := restores h
    rw [hinput trivial]
    exact (misfits_other e limits').endsAtLength hwrite .any rest
  · have hwrite := Writer.toBytes_eq_ok.mp h
    refine ⟨fun limits hl => ?_, fun limits => ?_⟩
    · exact Reader.whole_eq_ok.mp ((inverts_stored hl).whole_eq_ok hwrite .any)
    · have hends := (misfits_other e limits).endsAtLength hwrite .any []
      rwa [List.append_nil] at hends

/-- An altchain endorsement with hashes as long as those of VeriBlock. -/
def sample : Endorsement :=
  .alt ⟨.zero 32, List.replicate 24 1, List.replicate 24 2, .zero 24, [3]⟩

theorem kinds_exclusive_sample : ∃ bytes, sample.write.toBytes = .ok bytes ∧
    (({} : Limits).Admits sample ∧ read .alt {} .any bytes = .ok sample.stored []) ∧
      Reader.EndsAtLength (read .vbk {} .any bytes) := by
  obtain ⟨hread, hwrite⟩ := kinds_exclusive
  obtain ⟨bytes, hbytes⟩ : ∃ bytes, sample.write.toBytes = .ok bytes := exists_eq_ok (by decide)
  obtain ⟨hown, -⟩ := hwrite sample bytes hbytes
  have hadmits : ({} : Limits).Admits sample :=
    ⟨⟨by decide, by decide⟩, by decide, by decide⟩
  exact ⟨bytes, hbytes, ⟨hadmits, hown {} hadmits⟩,
    hread .alt {} {} bytes [] sample.stored (hown {} hadmits)⟩

end Endorsement

end ProofOfProof
