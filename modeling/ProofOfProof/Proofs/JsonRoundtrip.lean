import ProofOfProof.Entity
import ProofOfProof.Proofs.JsonForm
import ProofOfProof.Proofs.JsonOrigin
import ProofOfProof.Proofs.JsonText

/-! Values in JSON texts. Limits play no part: every value has a text, from which it is read back,
but for payouts, whose destinations would be names. And no text is a way around the checks on
addresses and on status words. -/

namespace ProofOfProof

/-- The types with a form in JSON. Those with one on the wire share its index. -/
inductive JsonType
  | entity (kind : EntityKind)
  | merklePath
  | endorsement
  | status

namespace JsonType

abbrev Value : JsonType → Type
  | entity kind => kind.Value
  | merklePath => MerklePath
  | endorsement => Endorsement
  | status => BlockStatus

def form? : (type : JsonType) → Option (JsonForm type.Value)
  | entity kind => kind.jsonForm?
  | merklePath => some (inferInstanceAs (JsonForm MerklePath))
  | endorsement => some (inferInstanceAs (JsonForm Endorsement))
  | status => some (inferInstanceAs (JsonForm BlockStatus))

/-- The values with a text: all but payouts that owe something. -/
def Printable : (type : JsonType) → type.Value → Prop
  | entity .payouts, payouts => payouts.entries = []
  | _, _ => True

/-- The addresses in a value. -/
def addresses : (type : JsonType) → type.Value → List Address
  | entity .address, a => Addressed.addresses a
  | entity .output, output => Addressed.addresses output
  | entity .transferTx, tx => Addressed.addresses tx
  | entity .proofTx, tx => Addressed.addresses tx
  | entity .atv, atv => Addressed.addresses atv
  | entity .vtb, vtb => Addressed.addresses vtb
  | entity .popData, pop => Addressed.addresses pop
  | _, _ => []

def statuses : (type : JsonType) → type.Value → List BlockStatus
  | status, s => [s]
  | _, _ => []

end JsonType

section Values

variable {α : Type} [JsonForm α]

/-- `a` has a text where it is `printable`, and there its form gives it back. -/
structure Survives (a : α) (printable : Prop) : Prop where
  hasText : (toJson a).hasText = true ↔ printable
  back : printable → ofJson (toJson a) = some a

theorem LawfulForm.survives [LawfulForm α] (a : α) : Survives a True :=
  ⟨iff_of_true (hasText_toJson a) trivial, fun _ => ofJson_toJson a⟩

theorem Survives.toJsonText_eq {a : α} {printable : Prop} (h : Survives a printable) :
    (printable → ∃ text, toJsonText a = .ok text ∧ ofJsonText? text = some a) ∧
      (¬ printable → toJsonText a = .error (.content .memberName)) := by
  refine ⟨fun hp => ?_, fun hp => ?_⟩
  · have htext : (toJson a).text? = some (String.ofList ((toJson a).render [])) := by
      rw [Json.text?, if_pos (h.hasText.mpr hp)]
    refine ⟨_, by rw [toJsonText, htext], ?_⟩
    rw [ofJsonText?, Json.parse_of_text? htext]
    exact h.back hp
  · have htext : (toJson a).text? = none := by
      rw [Json.text?, if_neg fun ht => hp (h.hasText.mp ht)]
    rw [toJsonText, htext]

end Values

theorem Payouts.survives (payouts : Payouts) : Survives payouts (payouts.entries = []) := by
  obtain ⟨entries, ascending⟩ := payouts
  cases entries with
  | nil =>
    refine ⟨iff_of_true (Json.hasText_record _ ?_) rfl, fun _ => ?_⟩
    · simp [Json.hasText, Json.membersHaveText]
    · exact Json.bind_fieldsOf_record (by decide) rfl rfl
  | cons entry entries =>
    refine ⟨iff_of_false (Bool.eq_false_iff.mp ?_) (List.cons_ne_nil _ _), fun he => ?_⟩
    · rfl
    · cases he

namespace JsonType

theorem survives (type : JsonType) [form : JsonForm type.Value] (h : type.form? = some form)
    (v : type.Value) : Survives v (type.Printable v) := by
  cases type with
  | entity kind =>
    cases kind with
    | payouts =>
      cases h
      exact Payouts.survives v
    | index chain => cases h
    | _ =>
      cases h
      exact LawfulForm.survives v
  | _ =>
    cases h
    exact LawfulForm.survives v

theorem spells (type : JsonType) [form : JsonForm type.Value] (h : type.form? = some form)
    {json : Json} {v : type.Value} (hv : ofJson json = some v) :
    ∀ a ∈ type.addresses v, json.Spells a := by
  cases type with
  | entity kind =>
    cases kind with
    | address | output | transferTx | proofTx | atv | vtb | popData =>
      cases h
      exact Addressed.spells hv
    | _ => exact nofun
  | _ => exact nofun

theorem exists_word (type : JsonType) [form : JsonForm type.Value] (h : type.form? = some form)
    {json : Json} {v : type.Value} (hv : ofJson json = some v) :
    ∀ s ∈ type.statuses v, ∃ word : UInt32, ofJson json = some word ∧
      BlockStatus.ofBits word = .ok s := by
  cases type with
  | status =>
    cases h
    intro s hs
    obtain rfl := List.mem_singleton.mp hs
    obtain ⟨word, hword, hbits⟩ := Option.bind_eq_some_iff.mp hv
    refine ⟨word, hword, ?_⟩
    cases hok : BlockStatus.ofBits word with
    | error fault =>
      rw [hok] at hbits
      cases hbits
    | ok status =>
      rw [hok] at hbits
      cases hbits
      rfl
  | _ => exact nofun

/-- All values but payouts that owe something have a text, and are read back from it. What is read
from any text has passed the checks on the addresses and on the status word that stand in it. -/
theorem text_faithful (type : JsonType) [form : JsonForm type.Value] (h : type.form? = some form) :
    (∀ v : type.Value,
      (type.Printable v → ∃ text, toJsonText v = .ok text ∧ ofJsonText? text = some v) ∧
      (¬ type.Printable v → toJsonText v = .error (.content .memberName))) ∧
    ∀ (text : String) (v : type.Value), ofJsonText? text = some v →
      ∃ json, Json.parse text = some json ∧ (∀ a ∈ type.addresses v, json.Spells a) ∧
        ∀ s ∈ type.statuses v, ∃ word : UInt32, ofJson json = some word ∧
          BlockStatus.ofBits word = .ok s := by
  refine ⟨fun v => (type.survives h v).toJsonText_eq, fun text v hv => ?_⟩
  obtain ⟨json, hparse, hjson⟩ := Option.bind_eq_some_iff.mp hv
  exact ⟨json, hparse, type.spells h hjson, type.exists_word h hjson⟩

theorem text_faithful_samples :
    (toJsonText (Payouts.empty.add [1] 5) = .error (.content .memberName) ∧
      ∃ text, toJsonText Payouts.empty = .ok text ∧ ofJsonText? text = some Payouts.empty) ∧
    ∃ text, ofJsonText? text = some (Address.ofPublicKey [1]) ∧
      ∃ json, Json.parse text = some json ∧ json.Spells (Address.ofPublicKey [1]) := by
  obtain ⟨hpayouts, -⟩ := text_faithful (.entity .payouts) rfl
  obtain ⟨haddress, hread⟩ := text_faithful (.entity .address) rfl
  have howes : (Payouts.empty.add [1] 5).entries ≠ [] := by decide
  obtain ⟨text, -, hback⟩ := (haddress (Address.ofPublicKey [1])).1 trivial
  obtain ⟨json, hjson, hspells, -⟩ := hread text _ hback
  exact ⟨⟨(hpayouts _).2 howes, (hpayouts Payouts.empty).1 rfl⟩,
    text, hback, json, hjson, hspells _ (List.mem_singleton_self _)⟩

end JsonType

end ProofOfProof
