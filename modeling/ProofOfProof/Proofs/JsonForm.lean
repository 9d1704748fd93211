import Mathlib.Data.List.Basic
import ProofOfProof.Form.Payload
import ProofOfProof.Form.Record
import ProofOfProof.Proofs.Status

/-! What is put into JSON is what comes out of it. A form is lawful where this holds of every value
and where every value has a text; records are lawful if their fields are. -/

namespace ProofOfProof

class LawfulForm (α : Type) [JsonForm α] : Prop where
  ofJson_toJson (a : α) : ofJson (toJson a) = some a
  hasText_toJson (a : α) : (toJson a).hasText = true

export LawfulForm (ofJson_toJson hasText_toJson)

attribute [simp] LawfulForm.ofJson_toJson LawfulForm.hasText_toJson

namespace Json

theorem hasText_array {items : List Json} :
    (array items).hasText = true ↔ ∀ item ∈ items, item.hasText = true := by
  rw [hasText]
  induction items with
  | nil => simp [itemsHaveText]
  | cons item items ih => simp [itemsHaveText, ih]

theorem hasText_record (names : List String) {values : List Json}
    (h : ∀ value ∈ values, value.hasText = true) : (record names values).hasText = true := by
  rw [record, hasText]
  induction names generalizing values with
  | nil => simp [membersHaveText]
  | cons name names ih =>
    cases values with
    | nil => simp [membersHaveText]
    | cons value values =>
      obtain ⟨hvalue, hvalues⟩ := List.forall_mem_cons.mp h
      simp [membersHaveText, hvalue, ih hvalues]

def nameIs (name : String) (member : Json × Json) : Bool :=
  match member.1 with
  | string text => text == name
  | _ => false

theorem nameIs_iff {name : String} {member : Json × Json} :
    nameIs name member = true ↔ member.1 = .string name := by
  obtain ⟨key, value⟩ := member
  cases key <;> simp [nameIs]

theorem member_eq (name : String) (absent : Option Json) (members : List (Json × Json)) :
    member name absent members =
      match members.filter (nameIs name) with
      | [] => absent
      | [m] => some m.2
      | _ => none := rfl

/-- A member is found between others of other names. -/
theorem member_append {name : String} {value : Json} {front back : List (Json × Json)}
    (hf : ∀ m ∈ front, m.1 ≠ .string name) (hb : ∀ m ∈ back, m.1 ≠ .string name)
    (absent : Option Json) : member name absent (front ++ (.string name, value) :: back) =
      some value := by
  have hnone {ms : List (Json × Json)} (h : ∀ m ∈ ms, m.1 ≠ .string name) :
      ms.filter (nameIs name) = [] :=
    List.filter_eq_nil_iff.mpr fun m hm hname => h m hm (nameIs_iff.mp hname)
  have hself : nameIs name (.string name, value) = true := nameIs_iff.mpr rfl
  rw [member_eq, List.filter_append, List.filter_cons_of_pos hself, hnone hf, hnone hb]
  rfl

theorem fst_of_mem_zip {names : List String} {values : List Json} {m : Json × Json}
    (h : m ∈ (names.map string).zip values) : ∃ name ∈ names, m.1 = .string name := by
  obtain ⟨name, hname, he⟩ := List.mem_map.mp (List.of_mem_zip h).1
  exact ⟨name, hname, he.symm⟩

/-- The induction drops names and keeps members, which stay behind in `front`. -/
theorem mapM_member {names : List (String × Option Json)} {values : List Json}
    (hn : (names.map Prod.fst).Nodup) (hl : names.length = values.length)
    (front : List (Json × Json)) (hf : ∀ m ∈ front, ∀ n ∈ names, m.1 ≠ .string n.1) :
    names.mapM (fun n => member n.1 n.2
      (front ++ ((names.map Prod.fst).map string).zip values)) = some values := by
  induction names generalizing values front with
  | nil =>
    cases values with
    | nil => rfl
    | cons value values => cases hl
  | cons name names ih =>
    cases values with
    | nil => cases hl
    | cons value values =>
      obtain ⟨hname, hnames⟩ := List.nodup_cons.mp hn
      have hback : ∀ m ∈ ((names.map Prod.fst).map string).zip values, m.1 ≠ .string name.1 := by
        intro m hm he
        obtain ⟨other, hother, hm⟩ := fst_of_mem_zip hm
        rw [hm, Json.string.injEq] at he
        exact hname (he ▸ hother)
      have hfront : ∀ m ∈ front ++ [(string name.1, value)], ∀ n ∈ names, m.1 ≠ .string n.1 := by
        intro m hm n hmem he
        rcases List.mem_append.mp hm with hm | hm
        · exact hf m hm n (List.mem_cons_of_mem name hmem) he
        · obtain rfl := List.mem_singleton.mp hm
          exact hname (Json.string.inj he ▸ List.mem_map_of_mem hmem)
      have hrest := ih hnames (Nat.succ.inj hl) _ hfront
      rw [List.append_assoc, List.singleton_append] at hrest
      have hfirst : member name.1 name.2 (front ++ (string name.1, value) ::
          ((names.map Prod.fst).map string).zip values) = some value :=
        member_append (fun m hm => hf m hm name List.mem_cons_self) hback name.2
      rw [List.map_cons, List.map_cons, List.zip_cons_cons, List.mapM_cons, hfirst, hrest]
      rfl

theorem fields_record {names : List (String × Option Json)} {values : List Json} (shorter : Bool)
    (hn : (names.map Prod.fst).Nodup) (hl : names.length = values.length) :
    (record (names.map Prod.fst) values).fields names shorter = some values := by
  have hstrings : (((names.map Prod.fst).map string).zip values).all (·.1.isString) = true := by
    rw [List.all_eq_true]
    intro m hm
    obtain ⟨name, -, hm⟩ := fst_of_mem_zip hm
    rw [hm, isString]
  rw [record, fields, if_pos hstrings]
  exact mapM_member hn hl [] nofun

theorem fieldsOf_record {names : List String} {values : List Json}
    (hn : names.Nodup) (hl : names.length = values.length) :
    (record names values).fieldsOf names = some values := by
  let required := names.map fun name => (name, (none : Option Json))
  have hfst : required.map Prod.fst = names := by simp [required, Function.comp_def]
  have hrecord : (record (required.map Prod.fst) values).fields required false = some values :=
    fields_record false (by rwa [hfst]) (by rwa [List.length_map])
  rwa [hfst] at hrecord

/-- A reader of records on the record that was written. -/
theorem bind_fieldsOf_record {α : Type} {names : List String} {values : List Json}
    {next : List Json → Option α} {a : α} (hn : names.Nodup) (hl : names.length = values.length)
    (h : next values = some a) : (record names values).fieldsOf names >>= next = some a := by
  rw [fieldsOf_record hn hl]
  exact h

theorem map_integerIn {α : Type} {f : Int → α} {min max n : Int} {a : α} (h : min ≤ n ∧ n ≤ max)
    (hf : f n = a) : f <$> (integer n).integerIn min max = some a := by
  rw [integerIn, if_pos h, ← hf]
  rfl

end Json

section Scalars

instance : LawfulForm UInt8 where
  ofJson_toJson n := Json.map_integerIn (by have := n.toNat_lt; omega) (by simp)
  hasText_toJson _ := rfl

instance : LawfulForm UInt32 where
  ofJson_toJson n := Json.map_integerIn (by have := n.toNat_lt; omega) (by simp)
  hasText_toJson _ := rfl

instance : LawfulForm UInt64 where
  ofJson_toJson n := Json.map_integerIn (by have := n.toNat_lt; omega) (by simp)
  hasText_toJson _ := rfl

instance : LawfulForm Int16 where
  ofJson_toJson n := Json.map_integerIn
    (by have := n.le_toInt; have := n.toInt_lt; omega) (by simp)
  hasText_toJson _ := rfl

instance : LawfulForm Int32 where
  ofJson_toJson n := Json.map_integerIn
    (by have := n.le_toInt; have := n.toInt_lt; omega) (by simp)
  hasText_toJson _ := rfl

instance : LawfulForm Int64 where
  ofJson_toJson n := Json.map_integerIn
    (by have := n.le_toInt; have := n.toInt_lt; omega) (by simp)
  hasText_toJson _ := rfl

instance {α : Type} [JsonForm α] [LawfulForm α] : LawfulForm (List α) where
  ofJson_toJson items := by
    change (items.map toJson).mapM ofJson = some items
    induction items with
    | nil => rfl
    | cons a items ih => simp [ih]
  hasText_toJson items := by
    change (Json.array (items.map toJson)).hasText = true
    simp [Json.hasText_array]

instance {n : Nat} : LawfulForm (Fixed n) where
  ofJson_toJson bytes := by
    change ofJson (toJson bytes.val) >>= Fixed.ofBytes? n = some bytes
    rw [ofJson_toJson]
    exact dif_pos bytes.property
  hasText_toJson bytes := hasText_toJson bytes.val

instance : LawfulForm (Option UInt8) where
  ofJson_toJson network := by
    cases network with
    | none => rfl
    | some n =>
      change some <$> ofJson (toJson n) = some (some n)
      rw [ofJson_toJson]
      rfl
  hasText_toJson network := by
    cases network with
    | none => rfl
    | some n => exact hasText_toJson n

instance : LawfulForm Address where
  ofJson_toJson a := by
    change (Address.parse a.text).toOption = some a
    rw [Address.parse_text]
    rfl
  hasText_toJson _ := rfl

instance : LawfulForm BlockStatus where
  ofJson_toJson status := by
    change ofJson (toJson status.bits) >>= (fun word => (BlockStatus.ofBits word).toOption) = _
    rw [ofJson_toJson]
    change (BlockStatus.ofBits status.bits).toOption = some status
    rw [BlockStatus.ofBits_bits]
    rfl
  hasText_toJson status := hasText_toJson status.bits

instance : LawfulForm Coin where
  ofJson_toJson coin := by
    change Coin.mk <$> ofJson (toJson coin.units) = some coin
    rw [ofJson_toJson]
    rfl
  hasText_toJson coin := hasText_toJson coin.units

instance : LawfulForm BtcTx where
  ofJson_toJson tx := by
    change BtcTx.mk <$> ofJson (toJson tx.bytes) = some tx
    rw [ofJson_toJson]
    rfl
  hasText_toJson tx := hasText_toJson tx.bytes

end Scalars

section Records

instance : LawfulForm TypeTag where
  ofJson_toJson tag := by
    let names : List (String × Option Json) := [("network_byte", some .null), ("type_id", none)]
    have hfields : (toJson tag).fields names false = some [toJson tag.network, toJson tag.type] :=
      Json.fields_record false (by decide) rfl
    refine (congrArg (· >>= _) hfields).trans ?_
    simp
  hasText_toJson tag := Json.hasText_record _ (by simp)

instance : LawfulForm AltBlock where
  ofJson_toJson _ := Json.bind_fieldsOf_record (by decide) rfl (by simp)
  hasText_toJson _ := Json.hasText_record _ (by simp)

instance : LawfulForm BtcBlock where
  ofJson_toJson _ := Json.bind_fieldsOf_record (by decide) rfl (by simp)
  hasText_toJson _ := Json.hasText_record _ (by simp)

instance : LawfulForm VbkBlock where
  ofJson_toJson _ := Json.bind_fieldsOf_record (by decide) rfl (by simp)
  hasText_toJson _ := Json.hasText_record _ (by simp)

instance : LawfulForm MerklePath where
  ofJson_toJson _ := Json.bind_fieldsOf_record (by decide) rfl (by simp)
  hasText_toJson _ := Json.hasText_record _ (by simp)

instance : LawfulForm PackagePath where
  ofJson_toJson _ := Json.bind_fieldsOf_record (by decide) rfl (by simp)
  hasText_toJson _ := Json.hasText_record _ (by simp)

instance : LawfulForm Output where
  ofJson_toJson _ := Json.bind_fieldsOf_record (by decide) rfl (by simp)
  hasText_toJson _ := Json.hasText_record _ (by simp)

instance : LawfulForm Publication where
  ofJson_toJson _ := Json.bind_fieldsOf_record (by decide) rfl (by simp)
  hasText_toJson _ := Json.hasText_record _ (by simp)

instance : LawfulForm TransferTx where
  ofJson_toJson _ := Json.bind_fieldsOf_record (by decide) rfl (by simp)
  hasText_toJson _ := Json.hasText_record _ (by simp)

instance : LawfulForm ProofTx where
  ofJson_toJson _ := Json.bind_fieldsOf_record (by decide) rfl (by simp)
  hasText_toJson _ := Json.hasText_record _ (by simp)

instance : LawfulForm Atv where
  ofJson_toJson _ := Json.bind_fieldsOf_record (by decide) rfl (by simp)
  hasText_toJson _ := Json.hasText_record _ (by simp)

instance : LawfulForm Vtb where
  ofJson_toJson _ := Json.bind_fieldsOf_record (by decide) rfl (by simp)
  hasText_toJson _ := Json.hasText_record _ (by simp)

instance : LawfulForm PopData where
  ofJson_toJson _ := Json.bind_fieldsOf_record (by decide) rfl (by simp)
  hasText_toJson _ := Json.hasText_record _ (by simp)

instance : LawfulForm AltEndorsement where
  ofJson_toJson _ := Json.bind_fieldsOf_record (by decide) rfl (by simp)
  hasText_toJson _ := Json.hasText_record _ (by simp)

instance : LawfulForm VbkEndorsement where
  ofJson_toJson _ := Json.bind_fieldsOf_record (by decide) rfl (by simp)
  hasText_toJson _ := Json.hasText_record _ (by simp)

instance : LawfulForm Endorsement where
  ofJson_toJson e := by
    cases e with
    | alt e =>
      change Endorsement.alt <$> ofJson (toJson e) = _
      rw [ofJson_toJson]
      rfl
    | vbk e =>
      change Endorsement.vbk <$> ofJson (toJson e) = _
      rw [ofJson_toJson]
      rfl
  hasText_toJson e := by
    cases e with
    | alt e => exact Json.hasText_record _ (by simp)
    | vbk e => exact Json.hasText_record _ (by simp)

instance {α : Type} [JsonForm α] [LawfulForm α] : LawfulForm (PopState α) where
  ofJson_toJson _ := Json.bind_fieldsOf_record (by decide) rfl (by simp)
  hasText_toJson _ := Json.hasText_record _ (by simp)

instance : LawfulForm BtcAddon where
  ofJson_toJson _ := Json.bind_fieldsOf_record (by decide) rfl (by simp)
  hasText_toJson _ := Json.hasText_record _ (by simp)

instance : LawfulForm VbkAddon where
  ofJson_toJson _ := Json.bind_fieldsOf_record (by decide) rfl (by simp)
  hasText_toJson _ := Json.hasText_record _ (by simp)

instance : LawfulForm AltAddon where
  ofJson_toJson _ := Json.bind_fieldsOf_record (by decide) rfl (by simp)
  hasText_toJson _ := Json.hasText_record _ (by simp)

end Records

end ProofOfProof
