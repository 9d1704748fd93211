import ProofOfProof.Form.Payload

/-! Where the addresses of a value come from that was read from JSON: from strings in it, each of
which passed the checks on addresses. No type has a second way in. -/

namespace ProofOfProof

namespace Json

/-- `part` is the value, or an item or a member somewhere in it. -/
inductive Occurs (part : Json) : Json → Prop
  | self : Occurs part part
  | item {items : List Json} {item : Json} (hi : item ∈ items) (h : Occurs part item) :
    Occurs part (.array items)
  | member {members : List (Json × Json)} {member : Json × Json} (hm : member ∈ members)
    (h : Occurs part member.2) : Occurs part (.object members)

theorem Occurs.trans {part inner outer : Json} (h : Occurs part inner) (ho : Occurs inner outer) :
    Occurs part outer := by
  induction ho with
  | self => exact h
  | item hi _ ih => exact .item hi ih
  | member hm _ ih => exact .member hm ih

theorem exists_of_mapM_eq_some {α β : Type} {f : α → Option β} {items : List α} {results : List β}
    (h : items.mapM f = some results) {result : β} (hr : result ∈ results) :
    ∃ a ∈ items, f a = some result := by
  induction items generalizing results with
  | nil =>
    cases h
    cases hr
  | cons a items ih =>
    rw [List.mapM_cons] at h
    obtain ⟨first, hfirst, h⟩ := Option.bind_eq_some_iff.mp h
    obtain ⟨others, hothers, h⟩ := Option.bind_eq_some_iff.mp h
    cases h
    rcases List.mem_cons.mp hr with rfl | hr
    · exact ⟨a, List.mem_cons_self, hfirst⟩
    · obtain ⟨b, hb, hresult⟩ := ih hothers hr
      exact ⟨b, List.mem_cons_of_mem a hb, hresult⟩

theorem mem_of_member {name : String} {members : List (Json × Json)} {value : Json}
    (h : member name none members = some value) : ∃ m ∈ members, m.2 = value := by
  rw [member] at h
  split at h
  · cases h
  · next m hm =>
    have hmem : m ∈ [m] := List.mem_singleton_self m
    rw [← hm] at hmem
    exact ⟨m, (List.mem_filter.mp hmem).1, Option.some.inj h⟩
  · cases h

theorem occurs_of_fieldsOf {json : Json} {names : List String} {values : List Json}
    (h : json.fieldsOf names = some values) {value : Json} (hv : value ∈ values) :
    Occurs value json := by
  rw [fieldsOf] at h
  cases json with
  | object members =>
    rw [fields] at h
    split at h
    · obtain ⟨name, hname, hmember⟩ := exists_of_mapM_eq_some h hv
      obtain ⟨text, -, rfl⟩ := List.mem_map.mp hname
      obtain ⟨m, hm, rfl⟩ := mem_of_member hmember
      exact .member hm .self
    · cases h
  | array items =>
    rw [fields] at h
    split at h
    · cases h
      exact .item hv .self
    · cases h
  | null => cases h
  | bool b => cases h
  | integer n => cases h
  | string text => cases h
  | foreign => cases h

theorem bind_fieldsOf_eq_some {α : Type} {json : Json} {names : List String}
    {next : List Json → Option α} {a : α} (h : json.fieldsOf names >>= next = some a) :
    ∃ values, (∀ value ∈ values, Occurs value json) ∧ next values = some a := by
  obtain ⟨values, hvalues, h⟩ := Option.bind_eq_some_iff.mp h
  exact ⟨values, fun _ => occurs_of_fieldsOf hvalues, h⟩

/-- Some string in `json` is parsed to the address. -/
def Spells (json : Json) (a : Address) : Prop :=
  ∃ text, Occurs (.string text) json ∧ Address.parse text = .ok a

theorem Spells.of_occurs {part json : Json} {a : Address} (h : part.Spells a)
    (ho : Occurs part json) : json.Spells a := by
  obtain ⟨text, htext, hparse⟩ := h
  exact ⟨text, htext.trans ho, hparse⟩

end Json

/-- Types whose values hold addresses. The addresses of what is read from JSON are spelled in it. -/
class Addressed (α : Type) [JsonForm α] where
  addresses : α → List Address
  spells {json : Json} {a : α} (h : ofJson json = some a) : ∀ x ∈ addresses a, json.Spells x

export Addressed (addresses)

theorem Addressed.spells_of_occurs {α : Type} [JsonForm α] [Addressed α] {part json : Json} {a : α}
    (h : ofJson part = some a) (ho : Json.Occurs part json) : ∀ x ∈ addresses a, json.Spells x :=
  fun x hx => (spells h x hx).of_occurs ho

theorem spells_append {json : Json} {xs ys : List Address} (hx : ∀ x ∈ xs, json.Spells x)
    (hy : ∀ y ∈ ys, json.Spells y) : ∀ x ∈ xs ++ ys, json.Spells x :=
  List.forall_mem_append.mpr ⟨hx, hy⟩

open Addressed Json

instance : Addressed Address where
  addresses a := [a]
  spells {json} {a} h := by
    cases json with
    | string text =>
      change (Address.parse text).toOption = some a at h
      rw [List.forall_mem_singleton]
      cases hparse : Address.parse text with
      | error fault =>
        rw [hparse] at h
        cases h
      | ok b =>
        rw [hparse] at h
        cases h
        exact ⟨text, .self, hparse⟩
    | _ => cases h

instance {α : Type} [JsonForm α] [Addressed α] : Addressed (List α) where
  addresses items := items.flatMap addresses
  spells {json} {items} h := by
    cases json with
    | array parts =>
      intro x hx
      obtain ⟨a, ha, hx⟩ := List.mem_flatMap.mp hx
      obtain ⟨part, hpart, hread⟩ := exists_of_mapM_eq_some h ha
      exact spells_of_occurs hread (.item hpart .self) x hx
    | _ => cases h

instance : Addressed Output where
  addresses output := addresses output.address
  spells {json} {output} h := by
    obtain ⟨values, hocc, h⟩ := bind_fieldsOf_eq_some h
    split at h
    · simp only [Option.bind_eq_bind, Option.bind_eq_some_iff, Option.pure_def] at h
      obtain ⟨address, haddress, coin, -, h⟩ := h
      cases h
      exact spells_of_occurs haddress (hocc _ (by simp))
    · cases h

instance : Addressed TransferTx where
  addresses tx := addresses tx.source ++ addresses tx.outputs
  spells {json} {tx} h := by
    obtain ⟨values, hocc, h⟩ := bind_fieldsOf_eq_some h
    split at h
    · simp only [Option.bind_eq_bind, Option.bind_eq_some_iff, Option.pure_def] at h
      obtain ⟨tag, -, source, hsource, amount, -, outputs, houtputs, h⟩ := h
      obtain ⟨signatureIndex, -, publication, -, signature, -, publicKey, -, h⟩ := h
      cases h
      exact spells_append (spells_of_occurs hsource (hocc _ (by simp)))
        (spells_of_occurs houtputs (hocc _ (by simp)))
    · cases h

instance : Addressed ProofTx where
  addresses tx := addresses tx.address
  spells {json} {tx} h := by
    obtain ⟨values, hocc, h⟩ := bind_fieldsOf_eq_some h
    split at h
    · simp only [Option.bind_eq_bind, Option.bind_eq_some_iff, Option.pure_def] at h
      obtain ⟨tag, -, address, haddress, published, -, btcTx, -, path, -, h⟩ := h
      obtain ⟨blockOfProof, -, context, -, signature, -, publicKey, -, h⟩ := h
      cases h
      exact spells_of_occurs haddress (hocc _ (by simp))
    · cases h

instance : Addressed Atv where
  addresses atv := addresses atv.transaction
  spells {json} {atv} h := by
    obtain ⟨values, hocc, h⟩ := bind_fieldsOf_eq_some h
    split at h
    · simp only [Option.bind_eq_bind, Option.bind_eq_some_iff, Option.pure_def] at h
      obtain ⟨version, -, transaction, htransaction, path, -, blockOfProof, -, h⟩ := h
      cases h
      exact spells_of_occurs htransaction (hocc _ (by simp))
    · cases h

instance : Addressed Vtb where
  addresses vtb := addresses vtb.transaction
  spells {json} {vtb} h := by
    obtain ⟨values, hocc, h⟩ := bind_fieldsOf_eq_some h
    split at h
    · simp only [Option.bind_eq_bind, Option.bind_eq_some_iff, Option.pure_def] at h
      obtain ⟨version, -, transaction, htransaction, path, -, containing, -, h⟩ := h
      cases h
      exact spells_of_occurs htransaction (hocc _ (by simp))
    · cases h

instance : Addressed PopData where
  addresses pop := addresses pop.vtbs ++ addresses pop.atvs
  spells {json} {pop} h := by
    obtain ⟨values, hocc, h⟩ := bind_fieldsOf_eq_some h
    split at h
    · simp only [Option.bind_eq_bind, Option.bind_eq_some_iff, Option.pure_def] at h
      obtain ⟨version, -, context, -, vtbs, hvtbs, atvs, hatvs, h⟩ := h
      cases h
      exact spells_append (spells_of_occurs hvtbs (hocc _ (by simp)))
        (spells_of_occurs hatvs (hocc _ (by simp)))
    · cases h

end ProofOfProof
