import ProofOfProof.Payload.Version
import ProofOfProof.Proofs.Integer
import ProofOfProof.Wire.TypeTag

/-! What stands in front of payloads and transactions: a version, and a tag that tells its own
length. -/

namespace ProofOfProof

variable {spelling : Spelling} {input rest : Bytes}

theorem Reader.Inverts.version (entity : String) (version : UInt32) :
    (Reader.version entity).Inverts (Writer.version entity version) version := by
  intro bytes hb spelling rest
  by_cases hv : version = payloadVersion
  · rw [Writer.version, if_pos hv] at hb
    refine (uint32 version).last ?_ bytes hb spelling rest
    rw [if_pos hv]
  · rw [Writer.version, if_neg hv] at hb
    cases hb

theorem Writer.Restores.version {entity : String} {version : UInt32} {faithful : Prop}
    (h : Reader.version entity spelling input = .ok version rest) :
    (Writer.version entity version).Restores faithful input rest := by
  obtain ⟨word, mid, hword, hv⟩ := Reader.bind_eq_ok.mp h
  by_cases hw : word = payloadVersion
  · rw [if_pos hw] at hv
    obtain ⟨rfl, rfl⟩ := Reader.pure_eq_ok.mp hv
    rw [Writer.version, if_pos hw]
    exact uint32 hword
  · rw [if_neg hw] at hv
    cases hv

theorem TypeTag.write_eq_ok {tag : TypeTag} {bytes : Bytes} : tag.write = ⟨bytes, .ok ()⟩ ↔
    tag.network ≠ some tag.type ∧ bytes = tag.network.toList ++ [tag.type] := by
  obtain ⟨network, type⟩ := tag
  cases network with
  | none =>
    change Writer.emit [type] = _ ↔ _
    simp [Writer.emit_eq_ok]
  | some network =>
    by_cases h : network = type
    · have hf : write ⟨some network, type⟩ = .fail (.constraint (.networkCollision network)) :=
        if_pos h
      rw [hf, Writer.fail, Writer.mk.injEq]
      simp [h]
    · have hw : write ⟨some network, type⟩ = ⟨[network, type], .ok ()⟩ := if_neg h
      rw [hw, Writer.mk.injEq, eq_comm]
      simp [h]

theorem TypeTag.write_atMost (tag : TypeTag) : tag.write.AtMost 2 := by
  intro bytes hb
  obtain ⟨-, rfl⟩ := write_eq_ok.mp hb
  cases tag.network <;> simp

/-- A network byte is told from the type because it differs from it. -/
theorem TypeTag.inverts {tag : TypeTag} {expected : UInt8} (h : tag.type = expected) :
    (TypeTag.read expected).Inverts tag.write tag := by
  obtain ⟨network, type⟩ := tag
  intro bytes hb spelling rest
  obtain ⟨hne, rfl⟩ := write_eq_ok.mp hb
  obtain rfl : type = expected := h
  cases network with
  | none =>
    have hfirst : Reader.byte spelling ([type] ++ rest) = .ok type rest := rfl
    rw [Option.toList_none, List.nil_append, read, Reader.bind_of_ok hfirst, if_pos rfl]
    rfl
  | some network =>
    have hfirst : Reader.byte spelling ([network] ++ [type] ++ rest) = .ok network (type :: rest) :=
      rfl
    have hsecond : Reader.byte spelling (type :: rest) = .ok type rest := rfl
    have hn : ¬ network = type := fun hh => hne (by rw [hh])
    rw [Option.toList_some, read, Reader.bind_of_ok hfirst, if_neg hn, Reader.bind_of_ok hsecond,
      if_pos rfl]
    rfl

theorem TypeTag.restores {tag : TypeTag} {expected : UInt8} {faithful : Prop}
    (h : read expected spelling input = .ok tag rest) :
    tag.type = expected ∧ tag.write.Restores faithful input rest := by
  obtain ⟨first, mid, hfirst, hnext⟩ := Reader.bind_eq_ok.mp h
  obtain rfl := Reader.byte_eq_ok.mp hfirst
  by_cases he : first = expected
  · rw [if_pos he] at hnext
    obtain ⟨rfl, rfl⟩ := Reader.pure_eq_ok.mp hnext
    exact ⟨he, .emit rfl⟩
  · rw [if_neg he] at hnext
    obtain ⟨second, mid', hsecond, hlast⟩ := Reader.bind_eq_ok.mp hnext
    obtain rfl := Reader.byte_eq_ok.mp hsecond
    by_cases hs : second = expected
    · rw [if_pos hs] at hlast
      obtain ⟨rfl, rfl⟩ := Reader.pure_eq_ok.mp hlast
      have hne : some first ≠ some second := fun hh => he (by rw [← hs, Option.some.inj hh])
      exact ⟨hs, [first, second], write_eq_ok.mpr ⟨hne, rfl⟩, fun _ => rfl⟩
    · rw [if_neg hs] at hlast
      cases hlast

end ProofOfProof
