import ProofOfProof.Wire.Writer

/-! When a writer reaches its end, and with which bytes. -/

namespace ProofOfProof.Writer

variable {α β : Type} {bytes : Bytes}

theorem pure_eq_ok {a b : α} : (pure a : Writer α) = ⟨bytes, .ok b⟩ ↔ bytes = [] ∧ a = b := by
  simp [pure_eq, eq_comm]

theorem bind_eq_ok {writer : Writer α} {next : α → Writer β} {b : β} :
    writer >>= next = ⟨bytes, .ok b⟩ ↔
      ∃ front a back, writer = ⟨front, .ok a⟩ ∧ next a = ⟨back, .ok b⟩ ∧ bytes = front ++ back := by
  obtain ⟨written, outcome⟩ := writer
  cases outcome with
  | error fault => simp [bind_of_error (w := ⟨written, .error fault⟩) rfl]
  | ok a =>
    rw [bind_of_ok (w := ⟨written, .ok a⟩) rfl]
    constructor
    · intro he
      simp only [mk.injEq] at he
      exact ⟨written, a, (next a).written, rfl, by rw [← he.2], he.1.symm⟩
    · rintro ⟨front, a', back, he, hn, rfl⟩
      cases he
      rw [hn]

theorem bind_ok {writer : Writer α} {next : α → Writer β} {front back : Bytes} {a : α} {b : β}
    (h : writer = ⟨front, .ok a⟩) (hn : next a = ⟨back, .ok b⟩) :
    writer >>= next = ⟨front ++ back, .ok b⟩ :=
  bind_eq_ok.mpr ⟨front, a, back, h, hn, rfl⟩

theorem check_eq_ok {outcome : Except Fault α} {a : α} :
    check outcome = ⟨bytes, .ok a⟩ ↔ bytes = [] ∧ outcome = .ok a := by
  simp [check, eq_comm]

theorem check_bind_eq_ok {outcome : Except Fault α} {next : α → Writer β} {b : β} {bytes : Bytes} :
    check outcome >>= next = ⟨bytes, .ok b⟩ ↔ ∃ a, outcome = .ok a ∧ next a = ⟨bytes, .ok b⟩ := by
  simp only [bind_eq_ok, check_eq_ok]
  constructor
  · rintro ⟨_, a, back, ⟨rfl, ha⟩, hb, rfl⟩
    exact ⟨a, ha, hb⟩
  · rintro ⟨a, ha, hb⟩
    exact ⟨[], a, bytes, ⟨rfl, ha⟩, hb, rfl⟩

theorem emit_eq_ok {part : Bytes} : emit part = ⟨bytes, .ok ()⟩ ↔ bytes = part := by
  simp [emit, eq_comm]

theorem toBytes_eq_ok {writer : Writer Unit} :
    writer.toBytes = .ok bytes ↔ writer = ⟨bytes, .ok ()⟩ := by
  obtain ⟨written, outcome⟩ := writer
  cases outcome with
  | error fault => simp [toBytes]
  | ok a => simp [toBytes]

theorem each_cons {a : α} {items : List α} {item : α → Writer Unit} :
    each (a :: items) item = item a >>= fun _ => each items item := rfl

end ProofOfProof.Writer
