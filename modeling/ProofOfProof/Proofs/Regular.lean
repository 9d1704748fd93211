import ProofOfProof.Payload.Version
import ProofOfProof.Proofs.Reading
import ProofOfProof.Wire.Field
import ProofOfProof.Wire.Sequence
import ProofOfProof.Wire.TypeTag

/-! Regular readers: what they return hangs on nothing but the bytes they consume, and a stricter
spelling of integers only filters. Every reader built from the primitives is regular. -/

namespace ProofOfProof

def Fault.isTruncated : Fault → Bool
  | truncated .. => true
  | _ => false

namespace Reader

variable {α β : Type}

/-- A run that ends, unless it does so for want of bytes, goes the same way whatever follows the
bytes it has consumed. -/
structure Regular (reader : Reader α) : Prop where
  ok : ∀ {spelling input a rest}, reader spelling input = .ok a rest →
    ∃ used, input = used ++ rest ∧ ∀ other, reader spelling (used ++ other) = .ok a other
  error : ∀ {spelling input fault rest}, reader spelling input = .error fault rest →
    ∃ used, input = used ++ rest ∧
      (fault.isTruncated = false → ∀ other, reader spelling (used ++ other) = .error fault other)
  written : ∀ input, reader .written input = reader .any input ∨
    ∃ what rest, reader .written input = .error (.content (.spelling what)) rest

theorem bind_eq_error {reader : Reader α} {next : α → Reader β} {spelling : Spelling}
    {input rest : Bytes} {fault : Fault} :
    (reader >>= next) spelling input = .error fault rest ↔
      reader spelling input = .error fault rest ∨
        ∃ a mid, reader spelling input = .ok a mid ∧ next a spelling mid = .error fault rest := by
  rw [bind_apply]
  cases h : reader spelling input with
  | error fault' mid => simp
  | ok a mid =>
    constructor
    · exact fun hn => .inr ⟨a, mid, rfl, hn⟩
    · rintro (he | ⟨a', mid', he, hn⟩)
      · cases he
      · cases he
        exact hn

theorem map_eq_error {f : α → β} {reader : Reader α} {spelling : Spelling} {input rest : Bytes}
    {fault : Fault} :
    (f <$> reader) spelling input = .error fault rest ↔
      reader spelling input = .error fault rest := by
  rw [map_apply]
  cases reader spelling input <;> simp

namespace Regular

theorem pure (a : α) : Regular (Pure.pure a : Reader α) where
  ok h := by
    cases h
    exact ⟨[], rfl, fun _ => rfl⟩
  error h := by cases h
  written _ := .inl rfl

theorem fail (fault : Fault) : Regular (fail fault : Reader α) where
  ok h := by cases h
  error h := by
    cases h
    exact ⟨[], rfl, fun _ _ => rfl⟩
  written _ := .inl rfl

theorem check (outcome : Except Fault α) : Regular (check outcome) := by
  cases outcome with
  | ok a => exact pure a
  | error fault => exact fail fault

theorem bind {reader : Reader α} {next : α → Reader β} (h : Regular reader)
    (hn : ∀ a, Regular (next a)) : Regular (reader >>= next) where
  ok {spelling input b rest} he := by
    obtain ⟨a, mid, hr, hnext⟩ := bind_eq_ok.mp he
    obtain ⟨front, rfl, hfront⟩ := h.ok hr
    obtain ⟨back, rfl, hback⟩ := (hn a).ok hnext
    refine ⟨front ++ back, by rw [List.append_assoc], fun other => ?_⟩
    rw [List.append_assoc, bind_of_ok (hfront _), hback]
  error {spelling input fault rest} he := by
    rcases bind_eq_error.mp he with hr | ⟨a, mid, hr, hnext⟩
    · obtain ⟨used, rfl, hused⟩ := h.error hr
      exact ⟨used, rfl, fun hf other => bind_eq_error.mpr (.inl (hused hf other))⟩
    · obtain ⟨front, rfl, hfront⟩ := h.ok hr
      obtain ⟨back, rfl, hback⟩ := (hn a).error hnext
      refine ⟨front ++ back, by rw [List.append_assoc], fun hf other => ?_⟩
      rw [List.append_assoc, bind_of_ok (hfront _), hback hf]
  written input := by
    rcases h.written input with heq | ⟨what, rest, hs⟩
    · cases hr : reader .any input with
      | error fault mid => exact .inl (by rw [bind_apply, bind_apply, heq, hr])
      | ok a mid =>
        rw [bind_of_ok hr, bind_of_ok (heq.trans hr)]
        exact (hn a).written mid
    · exact .inr ⟨what, rest, bind_eq_error.mpr (.inl hs)⟩

theorem map {reader : Reader α} (f : α → β) (h : Regular reader) : Regular (f <$> reader) := by
  have hb : f <$> reader = reader >>= fun a => Pure.pure (f a) := by
    funext spelling input
    rw [map_apply, bind_apply]
    rfl
  rw [hb]
  exact h.bind fun a => pure (f a)

theorem take (n : Nat) : Regular (take n) where
  ok {spelling input front rest} h := by
    obtain rfl := take_eq_ok.mp h
    exact ⟨front.val, rfl, fun other => take_append front spelling other⟩
  error {spelling input fault rest} h := by
    simp only [Reader.take] at h
    split at h
    · cases h
    · injection h with hf hr
      subst hf hr
      exact ⟨[], rfl, fun hc => by cases hc⟩
  written _ := .inl rfl

theorem bytes (n : Nat) : Regular (bytes n) := (take n).map _

theorem byte : Regular byte where
  ok {spelling input b rest} h := by
    obtain rfl := byte_eq_ok.mp h
    exact ⟨[b], rfl, fun _ => rfl⟩
  error {spelling input fault rest} h := by
    cases input with
    | nil =>
      injection h with hf hr
      subst hf hr
      exact ⟨[], rfl, fun hc => by cases hc⟩
    | cons c input => cases h
  written _ := .inl rfl

theorem checkSpelling (what : String) (isWritten : Bool) :
    Regular (checkSpelling what isWritten) where
  ok {spelling input a rest} h := by
    obtain ⟨hs, rfl⟩ := checkSpelling_eq_ok.mp h
    exact ⟨[], rfl, fun other => checkSpelling_eq_ok.mpr ⟨hs, rfl⟩⟩
  error {spelling input fault rest} h := by
    simp only [Reader.checkSpelling] at h
    split at h
    · next hs =>
      injection h with hf hr
      subst hf hr
      refine ⟨[], rfl, fun _ other => ?_⟩
      rw [List.nil_append, Reader.checkSpelling, if_pos hs]
    · cases h
  written input := by
    cases isWritten with
    | true => exact .inl rfl
    | false => exact .inr ⟨what, input, rfl⟩

/-- The part is a value of its own, so that nothing is asked of what follows it. -/
theorem within {reader : Reader α} (part : Bytes) (h : Regular reader) :
    Regular (within part reader) where
  ok {spelling input a rest} he := by
    obtain ⟨hr, rfl⟩ := within_eq_ok.mp he
    exact ⟨[], rfl, fun other => within_eq_ok.mpr ⟨hr, rfl⟩⟩
  error {spelling input fault rest} he := by
    simp only [Reader.within] at he
    split at he
    · next hw =>
      injection he with hf hr
      subst hf hr
      refine ⟨[], rfl, fun _ other => ?_⟩
      rw [List.nil_append, Reader.within, hw]
    · cases he
  written input := by
    rcases h.written part with heq | ⟨what, rest, hs⟩
    · refine .inl ?_
      simp only [Reader.within, whole, heq]
      rfl
    · refine .inr ⟨what, input, ?_⟩
      simp only [Reader.within, whole, hs]

theorem replicate {item : Reader α} (h : Regular item) (count : Nat) :
    Regular (replicate count item) := by
  induction count with
  | zero => exact pure []
  | succ count ih =>
    rw [replicate_succ]
    exact h.bind fun a => ih.map (a :: ·)

theorem ite {p : Prop} [Decidable p] {yes no : Reader α} (hy : Regular yes) (hn : Regular no) :
    Regular (if p then yes else no) := by
  split
  · exact hy
  · exact hn

theorem uint32 : Regular uint32 := (bytes 4).map _

theorem int32 : Regular int32 := uint32.map _

theorem int16 : Regular int16 := (bytes 2).map _

theorem uint64 : Regular uint64 := (bytes 8).map _

theorem uint32LE : Regular uint32LE := (bytes 4).map _

theorem numeral (what : String) (width : Nat) (isWritten : Bytes → Bool) :
    Regular (numeral what width isWritten) :=
  byte.bind fun _ => (check _).bind fun _ => (bytes _).bind fun _ =>
    (checkSpelling _ _).bind fun _ => pure _

theorem integer64 (what : String) : Regular (integer64 what) := (numeral _ _ _).map _

theorem integer32 (what : String) : Regular (integer32 what) := (numeral _ _ _).map _

theorem fullInteger32 (what : String) : Regular (fullInteger32 what) := (numeral _ _ _).map _

theorem shortField (what : String) (min max : Nat) : Regular (shortField what min max) :=
  byte.bind fun _ => (check _).bind fun _ => bytes _

theorem shortFieldOf (n : Nat) (what : String) : Regular (shortFieldOf n what) :=
  byte.bind fun _ => (check _).bind fun _ => take _

theorem longField (what : String) (min max : Nat) : Regular (longField what min max) :=
  (integer32 _).bind fun _ => (check _).bind fun _ => bytes _

theorem counted (count : Int32) (what : String) (min max : Nat) {item : Reader α}
    (h : Regular item) : Regular (counted count what min max item) :=
  (check _).bind fun _ => h.replicate _

theorem sequence (what : String) (min max : Nat) {item : Reader α} (h : Regular item) :
    Regular (sequence what min max item) :=
  (integer32 _).bind fun _ => counted _ _ _ _ h

theorem version (entity : String) : Regular (version entity) :=
  uint32.bind fun _ => ite (pure _) (fail _)

theorem typeTag (expected : UInt8) : Regular (TypeTag.read expected) :=
  byte.bind fun _ => ite (pure _) (byte.bind fun _ => ite (pure _) (fail _))

end Regular

/-- What comes of a run, and how many bytes of the input it has consumed. -/
def run (reader : Reader α) (input : Bytes) : Except Fault α × Nat :=
  match reader .any input with
  | .ok a rest => (.ok a, input.length - rest.length)
  | .error fault rest => (.error fault, input.length - rest.length)

/-- The input was too short for the run. -/
def EndsEarly (outcome : Except Fault α) : Prop :=
  ∃ need remaining, outcome = .error (.truncated need remaining)

theorem run_of_ok {reader : Reader α} {used rest : Bytes} {a : α}
    (h : reader .any (used ++ rest) = .ok a rest) :
    reader.run (used ++ rest) = (.ok a, used.length) := by
  simp [run, h]

theorem run_of_error {reader : Reader α} {used rest : Bytes} {fault : Fault}
    (h : reader .any (used ++ rest) = .error fault rest) :
    reader.run (used ++ rest) = (.error fault, used.length) := by
  simp [run, h]

theorem isTruncated_eq_false {fault : Fault} (h : ¬ EndsEarly (.error fault : Except Fault α)) :
    fault.isTruncated = false := by
  cases fault with
  | truncated need remaining => exact absurd ⟨need, remaining, rfl⟩ h
  | _ => rfl

theorem Regular.run_append {reader : Reader α} (h : Regular reader) {input : Bytes}
    (hr : ¬ EndsEarly (reader.run input).1) (suffix : Bytes) :
    reader.run (input ++ suffix) = reader.run input := by
  cases he : reader .any input with
  | ok a rest =>
    obtain ⟨used, rfl, hused⟩ := h.ok he
    rw [run_of_ok he, List.append_assoc]
    exact run_of_ok (hused _)
  | error fault rest =>
    obtain ⟨used, rfl, hused⟩ := h.error he
    rw [run_of_error he] at hr ⊢
    rw [List.append_assoc]
    exact run_of_error (hused (isTruncated_eq_false hr) _)

/-- A run that succeeds takes a front of the input, and would have taken it alone. -/
theorem Regular.run_eq_ok {reader : Reader α} (h : Regular reader) {input : Bytes} {a : α}
    {consumed : Nat} (hr : reader.run input = (.ok a, consumed)) :
    consumed ≤ input.length ∧
      ∀ other, reader .any (input.take consumed ++ other) = .ok a other := by
  cases he : reader .any input with
  | error fault rest => simp [run, he] at hr
  | ok b rest =>
    obtain ⟨used, rfl, hused⟩ := h.ok he
    rw [run_of_ok he] at hr
    injection hr with hb hc
    injection hb with hb
    subst hb hc
    refine ⟨by simp, fun other => ?_⟩
    rw [List.take_left]
    exact hused other

theorem run_le (reader : Reader α) (input : Bytes) : (reader.run input).2 ≤ input.length := by
  rw [run]
  split <;> exact Nat.sub_le _ _

/-- Every byte that a run consumes is needed. -/
theorem Regular.endsEarly_take {reader : Reader α} (h : Regular reader) {input : Bytes} {a : α}
    {consumed n : Nat} (hr : reader.run input = (.ok a, consumed)) (hn : n < consumed) :
    EndsEarly (reader.run (input.take n)).1 := by
  by_contra hc
  -- Otherwise the short run is the whole one, cursor included, and the cursor is past the end.
  have heq := h.run_append hc (input.drop n)
  rw [List.take_append_drop, hr] at heq
  have hle := reader.run_le (input.take n)
  rw [← heq, List.length_take] at hle
  simp only at hle
  omega

theorem endsEarly_whole {reader : Reader α} {input : Bytes} (h : EndsEarly (reader.run input).1) :
    EndsEarly (reader.whole .any input) := by
  obtain ⟨need, remaining, h⟩ := h
  refine ⟨need, remaining, ?_⟩
  cases he : reader .any input with
  | ok a rest => simp [run, he] at h
  | error fault rest => simpa [run, he, whole] using h

theorem whole_of_rest {reader : Reader α} {input rest : Bytes} {a : α}
    (h : reader .any input = .ok a rest) (hne : rest ≠ []) :
    reader.whole .any input = .error (.content (.trailing rest.length)) := by
  cases rest with
  | nil => exact absurd rfl hne
  | cons b rest => simp [whole, h, finish]

end Reader

end ProofOfProof
