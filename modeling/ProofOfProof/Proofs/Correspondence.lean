import ProofOfProof.Proofs.Reading
import ProofOfProof.Proofs.Writing
import ProofOfProof.Wire.Range

/-! How readers and writers belong together. A reader inverts a writer where it gives a value back
from what was written of it; a writer restores an input where it writes again what was read. Both
follow the steps of the two, and so does a bound on what is written. -/

namespace ProofOfProof

variable {α β : Type}

theorem exists_eq_ok {outcome : Except Fault α} (h : outcome.toOption.isSome = true) :
    ∃ a, outcome = .ok a := by
  cases outcome with
  | error fault => cases h
  | ok a => exact ⟨a, rfl⟩

/-- `reader` takes `a` from what `writer` writes, whatever comes behind and whichever spelling is
asked for. -/
def Reader.Inverts (reader : Reader α) (writer : Writer Unit) (a : α) : Prop :=
  ∀ bytes, writer = ⟨bytes, .ok ()⟩ →
    ∀ spelling rest, reader spelling (bytes ++ rest) = .ok a rest

/-- `reader` fails with `fault` on what `writer` writes, whatever comes behind. -/
def Reader.Rejects (reader : Reader α) (writer : Writer Unit) (fault : Fault) : Prop :=
  ∀ bytes, writer = ⟨bytes, .ok ()⟩ →
    ∀ spelling rest, ∃ left, reader spelling (bytes ++ rest) = .error fault left

/-- `writer` reaches its end. Where `faithful` holds, it writes what stands in `input` before
`rest`. -/
def Writer.Restores (writer : Writer Unit) (faithful : Prop) (input rest : Bytes) : Prop :=
  ∃ bytes, writer = ⟨bytes, .ok ()⟩ ∧ (faithful → input = bytes ++ rest)

/-- `writer` reaches its end. -/
def Writer.Ends (writer : Writer Unit) : Prop := ∃ bytes, writer = ⟨bytes, .ok ()⟩

/-- Where `writer` reaches its end, it has written no more than `size` bytes. -/
def Writer.AtMost (writer : Writer Unit) (size : Nat) : Prop :=
  ∀ bytes, writer = ⟨bytes, .ok ()⟩ → bytes.length ≤ size

/-- Whatever `reader` takes, `write` writes in a form from which it is taken again, and in the form
that it had where the spelling is `faithful`. -/
def Reader.Normalises (reader : Reader α) (write : α → Writer Unit) (faithful : Spelling → Prop) :
    Prop :=
  ∀ spelling input a rest, reader spelling input = .ok a rest →
    (write a).Restores (faithful spelling) input rest ∧ reader.Inverts (write a) a

namespace Reader.Inverts

theorem pure (a : α) : (Pure.pure a : Reader α).Inverts (Pure.pure ()) a := by
  intro bytes h spelling rest
  obtain ⟨rfl, -⟩ := Writer.pure_eq_ok.mp h
  rfl

theorem bind {reader : Reader α} {next : α → Reader β} {writer : Writer Unit}
    {more : Unit → Writer Unit} {a : α} {b : β} (h : reader.Inverts writer a)
    (hn : (next a).Inverts (more ()) b) : (reader >>= next).Inverts (writer >>= more) b := by
  intro bytes hw spelling rest
  obtain ⟨front, _, back, hfront, hback, rfl⟩ := Writer.bind_eq_ok.mp hw
  rw [List.append_assoc, bind_of_ok (h front hfront spelling _)]
  exact hn back hback spelling rest

/-- The last field of a value, behind which nothing is written. -/
theorem last {reader : Reader α} {next : α → Reader β} {writer : Writer Unit} {a : α} {b : β}
    (h : reader.Inverts writer a) (hn : next a = Pure.pure b) :
    (reader >>= next).Inverts writer b := by
  intro bytes hw spelling rest
  rw [bind_of_ok (h bytes hw spelling rest), hn]
  rfl

theorem emit {reader : Reader α} {a : α} {image : Bytes}
    (h : ∀ spelling rest, reader spelling (image ++ rest) = .ok a rest) :
    reader.Inverts (Writer.emit image) a := by
  intro bytes hw spelling rest
  rw [Writer.emit_eq_ok.mp hw]
  exact h spelling rest

theorem map {reader : Reader α} {writer : Writer Unit} {a : α} (f : α → β)
    (h : reader.Inverts writer a) : (f <$> reader).Inverts writer (f a) := by
  intro bytes hw spelling rest
  rw [map_apply, h bytes hw spelling rest]

theorem check_writer {γ : Type} {outcome : Except Fault γ} {more : γ → Writer Unit}
    {reader : Reader α} {a : α} (h : ∀ x, outcome = .ok x → reader.Inverts (more x) a) :
    reader.Inverts (Writer.check outcome >>= more) a := by
  intro bytes hw
  obtain ⟨x, hx, hrest⟩ := Writer.check_bind_eq_ok.mp hw
  exact h x hx bytes hrest

theorem limit {what : String} {length max : Nat} {more : Unit → Writer Unit} {reader : Reader α}
    {a : α} (h : length ≤ max → reader.Inverts (more ()) a) :
    reader.Inverts (Writer.check (checkLimit what length max) >>= more) a :=
  check_writer fun _ hl => h (checkLimit_eq_ok_iff.mp hl)

theorem check_reader {γ : Type} {outcome : Except Fault γ} {next : γ → Reader α}
    {writer : Writer Unit} {x : γ} {a : α} (hc : outcome = .ok x)
    (h : (next x).Inverts writer a) : (Reader.check outcome >>= next).Inverts writer a := by
  intro bytes hw spelling rest
  rw [check_of_ok hc, bind_of_ok (pure_apply x spelling _)]
  exact h bytes hw spelling rest

theorem buffered {part : Writer Unit} {more : Bytes → Writer Unit} {reader : Reader α} {a : α}
    (h : ∀ bytes, part = ⟨bytes, .ok ()⟩ → reader.Inverts (more bytes) a) :
    reader.Inverts (Writer.buffered part >>= more) a :=
  check_writer fun bytes hb => h bytes (Writer.toBytes_eq_ok.mp hb)

theorem whole_eq_ok {reader : Reader α} {writer : Writer Unit} {bytes : Bytes} {a : α}
    (h : reader.Inverts writer a) (hw : writer = ⟨bytes, .ok ()⟩) (spelling : Spelling) :
    reader.whole spelling bytes = .ok a := by
  have hread := h bytes hw spelling []
  rw [List.append_nil] at hread
  exact Reader.whole_eq_ok.mpr hread

/-- Reading inside the bytes of a value gives the value. -/
theorem within_eq_pure {inner : Reader α} {part : Writer Unit} {raw : Bytes} {a : α}
    (h : inner.Inverts part a) (hp : part = ⟨raw, .ok ()⟩) :
    Reader.within raw inner = Pure.pure a := by
  funext spelling input
  exact within_eq_ok.mpr ⟨Reader.whole_eq_ok.mp (h.whole_eq_ok hp spelling), rfl⟩

theorem each {item : Reader α} {write : α → Writer Unit} {items : List α}
    (h : ∀ a ∈ items, item.Inverts (write a) a) :
    (Reader.replicate items.length item).Inverts (Writer.each items write) items := by
  induction items with
  | nil => exact pure []
  | cons a items ih =>
    rw [List.length_cons, replicate_succ, Writer.each_cons]
    have hrest := ih fun x hx => h x (List.mem_cons_of_mem a hx)
    exact (h a List.mem_cons_self).bind (hrest.map (a :: ·))

end Reader.Inverts

namespace Reader.Rejects

variable {γ : Type} {fault : Fault}

/-- What comes behind a field that is refused is not read. -/
theorem first {reader : Reader α} {next : α → Reader β} {writer : Writer Unit}
    (h : reader.Rejects writer fault) : (reader >>= next).Rejects writer fault := by
  intro bytes hw spelling rest
  obtain ⟨left, hleft⟩ := h bytes hw spelling rest
  exact ⟨left, by rw [bind_apply, hleft]⟩

/-- Nor does it matter what was written behind it. -/
theorem before {reader : Reader α} {writer : Writer Unit} {more : Unit → Writer Unit}
    (h : reader.Rejects writer fault) : reader.Rejects (writer >>= more) fault := by
  intro bytes hw spelling rest
  obtain ⟨front, _, back, hfront, -, rfl⟩ := Writer.bind_eq_ok.mp hw
  rw [List.append_assoc]
  exact h front hfront spelling (back ++ rest)

theorem map {reader : Reader α} {writer : Writer Unit} (f : α → β)
    (h : reader.Rejects writer fault) : (f <$> reader).Rejects writer fault := by
  intro bytes hw spelling rest
  obtain ⟨left, hleft⟩ := h bytes hw spelling rest
  exact ⟨left, by rw [map_apply, hleft]⟩

theorem bind {reader : Reader α} {next : α → Reader β} {writer : Writer Unit}
    {more : Unit → Writer Unit} {a : α} (h : reader.Inverts writer a)
    (hn : (next a).Rejects (more ()) fault) :
    (reader >>= next).Rejects (writer >>= more) fault := by
  intro bytes hw spelling rest
  obtain ⟨front, _, back, hfront, hback, rfl⟩ := Writer.bind_eq_ok.mp hw
  obtain ⟨left, hleft⟩ := hn back hback spelling rest
  exact ⟨left, by rw [List.append_assoc, bind_of_ok (h front hfront spelling _), hleft]⟩

theorem check_writer {outcome : Except Fault γ} {more : γ → Writer Unit}
    {reader : Reader α} (h : ∀ x, outcome = .ok x → reader.Rejects (more x) fault) :
    reader.Rejects (Writer.check outcome >>= more) fault := by
  intro bytes hw
  obtain ⟨x, hx, hrest⟩ := Writer.check_bind_eq_ok.mp hw
  exact h x hx bytes hrest

theorem limit {what : String} {length max : Nat} {more : Unit → Writer Unit} {reader : Reader α}
    (h : length ≤ max → reader.Rejects (more ()) fault) :
    reader.Rejects (Writer.check (checkLimit what length max) >>= more) fault :=
  check_writer fun _ hl => h (checkLimit_eq_ok_iff.mp hl)

theorem buffered {part : Writer Unit} {more : Bytes → Writer Unit} {reader : Reader α}
    (h : ∀ bytes, part = ⟨bytes, .ok ()⟩ → reader.Rejects (more bytes) fault) :
    reader.Rejects (Writer.buffered part >>= more) fault :=
  check_writer fun bytes hb => h bytes (Writer.toBytes_eq_ok.mp hb)

/-- A value that spans an input is refused with the fault of its reader. -/
theorem whole_eq_error {reader : Reader α} {writer : Writer Unit} {bytes : Bytes}
    (h : reader.Rejects writer fault) (hw : writer = ⟨bytes, .ok ()⟩) (spelling : Spelling) :
    reader.whole spelling bytes = .error fault := by
  obtain ⟨left, hleft⟩ := h bytes hw spelling []
  rw [List.append_nil] at hleft
  rw [whole, hleft]

/-- A field in whose bytes a reader then looks for what it refuses. -/
theorem within {reader : Reader γ} {inner : Reader α} {next : γ → α → Reader β}
    {writer part : Writer Unit} {raw : γ → Bytes} {c : γ} (h : reader.Inverts writer c)
    (hi : inner.Rejects part fault) (hp : part = ⟨raw c, .ok ()⟩) :
    (reader >>= fun c => Reader.within (raw c) inner >>= next c).Rejects writer fault := by
  intro bytes hw spelling rest
  refine ⟨rest, ?_⟩
  rw [bind_of_ok (h bytes hw spelling rest), bind_apply, Reader.within,
    hi.whole_eq_error hp spelling]

end Reader.Rejects

namespace Writer.Restores

variable {faithful : Prop} {input mid rest : Bytes}

theorem pure : (Pure.pure () : Writer Unit).Restores faithful input input :=
  ⟨[], rfl, fun _ => rfl⟩

theorem mono {writer : Writer Unit} {weaker : Prop} (h : writer.Restores faithful input rest)
    (hw : weaker → faithful) : writer.Restores weaker input rest := by
  obtain ⟨bytes, hb, he⟩ := h
  exact ⟨bytes, hb, fun hh => he (hw hh)⟩

theorem bind {writer : Writer Unit} {more : Unit → Writer Unit}
    (h : writer.Restores faithful input mid) (hm : (more ()).Restores faithful mid rest) :
    (writer >>= more).Restores faithful input rest := by
  obtain ⟨front, hfront, hinput⟩ := h
  obtain ⟨back, hback, hmid⟩ := hm
  refine ⟨front ++ back, bind_ok hfront hback, fun hf => ?_⟩
  rw [hinput hf, hmid hf, List.append_assoc]

theorem check {γ : Type} {outcome : Except Fault γ} {more : γ → Writer Unit} {x : γ}
    (hc : outcome = .ok x) (h : (more x).Restores faithful input rest) :
    (Writer.check outcome >>= more).Restores faithful input rest := by
  obtain ⟨bytes, hb, he⟩ := h
  exact ⟨bytes, check_bind_eq_ok.mpr ⟨x, hc, hb⟩, he⟩

theorem limit {what : String} {length max : Nat} {more : Unit → Writer Unit} (hl : length ≤ max)
    (h : (more ()).Restores faithful input rest) :
    (Writer.check (checkLimit what length max) >>= more).Restores faithful input rest :=
  check (checkLimit_eq_ok_iff.mpr hl) h

theorem buffered {part : Writer Unit} {more : Bytes → Writer Unit} {raw : Bytes}
    (hp : part = ⟨raw, .ok ()⟩) (h : (more raw).Restores faithful input rest) :
    (Writer.buffered part >>= more).Restores faithful input rest :=
  check (toBytes_eq_ok.mpr hp) h

theorem emit {bytes : Bytes} (h : input = bytes ++ rest) :
    (Writer.emit bytes).Restores faithful input rest :=
  ⟨bytes, rfl, fun _ => h⟩

/-- A list of items that each can be written again. -/
theorem replicate {item : Reader α} {write : α → Writer Unit} {spelling : Spelling} {count : Nat}
    {items : List α} (hr : Reader.replicate count item spelling input = .ok items rest)
    (h : ∀ {a input rest}, item spelling input = .ok a rest →
      (write a).Restores faithful input rest) :
    (Writer.each items write).Restores faithful input rest := by
  induction count generalizing input items with
  | zero =>
    cases hr
    exact pure
  | succ count ih =>
    obtain ⟨a, items', mid, rfl, ha, hitems⟩ := Reader.replicate_succ_eq_ok.mp hr
    rw [each_cons]
    exact (h ha).bind (ih hitems)

end Writer.Restores

namespace Writer.Ends

theorem emit (bytes : Bytes) : (Writer.emit bytes).Ends := ⟨bytes, rfl⟩

theorem bind {writer : Writer Unit} {more : Unit → Writer Unit} (h : writer.Ends)
    (hm : (more ()).Ends) : (writer >>= more).Ends := by
  obtain ⟨front, hfront⟩ := h
  obtain ⟨back, hback⟩ := hm
  exact ⟨front ++ back, bind_ok hfront hback⟩

theorem check {γ : Type} {outcome : Except Fault γ} {more : γ → Writer Unit} {x : γ}
    (hc : outcome = .ok x) (h : (more x).Ends) : (Writer.check outcome >>= more).Ends := by
  obtain ⟨bytes, hb⟩ := h
  exact ⟨bytes, check_bind_eq_ok.mpr ⟨x, hc, hb⟩⟩

theorem each {write : α → Writer Unit} {items : List α} (h : ∀ a ∈ items, (write a).Ends) :
    (Writer.each items write).Ends := by
  induction items with
  | nil => exact emit []
  | cons a items ih =>
    rw [each_cons]
    exact (h a List.mem_cons_self).bind (ih fun x hx => h x (List.mem_cons_of_mem a hx))

end Writer.Ends

namespace Writer.AtMost

theorem mono {writer : Writer Unit} {n m : Nat} (h : writer.AtMost n) (hnm : n ≤ m) :
    writer.AtMost m :=
  fun bytes hb => Nat.le_trans (h bytes hb) hnm

theorem bind {writer : Writer Unit} {more : Unit → Writer Unit} {n m : Nat} (h : writer.AtMost n)
    (hm : (more ()).AtMost m) : (writer >>= more).AtMost (n + m) := by
  intro bytes hb
  obtain ⟨front, _, back, hfront, hback, rfl⟩ := bind_eq_ok.mp hb
  rw [List.length_append]
  exact Nat.add_le_add (h front hfront) (hm back hback)

theorem check {γ : Type} {outcome : Except Fault γ} {more : γ → Writer Unit} {n : Nat}
    (h : ∀ x, outcome = .ok x → (more x).AtMost n) : (Writer.check outcome >>= more).AtMost n := by
  intro bytes hb
  obtain ⟨x, hx, hrest⟩ := check_bind_eq_ok.mp hb
  exact h x hx bytes hrest

theorem limit {what : String} {length max : Nat} {more : Unit → Writer Unit} {n : Nat}
    (h : length ≤ max → (more ()).AtMost n) :
    (Writer.check (checkLimit what length max) >>= more).AtMost n :=
  check fun _ hl => h (checkLimit_eq_ok_iff.mp hl)

theorem buffered {part : Writer Unit} {more : Bytes → Writer Unit} {n : Nat}
    (h : ∀ raw, part = ⟨raw, .ok ()⟩ → (more raw).AtMost n) :
    (Writer.buffered part >>= more).AtMost n :=
  check fun raw hraw => h raw (toBytes_eq_ok.mp hraw)

theorem emit {bytes : Bytes} {n : Nat} (h : bytes.length ≤ n) : (Writer.emit bytes).AtMost n := by
  intro written hw
  rw [emit_eq_ok] at hw
  rwa [hw]

theorem byte (b : UInt8) : (Writer.byte b).AtMost 1 := emit (Nat.le_refl 1)

theorem each {write : α → Writer Unit} {items : List α} {n : Nat}
    (h : ∀ a ∈ items, (write a).AtMost n) :
    (Writer.each items write).AtMost (items.length * n) := by
  induction items with
  | nil => exact emit (Nat.zero_le _)
  | cons a items ih =>
    have hrest := ih fun x hx => h x (List.mem_cons_of_mem a hx)
    rw [each_cons, List.length_cons, Nat.add_mul, Nat.one_mul, Nat.add_comm]
    exact (h a List.mem_cons_self).bind hrest

end Writer.AtMost

namespace Reader.Normalises

variable {faithful : Spelling → Prop}

theorem of_ok {reader : Reader α} {write : α → Writer Unit} (h : reader.Normalises write faithful)
    {spelling : Spelling} {input rest : Bytes} {a : α} (hr : reader spelling input = .ok a rest) :
    (write a).Restores (faithful spelling) input rest ∧ reader.Inverts (write a) a :=
  h spelling input a rest hr

theorem mono {reader : Reader α} {write : α → Writer Unit} {weaker : Spelling → Prop}
    (h : reader.Normalises write faithful) (hw : ∀ spelling, weaker spelling → faithful spelling) :
    reader.Normalises write weaker := by
  intro spelling input a rest hr
  obtain ⟨hrestores, hinverts⟩ := h.of_ok hr
  exact ⟨hrestores.mono (hw spelling), hinverts⟩

theorem map {reader : Reader α} {f : α → β} {write : β → Writer Unit}
    (h : reader.Normalises (fun a => write (f a)) faithful) :
    (f <$> reader).Normalises write faithful := by
  intro spelling input b rest hr
  obtain ⟨a, ha, rfl⟩ := map_eq_ok.mp hr
  obtain ⟨hrestores, hinverts⟩ := h.of_ok ha
  exact ⟨hrestores, hinverts.map f⟩

end Reader.Normalises

end ProofOfProof
