import ProofOfProof.Proofs.Numeral
import ProofOfProof.Wire.Reader

/-! When a reader succeeds, and on what. Each equation describes the input of a successful run, so
that a compound reader comes apart into the pieces of its input. -/

namespace ProofOfProof.Reader

variable {α β : Type} {spelling : Spelling} {input rest : Bytes}

theorem pure_eq_ok {a b : α} :
    (pure a : Reader α) spelling input = .ok b rest ↔ a = b ∧ input = rest := by
  simp

theorem bind_eq_ok {reader : Reader α} {next : α → Reader β} {b : β} :
    (reader >>= next) spelling input = .ok b rest ↔
      ∃ a mid, reader spelling input = .ok a mid ∧ next a spelling mid = .ok b rest := by
  rw [bind_apply]
  cases h : reader spelling input with
  | ok a mid =>
    constructor
    · exact fun hn => ⟨a, mid, rfl, hn⟩
    · rintro ⟨a', mid', he, hn⟩
      cases he
      exact hn
  | error fault mid => simp

theorem bind_of_ok {reader : Reader α} {next : α → Reader β} {a : α} {mid : Bytes}
    (h : reader spelling input = .ok a mid) :
    (reader >>= next) spelling input = next a spelling mid := by
  rw [bind_apply, h]

theorem map_eq_ok {f : α → β} {reader : Reader α} {b : β} :
    (f <$> reader) spelling input = .ok b rest ↔
      ∃ a, reader spelling input = .ok a rest ∧ f a = b := by
  rw [map_apply]
  cases h : reader spelling input with
  | ok a mid =>
    constructor
    · intro he
      cases he
      exact ⟨a, rfl, rfl⟩
    · rintro ⟨a', he, rfl⟩
      cases he
      rfl
  | error fault mid => simp

theorem fail_apply (fault : Fault) (spelling : Spelling) (input : Bytes) :
    (fail fault : Reader α) spelling input = .error fault input := rfl

theorem check_of_ok {outcome : Except Fault α} {a : α} (h : outcome = .ok a) :
    check outcome = pure a := by
  rw [h, check]

theorem check_eq_ok {outcome : Except Fault α} {a : α} :
    check outcome spelling input = .ok a rest ↔ outcome = .ok a ∧ input = rest := by
  cases outcome with
  | ok b => simp [check]
  | error fault => simp [check, fail_apply]

theorem check_bind_eq_ok {outcome : Except Fault α} {next : α → Reader β} {b : β} :
    (check outcome >>= next) spelling input = .ok b rest ↔
      ∃ a, outcome = .ok a ∧ next a spelling input = .ok b rest := by
  simp only [bind_eq_ok, check_eq_ok]
  constructor
  · rintro ⟨a, _, ⟨ha, rfl⟩, hb⟩
    exact ⟨a, ha, hb⟩
  · rintro ⟨a, ha, hb⟩
    exact ⟨a, input, ⟨ha, rfl⟩, hb⟩

theorem take_eq_ok {n : Nat} {front : Fixed n} :
    take n spelling input = .ok front rest ↔ input = front.val ++ rest := by
  constructor
  · intro h
    simp only [take, List.splitAt_eq] at h
    split at h
    · injection h with hf hr
      rw [← hf, ← hr]
      simp
    · cases h
  · rintro rfl
    exact take_append front spelling rest

theorem bytes_eq_ok {n : Nat} {front : Bytes} :
    bytes n spelling input = .ok front rest ↔ front.length = n ∧ input = front ++ rest := by
  simp only [bytes, map_eq_ok, take_eq_ok]
  constructor
  · rintro ⟨a, rfl, rfl⟩
    exact ⟨a.property, rfl⟩
  · rintro ⟨hn, rfl⟩
    exact ⟨⟨front, hn⟩, rfl, rfl⟩

theorem byte_eq_ok {b : UInt8} : byte spelling input = .ok b rest ↔ input = b :: rest := by
  cases input with
  | nil => simp [byte]
  | cons c bytes => simp [byte]

theorem checkSpelling_eq_ok {what : String} {isWritten : Bool} {u : Unit} :
    checkSpelling what isWritten spelling input = .ok u rest ↔
      (spelling = .written → isWritten = true) ∧ input = rest := by
  rw [checkSpelling]
  by_cases h : spelling = .written ∧ isWritten = false
  · simp [h]
  · have hw : spelling = .written → isWritten = true := by simpa using h
    rw [if_neg h]
    exact ⟨fun he => ⟨hw, by injection he⟩, fun he => by rw [he.2]⟩

theorem whole_eq_ok {reader : Reader α} {a : α} :
    reader.whole spelling input = .ok a ↔ reader spelling input = .ok a [] := by
  rw [whole]
  cases h : reader spelling input with
  | error fault mid => simp
  | ok b mid =>
    cases mid with
    | nil => simp [finish]
    | cons c mid => simp [finish]

theorem within_eq_ok {part : Bytes} {reader : Reader α} {a : α} :
    within part reader spelling input = .ok a rest ↔
      reader spelling part = .ok a [] ∧ input = rest := by
  rw [← whole_eq_ok, within]
  cases h : reader.whole spelling part with
  | error fault => simp
  | ok b => simp

theorem within_bind_eq_ok {part : Bytes} {reader : Reader α} {next : α → Reader β} {b : β} :
    (within part reader >>= next) spelling input = .ok b rest ↔
      ∃ a, reader spelling part = .ok a [] ∧ next a spelling input = .ok b rest := by
  simp only [bind_eq_ok, within_eq_ok]
  constructor
  · rintro ⟨a, _, ⟨ha, rfl⟩, hb⟩
    exact ⟨a, ha, hb⟩
  · rintro ⟨a, ha, hb⟩
    exact ⟨a, input, ⟨ha, rfl⟩, hb⟩

theorem repeatOnto_succ (item : Reader α) (count : Nat) (done : List α) :
    repeatOnto item (count + 1) done = item >>= fun a => repeatOnto item count (a :: done) := by
  funext spelling input
  rw [bind_apply]
  simp only [repeatOnto]
  cases item spelling input <;> rfl

theorem repeatOnto_eq_map (item : Reader α) (count : Nat) (done : List α) :
    repeatOnto item count done = (done.reverse ++ ·) <$> replicate count item := by
  induction count generalizing done with
  | zero =>
    funext spelling input
    rw [map_apply]
    simp [replicate, repeatOnto]
  | succ count ih =>
    have hstep : ∀ a, repeatOnto item count (a :: done) =
        (done.reverse ++ ·) <$> repeatOnto item count [a] := by
      intro a
      funext spelling input
      rw [ih, ih [a], map_apply, map_apply, map_apply]
      cases replicate count item spelling input <;> simp
    funext spelling input
    rw [replicate, repeatOnto_succ, repeatOnto_succ, map_apply, bind_apply, bind_apply]
    cases item spelling input with
    | error fault rest => rfl
    | ok a rest =>
      simp only [hstep]
      rw [map_apply]

theorem replicate_succ (item : Reader α) (count : Nat) :
    replicate (count + 1) item = item >>= fun a => (a :: ·) <$> replicate count item := by
  rw [replicate, repeatOnto_succ]
  congr 1
  funext a
  exact repeatOnto_eq_map item count [a]

theorem replicate_succ_eq_ok {item : Reader α} {count : Nat} {items : List α} :
    replicate (count + 1) item spelling input = .ok items rest ↔
      ∃ a items' mid, items = a :: items' ∧ item spelling input = .ok a mid ∧
        replicate count item spelling mid = .ok items' rest := by
  rw [replicate_succ]
  simp only [bind_eq_ok, map_eq_ok]
  constructor
  · rintro ⟨a, mid, ha, items', hitems, rfl⟩
    exact ⟨a, items', mid, rfl, ha, hitems⟩
  · rintro ⟨a, items', mid, rfl, ha, hitems⟩
    exact ⟨a, mid, ha, items', hitems, rfl⟩

theorem length_of_replicate {item : Reader α} {count : Nat} {items : List α}
    (h : replicate count item spelling input = .ok items rest) : items.length = count := by
  induction count generalizing input items with
  | zero =>
    cases h
    rfl
  | succ count ih =>
    obtain ⟨a, items', mid, rfl, -, hitems⟩ := replicate_succ_eq_ok.mp h
    rw [List.length_cons, ih hitems]

/-- What every item that can be read has, all items of a list have. -/
theorem forall_mem_replicate {item : Reader α} {p : α → Prop} {count : Nat} {items : List α}
    (h : replicate count item spelling input = .ok items rest)
    (hp : ∀ {a input rest}, item spelling input = .ok a rest → p a) : ∀ a ∈ items, p a := by
  induction count generalizing input items with
  | zero =>
    cases h
    simp
  | succ count ih =>
    obtain ⟨a, items', mid, rfl, ha, hitems⟩ := replicate_succ_eq_ok.mp h
    exact List.forall_mem_cons.mpr ⟨hp ha, ih hitems⟩

/-- A number of a fixed width, through a type whose values are exactly the numbers of that width. -/
theorem number_eq_ok {width : Nat} (ofNat : Nat → β) (toNat : β → Nat)
    (hof : ∀ b, ofNat (toNat b) = b) (hto : ∀ n < 256 ^ width, toNat (ofNat n) = n)
    {b : β} (hb : toNat b < 256 ^ width) :
    ((fun bytes => ofNat (ofBigEndian bytes)) <$> bytes width) spelling input = .ok b rest ↔
      input = bigEndian width (toNat b) ++ rest := by
  simp only [map_eq_ok, bytes_eq_ok]
  constructor
  · rintro ⟨front, ⟨hlen, rfl⟩, rfl⟩
    have hlt := ofBigEndian_lt front
    rw [hlen] at hlt
    rw [hto _ hlt, ← hlen, bigEndian_ofBigEndian]
  · rintro rfl
    refine ⟨_, ⟨length_bigEndian width (toNat b), rfl⟩, ?_⟩
    rw [ofBigEndian_bigEndian, Nat.mod_eq_of_lt hb, hof]

theorem uint32_eq_ok {n : UInt32} :
    uint32 spelling input = .ok n rest ↔ input = bigEndian 4 n.toNat ++ rest :=
  number_eq_ok _ _ (fun _ => UInt32.ofNat_toNat) (fun _ h => UInt32.toNat_ofNat_of_lt' h) n.toNat_lt

theorem uint64_eq_ok {n : UInt64} :
    uint64 spelling input = .ok n rest ↔ input = bigEndian 8 n.toNat ++ rest :=
  number_eq_ok _ _ (fun _ => UInt64.ofNat_toNat) (fun _ h => UInt64.toNat_ofNat_of_lt' h) n.toNat_lt

theorem int16_eq_ok {n : Int16} :
    int16 spelling input = .ok n rest ↔ input = bigEndian 2 n.toUInt16.toNat ++ rest :=
  number_eq_ok (fun m => (UInt16.ofNat m).toInt16) (fun b => b.toUInt16.toNat)
    (fun b => by simp) (fun m h => UInt16.toNat_ofNat_of_lt' h) n.toUInt16.toNat_lt

theorem int32_eq_ok {n : Int32} :
    int32 spelling input = .ok n rest ↔ input = bigEndian 4 n.toUInt32.toNat ++ rest := by
  simp only [int32, map_eq_ok, uint32_eq_ok]
  constructor
  · rintro ⟨m, rfl, rfl⟩
    simp
  · rintro rfl
    exact ⟨n.toUInt32, rfl, by simp⟩

theorem uint32LE_eq_ok {n : UInt32} :
    uint32LE spelling input = .ok n rest ↔ input = littleEndian 4 n.toNat ++ rest := by
  have hn : n.toNat < 256 ^ 4 := n.toNat_lt
  simp only [uint32LE, map_eq_ok, bytes_eq_ok]
  constructor
  · rintro ⟨front, ⟨hlen, rfl⟩, rfl⟩
    have hlt := ofBigEndian_lt front.reverse
    have hback := bigEndian_ofBigEndian front.reverse
    rw [List.length_reverse, hlen] at hlt hback
    rw [ofLittleEndian, UInt32.toNat_ofNat_of_lt' hlt, littleEndian, hback, List.reverse_reverse]
  · rintro rfl
    refine ⟨_, ⟨by simp [littleEndian], rfl⟩, ?_⟩
    rw [ofLittleEndian_littleEndian, Nat.mod_eq_of_lt hn, UInt32.ofNat_toNat]

end ProofOfProof.Reader
