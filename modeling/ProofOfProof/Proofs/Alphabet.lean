import Mathlib.Data.List.Induction
import Mathlib.Data.List.TakeWhile
import Mathlib.Data.Nat.Digits.Lemmas
import ProofOfProof.Radix.Alphabet

/-! Texts over an alphabet and byte strings are in bijection. A numeral without a zero on top is
the only one of its number, so a change of radix can be undone; leading zeros pass one by one. -/

namespace ProofOfProof

namespace Radix

theorem value_eq_ofDigits (base : Nat) (ds : List Nat) : value base ds = Nat.ofDigits base ds := by
  induction ds with
  | nil => rfl
  | cons d ds ih => rw [value, Nat.ofDigits_cons, ih]

theorem digits_eq_nil {base n : Nat} (h : digits base n = []) : n = 0 := by
  by_contra hn
  exact digitsWithin_ne_nil (Nat.pos_of_ne_zero hn) (Nat.le_refl n) h

theorem scaleAdd_eq_nil {base factor : Nat} {ds : List Nat} {carry : Nat}
    (h : scaleAdd base factor ds carry = []) : ds = [] ∧ carry = 0 := by
  cases ds with
  | nil => exact ⟨rfl, digits_eq_nil h⟩
  | cons d ds => simp [scaleAdd] at h

/-- Scaling and adding put no zero on top. -/
theorem pos_of_mem_getLast?_scaleAdd {base factor : Nat} (hb : 1 < base) (hf : 0 < factor)
    {ds : List Nat} (carry : Nat) (ht : ∀ d ∈ ds.getLast?, 0 < d) :
    ∀ d ∈ (scaleAdd base factor ds carry).getLast?, 0 < d := by
  induction ds generalizing carry with
  | nil => exact pos_of_mem_getLast?_digitsWithin hb (Nat.le_refl carry)
  | cons d ds ih =>
    have hlast : ∀ x ∈ ds.getLast?, 0 < x := fun x hx =>
      ht x (by rw [List.getLast?_cons, hx]; rfl)
    by_cases hrest : scaleAdd base factor ds ((carry + d * factor) / base) = []
    · -- The top digit is the last total, which took no carry: it is the scaled top of `ds`.
      obtain ⟨rfl, hquot⟩ := scaleAdd_eq_nil hrest
      have hd : 0 < d := ht d rfl
      have hm : 0 < d * factor := Nat.mul_pos hd hf
      have hmod := Nat.mod_add_div (carry + d * factor) base
      rw [hquot, Nat.mul_zero, Nat.add_zero] at hmod
      intro x hx
      rw [scaleAdd, hrest, List.getLast?_singleton, Option.mem_some_iff, hmod] at hx
      omega
    · intro x hx
      simp only [scaleAdd] at hx
      rw [List.getLast?_cons_of_ne_nil hrest] at hx
      exact ih _ hlast x hx

theorem pos_of_mem_getLast?_convert {source target : Nat} (hs : 0 < source) (ht : 1 < target)
    (ds : List Nat) : ∀ d ∈ (convert source target ds).getLast?, 0 < d := by
  induction ds using List.reverseRecOn with
  | nil => simp [convert]
  | append_singleton ds d ih =>
    rw [convert_append_singleton]
    exact pos_of_mem_getLast?_scaleAdd ht hs d ih

/-- What numeral a change of radix arrives at: the one of the number it set out from. -/
theorem convert_eq_digits {source target : Nat} (hs : 0 < source) (ht : 1 < target)
    (ds : List Nat) :
    convert source target ds = Nat.digits target (Nat.ofDigits source ds.reverse) := by
  rw [← value_eq_ofDigits, ← value_convert ht ds, value_eq_ofDigits,
    Nat.digits_ofDigits target ht _ fun d hd => lt_of_mem_convert ht hd]
  intro hne
  have hpos := pos_of_mem_getLast?_convert hs ht ds _ (List.getLast?_eq_some_getLast hne)
  omega

theorem convert_convert {source target : Nat} (hs : 1 < source) (ht : 1 < target) {ds : List Nat}
    (hd : ∀ d ∈ ds, d < source) (hh : ∀ d ∈ ds.head?, 0 < d) :
    convert target source (convert source target ds).reverse = ds.reverse := by
  rw [convert_eq_digits (by omega) hs, List.reverse_reverse, ← value_eq_ofDigits,
    value_convert ht, value_eq_ofDigits, Nat.digits_ofDigits source hs]
  · exact fun d hm => hd d (List.mem_reverse.mp hm)
  · intro hne
    have hpos := hh _ (by rw [← List.getLast?_reverse, List.getLast?_eq_some_getLast hne]; rfl)
    omega

theorem ofDigits_reverse_cons (base top : Nat) (ds : List Nat) :
    Nat.ofDigits base (top :: ds).reverse =
      Nat.ofDigits base ds.reverse + top * base ^ ds.length := by
  rw [List.reverse_cons, Nat.ofDigits_append, Nat.ofDigits_singleton, List.length_reverse,
    Nat.mul_comm]

/-- How long a numeral is in another radix, where its top digit leaves no doubt. -/
theorem length_convert {source target top n : Nat} {ds : List Nat} (hs : 1 < source)
    (ht : 1 < target) (hd : ∀ d ∈ ds, d < source) (hlo : target ^ n ≤ top * source ^ ds.length)
    (hhi : (top + 1) * source ^ ds.length ≤ target ^ (n + 1)) :
    (convert source target (top :: ds)).length = n + 1 := by
  have hlt : Nat.ofDigits source ds.reverse < source ^ ds.length := by
    rw [← List.length_reverse]
    exact Nat.ofDigits_lt_base_pow_length hs fun d hm => hd d (List.mem_reverse.mp hm)
  rw [convert_eq_digits (by omega) ht, ofDigits_reverse_cons]
  rw [Nat.add_mul, Nat.one_mul] at hhi
  apply Nat.le_antisymm
  · exact (Nat.digits_length_le_iff ht _).mpr (by omega)
  · exact (Nat.lt_digits_length_iff ht _).mpr (by omega)

/-- A change of radix of big-endian digits that keeps each leading zero. -/
def transcribe (source target : Nat) (ds : List Nat) : List Nat :=
  ds.takeWhile (· == 0) ++ (convert source target (ds.dropWhile (· == 0))).reverse

theorem transcribe_cons {source target top : Nat} {ds : List Nat} (h : 0 < top) :
    transcribe source target (top :: ds) = (convert source target (top :: ds)).reverse := by
  have hne : ¬ top = 0 := Nat.ne_of_gt h
  simp [transcribe, hne]

theorem takeWhile_zeros_append {zeros ds : List Nat} (hz : ∀ d ∈ zeros, (d == 0) = true)
    (hd : ∀ d ∈ ds.head?, 0 < d) :
    (zeros ++ ds).takeWhile (· == 0) = zeros ∧ (zeros ++ ds).dropWhile (· == 0) = ds := by
  have hstop : ds.takeWhile (· == 0) = [] ∧ ds.dropWhile (· == 0) = ds := by
    cases ds with
    | nil => exact ⟨rfl, rfl⟩
    | cons d ds =>
      have hpos : ¬ d = 0 := Nat.ne_of_gt (hd d rfl)
      simp [hpos]
  rw [List.takeWhile_append_of_pos hz, List.dropWhile_append_of_pos hz, hstop.1, hstop.2,
    List.append_nil]
  exact ⟨rfl, rfl⟩

theorem pos_of_mem_head?_dropWhile (ds : List Nat) :
    ∀ d ∈ (ds.dropWhile (· == 0)).head?, 0 < d := by
  intro d hd
  have hn := List.head?_dropWhile_not (· == 0) ds
  rw [Option.mem_def.mp hd] at hn
  exact Nat.pos_of_ne_zero (by simpa using hn)

theorem lt_of_mem_transcribe {source target : Nat} (ht : 1 < target) {ds : List Nat} {d : Nat}
    (h : d ∈ transcribe source target ds) : d < target := by
  rcases List.mem_append.mp h with h | h
  · have hz := List.mem_takeWhile_imp (p := (· == 0)) h
    have : d = 0 := by simpa using hz
    omega
  · exact lt_of_mem_convert ht (List.mem_reverse.mp h)

theorem transcribe_transcribe {source target : Nat} (hs : 1 < source) (ht : 1 < target)
    {ds : List Nat} (hd : ∀ d ∈ ds, d < source) :
    transcribe target source (transcribe source target ds) = ds := by
  have hzeros : ∀ d ∈ ds.takeWhile (· == 0), (d == 0) = true := fun d => List.mem_takeWhile_imp
  have htop : ∀ d ∈ (convert source target (ds.dropWhile (· == 0))).reverse.head?, 0 < d := by
    rw [List.head?_reverse]
    exact pos_of_mem_getLast?_convert (by omega) ht _
  obtain ⟨htake, hdrop⟩ := takeWhile_zeros_append hzeros htop
  have hback := convert_convert hs ht
    (fun d hm => hd d (List.dropWhile_subset _ hm)) (pos_of_mem_head?_dropWhile ds)
  rw [transcribe, transcribe, htake, hdrop, hback, List.reverse_reverse,
    List.takeWhile_append_dropWhile]

end Radix

namespace Alphabet

theorem encode_eq_map_transcribe (a : Alphabet) (bytes : Bytes) :
    a.encode bytes = (Radix.transcribe 256 a.base (bytes.map UInt8.toNat)).map a.symbol := by
  have hzero : (fun b : UInt8 => b.toNat == 0) = fun b => b == 0 := by
    funext b
    rw [Bool.eq_iff_iff, beq_iff_eq, beq_iff_eq, ← UInt8.toNat_inj]
    rfl
  have hsymbols : (bytes.takeWhile (· == 0)).map (fun _ => a.zero) =
      ((bytes.takeWhile (· == 0)).map UInt8.toNat).map a.symbol := by
    rw [List.map_map]
    apply List.map_congr_left
    intro b hb
    have hb := List.mem_takeWhile_imp (p := (· == 0)) hb
    obtain rfl : b = 0 := by simpa using hb
    rfl
  have htake : (bytes.map UInt8.toNat).takeWhile (· == 0) =
      (bytes.takeWhile (· == 0)).map UInt8.toNat := by
    rw [List.takeWhile_map]
    exact congrArg (fun p => (bytes.takeWhile p).map UInt8.toNat) hzero
  have hdrop : (bytes.map UInt8.toNat).dropWhile (· == 0) =
      (bytes.dropWhile (· == 0)).map UInt8.toNat := by
    rw [List.dropWhile_map]
    exact congrArg (fun p => (bytes.dropWhile p).map UInt8.toNat) hzero
  rw [Radix.transcribe, htake, hdrop, List.map_append, ← hsymbols, encode, List.map_reverse]

theorem symbol_eq_getElem {a : Alphabet} {d : Nat} (hd : d < a.symbols.length) :
    a.symbol d = a.symbols[d] := by
  rw [symbol, List.getD_eq_getElem?_getD, List.getElem?_eq_getElem hd, Option.getD_some]

theorem digit?_symbol {a : Alphabet} (hn : a.symbols.Nodup) {d : Nat} (hd : d < a.base) :
    a.digit? (a.symbol d) = some d := by
  have hlen : d < a.symbols.length := hd
  rw [digit?, symbol_eq_getElem hlen, List.idxOf?_eq_some_iff]
  refine ⟨hlen, rfl, fun j hj he => ?_⟩
  have hij := (List.Nodup.getElem_inj_iff hn).mp he
  omega

theorem symbol_of_digit? {a : Alphabet} {c : Char} {d : Nat} (h : a.digit? c = some d) :
    d < a.base ∧ a.symbol d = c := by
  obtain ⟨hlen, hc, -⟩ := List.idxOf?_eq_some_iff.mp h
  exact ⟨hlen, by rw [symbol_eq_getElem hlen, hc]⟩

theorem digits_map_symbol {a : Alphabet} (hn : a.symbols.Nodup) {ds : List Nat}
    (hd : ∀ d ∈ ds, d < a.base) : a.digits (ds.map a.symbol) = .ok ds := by
  induction ds with
  | nil => rfl
  | cons d ds ih =>
    have hrest := ih fun x hx => hd x (List.mem_cons_of_mem d hx)
    simp only [List.map_cons, digits, digit?_symbol hn (hd d List.mem_cons_self), hrest]
    rfl

theorem eq_map_symbol_of_digits {a : Alphabet} {text : List Char} {ds : List Nat}
    (h : a.digits text = .ok ds) : (∀ d ∈ ds, d < a.base) ∧ text = ds.map a.symbol := by
  induction text generalizing ds with
  | nil =>
    cases h
    simp
  | cons c text ih =>
    rw [digits] at h
    cases hc : a.digit? c with
    | none => simp [hc] at h
    | some d =>
      cases hrest : a.digits text with
      | error x => simp [hc, hrest] at h
      | ok rest =>
        simp only [hc, hrest] at h
        cases h
        obtain ⟨hlt, rfl⟩ := ih hrest
        obtain ⟨hd, rfl⟩ := symbol_of_digit? hc
        exact ⟨List.forall_mem_cons.mpr ⟨hd, hlt⟩, rfl⟩

theorem decode_eq_map_transcribe {a : Alphabet} {text : List Char} {ds : List Nat}
    (h : a.digits text = .ok ds) :
    a.decode text = .ok ((Radix.transcribe a.base 256 ds).map UInt8.ofNat) := by
  have hzeros : (ds.takeWhile (· == 0)).map (fun _ => (0 : UInt8)) =
      (ds.takeWhile (· == 0)).map UInt8.ofNat := by
    apply List.map_congr_left
    intro d hd
    have hd := List.mem_takeWhile_imp (p := (· == 0)) hd
    obtain rfl : d = 0 := by simpa using hd
    rfl
  rw [decode, h, Radix.transcribe, List.map_append, ← hzeros]
  rfl

/-- Every byte string comes back from its text. -/
theorem decode_encode {a : Alphabet} (hn : a.symbols.Nodup) (hb : 1 < a.base) (bytes : Bytes) :
    a.decode (a.encode bytes) = .ok bytes := by
  have hlt : ∀ d ∈ bytes.map UInt8.toNat, d < 256 := by
    intro d hd
    obtain ⟨b, -, rfl⟩ := List.mem_map.mp hd
    exact b.toNat_lt
  have hds : a.digits ((Radix.transcribe 256 a.base (bytes.map UInt8.toNat)).map a.symbol) =
      .ok _ :=
    digits_map_symbol hn fun d => Radix.lt_of_mem_transcribe hb
  rw [encode_eq_map_transcribe, decode_eq_map_transcribe hds,
    Radix.transcribe_transcribe (by omega) hb hlt, List.map_map]
  simp [Function.comp_def]

/-- Every text over the alphabet comes back from its bytes. -/
theorem encode_of_decode {a : Alphabet} (hb : 1 < a.base) {text : List Char} {bytes : Bytes}
    (h : a.decode text = .ok bytes) : a.encode bytes = text := by
  cases hds : a.digits text with
  | error c => simp [decode, hds] at h
  | ok ds =>
    obtain ⟨hlt, rfl⟩ := eq_map_symbol_of_digits hds
    rw [decode_eq_map_transcribe hds] at h
    cases h
    have hback : ((Radix.transcribe a.base 256 ds).map UInt8.ofNat).map UInt8.toNat =
        Radix.transcribe a.base 256 ds := by
      rw [List.map_map]
      conv_rhs => rw [← List.map_id (Radix.transcribe a.base 256 ds)]
      apply List.map_congr_left
      intro d hd
      have hd : d < 256 := Radix.lt_of_mem_transcribe (by omega) hd
      exact UInt8.toNat_ofNat_of_lt' hd
    rw [encode_eq_map_transcribe, hback, Radix.transcribe_transcribe hb (by omega) hlt]

/-- A text that does not begin with the zero symbol is one number, whose length in bytes shows in
its first symbol. -/
theorem length_of_decode {a : Alphabet} (hb : 1 < a.base) {c : Char} {text : List Char}
    {bytes : Bytes} {top n : Nat} (hc : a.digit? c = some top) (hpos : 0 < top)
    (hlo : 256 ^ n ≤ top * a.base ^ text.length)
    (hhi : (top + 1) * a.base ^ text.length ≤ 256 ^ (n + 1))
    (h : a.decode (c :: text) = .ok bytes) : bytes.length = n + 1 := by
  cases hds : a.digits text with
  | error x => simp [decode, digits, hc, hds] at h
  | ok ds =>
    obtain ⟨hlt, rfl⟩ := eq_map_symbol_of_digits hds
    have hdigits : a.digits (c :: ds.map a.symbol) = .ok (top :: ds) := by
      rw [digits, hc, hds]
      rfl
    rw [decode_eq_map_transcribe hdigits, Radix.transcribe_cons hpos] at h
    cases h
    rw [List.length_map] at hlo hhi
    rw [List.length_map, List.length_reverse]
    exact Radix.length_convert hb (by omega) hlt hlo hhi

theorem exists_digits {a : Alphabet} {text : List Char} (h : a.contains text = true) :
    ∃ ds, a.digits text = .ok ds := by
  induction text with
  | nil => exact ⟨[], rfl⟩
  | cons c text ih =>
    obtain ⟨hc, htext⟩ := Bool.and_eq_true_iff.mp h
    obtain ⟨d, hd⟩ := Option.isSome_iff_exists.mp hc
    obtain ⟨ds, hds⟩ := ih htext
    exact ⟨d :: ds, by rw [digits, hd, hds]; rfl⟩

theorem exists_decode {a : Alphabet} {text : List Char} (h : a.contains text = true) :
    ∃ bytes, a.decode text = .ok bytes := by
  obtain ⟨ds, hds⟩ := exists_digits h
  exact ⟨_, decode_eq_map_transcribe hds⟩

end Alphabet

theorem base58_nodup : base58.symbols.Nodup := by decide

theorem base59_nodup : base59.symbols.Nodup := by decide

end ProofOfProof
