import ProofOfProof.Base59
import ProofOfProof.Proofs.Alphabet

/-! Texts of base 59 and byte strings stand for each other one to one, zero by zero. The carries on
the way stay below the product of the two radices however long the input is, so that machine words
hold them. -/

namespace ProofOfProof

namespace Radix

/-- The quotients of `n` by the powers of the base, down to the last that is not zero. -/
def quotientsWithin (base : Nat) : Nat → Nat → List Nat
  | 0, _ => []
  | fuel + 1, n => if n = 0 then [] else n :: quotientsWithin base fuel (n / base)

/-- What `scaleAdd` splits, total by total, into a digit and the carry to the next. -/
def totals (base factor : Nat) : List Nat → Nat → List Nat
  | [], carry => quotientsWithin base carry carry
  | d :: ds, carry =>
    let total := carry + d * factor
    total :: totals base factor ds (total / base)

theorem digitsWithin_eq_map_quotientsWithin (base fuel n : Nat) :
    digitsWithin base fuel n = (quotientsWithin base fuel n).map (· % base) := by
  induction fuel generalizing n with
  | zero => rfl
  | succ fuel ih =>
    by_cases hn : n = 0
    · simp [digitsWithin, quotientsWithin, hn]
    · simp [digitsWithin, quotientsWithin, hn, ih]

theorem scaleAdd_eq_map_totals (base factor : Nat) (ds : List Nat) (carry : Nat) :
    scaleAdd base factor ds carry = (totals base factor ds carry).map (· % base) := by
  induction ds generalizing carry with
  | nil => exact digitsWithin_eq_map_quotientsWithin base carry carry
  | cons d ds ih => simp only [scaleAdd, totals, List.map_cons, ih]

theorem le_of_mem_quotientsWithin {base fuel n x : Nat} (h : x ∈ quotientsWithin base fuel n) :
    x ≤ n := by
  induction fuel generalizing n with
  | zero => simp [quotientsWithin] at h
  | succ fuel ih =>
    by_cases hn : n = 0
    · simp [quotientsWithin, hn] at h
    · simp only [quotientsWithin, hn, if_false, List.mem_cons] at h
      rcases h with rfl | h
      · exact Nat.le_refl x
      · exact (ih h).trans (Nat.div_le_self n base)

/-- A carry below the factor leaves one that is again below it, and never more than the product of
base and factor in between. -/
theorem lt_of_mem_totals {base factor carry total : Nat} {ds : List Nat} (hb : 0 < base)
    (hd : ∀ d ∈ ds, d < base) (hc : carry < factor) (h : total ∈ totals base factor ds carry) :
    total < base * factor := by
  induction ds generalizing carry with
  | nil =>
    have hle := le_of_mem_quotientsWithin h
    have hfactor : 1 * factor ≤ base * factor := Nat.mul_le_mul_right factor hb
    omega
  | cons d ds ih =>
    have hfirst : carry + d * factor < base * factor := by
      have hscaled : (d + 1) * factor ≤ base * factor :=
        Nat.mul_le_mul_right factor (hd d (by simp))
      rw [Nat.add_mul, Nat.one_mul] at hscaled
      omega
    rcases List.mem_cons.mp h with rfl | h
    · exact hfirst
    · have hcarry : (carry + d * factor) / base < factor := Nat.div_lt_of_lt_mul hfirst
      exact ih (fun x hx => hd x (by simp [hx])) hcarry h

/-- Machine words do for a change of radix: whenever it takes in a digit, every total it splits fits
in 32 bits, and what it keeps of the total in 8. -/
def FitsWords (source target : Nat) (ds : List Nat) : Prop :=
  ∀ done d, done ++ [d] <+: ds →
    convert source target (done ++ [d]) =
        (totals target source (convert source target done) d).map (· % target) ∧
      ∀ total ∈ totals target source (convert source target done) d,
        total < 2 ^ 32 ∧ total % target < 2 ^ 8

theorem fitsWords {source target : Nat} {ds : List Nat} (ht : 1 < target) (hbyte : target ≤ 2 ^ 8)
    (hword : target * source ≤ 2 ^ 32) (hd : ∀ d ∈ ds, d < source) :
    FitsWords source target ds := by
  intro done d hread
  have hlt : d < source := hd d (hread.subset (by simp))
  constructor
  · rw [convert_append_singleton, scaleAdd_eq_map_totals]
  · intro total htotal
    have htop := lt_of_mem_totals (by omega) (fun x => lt_of_mem_convert ht) hlt htotal
    have hmod : total % target < target := Nat.mod_lt total (by omega)
    omega

end Radix

namespace Alphabet

/-- The digits of a text up to its first foreign character. -/
def digitsBefore (a : Alphabet) (text : List Char) : List Nat :=
  (text.takeWhile fun c => (a.digit? c).isSome).filterMap a.digit?

theorem lt_of_mem_digitsBefore {a : Alphabet} {text : List Char} {d : Nat}
    (h : d ∈ a.digitsBefore text) : d < a.base := by
  obtain ⟨c, -, hc⟩ := List.mem_filterMap.mp h
  exact (symbol_of_digit? hc).1

theorem symbol_ne_zero {a : Alphabet} (hn : a.symbols.Nodup) {d : Nat} (hd : d < a.base)
    (hpos : 0 < d) : a.symbol d ≠ a.zero := by
  intro h
  have hzero : a.symbol 0 = a.zero := rfl
  have hdigit := digit?_symbol hn hd
  rw [h, ← hzero, digit?_symbol hn (by omega)] at hdigit
  simp at hdigit
  omega

theorem takeWhile_map_symbol {a : Alphabet} (hn : a.symbols.Nodup) {ds : List Nat}
    (hd : ∀ d ∈ ds, d < a.base) (hh : ∀ d ∈ ds.head?, 0 < d) :
    (ds.map a.symbol).takeWhile (· == a.zero) = [] := by
  cases ds with
  | nil => rfl
  | cons d ds =>
    have hne := symbol_ne_zero hn (hd d (by simp)) (hh d rfl)
    simp [hne]

/-- As many zero symbols open a text as zero bytes its byte string. -/
theorem takeWhile_encode {a : Alphabet} (hn : a.symbols.Nodup) (hb : 1 < a.base) (bytes : Bytes) :
    (a.encode bytes).takeWhile (· == a.zero) = (bytes.takeWhile (· == 0)).map fun _ => a.zero := by
  rw [encode, List.takeWhile_append_of_pos (by simp), takeWhile_map_symbol hn, List.append_nil]
  · intro d hd
    exact Radix.lt_of_mem_convert hb (List.mem_reverse.mp hd)
  · rw [List.head?_reverse]
    exact Radix.pos_of_mem_getLast?_convert (by omega) hb _

theorem exists_decode_iff {a : Alphabet} (hb : 1 < a.base) {text : List Char} :
    (∃ bytes, a.decode text = .ok bytes) ↔ a.contains text = true := by
  refine ⟨?_, exists_decode⟩
  rintro ⟨bytes, h⟩
  obtain rfl := encode_of_decode hb h
  exact contains_iff.mpr fun c hc => mem_symbols_of_mem_encode hc

end Alphabet

namespace Base59

/-- Every byte string comes back from its text and every text over the alphabet from its bytes, and
on no input does a carry outgrow 32 bits or a digit 8. -/
theorem decode_eq_ok_iff_accepts :
    (∀ bytes : Bytes, decode (encode bytes) = .ok bytes ∧
      (∀ c ∈ (encode bytes).toList, c ∈ base59.symbols) ∧
      ((encode bytes).toList.takeWhile (· == '1')).length = (bytes.takeWhile (· == 0)).length ∧
      Radix.FitsWords 256 59 ((bytes.dropWhile (· == 0)).map UInt8.toNat)) ∧
    ∀ text : String, ((∃ bytes, decode text = .ok bytes) ↔ accepts text = true) ∧
      (∀ bytes, decode text = .ok bytes → encode bytes = text) ∧
      Radix.FitsWords 59 256 ((base59.digitsBefore text.toList).dropWhile (· == 0)) := by
  have hb : 1 < base59.base := by decide
  constructor
  · intro bytes
    have hzeros := congrArg List.length (Alphabet.takeWhile_encode base59_nodup hb bytes)
    rw [List.length_map] at hzeros
    simp only [decode_eq_ok, encode, String.toList_ofList]
    refine ⟨Alphabet.decode_encode base59_nodup hb bytes,
      fun c => Alphabet.mem_symbols_of_mem_encode, hzeros, ?_⟩
    refine Radix.fitsWords (by omega) (by omega) (by omega) fun d hd => ?_
    obtain ⟨b, -, rfl⟩ := List.mem_map.mp hd
    exact b.toNat_lt
  · intro text
    simp only [decode_eq_ok]
    refine ⟨Alphabet.exists_decode_iff hb, fun bytes h => ?_, ?_⟩
    · rw [encode, Alphabet.encode_of_decode hb h, String.ofList_toList]
    · refine Radix.fitsWords (by omega) (by omega) (by omega) fun d hd => ?_
      exact Alphabet.lt_of_mem_digitsBefore (List.dropWhile_subset _ hd)

/-- Two leading zeros, and the number 58 as the last digit. -/
example : encode [0, 0, 58] = "110" := by decide

end Base59

end ProofOfProof
