/-! Numerals as little-endian lists of digits, and the change of radix by Horner's rule: each
digit of the source scales the numeral built so far and is added to it, carry by carry. -/

namespace ProofOfProof.Radix

/-- The number a little-endian numeral stands for. -/
def value (base : Nat) : List Nat → Nat
  | [] => 0
  | d :: ds => d + base * value base ds

/-- At most `fuel` digits of `n`, the least significant first. -/
def digitsWithin (base : Nat) : Nat → Nat → List Nat
  | 0, _ => []
  | fuel + 1, n => if n = 0 then [] else n % base :: digitsWithin base fuel (n / base)

/-- The digits of `n`, none for zero. -/
def digits (base n : Nat) : List Nat := digitsWithin base n n

/-- The numeral of `factor` times a numeral plus `carry`. -/
def scaleAdd (base factor : Nat) : List Nat → Nat → List Nat
  | [], carry => digits base carry
  | d :: ds, carry =>
    let total := carry + d * factor
    total % base :: scaleAdd base factor ds (total / base)

/-- The numeral in radix `target` of big-endian digits in radix `source`. -/
def convert (source target : Nat) (ds : List Nat) : List Nat :=
  ds.foldl (fun numeral d => scaleAdd target source numeral d) []

theorem value_digitsWithin {base : Nat} (hb : 1 < base) {fuel n : Nat} (h : n ≤ fuel) :
    value base (digitsWithin base fuel n) = n := by
  induction fuel generalizing n with
  | zero => simp [digitsWithin, value]; omega
  | succ fuel ih =>
    rw [digitsWithin]
    split
    · simp [value]; omega
    · next hn =>
      have hlt : n / base < n := Nat.div_lt_self (by omega) hb
      rw [value, ih (by omega)]
      exact Nat.mod_add_div n base

theorem value_scaleAdd {base : Nat} (hb : 1 < base) (factor : Nat) (ds : List Nat) (carry : Nat) :
    value base (scaleAdd base factor ds carry) = factor * value base ds + carry := by
  induction ds generalizing carry with
  | nil => simp [scaleAdd, digits, value_digitsWithin hb (Nat.le_refl carry), value]
  | cons d ds ih =>
    have hm := Nat.mod_add_div (carry + d * factor) base
    simp only [scaleAdd, value, ih, Nat.mul_add]
    rw [Nat.mul_left_comm base factor, Nat.mul_comm factor d]
    omega

theorem lt_of_mem_digitsWithin {base : Nat} (hb : 1 < base) {fuel n d : Nat}
    (h : d ∈ digitsWithin base fuel n) : d < base := by
  induction fuel generalizing n with
  | zero => simp [digitsWithin] at h
  | succ fuel ih =>
    rw [digitsWithin] at h
    split at h
    · simp at h
    · rcases List.mem_cons.mp h with rfl | h
      · exact Nat.mod_lt _ (by omega)
      · exact ih h

theorem lt_of_mem_scaleAdd {base : Nat} (hb : 1 < base) {factor : Nat} {ds : List Nat}
    {carry d : Nat} (h : d ∈ scaleAdd base factor ds carry) : d < base := by
  induction ds generalizing carry with
  | nil => exact lt_of_mem_digitsWithin hb h
  | cons x ds ih =>
    rcases List.mem_cons.mp h with rfl | h
    · exact Nat.mod_lt _ (by omega)
    · exact ih h

theorem convert_append_singleton (source target : Nat) (ds : List Nat) (d : Nat) :
    convert source target (ds ++ [d]) = scaleAdd target source (convert source target ds) d := by
  simp [convert]

theorem value_convert {source target : Nat} (ht : 1 < target) (ds : List Nat) :
    value target (convert source target ds) = value source ds.reverse := by
  suffices h : ∀ rs : List Nat,
      value target (convert source target rs.reverse) = value source rs by
    simpa using h ds.reverse
  intro rs
  induction rs with
  | nil => rfl
  | cons d rs ih =>
    rw [List.reverse_cons, convert_append_singleton, value_scaleAdd ht, ih, value]
    omega

theorem lt_of_mem_convert {source target : Nat} (ht : 1 < target) {ds : List Nat} {d : Nat}
    (h : d ∈ convert source target ds) : d < target := by
  suffices hr : ∀ rs : List Nat, d ∈ convert source target rs.reverse → d < target from
    hr ds.reverse (by simpa using h)
  intro rs hd
  cases rs with
  | nil => simp [convert] at hd
  | cons x rs =>
    rw [List.reverse_cons, convert_append_singleton] at hd
    exact lt_of_mem_scaleAdd ht hd

theorem digitsWithin_ne_nil {base fuel n : Nat} (hn : 0 < n) (h : n ≤ fuel) :
    digitsWithin base fuel n ≠ [] := by
  cases fuel with
  | zero => omega
  | succ fuel => simp [digitsWithin, Nat.ne_of_gt hn]

/-- The top digit of a number is not zero. -/
theorem pos_of_mem_getLast?_digitsWithin {base : Nat} (hb : 1 < base) {fuel n : Nat}
    (h : n ≤ fuel) : ∀ d ∈ (digitsWithin base fuel n).getLast?, 0 < d := by
  induction fuel generalizing n with
  | zero => simp [digitsWithin]
  | succ fuel ih =>
    intro d hd
    rw [digitsWithin] at hd
    split at hd
    · simp at hd
    · next hn =>
      have hlt : n / base < n := Nat.div_lt_self (by omega) hb
      by_cases hq : n / base = 0
      · have hz : digitsWithin base fuel 0 = [] := by cases fuel <;> simp [digitsWithin]
        rw [hq, hz] at hd
        have hm := Nat.mod_add_div n base
        simp only [List.getLast?_singleton, Option.mem_some_iff] at hd
        rw [hq] at hm
        omega
      · rw [List.getLast?_cons_of_ne_nil (digitsWithin_ne_nil (Nat.pos_of_ne_zero hq)
          (by omega))] at hd
        exact ih (by omega) d hd

/-- Scaling by no less than the base makes a numeral without a zero on top longer, and puts none
there. -/
theorem length_lt_length_scaleAdd {base factor : Nat} (hb : 1 < base) (hf : base ≤ factor)
    {ds : List Nat} (carry : Nat) (hc : ds = [] → 0 < carry) (ht : ∀ d ∈ ds.getLast?, 0 < d) :
    ds.length < (scaleAdd base factor ds carry).length ∧
      ∀ d ∈ (scaleAdd base factor ds carry).getLast?, 0 < d := by
  induction ds generalizing carry with
  | nil =>
    refine ⟨?_, pos_of_mem_getLast?_digitsWithin hb (Nat.le_refl carry)⟩
    exact List.length_pos_iff.mpr (digitsWithin_ne_nil (hc rfl) (Nat.le_refl carry))
  | cons d ds ih =>
    have hrest : ds = [] → 0 < (carry + d * factor) / base := fun hn => by
      have hd : 0 < d := ht d (by simp [hn])
      have hm : 1 * factor ≤ d * factor := Nat.mul_le_mul_right factor hd
      exact Nat.div_pos (by omega) (by omega)
    have hlast : ∀ x ∈ ds.getLast?, 0 < x := fun x hx =>
      ht x (by rw [List.getLast?_cons, hx]; rfl)
    obtain ⟨hlen, htop⟩ := ih _ hrest hlast
    have hne : scaleAdd base factor ds ((carry + d * factor) / base) ≠ [] :=
      List.ne_nil_of_length_pos (by omega)
    refine ⟨by simp only [scaleAdd, List.length_cons]; omega, ?_⟩
    simp only [scaleAdd]
    rwa [List.getLast?_cons_of_ne_nil hne]

/-- A change to a radix that is no larger makes no numeral shorter. -/
theorem length_le_length_convert {source target : Nat} (ht : 1 < target) (h : target ≤ source)
    (ds : List Nat) (hd : ∀ d ∈ ds.head?, 0 < d) :
    ds.length ≤ (convert source target ds).length := by
  cases ds with
  | nil => simp
  | cons top ds =>
    suffices hs : ∀ rs : List Nat,
        rs.length < (convert source target (top :: rs.reverse)).length ∧
          ∀ d ∈ (convert source target (top :: rs.reverse)).getLast?, 0 < d by
      have hlen := (hs ds.reverse).1
      rw [List.length_reverse, List.reverse_reverse] at hlen
      exact hlen
    intro rs
    induction rs with
    | nil =>
      exact length_lt_length_scaleAdd ht h top (fun _ => hd top rfl) (by simp)
    | cons d rs ih =>
      obtain ⟨hlen, htop⟩ := ih
      have hstep := length_lt_length_scaleAdd ht h d
        (fun hn => absurd hn (List.ne_nil_of_length_pos (by omega))) htop
      rw [List.reverse_cons, ← List.cons_append, convert_append_singleton]
      exact ⟨by rw [List.length_cons]; omega, hstep.2⟩

end ProofOfProof.Radix
