import ProofOfProof.Json.Parser

/-! The parser takes from a text the value that was rendered to it. What stands behind a value
matters only to numbers, which go on as long as there are digits. -/

namespace ProofOfProof.Json

open ProofOfProof.Json.Parser

variable {rest : List Char}

/-- Whether `rest` begins with nothing that a number could go on with. -/
def Stops (rest : List Char) : Prop :=
  ∀ c ∈ rest.head?, c.isDigit = false ∧ c ≠ '.' ∧ c ≠ 'e' ∧ c ≠ 'E'

section Number

theorem toDigits_eq_cons (n : Nat) :
    ∃ c cs, Nat.toDigits 10 n = c :: cs ∧ c.isDigit = true ∧ (c = '0' → n = 0) := by
  induction n using Nat.strongRecOn with
  | ind n ih =>
    by_cases hn : n < 10
    · refine ⟨Nat.digitChar n, [], Nat.toDigits_of_lt_base hn, ?_, Nat.digitChar_eq_zero.mp⟩
      rw [Nat.isDigit_digitChar]
      exact decide_eq_true hn
    · obtain ⟨c, cs, hcs, hdigit, hzero⟩ := ih (n / 10) (by omega)
      refine ⟨c, cs ++ [Nat.digitChar (n % 10)], ?_, hdigit, fun hc => ?_⟩
      · rw [Nat.toDigits_of_base_le (by omega) (by omega), hcs, List.cons_append]
      · have := hzero hc
        omega

theorem digits_append {ds : List Char} (hds : ∀ c ∈ ds, c.isDigit = true) (hr : Stops rest)
    (n : Nat) : digits n (ds ++ rest) = (Nat.ofDigitChars 10 ds n, rest) := by
  induction ds generalizing n with
  | nil =>
    rw [List.nil_append, Nat.ofDigitChars_nil]
    cases rest with
    | nil => rfl
    | cons c cs =>
      have hc := (hr c rfl).1
      simp [digits, hc]
  | cons d ds ih =>
    have hd := hds d List.mem_cons_self
    have hzero : '0'.toNat = 48 := rfl
    rw [List.cons_append, digits, if_pos hd, ih fun c hc => hds c (List.mem_cons_of_mem d hc),
      Nat.ofDigitChars_cons, hzero, Nat.mul_comm]

theorem integerPart_toDigits (hr : Stops rest) (n : Nat) :
    integerPart (Nat.toDigits 10 n ++ rest) = some (n, rest) := by
  obtain ⟨c, cs, hcs, hdigit, hzero⟩ := toDigits_eq_cons n
  by_cases hc : c = '0'
  · obtain rfl := hzero hc
    rw [Nat.toDigits_zero]
    cases rest with
    | nil => rfl
    | cons d ds =>
      have hd := (hr d rfl).1
      simp [integerPart, hd]
  · have hall : ∀ d ∈ Nat.toDigits 10 n, d.isDigit = true := fun d =>
      Nat.isDigit_of_mem_toDigits (by omega) (by omega)
    have hdigits := digits_append hall hr 0
    rw [Nat.ofDigitChars_ten_toDigits] at hdigits
    rw [hcs, List.cons_append] at hdigits ⊢
    have hsome : integerPart (c :: (cs ++ rest)) = someDigits (c :: (cs ++ rest)) := by
      rw [integerPart]
      rintro d ds hd
      exact absurd (List.cons.inj hd).1 hc
    rw [hsome, someDigits, if_pos hdigit, hdigits]

theorem unsigned_toDigits (hr : Stops rest) {negative : Bool} {n : Nat}
    (hn : negative = true → n ≠ 0) : unsigned negative (Nat.toDigits 10 n ++ rest) =
      some (.integer (if negative then -(n : Int) else n), rest) := by
  have hfraction : skipFraction rest = some (false, rest) := by
    cases rest with
    | nil => rfl
    | cons c cs =>
      have hc := (hr c rfl).2.1
      rw [skipFraction]
      rintro ds hd
      exact absurd (List.cons.inj hd).1 hc
  have hexponent : skipExponent rest = some (false, rest) := by
    cases rest with
    | nil => rfl
    | cons c cs =>
      have hc := (hr c rfl).2.2
      rw [skipExponent]
      · rintro ds hd
        exact absurd (List.cons.inj hd).1 hc.1
      · rintro ds hd
        exact absurd (List.cons.inj hd).1 hc.2
  cases negative with
  | false => simp [unsigned, integerPart_toDigits hr, hfraction, hexponent]
  | true => simp [unsigned, integerPart_toDigits hr, hfraction, hexponent, hn rfl]

theorem number_decimal (hr : Stops rest) (n : Int) :
    number (decimal n ++ rest) = some (.integer n, rest) := by
  by_cases hn : n < 0
  · rw [decimal, if_pos hn, List.cons_append, number, unsigned_toDigits hr (fun _ => by omega)]
    have habs : -(n.natAbs : Int) = n := by omega
    rw [if_pos rfl, habs]
  · obtain ⟨c, cs, hcs, hdigit, -⟩ := toDigits_eq_cons n.natAbs
    have hminus : number (Nat.toDigits 10 n.natAbs ++ rest) =
        unsigned false (Nat.toDigits 10 n.natAbs ++ rest) := by
      rw [hcs, List.cons_append, number]
      rintro ds hd
      rw [(List.cons.inj hd).1] at hdigit
      cases hdigit
    rw [decimal, if_neg hn, hminus, unsigned_toDigits hr (fun h => absurd h (by decide))]
    have habs : (n.natAbs : Int) = n := by omega
    rw [if_neg (by decide), habs]

end Number

section String

theorem hexValue_digitChar : ∀ d < 16, hexValue (Nat.digitChar d) = some d := by decide

theorem unicodeEscape_control {c : Char} (h : c.toNat < 32) :
    unicodeEscape '0' '0' (Nat.digitChar (c.toNat / 16)) (Nat.digitChar (c.toNat % 16)) =
      some (.scalar c) := by
  have hzero : hexValue '0' = some 0 := by decide
  have hvalue : 4096 * 0 + 256 * 0 + 16 * (c.toNat / 16) + c.toNat % 16 = c.toNat := by omega
  have hsurrogate : ¬ (0xD800 ≤ c.toNat ∧ c.toNat < 0xE000) := by omega
  rw [unicodeEscape, hexValue_digitChar _ (by omega), hexValue_digitChar _ (by omega), hzero]
  simp only [Option.pure_def, Option.bind_eq_bind, Option.bind_some, hvalue, if_neg hsurrogate,
    Char.ofNat_toNat]

theorem parts_escape (c : Char) (done : List Part) (cs : List Char) :
    parts done (escape c ++ cs) = parts (.scalar c :: done) cs := by
  rw [escape]
  split
  · next h =>
    rw [h]
    rfl
  split
  · next h =>
    rw [h]
    rfl
  split
  · next h =>
    rw [h]
    rfl
  split
  · next h =>
    rw [h]
    rfl
  split
  · next h =>
    rw [h]
    rfl
  split
  · next h =>
    obtain rfl : c = '\x08' := by rw [← Char.ofNat_toNat c, h]
    rfl
  split
  · next h =>
    obtain rfl : c = '\x0c' := by rw [← Char.ofNat_toNat c, h]
    rfl
  split
  · next h =>
    simp only [List.cons_append, List.nil_append]
    rw [parts, unicodeEscape_control h]
  · next hquote hbackslash _ _ _ _ _ hcontrol =>
    rw [List.singleton_append, parts, if_neg hcontrol]
    · exact hquote
    · exact fun _ _ _ _ _ h _ => hbackslash h
    · exact fun _ _ h _ => hbackslash h

theorem parts_flatMap (text : List Char) (done : List Part) (rest : List Char) :
    parts done (text.flatMap escape ++ '"' :: rest) =
      some (done.reverse ++ text.map .scalar, rest) := by
  induction text generalizing done with
  | nil => simp [parts]
  | cons c text ih =>
    rw [List.flatMap_cons, List.append_assoc, parts_escape, ih]
    simp

theorem textOf_scalars (done text : List Char) :
    textOf done (text.map .scalar) = some (done.reverse ++ text) := by
  induction text generalizing done with
  | nil => simp [textOf]
  | cons c text ih => simp [textOf, ih]

theorem string_quoted (text : String) (rest : List Char) :
    Parser.string (text.toList.flatMap escape ++ '"' :: rest) = some (.string text, rest) := by
  rw [Parser.string, parts_flatMap]
  simp [textOf_scalars]

end String

section Head

theorem decimal_eq_cons (n : Int) : ∃ c cs, decimal n = c :: cs ∧ (c = '-' ∨ c.isDigit = true) := by
  obtain ⟨c, cs, hcs, hdigit, -⟩ := toDigits_eq_cons n.natAbs
  by_cases hn : n < 0
  · exact ⟨'-', c :: cs, by rw [decimal, if_pos hn, hcs], .inl rfl⟩
  · exact ⟨c, cs, by rw [decimal, if_neg hn, hcs], .inr hdigit⟩

theorem ne_of_numeral {c d : Char} (h : c = '-' ∨ c.isDigit = true)
    (hd : (d == '-' || d.isDigit) = false) : c ≠ d := by
  rintro rfl
  rcases h with rfl | hdigit
  · cases hd
  · rw [hdigit, Bool.or_true] at hd
    cases hd

theorem isBlank_of_numeral {c : Char} (h : c = '-' ∨ c.isDigit = true) : isBlank c = false := by
  have hspace := ne_of_numeral h (d := ' ') (by decide)
  have hnewline := ne_of_numeral h (d := '\n') (by decide)
  have htab := ne_of_numeral h (d := '\t') (by decide)
  have hreturn := ne_of_numeral h (d := '\r') (by decide)
  simp [isBlank, hspace, hnewline, htab, hreturn]

/-- A text begins with no blank, and not like the end of an array. -/
theorem render_eq_cons {json : Json} (h : json.hasText = true) (rest : List Char) :
    ∃ c cs, json.render rest = c :: cs ∧ isBlank c = false ∧ c ≠ ']' := by
  cases json with
  | null => exact ⟨_, _, rfl, by decide, by decide⟩
  | bool b =>
    cases b with
    | false => exact ⟨_, _, rfl, by decide, by decide⟩
    | true => exact ⟨_, _, rfl, by decide, by decide⟩
  | integer n =>
    obtain ⟨c, cs, hcs, hc⟩ := decimal_eq_cons n
    refine ⟨c, cs ++ rest, ?_, isBlank_of_numeral hc, ne_of_numeral hc (by decide)⟩
    rw [render, hcs, List.cons_append]
  | string text => exact ⟨_, _, rfl, by decide, by decide⟩
  | array items =>
    cases items with
    | nil => exact ⟨_, _, rfl, by decide, by decide⟩
    | cons item items => exact ⟨'[', _, by rw [render], by decide, by decide⟩
  | object members =>
    cases members with
    | nil => exact ⟨_, _, rfl, by decide, by decide⟩
    | cons member members => exact ⟨'\x7b', _, by rw [render], by decide, by decide⟩
  | foreign => cases h

theorem skipBlanks_of_head {c : Char} (h : isBlank c = false) (cs : List Char) :
    skipBlanks (c :: cs) = c :: cs := by
  rw [skipBlanks, h]
  rfl

theorem value_of_numeral {c : Char} (h : c = '-' ∨ c.isDigit = true) (fuel : Nat)
    (cs : List Char) : value (fuel + 1) (c :: cs) = number (c :: cs) := by
  rw [value, skipBlanks_of_head (isBlank_of_numeral h)]
  split
  all_goals
    try next he =>
      exact absurd (List.cons.inj he).1 (ne_of_numeral h (by decide))
  rfl

theorem stops_cons {c : Char} (h : c.isDigit = false ∧ c ≠ '.' ∧ c ≠ 'e' ∧ c ≠ 'E')
    (cs : List Char) : Stops (c :: cs) := by
  intro d hd
  obtain rfl := Option.some.inj hd
  exact h

theorem stops_renderItems (items : List Json) (rest : List Char) :
    Stops (renderItems items rest) := by
  cases items with
  | nil => exact stops_cons (by decide) _
  | cons item items =>
    rw [renderItems]
    exact stops_cons (by decide) _

theorem stops_renderMembers (members : List (Json × Json)) (rest : List Char) :
    Stops (renderMembers members rest) := by
  cases members with
  | nil => exact stops_cons (by decide) _
  | cons member members =>
    rw [renderMembers]
    exact stops_cons (by decide) _

end Head

section Length

mutual

theorem length_le_render : ∀ (json : Json) (rest : List Char),
    rest.length ≤ (json.render rest).length
  | .null, _ => by simp [render]; omega
  | .bool true, _ => by simp [render]; omega
  | .bool false, _ => by simp [render]; omega
  | .integer n, _ => by simp [render]
  | .string text, _ => by simp [render, quoted]; omega
  | .array [], _ => by simp [render]; omega
  | .array (item :: items), rest => by
    have hitem := length_le_render item (renderItems items rest)
    have hitems := length_le_renderItems items rest
    simp only [render, List.length_cons]
    omega
  | .object [], _ => by simp [render]; omega
  | .object ((name, value) :: members), rest => by
    have hname := length_le_render name (':' :: value.render (renderMembers members rest))
    have hvalue := length_le_render value (renderMembers members rest)
    have hmembers := length_le_renderMembers members rest
    simp only [render, List.length_cons] at hname ⊢
    omega
  | .foreign, _ => Nat.le_refl _

theorem length_le_renderItems : ∀ (items : List Json) (rest : List Char),
    rest.length ≤ (renderItems items rest).length
  | [], _ => by simp [renderItems]
  | item :: items, rest => by
    have hitem := length_le_render item (renderItems items rest)
    have hitems := length_le_renderItems items rest
    simp only [renderItems, List.length_cons]
    omega

theorem length_le_renderMembers : ∀ (members : List (Json × Json)) (rest : List Char),
    rest.length ≤ (renderMembers members rest).length
  | [], _ => by simp [renderMembers]
  | (name, value) :: members, rest => by
    have hname := length_le_render name (':' :: value.render (renderMembers members rest))
    have hvalue := length_le_render value (renderMembers members rest)
    have hmembers := length_le_renderMembers members rest
    simp only [renderMembers, List.length_cons] at hname ⊢
    omega

end

end Length

/-! What the fuel has to cover: two steps for each character that is left, and one more within a
list. -/

def Reads (json : Json) : Prop :=
  ∀ rest fuel, Stops rest → 2 * (json.render rest).length < fuel →
    value fuel (json.render rest) = some (json, rest)

def ReadsItems (items : List Json) : Prop :=
  ∀ rest cs done fuel, renderItems items rest = ',' :: cs → 2 * cs.length + 1 < fuel →
    Parser.items fuel done cs = some (.array (done.reverse ++ items), rest)

def ReadsMembers (members : List (Json × Json)) : Prop :=
  ∀ rest cs done fuel, renderMembers members rest = ',' :: cs → 2 * cs.length + 1 < fuel →
    Parser.members fuel done cs = some (.object (done.reverse ++ members), rest)

section Steps

variable {item value : Json} {items : List Json} {members : List (Json × Json)} {name : String}

theorem reads_of_succ {json : Json} (h : ∀ rest fuel, Stops rest →
    2 * (json.render rest).length < fuel + 1 →
      Parser.value (fuel + 1) (json.render rest) = some (json, rest)) : Reads json := by
  intro rest fuel hr hf
  cases fuel with
  | zero => omega
  | succ fuel => exact h rest fuel hr hf

theorem reads_integer (n : Int) : Reads (.integer n) := by
  refine reads_of_succ fun rest fuel hr _ => ?_
  obtain ⟨c, cs, hcs, hc⟩ := decimal_eq_cons n
  have hnumber := number_decimal hr n
  rw [render, hcs, List.cons_append, value_of_numeral hc, ← List.cons_append, ← hcs, hnumber]

theorem reads_array (hi : item.hasText = true) (h : ReadsItems (item :: items)) :
    Reads (.array (item :: items)) := by
  refine reads_of_succ fun rest fuel _ hf => ?_
  obtain ⟨c, cs, hcs, hblank, hend⟩ := render_eq_cons hi (renderItems items rest)
  have hitems := h rest (item.render (renderItems items rest)) [] fuel (by rw [renderItems])
  rw [render, List.length_cons] at hf
  rw [render, Parser.value, skipBlanks_of_head (by decide)]
  rw [hcs] at hf hitems ⊢
  simp only [skipBlanks_of_head hblank]
  split
  · next he => exact absurd (List.cons.inj he).1 hend
  · exact hitems (by omega)

theorem readsItems_nil : ReadsItems [] := by
  intro rest cs done fuel hcs
  rw [renderItems] at hcs
  cases hcs

theorem readsItems_cons (hi : item.Reads) (h : ReadsItems items) : ReadsItems (item :: items) := by
  intro rest cs done fuel hcs hf
  rw [renderItems] at hcs
  obtain rfl := (List.cons.inj hcs).2
  cases fuel with
  | zero => omega
  | succ fuel =>
    have hlen := length_le_render item (renderItems items rest)
    rw [Parser.items, hi _ fuel (stops_renderItems items rest) (by omega)]
    cases items with
    | nil => simp [renderItems, skipBlanks_of_head (c := ']') (by decide)]
    | cons next items =>
      have hnext := h rest _ (item :: done) fuel (by rw [renderItems])
      have hlonger : (renderItems (next :: items) rest).length =
          (next.render (renderItems items rest)).length + 1 := by rw [renderItems, List.length_cons]
      simp only [renderItems, skipBlanks_of_head (c := ',') (by decide)]
      rw [hnext (by omega), List.reverse_cons, List.append_assoc]
      rfl

theorem reads_object (h : ReadsMembers ((.string name, value) :: members)) :
    Reads (.object ((.string name, value) :: members)) := by
  refine reads_of_succ fun rest fuel _ hf => ?_
  have hmembers := h rest _ [] fuel (by rw [renderMembers])
  rw [render, List.length_cons] at hf
  rw [render, Parser.value, skipBlanks_of_head (by decide)]
  exact hmembers (by omega)

theorem readsMembers_nil : ReadsMembers [] := by
  intro rest cs done fuel hcs
  rw [renderMembers] at hcs
  cases hcs

theorem readsMembers_cons (hv : value.Reads) (h : ReadsMembers members) :
    ReadsMembers ((.string name, value) :: members) := by
  intro rest cs done fuel hcs hf
  rw [renderMembers] at hcs
  obtain rfl := (List.cons.inj hcs).2
  cases fuel with
  | zero => omega
  | succ fuel =>
    have hname := length_le_render (.string name) (':' :: value.render (renderMembers members rest))
    have hlen := length_le_render value (renderMembers members rest)
    rw [List.length_cons] at hname
    rw [Parser.members, render, quoted, skipBlanks_of_head (by decide)]
    simp only [string_quoted, skipBlanks_of_head (c := ':') (by decide)]
    rw [hv _ fuel (stops_renderMembers members rest) (by omega)]
    cases members with
    | nil => simp [renderMembers, skipBlanks_of_head (c := '\x7d') (by decide)]
    | cons next members =>
      have hnext := h rest _ ((.string name, value) :: done) fuel (by rw [renderMembers])
      have hlonger : (renderMembers (next :: members) rest).length =
          (next.1.render (':' :: next.2.render (renderMembers members rest))).length + 1 := by
        rw [renderMembers, List.length_cons]
      simp only [renderMembers, skipBlanks_of_head (c := ',') (by decide)]
      rw [hnext (by omega), List.reverse_cons, List.append_assoc]
      rfl

end Steps

mutual

theorem reads_of_hasText : ∀ json : Json, json.hasText = true → json.Reads
  | .null, _ => reads_of_succ fun _ _ _ _ => rfl
  | .bool true, _ => reads_of_succ fun _ _ _ _ => rfl
  | .bool false, _ => reads_of_succ fun _ _ _ _ => rfl
  | .integer n, _ => reads_integer n
  | .string text, _ => reads_of_succ fun rest _ _ _ => string_quoted text rest
  | .array [], _ => reads_of_succ fun _ _ _ _ => rfl
  | .array (item :: items), h => by
    have hall : item.hasText = true ∧ itemsHaveText items = true := Bool.and_eq_true_iff.mp h
    exact reads_array hall.1 (readsItems_of_haveText (item :: items) h)
  | .object [], _ => reads_of_succ fun _ _ _ _ => rfl
  | .object ((.string name, value) :: members), h =>
    reads_object (readsMembers_of_haveText ((.string name, value) :: members) h)

theorem readsItems_of_haveText : ∀ items : List Json, itemsHaveText items = true → ReadsItems items
  | [], _ => readsItems_nil
  | item :: items, h => by
    have hall : item.hasText = true ∧ itemsHaveText items = true := Bool.and_eq_true_iff.mp h
    exact readsItems_cons (reads_of_hasText item hall.1) (readsItems_of_haveText items hall.2)

theorem readsMembers_of_haveText : ∀ members : List (Json × Json),
    membersHaveText members = true → ReadsMembers members
  | [], _ => readsMembers_nil
  | (.string name, value) :: members, h => by
    have hall : value.hasText = true ∧ membersHaveText members = true :=
      Bool.and_eq_true_iff.mp h
    exact readsMembers_cons (reads_of_hasText value hall.1)
      (readsMembers_of_haveText members hall.2)

end

/-- A text has the value that it was made of. -/
theorem parse_of_text? {json : Json} {text : String} (h : json.text? = some text) :
    parse text = some json := by
  by_cases hjson : json.hasText = true
  · rw [text?, if_pos hjson] at h
    obtain rfl := Option.some.inj h
    have hvalue := reads_of_hasText json hjson [] (2 * (json.render []).length + 2) nofun (by omega)
    rw [parse, String.toList_ofList]
    simp [hvalue, skipBlanks]
  · rw [text?, if_neg hjson] at h
    cases h

end ProofOfProof.Json
