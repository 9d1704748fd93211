import ProofOfProof.Proofs.Address

/-! How far the checksum guards an address. Both kinds take theirs from one text: a multisig address
ends in four characters of it and `0`, a standard one in those four and the next. So one character,
the last, can make an address of the other kind, and nothing else behind the data can be exchanged
alone. -/

namespace ProofOfProof

namespace Address

theorem length_checksum {count : Nat} (h : count ≤ 32) (data : List Char) :
    (checksum count data).length = count := by
  have hlong := length_le_length_base58 (sha256 (asciiBytes data))
  rw [checksum, List.length_take]
  omega

theorem take_checksum {count more : Nat} (h : count ≤ more) (data : List Char) :
    (checksum more data).take count = checksum count data := by
  rw [checksum, List.take_take, Nat.min_eq_left h, checksum]

theorem contains_checksum (count : Nat) (data : List Char) :
    base58.contains (checksum count data) = true :=
  Alphabet.contains_iff.mpr fun _ hc => Alphabet.mem_symbols_of_mem_encode (List.mem_of_mem_take hc)

theorem checkChecksum_eq_ok_iff {count : Nat} {text : List Char} :
    checkChecksum count text = .ok () ↔ checksum count (data text) = (text.drop 25).take count := by
  rw [checkChecksum]
  by_cases h : checksum count (data text) = (text.drop 25).take count
  · simp [h]
  · simp [h]

end Address

/-- What stands behind the data of an address. -/
def AddressKind.ending : AddressKind → List Char → List Char
  | standard, data => Address.checksum 5 data
  | multisig, data => Address.checksum 4 data ++ ['0']

namespace AddressKind

def other : AddressKind → AddressKind
  | standard => multisig
  | multisig => standard

theorem ne_iff {kind found : AddressKind} : found ≠ kind ↔ found = kind.other := by
  cases kind <;> cases found <;> simp [other]

theorem length_ending (kind : AddressKind) (data : List Char) : (kind.ending data).length = 5 := by
  cases kind with
  | standard => exact Address.length_checksum (by omega) data
  | multisig => rw [ending, List.length_append, Address.length_checksum (by omega)]; rfl

theorem take_ending (kind : AddressKind) (data : List Char) :
    (kind.ending data).take 4 = Address.checksum 4 data := by
  cases kind with
  | standard => exact Address.take_checksum (by omega) data
  | multisig => exact List.take_left' (Address.length_checksum (by omega) data)

theorem mem_alphabet_of_mem_base58 (kind : AddressKind) {c : Char} (h : c ∈ base58.symbols) :
    c ∈ kind.alphabet.symbols := by
  cases kind with
  | standard => exact h
  | multisig =>
    have hall : base59.contains base58.symbols = true := by decide
    exact Alphabet.contains_iff.mp hall c h

theorem alphabet_ascii (kind : AddressKind) {c : Char} (h : c ∈ kind.alphabet.symbols) :
    c.toNat < 128 := by
  cases kind with
  | standard => exact (Address.base58_ascii h).1
  | multisig =>
    have hall : (base59.symbols.all fun x => decide (x.toNat < 128)) = true := by decide
    exact of_decide_eq_true (List.all_eq_true.mp hall c h)

theorem mem_alphabet_of_mem_ending (kind : AddressKind) {data : List Char} {c : Char}
    (h : c ∈ kind.ending data) : c ∈ kind.alphabet.symbols := by
  have hbase58 (count : Nat) (hc : c ∈ Address.checksum count data) : c ∈ base58.symbols :=
    Alphabet.contains_iff.mp (Address.contains_checksum count data) c hc
  cases kind with
  | standard => exact hbase58 5 h
  | multisig =>
    rcases List.mem_append.mp h with hc | hzero
    · exact mem_alphabet_of_mem_base58 multisig (hbase58 4 hc)
    · rw [List.mem_singleton.mp hzero]
      decide

theorem getLast?_ending (kind : AddressKind) (data : List Char) :
    (kind.ending data).getLast? = some '0' ↔ kind = .multisig := by
  cases kind with
  | standard =>
    simp only [reduceCtorEq, iff_false]
    intro h
    have hzero := standard.mem_alphabet_of_mem_ending (List.mem_of_getLast? h)
    exact absurd hzero (by decide)
  | multisig => simp [ending]

end AddressKind

namespace Address

variable {text : List Char} {kind : AddressKind}

/-- The texts of one kind of address, from front to end. -/
structure Form (kind : AddressKind) (text : List Char) : Prop where
  length : text.length = 30
  head : text.head? = some 'V'
  body : base58.contains (text.take 29) = true
  ending : text.drop 25 = kind.ending (data text)
  threshold : kind = .multisig → checkThreshold text = .ok ()

theorem getLast?_eq_of_length (h : text.length = 30) :
    text.getLast? = (text.drop 25).getLast? := by
  rw [List.getLast?_drop, if_neg (by omega)]

theorem eq_of_take_of_getLast? {x y : List Char} {n : Nat} (hx : x.length = n + 1)
    (hy : y.length = n + 1) (htake : x.take n = y.take n) (hlast : x.getLast? = y.getLast?) :
    x = y := by
  apply List.ext_getElem?
  intro j
  by_cases hj : j < n
  · have hget := congrArg (·[j]?) htake
    simpa only [List.getElem?_take, if_pos hj] using hget
  · rw [List.getLast?_eq_getElem?, List.getLast?_eq_getElem?, hx, hy] at hlast
    by_cases hn : j = n
    · subst hn
      exact hlast
    · rw [List.getElem?_eq_none (by omega), List.getElem?_eq_none (by omega)]

/-- The four characters of a multisig checksum and the `0` behind them. -/
theorem drop_eq_ending_iff (h : text.length = 30) (data : List Char) :
    text.drop 25 = AddressKind.multisig.ending data ↔
      (text.drop 25).take 4 = checksum 4 data ∧ text.getLast? = some '0' := by
  rw [getLast?_eq_of_length h]
  have hlast := (AddressKind.multisig.getLast?_ending data).mpr rfl
  constructor
  · intro he
    rw [he]
    exact ⟨AddressKind.multisig.take_ending data, hlast⟩
  · rintro ⟨htake, hzero⟩
    refine eq_of_take_of_getLast? (n := 4) ?_ (AddressKind.multisig.length_ending data) ?_ ?_
    · rw [List.length_drop, h]
    · rw [htake, AddressKind.take_ending]
    · rw [hzero, hlast]

theorem form_of_classify (h : classify text = .ok kind) : Form kind text := by
  obtain ⟨⟨hutf8, hascii, hhead⟩, hkind⟩ := classify_eq_ok_iff.mp h
  have hlen : text.length = 30 := by rwa [utf8Length_of_ascii hascii] at hutf8
  have htail : (text.drop 25).length = 5 := by rw [List.length_drop, hlen]
  rcases hkind with ⟨hlast, hchecks, rfl⟩ | ⟨-, hchecks, rfl⟩
  · obtain ⟨-, hthreshold, hbody, hchecksum⟩ := checkMultisig_eq_ok_iff.mp hchecks
    have hfour := (checkChecksum_eq_ok_iff.mp hchecksum).symm
    exact ⟨hlen, hhead, hbody, (drop_eq_ending_iff hlen (data text)).mpr ⟨hfour, hlast⟩,
      fun _ => hthreshold⟩
  · obtain ⟨hall, hchecksum⟩ := checkStandard_eq_ok_iff.mp hchecks
    rw [Alphabet.contains_iff] at hall
    refine ⟨hlen, hhead, Alphabet.contains_iff.mpr ?_, ?_, nofun⟩
    · exact fun c hc => hall c (List.mem_of_mem_take hc)
    · rw [AddressKind.ending, checkChecksum_eq_ok_iff.mp hchecksum,
        List.take_of_length_le (Nat.le_of_eq htail)]

theorem Form.contains (h : Form kind text) : kind.alphabet.contains text = true := by
  refine Alphabet.contains_iff.mpr fun c hc => ?_
  rw [← List.take_append_drop 29 text] at hc
  rcases List.mem_append.mp hc with hbody | htail
  · exact kind.mem_alphabet_of_mem_base58 (Alphabet.contains_iff.mp h.body c hbody)
  · rw [← List.drop_drop (i := 4) (j := 25), h.ending] at htail
    exact kind.mem_alphabet_of_mem_ending (List.mem_of_mem_drop htail)

theorem Form.ascii (h : Form kind text) : ∀ c ∈ text, c.toNat < 128 := fun c hc =>
  kind.alphabet_ascii (Alphabet.contains_iff.mp h.contains c hc)

theorem classify_eq_ok_iff_form : classify text = .ok kind ↔ Form kind text := by
  refine ⟨form_of_classify, fun h => ?_⟩
  have hlast := kind.getLast?_ending (data text)
  rw [← h.ending, ← getLast?_eq_of_length h.length] at hlast
  refine classify_eq_ok_iff.mpr ⟨⟨?_, h.ascii, h.head⟩, ?_⟩
  · rw [utf8Length_of_ascii h.ascii, h.length, addressLength]
  cases kind with
  | multisig =>
    refine .inl ⟨hlast.mpr rfl, checkMultisig_eq_ok_iff.mpr ?_, rfl⟩
    refine ⟨h.contains, h.threshold rfl, h.body, ?_⟩
    rw [checkChecksum_eq_ok_iff, h.ending, AddressKind.take_ending]
  | standard =>
    have hlen : (checksum 5 (data text)).length = 5 := length_checksum (by omega) (data text)
    have hother : ¬ AddressKind.standard = .multisig := by decide
    refine .inr ⟨fun hz => hother (hlast.mp hz), checkStandard_eq_ok_iff.mpr ?_, rfl⟩
    refine ⟨h.contains, ?_⟩
    rw [checkChecksum_eq_ok_iff, h.ending, AddressKind.ending,
      List.take_of_length_le (Nat.le_of_eq hlen)]

/-- Texts of one length that differ at place `i` and nowhere else. -/
structure DifferAt (i : Nat) (s t : List Char) : Prop where
  length : s.length = t.length
  here : s[i]? ≠ t[i]?
  elsewhere : ∀ j, j ≠ i → s[j]? = t[j]?

/-- How the end of an address has to read for its text to pass as one of the other kind. -/
def Switches (a : Address) (text : List Char) : Prop :=
  match a.kind with
  | .standard => text.getLast? = some '0' ∧ checkThreshold a.text.toList = .ok ()
  | .multisig => text.getLast? = (checksum 5 (data a.text.toList)).getLast?

namespace DifferAt

variable {i n : Nat} {s t : List Char}

theorem take_eq (h : DifferAt i s t) (hn : n ≤ i) : s.take n = t.take n := by
  apply List.ext_getElem?
  intro j
  rw [List.getElem?_take, List.getElem?_take]
  by_cases hj : j < n
  · rw [if_pos hj, if_pos hj, h.elsewhere j (by omega)]
  · rw [if_neg hj, if_neg hj]

theorem drop_ne (h : DifferAt i s t) (hn : n ≤ i) : s.drop n ≠ t.drop n := by
  intro he
  have hi := congrArg (·[i - n]?) he
  simp only [List.getElem?_drop, Nat.add_sub_cancel' hn] at hi
  exact h.here hi

theorem head?_ne (h : DifferAt 0 s t) : s.head? ≠ t.head? := by
  rw [List.head?_eq_getElem?, List.head?_eq_getElem?]
  exact h.here

theorem lt_length (h : DifferAt i s t) : i < s.length := by
  by_contra hi
  have hlen := h.length
  refine h.here ?_
  rw [List.getElem?_eq_none (by omega), List.getElem?_eq_none (by omega)]

theorem set {i : Nat} {c : Char} (hi : i < s.length) (hc : s[i]? ≠ some c) :
    DifferAt i s (s.set i c) := by
  refine ⟨List.length_set.symm, ?_, fun j hj => ?_⟩
  · rwa [List.getElem?_set_self hi]
  · rw [List.getElem?_set_ne (Ne.symm hj)]

end DifferAt

theorem checkThreshold_congr {s t : List Char} (h : s.take 3 = t.take 3) :
    checkThreshold s = checkThreshold t := by
  have hget (j : Nat) (hj : j < 3) : s.getD j '0' = t.getD j '0' := by
    have hs := congrArg (·[j]?) h
    simp only [List.getElem?_take, if_pos hj] at hs
    rw [List.getD_eq_getElem?_getD, hs, List.getD_eq_getElem?_getD]
  rw [checkThreshold, checkThreshold, threshold, threshold, hget 1 (by omega), hget 2 (by omega)]

theorem parse_eq_error_iff {text : String} :
    (∃ fault, parse text = .error (.address fault)) ↔ ∀ kind, ¬ Form kind text.toList := by
  simp only [← classify_eq_ok_iff_form]
  unfold parse
  split
  · next fault hfault => simp [hfault]
  · next kind hkind => simp [hkind]

section Exchange

variable {i : Nat} {s t : List Char} {other : AddressKind}

/-- Behind the data, an exchange of one character leaves an address only where it is the last and
the kind changes with it. -/
theorem Form.differAt_iff (h : Form kind s) (hd : DifferAt i s t) (hi : 25 ≤ i) :
    Form other t ↔ i = 29 ∧ other ≠ kind ∧ t.drop 25 = other.ending (data s) ∧
      (other = .multisig → checkThreshold s = .ok ()) := by
  have hdata : data s = data t := hd.take_eq hi
  have hthreshold : checkThreshold s = checkThreshold t :=
    checkThreshold_congr (hd.take_eq (by omega))
  constructor
  · intro ht
    have hending : t.drop 25 = other.ending (data s) := by rw [hdata, ht.ending]
    have hne : other ≠ kind := by
      rintro rfl
      exact hd.drop_ne hi (h.ending.trans hending.symm)
    refine ⟨?_, hne, hending, fun hm => hthreshold ▸ ht.threshold hm⟩
    -- The four characters before the last are those of the checksum in either kind.
    have hfour : (s.drop 25).take 4 = (t.drop 25).take 4 := by
      rw [h.ending, hending, AddressKind.take_ending, AddressKind.take_ending]
    by_contra hlast
    have hlt := hd.lt_length
    rw [h.length] at hlt
    have hget := congrArg (·[i - 25]?) hfour
    simp only [List.getElem?_take, if_pos (show i - 25 < 4 by omega), List.getElem?_drop,
      Nat.add_sub_cancel' hi] at hget
    exact hd.here hget
  · rintro ⟨rfl, -, hending, hm⟩
    have hhead : s.head? = t.head? := by
      rw [List.head?_eq_getElem?, List.head?_eq_getElem?, hd.elsewhere 0 (by omega)]
    have hbody : s.take 29 = t.take 29 := hd.take_eq (Nat.le_refl 29)
    refine ⟨hd.length ▸ h.length, hhead ▸ h.head, hbody ▸ h.body, hdata ▸ hending, ?_⟩
    exact fun hmultisig => hthreshold ▸ hm hmultisig

/-- After an exchange of the last character it is enough to look at that one. -/
theorem Form.drop_eq_ending_iff (h : Form kind s) (hd : DifferAt 29 s t) :
    t.drop 25 = other.ending (data s) ↔ t.getLast? = (other.ending (data s)).getLast? := by
  have hlen : t.length = 30 := hd.length ▸ h.length
  rw [getLast?_eq_of_length hlen]
  refine ⟨fun he => by rw [he], fun hlast => ?_⟩
  refine eq_of_take_of_getLast? (n := 4) ?_ (other.length_ending _) ?_ hlast
  · rw [List.length_drop, hlen]
  · have htake : (s.drop 25).take 4 = (t.drop 25).take 4 := by
      rw [List.take_drop, List.take_drop, hd.take_eq (Nat.le_refl 29)]
    rw [← htake, h.ending, AddressKind.take_ending, AddressKind.take_ending]

theorem switches_iff {a : Address} (hd : DifferAt 29 a.text.toList t) : a.Switches t ↔
    t.drop 25 = a.kind.other.ending (data a.text.toList) ∧
      (a.kind.other = .multisig → checkThreshold a.text.toList = .ok ()) := by
  have hform := classify_eq_ok_iff_form.mp a.admitted
  rw [hform.drop_eq_ending_iff hd]
  obtain ⟨kind, text, admitted⟩ := a
  cases kind with
  | standard =>
    have hzero := (AddressKind.multisig.getLast?_ending (data text.toList)).mpr rfl
    simp [Switches, AddressKind.other, hzero]
  | multisig => simp [Switches, AddressKind.other, AddressKind.ending]

end Exchange

/-- A text that differs from an address at one place outside the data is no address, unless it is
the last character that differs and turns the address into one of the other kind. -/
theorem parse_eq_error_iff_of_differAt {text text' : String} {a : Address} {i : Nat}
    (h : parse text = .ok a) (hd : DifferAt i text.toList text'.toList) (hi : i = 0 ∨ 25 ≤ i) :
    (∃ fault, parse text' = .error (.address fault)) ↔ ¬ (i = 29 ∧ a.Switches text'.toList) := by
  obtain rfl := text_of_parse h
  have hform : Form a.kind a.text.toList := classify_eq_ok_iff_form.mp a.admitted
  rw [parse_eq_error_iff]
  rcases hi with rfl | hi
  · have hnone : ∀ kind, ¬ Form kind text'.toList := fun kind hkind =>
      hd.head?_ne (hform.head.trans hkind.head.symm)
    simp [hnone]
  · simp only [hform.differAt_iff hd hi, ← not_exists, AddressKind.ne_iff]
    refine not_congr ⟨?_, ?_⟩
    · rintro ⟨_, rfl, rfl, hends⟩
      exact ⟨rfl, (switches_iff hd).mpr hends⟩
    · rintro ⟨rfl, hswitches⟩
      exact ⟨_, rfl, rfl, (switches_iff hd).mp hswitches⟩

def checksumSample : Address := ⟨.standard, "VFFDWUMLJwLRuNzH4NX8Rm32E59n6d", by decide +kernel⟩

theorem differAt_checksumSample {c : Char} (h : 'd' ≠ c) :
    DifferAt 29 checksumSample.text.toList (checksumSample.text.toList.set 29 c) := by
  refine .set (by decide) ?_
  have hget : checksumSample.text.toList[29]? = some 'd' := by decide
  simpa [hget] using h

theorem parse_eq_error_iff_of_differAt_sample :
    (∃ fault, parse "VFFDWUMLJwLRuNzH4NX8Rm32E59n6e" = .error (.address fault)) ∧
      ¬ ∃ fault, parse "VFFDWUMLJwLRuNzH4NX8Rm32E59n60" = .error (.address fault) := by
  have hparse := parse_text checksumSample
  have hletter : "VFFDWUMLJwLRuNzH4NX8Rm32E59n6e".toList =
      checksumSample.text.toList.set 29 'e' := by decide
  have hzero : "VFFDWUMLJwLRuNzH4NX8Rm32E59n60".toList =
      checksumSample.text.toList.set 29 '0' := by decide
  refine ⟨(parse_eq_error_iff_of_differAt (i := 29) hparse ?_ (.inr (by omega))).mpr ?_,
    fun herror => ?_⟩
  · rw [hletter]
    exact differAt_checksumSample (by decide)
  · rintro ⟨-, hlast, -⟩
    exact absurd hlast (by decide)
  · refine (parse_eq_error_iff_of_differAt (i := 29) hparse ?_ (.inr (by omega))).mp herror
      ⟨rfl, by decide, by decide⟩
    rw [hzero]
    exact differAt_checksumSample (by decide)

/-- One exchanged character can turn a standard address into a multisig one, and that one back. -/
theorem parse_exchanged_terminator : ∃ a b, parse "VFFDWUMLJwLRuNzH4NX8Rm32E59n6d" = .ok a ∧
    parse "VFFDWUMLJwLRuNzH4NX8Rm32E59n60" = .ok b ∧ a.kind = .standard ∧ b.kind = .multisig ∧
      DifferAt 29 a.text.toList b.text.toList := by
  let b : Address := ⟨.multisig, "VFFDWUMLJwLRuNzH4NX8Rm32E59n60", by decide +kernel⟩
  have hzero : b.text.toList = checksumSample.text.toList.set 29 '0' := by decide
  refine ⟨checksumSample, b, parse_text checksumSample, parse_text b, rfl, rfl, ?_⟩
  rw [hzero]
  exact differAt_checksumSample (by decide)

end Address

end ProofOfProof
