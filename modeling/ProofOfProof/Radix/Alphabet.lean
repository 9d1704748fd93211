import ProofOfProof.Bytes
import ProofOfProof.Radix

/-! Byte strings as texts over an alphabet, whose size is the radix. Each leading zero byte stands
as one leading zero symbol; the rest is one number in both forms. -/

namespace ProofOfProof

/-- The symbols of the digits, the zero symbol first. -/
structure Alphabet where
  zero : Char
  others : List Char
  deriving DecidableEq, Repr

namespace Alphabet

def symbols (a : Alphabet) : List Char := a.zero :: a.others

def base (a : Alphabet) : Nat := a.others.length + 1

def symbol (a : Alphabet) (digit : Nat) : Char := a.symbols.getD digit a.zero

def digit? (a : Alphabet) (c : Char) : Option Nat := a.symbols.idxOf? c

def contains (a : Alphabet) (text : List Char) : Bool := text.all fun c => (a.digit? c).isSome

def encode (a : Alphabet) (bytes : Bytes) : List Char :=
  let zeros := bytes.takeWhile (· == 0)
  let rest := bytes.dropWhile (· == 0)
  zeros.map (fun _ => a.zero) ++
    ((Radix.convert 256 a.base (rest.map UInt8.toNat)).reverse.map a.symbol)

/-- The digits of a text, or its first character that is no symbol. -/
def digits (a : Alphabet) : List Char → Except Char (List Nat)
  | [] => .ok []
  | c :: text =>
    match a.digit? c with
    | none => .error c
    | some d => (d :: ·) <$> digits a text

/-- The byte string of a text, or the first character that is no symbol. -/
def decode (a : Alphabet) (text : List Char) : Except Char Bytes :=
  (fun ds =>
    let zeros := ds.takeWhile (· == 0)
    let rest := ds.dropWhile (· == 0)
    zeros.map (fun _ => 0) ++ (Radix.convert a.base 256 rest).reverse.map UInt8.ofNat) <$>
    a.digits text

theorem symbol_mem (a : Alphabet) (digit : Nat) : a.symbol digit ∈ a.symbols := by
  rw [symbol, List.getD_eq_getElem?_getD]
  cases h : a.symbols[digit]? with
  | none => simp [symbols]
  | some c => exact List.mem_of_getElem? h

theorem mem_symbols_of_mem_encode {a : Alphabet} {bytes : Bytes} {c : Char}
    (h : c ∈ a.encode bytes) : c ∈ a.symbols := by
  rcases List.mem_append.mp h with h | h
  · obtain ⟨_, _, rfl⟩ := List.mem_map.mp h
    simp [symbols]
  · obtain ⟨d, _, rfl⟩ := List.mem_map.mp h
    exact a.symbol_mem d

theorem digit?_isSome {a : Alphabet} {c : Char} : (a.digit? c).isSome ↔ c ∈ a.symbols := by
  rw [digit?, List.isSome_idxOf?]

theorem contains_iff {a : Alphabet} {text : List Char} :
    a.contains text = true ↔ ∀ c ∈ text, c ∈ a.symbols := by
  simp only [contains, List.all_eq_true, digit?_isSome]

/-- No text is shorter than its bytes. -/
theorem length_le_length_encode {a : Alphabet} (hb : 1 < a.base) (hs : a.base ≤ 256)
    (bytes : Bytes) : bytes.length ≤ (a.encode bytes).length := by
  have hrest := Radix.length_le_length_convert hb hs
    ((bytes.dropWhile (· == 0)).map UInt8.toNat) (by
      intro d hd
      cases hw : bytes.dropWhile (· == 0) with
      | nil => simp [hw] at hd
      | cons b r =>
        have hn := List.head?_dropWhile_not (· == 0) bytes
        simp only [hw, List.head?_cons] at hn
        simp only [hw, List.map_cons, List.head?_cons, Option.mem_some_iff] at hd
        subst hd
        have : b ≠ 0 := by simpa using hn
        exact Nat.pos_of_ne_zero fun hz => this (UInt8.toNat_inj.mp hz))
  have hsplit := congrArg List.length (List.takeWhile_append_dropWhile (p := (· == 0)) (l := bytes))
  simp only [List.length_append] at hsplit
  simp only [encode, List.length_append, List.length_map, List.length_reverse] at hrest ⊢
  omega

end Alphabet

def base58 : Alphabet :=
  ⟨'1', "23456789ABCDEFGHJKLMNPQRSTUVWXYZabcdefghijkmnopqrstuvwxyz".toList⟩

/-- The symbols of base 58, and `0` as the last digit. -/
def base59 : Alphabet :=
  ⟨'1', "23456789ABCDEFGHJKLMNPQRSTUVWXYZabcdefghijkmnopqrstuvwxyz0".toList⟩

end ProofOfProof
