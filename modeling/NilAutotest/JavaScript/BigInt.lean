import NilAutotest.Text.Numeral
import NilAutotest.Text.Lines

/-!
# Big integers from strings

`BigInt` on a string reads an optional sign and decimal digits, or a hexadecimal, octal or
binary literal without a sign, between whitespace; the empty string is zero. Of the
numbers of a JSON text it therefore reads exactly those without fraction and exponent.

Strings are sequences of UTF-16 code units, so that a lone surrogate is a string too.
-/

namespace JavaScript

open Text

/-- The errors that can be thrown. -/
inductive Error
  | typeError
  | syntaxError
  | rangeError
  | other
  deriving DecidableEq, Repr

/-- A string. -/
abbrev Units := List UInt16

/-- The code units of a text in the basic multilingual plane. -/
def units (text : List Char) : Units := text.map fun c => c.toNat.toUInt16

/-- A code unit as a character; a surrogate is none of those that numbers are written with. -/
def unitChar (u : UInt16) : Char := Char.ofNat u.toNat

theorem map_unitChar_units {text : List Char} (h : ∀ c ∈ text, c.toNat < 65536) :
    (units text).map unitChar = text := by
  rw [units, List.map_map]
  refine (List.map_congr_left fun c hc => ?_).trans (List.map_id text)
  have small := h c hc
  simp [unitChar, Nat.toUInt16, Nat.mod_eq_of_lt small]

/-- White space and line terminators. -/
def isStrWhiteSpace (c : Char) : Bool :=
  [0x9, 0xa, 0xb, 0xc, 0xd, 0x20, 0xa0, 0x1680, 0x2028, 0x2029, 0x202f, 0x205f, 0x3000,
    0xfeff].contains c.toNat || (0x2000 ≤ c.toNat && c.toNat ≤ 0x200a)

/-- The value of a digit in a base up to sixteen. -/
def digitValue? (base : Nat) (c : Char) : Option Nat :=
  let value :=
    if c.isDigit then c.toNat - 48
    else if 'a' ≤ c ∧ c ≤ 'f' then c.toNat - 87
    else if 'A' ≤ c ∧ c ≤ 'F' then c.toNat - 55
    else base
  if value < base then some value else none

/-- A nonempty string of digits in a base. -/
def natOfBase? (base : Nat) (l : List Char) : Option Nat :=
  if l = [] then none
  else l.foldlM (fun n c => (digitValue? base c).map fun d => base * n + d) 0

/-- An integer literal, or nothing for zero. -/
def integerLiteral? : List Char → Option Int
  | [] => some 0
  | '0' :: 'x' :: l => (natOfBase? 16 l).map fun n => n
  | '0' :: 'X' :: l => (natOfBase? 16 l).map fun n => n
  | '0' :: 'o' :: l => (natOfBase? 8 l).map fun n => n
  | '0' :: 'O' :: l => (natOfBase? 8 l).map fun n => n
  | '0' :: 'b' :: l => (natOfBase? 2 l).map fun n => n
  | '0' :: 'B' :: l => (natOfBase? 2 l).map fun n => n
  | '-' :: l => (natOfDigits? l).map fun n => -n
  | '+' :: l => (natOfDigits? l).map fun n => n
  | l => (natOfDigits? l).map fun n => n

/-- `BigInt` on a string. -/
def stringToBigInt (s : Units) : Except Error Int :=
  match integerLiteral? (trim isStrWhiteSpace (s.map unitChar)) with
  | some n => .ok n
  | none => .error .syntaxError

/-- Nonempty strings of digits. -/
abbrev Digits := { l : List Char // l ≠ [] ∧ ∀ c ∈ l, c.isDigit }

/-- An exponent: its letter, its sign if it has one, and its digits. -/
structure Exponent where
  capital : Bool
  negative : Option Bool
  digits : Digits
  deriving DecidableEq

def Exponent.text (e : Exponent) : List Char :=
  (if e.capital then 'E' else 'e') ::
    ((match e.negative with
      | none => []
      | some negative => [if negative then '-' else '+']) ++ e.digits.1)

/-- A number of a JSON text, as it is written. -/
structure NumberLiteral where
  negative : Bool
  whole : Nat
  fraction : Option Digits
  exponent : Option Exponent
  deriving DecidableEq

namespace NumberLiteral

/-- What is written after the sign. -/
def unsigned (l : NumberLiteral) : List Char :=
  digits l.whole ++ ((l.fraction.elim [] fun ds => '.' :: ds.1) ++ l.exponent.elim [] Exponent.text)

def text (l : NumberLiteral) : List Char :=
  if l.negative then '-' :: l.unsigned else l.unsigned

/-- Decimal digits with an optional sign. -/
def IsInteger (l : NumberLiteral) : Prop := l.fraction = none ∧ l.exponent = none

instance (l : NumberLiteral) : Decidable l.IsInteger :=
  inferInstanceAs (Decidable (_ ∧ _))

/-- The value of an integer. -/
def value (l : NumberLiteral) : Int := if l.negative then -l.whole else l.whole

/-- The integer literal of a number. -/
def ofInt (n : Int) : NumberLiteral := ⟨n < 0, n.natAbs, none, none⟩

theorem isInteger_ofInt (n : Int) : (ofInt n).IsInteger := ⟨rfl, rfl⟩

@[simp] theorem value_ofInt (n : Int) : (ofInt n).value = n := by
  simp only [value, ofInt, decide_eq_true_eq]
  split <;> omega

/-- The characters numbers are written with. -/
def IsNumberChar (c : Char) : Prop :=
  c.isDigit ∨ c = '.' ∨ c = 'e' ∨ c = 'E' ∨ c = '-' ∨ c = '+'

theorem mem_exponent {e : Exponent} {c : Char} (h : c ∈ e.text) : IsNumberChar c := by
  obtain ⟨capital, negative, ds⟩ := e
  simp only [Exponent.text, List.mem_cons, List.mem_append] at h
  unfold IsNumberChar
  cases h with
  | inl letter => cases capital <;> simp_all
  | inr h =>
      cases h with
      | inl sign =>
          cases negative with
          | none => simp at sign
          | some negative => cases negative <;> simp_all
      | inr digit => exact .inl (ds.2.2 c digit)

theorem mem_unsigned {l : NumberLiteral} {c : Char} (h : c ∈ l.unsigned) : IsNumberChar c := by
  obtain ⟨negative, whole, fraction, exponent⟩ := l
  simp only [unsigned, List.mem_append] at h
  obtain digit | point | letter := h
  · exact .inl (isDigit_of_mem_digits digit)
  · cases fraction with
    | none => simp at point
    | some ds =>
        simp only [Option.elim_some, List.mem_cons] at point
        obtain rfl | digit := point
        · exact .inr (.inl rfl)
        · exact .inl (ds.2.2 c digit)
  · cases exponent with
    | none => simp at letter
    | some e => exact mem_exponent letter

/-- Only integers are all digits after the sign. -/
theorem natOfDigits?_unsigned (l : NumberLiteral) :
    natOfDigits? l.unsigned = if l.IsInteger then some l.whole else none := by
  obtain ⟨negative, whole, fraction, exponent⟩ := l
  have notDigits : ∀ c ∈ unsigned ⟨negative, whole, fraction, exponent⟩, c.isDigit = false →
      natOfDigits? (unsigned ⟨negative, whole, fraction, exponent⟩) = none := by
    intro c hc notDigit
    apply if_neg
    rintro ⟨_, all⟩
    rw [List.all_eq_true.mp all c hc] at notDigit
    contradiction
  cases fraction with
  | some ds =>
      rw [if_neg (by simp [IsInteger])]
      exact notDigits '.' (by simp [unsigned]) rfl
  | none =>
      cases exponent with
      | some e =>
          rw [if_neg (by simp [IsInteger])]
          cases hcapital : e.capital with
          | true => exact notDigits 'E' (by simp [unsigned, Exponent.text, hcapital]) rfl
          | false => exact notDigits 'e' (by simp [unsigned, Exponent.text, hcapital]) rfl
      | none =>
          rw [if_pos ⟨rfl, rfl⟩]
          simp [unsigned]

instance (c : Char) : Decidable (IsNumberChar c) :=
  inferInstanceAs (Decidable (_ ∨ _))

/-- A numeral of a JSON text is never taken for a literal in another base. -/
theorem integerLiteral?_digit {d : Char} {l : List Char} (hd : d.isDigit)
    (hl : ∀ c ∈ l, IsNumberChar c) :
    integerLiteral? (d :: l) = (natOfDigits? (d :: l)).map fun n => (n : Int) := by
  have notChar : ∀ c m, l = c :: m → ¬IsNumberChar c → False := by
    intro c m eq other
    subst eq
    exact other (hl c List.mem_cons_self)
  unfold integerLiteral?
  split
  · contradiction
  all_goals rename_i eq
  all_goals first
    | obtain ⟨_, tail⟩ := List.cons.inj eq
      exact absurd (by decide) (notChar _ _ tail)
    | obtain ⟨head, _⟩ := List.cons.inj eq
      subst head
      simp at hd
    | rfl

/-- The whitespace that is trimmed is no part of a number. -/
theorem not_whiteSpace {c : Char} (h : IsNumberChar c) : isStrWhiteSpace c = false := by
  obtain digit | rfl | rfl | rfl | rfl | rfl := h
  · obtain ⟨low, high⟩ := Char.isDigit_iff_toNat.mp digit
    change 48 ≤ c.toNat at low
    change c.toNat ≤ 57 at high
    simp only [isStrWhiteSpace, List.contains_eq_mem, List.mem_cons, List.not_mem_nil, or_false,
      Bool.or_eq_false_iff, decide_eq_false_iff_not, Bool.and_eq_false_iff]
    omega
  all_goals rfl

theorem mem_text {l : NumberLiteral} {c : Char} (h : c ∈ l.text) : IsNumberChar c := by
  unfold text at h
  split at h
  · obtain rfl | h := List.mem_cons.mp h
    · decide
    · exact mem_unsigned h
  · exact mem_unsigned h

theorem small {c : Char} (h : IsNumberChar c) : c.toNat < 65536 := by
  obtain digit | rfl | rfl | rfl | rfl | rfl := h
  · have high := (Char.isDigit_iff_toNat.mp digit).2
    change c.toNat ≤ 57 at high
    omega
  all_goals decide

theorem text_ne_nil (l : NumberLiteral) : l.text ≠ [] := by
  have unsigned : l.unsigned ≠ [] := by simp [unsigned]
  unfold text
  split
  · exact List.cons_ne_nil _ _
  · exact unsigned

/-- `BigInt` reads the text of a number exactly when it is an integer, and then exactly. -/
theorem stringToBigInt_text (l : NumberLiteral) :
    stringToBigInt (units l.text) =
      if l.IsInteger then .ok l.value else .error .syntaxError := by
  have literal : integerLiteral? l.text = if l.IsInteger then some l.value else none := by
    unfold text value
    cases hnegative : l.negative with
    | true =>
        simp only [if_true, integerLiteral?, natOfDigits?_unsigned]
        split <;> rfl
    | false =>
        obtain ⟨d, rest, eq⟩ := List.exists_cons_of_ne_nil (digits_ne_nil l.whole)
        have digit : d.isDigit := by
          apply isDigit_of_mem_digits (n := l.whole)
          simp [eq]
        have shape : l.unsigned = d :: (rest ++ ((l.fraction.elim [] fun ds => '.' :: ds.1) ++
            l.exponent.elim [] Exponent.text)) := by
          simp [unsigned, eq]
        have chars : ∀ c ∈ l.unsigned, IsNumberChar c := fun _ => mem_unsigned
        rw [shape, List.forall_mem_cons] at chars
        simp only [Bool.false_eq_true, if_false]
        rw [shape, integerLiteral?_digit digit chars.2, ← shape, natOfDigits?_unsigned]
        split <;> rfl
  rw [stringToBigInt, map_unitChar_units fun c hc => small (mem_text hc),
    trim_of_forall fun c hc => not_whiteSpace (mem_text hc), literal]
  by_cases integer : l.IsInteger
  · simp only [if_pos integer]
  · simp only [if_neg integer]

end NumberLiteral

end JavaScript
