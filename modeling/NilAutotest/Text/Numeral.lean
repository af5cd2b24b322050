import Mathlib.Data.List.Basic
import Mathlib.Data.Nat.Digits.Defs

/-!
# Decimal numerals and their comma-grouped form

`Nat.toDigits 10` prints a number and `natOfDigits?` reads one back. `grouped` prints
the same digits with a comma between groups of three, counted from the right. Two facts
about it carry everything that is done with such a column by text tools: deleting the
commas gives the plain numeral, and there is a comma exactly from one thousand on.
-/

namespace Text

/-- The plain decimal numeral of a number. -/
abbrev digits (n : Nat) : List Char := Nat.toDigits 10 n

theorem digits_ne_nil (n : Nat) : digits n ≠ [] := Nat.toDigits_ne_nil

theorem isDigit_of_mem_digits {n : Nat} {c : Char} (h : c ∈ digits n) : c.isDigit :=
  Nat.isDigit_of_mem_toDigits (by decide) (by decide) h

/-- A character that is not a digit occurs in no numeral. -/
theorem not_mem_digits {n : Nat} {c : Char} (h : c.isDigit = false) : c ∉ digits n := by
  intro hc
  simp [isDigit_of_mem_digits hc] at h

/-- Read a nonempty string of digits. -/
def natOfDigits? (l : List Char) : Option Nat :=
  if l ≠ [] ∧ l.all Char.isDigit then some (Nat.ofDigitChars 10 l 0) else none

theorem natOfDigits?_eq_some {l : List Char} (nonempty : l ≠ [])
    (h : ∀ c ∈ l, c.isDigit) : natOfDigits? l = some (Nat.ofDigitChars 10 l 0) :=
  if_pos ⟨nonempty, List.all_eq_true.mpr h⟩

@[simp] theorem natOfDigits?_digits (n : Nat) : natOfDigits? (digits n) = some n := by
  rw [natOfDigits?_eq_some (digits_ne_nil n) fun _ => isDigit_of_mem_digits,
    Nat.ofDigitChars_ten_toDigits]

/-- A numeral padded with zeros on the left to at least `width` digits. -/
def padded (width n : Nat) : List Char :=
  List.replicate (width - (digits n).length) '0' ++ digits n

theorem isDigit_of_mem_padded {width n : Nat} {c : Char} (h : c ∈ padded width n) :
    c.isDigit := by
  obtain zero | digit := List.mem_append.mp h
  · rw [List.eq_of_mem_replicate zero]
    rfl
  · exact isDigit_of_mem_digits digit

theorem padded_ne_nil (width n : Nat) : padded width n ≠ [] := by
  simp [padded]

@[simp] theorem ofDigitChars_padded (width n init : Nat) :
    Nat.ofDigitChars 10 (padded width n) init = 10 ^ (padded width n).length * init + n := by
  rw [Nat.ofDigitChars_eq_ofDigitChars_zero, padded, Nat.ofDigitChars_append]
  simp

/-- A number below `10 ^ width` fills the padded field exactly. -/
theorem length_padded {width n : Nat} (positive : 0 < width) (fits : n < 10 ^ width) :
    (padded width n).length = width := by
  have short : (digits n).length ≤ width :=
    (Nat.length_toDigits_le_iff (by decide) positive).mpr fits
  simp only [padded, List.length_append, List.length_replicate]
  omega

/-- Put a comma after every three characters. The list is read from its right end,
so `insertCommas` receives it reversed. -/
def insertCommas : List Char → List Char
  | a :: b :: c :: d :: rest => a :: b :: c :: ',' :: insertCommas (d :: rest)
  | short => short

theorem filter_insertCommas {l : List Char} (h : ',' ∉ l) :
    (insertCommas l).filter (· ≠ ',') = l := by
  fun_induction insertCommas l with
  | case1 a b c d rest ih =>
      simp only [List.mem_cons, not_or] at h
      rw [List.filter_cons_of_pos (by simp [Ne.symm h.1]),
        List.filter_cons_of_pos (by simp [Ne.symm h.2.1]),
        List.filter_cons_of_pos (by simp [Ne.symm h.2.2.1]),
        List.filter_cons_of_neg (by simp), ih (by simpa using h.2.2.2)]
  | case2 short =>
      exact List.filter_eq_self.mpr fun c hc => by
        simpa using fun eq : c = ',' => h (eq ▸ hc)

theorem mem_insertCommas {l : List Char} {x : Char} (h : x ∈ insertCommas l) :
    x ∈ l ∨ x = ',' := by
  fun_induction insertCommas l with
  | case1 a b c d rest ih =>
      simp only [List.mem_cons] at h ih ⊢
      grind
  | case2 short => exact .inl h

theorem comma_mem_insertCommas {l : List Char} (h : ',' ∉ l) :
    ',' ∈ insertCommas l ↔ 4 ≤ l.length := by
  fun_cases insertCommas l with
  | case1 a b c d rest => simp
  | case2 short long =>
      simp only [h, false_iff, Nat.not_le]
      obtain _ | ⟨a, _ | ⟨b, _ | ⟨c, _ | ⟨d, rest⟩⟩⟩⟩ := l
      · simp
      · simp
      · simp
      · simp
      · exact absurd rfl (long a b c d rest)

/-- A number printed in groups of three digits separated by commas. -/
def grouped (n : Nat) : List Char := (insertCommas (digits n).reverse).reverse

/-- Deleting the commas inverts the grouping. -/
theorem filter_grouped (n : Nat) : (grouped n).filter (· ≠ ',') = digits n := by
  rw [grouped, List.filter_reverse, filter_insertCommas, List.reverse_reverse]
  simpa using not_mem_digits (n := n) (c := ',') rfl

theorem mem_grouped {n : Nat} {c : Char} (h : c ∈ grouped n) : c.isDigit ∨ c = ',' := by
  rw [grouped, List.mem_reverse] at h
  obtain digit | comma := mem_insertCommas h
  · exact .inl (isDigit_of_mem_digits (List.mem_reverse.mp digit))
  · exact .inr comma

/-- The totals that show a comma are those from one thousand on. -/
theorem comma_mem_grouped_iff (n : Nat) : ',' ∈ grouped n ↔ 1000 ≤ n := by
  have long : (digits n).length ≤ 3 ↔ n < 10 ^ 3 :=
    Nat.length_toDigits_le_iff (by decide) (by decide)
  rw [grouped, List.mem_reverse, comma_mem_insertCommas, List.length_reverse]
  · omega
  · simpa using not_mem_digits (n := n) (c := ',') rfl

theorem grouped_ne_nil (n : Nat) : grouped n ≠ [] := by
  intro empty
  apply digits_ne_nil n
  rw [← filter_grouped, empty]
  rfl

example : grouped 1234567 = "1,234,567".toList := by decide

end Text
