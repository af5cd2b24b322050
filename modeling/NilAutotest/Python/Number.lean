import NilAutotest.Python.Text
import NilAutotest.Text.Numeral
import Mathlib.Algebra.Order.Ring.Rat
import Mathlib.Data.Rat.Defs
import Mathlib.Tactic.FieldSimp

/-!
# Python's numbers from text

`int` and `float` on strings, and `int` on a float. Floats are exact: a finite float is
the rational number its text writes.

Both conversions accept every Unicode decimal digit and single underscores between
digits. They trim whitespace, but unlike `str.strip` not the four ASCII information
separators. A string with a line break inside it is never a number. The interpreter's limit
on the length of a numeral, thousands of digits, is left out.
-/

namespace Python

open Text

/-- The exceptions the modelled code can raise. -/
inductive Exception
  | valueError
  | overflowError
  | fileNotFoundError
  | assertionError (message : String)
  deriving DecidableEq, Repr

/-- The whitespace around a number: the ASCII information separators are not part of it. -/
def isNumberSpace (c : Char) : Bool := isSpace c && !(0x1c ≤ c.toNat && c.toNat ≤ 0x1f)

theorem isNumberSpace_eq_false {c : Char} (h : isSpace c = false) : isNumberSpace c = false := by
  simp [isNumberSpace, h]

/-- The zeros of the blocks of ten decimal digits outside ASCII. -/
def otherZeros : List Nat :=
  [0x660, 0x6f0, 0x7c0, 0x966, 0x9e6, 0xa66, 0xae6, 0xb66, 0xbe6, 0xc66, 0xce6, 0xd66,
    0xde6, 0xe50, 0xed0, 0xf20, 0x1040, 0x1090, 0x17e0, 0x1810, 0x1946, 0x19d0, 0x1a80, 0x1a90,
    0x1b50, 0x1bb0, 0x1c40, 0x1c50, 0xa620, 0xa8d0, 0xa900, 0xa9d0, 0xa9f0, 0xaa50, 0xabf0,
    0xff10, 0x104a0, 0x10d30, 0x11066, 0x110f0, 0x11136, 0x111d0, 0x112f0, 0x11450, 0x114d0,
    0x11650, 0x116c0, 0x11730, 0x118e0, 0x11950, 0x11c50, 0x11d50, 0x11da0, 0x16a60, 0x16ac0,
    0x16b50, 0x1d7ce, 0x1d7d8, 0x1d7e2, 0x1d7ec, 0x1d7f6, 0x1e140, 0x1e2f0, 0x1e950, 0x1fbf0]

/-- The zero of each block of ten decimal digits. -/
def decimalZeros : List Nat := 0x30 :: otherZeros

/-- Whether a character is one of the ten digits that start at a code point. -/
def inBlock (c : Char) (start : Nat) : Bool := start ≤ c.toNat && c.toNat < start + 10

/-- The value of a Unicode decimal digit. -/
def decimal? (c : Char) : Option Nat :=
  (decimalZeros.find? (inBlock c)).map (c.toNat - ·)

theorem decimal?_of_isDigit {c : Char} (h : c.isDigit) : decimal? c = some (c.toNat - 48) := by
  obtain ⟨low, high⟩ := Char.isDigit_iff_toNat.mp h
  change 48 ≤ c.toNat at low
  change c.toNat ≤ 57 at high
  have first : inBlock c 0x30 := by
    simp only [inBlock, Bool.and_eq_true, decide_eq_true_eq]
    omega
  rw [decimal?, decimalZeros, List.find?_cons_of_pos first, Option.map_some]

/-- Digits with at most one underscore between any two of them. -/
def digitPart? : List Char → Option (List Nat)
  | [] => none
  | [c] => (decimal? c).map ([·])
  | c :: '_' :: cs => do
      let d ← decimal? c
      let ds ← digitPart? cs
      pure (d :: ds)
  | c :: cs => do
      let d ← decimal? c
      let ds ← digitPart? cs
      pure (d :: ds)

/-- The number a string of digit values writes. -/
def ofDigitValues (ds : List Nat) : Nat := ds.foldl (fun n d => 10 * n + d) 0

theorem digitPart?_digits {l : List Char} (nonempty : l ≠ []) (h : ∀ c ∈ l, c.isDigit) :
    digitPart? l = some (l.map fun c => c.toNat - 48) := by
  fun_induction digitPart? l with
  | case1 => exact absurd rfl nonempty
  | case2 c => simp [decimal?_of_isDigit (h c (by simp))]
  | case3 c cs ih =>
      have underscore := h '_' (by simp)
      simp at underscore
  | case4 c cs notSingle notUnderscore ih =>
      rw [List.forall_mem_cons] at h
      have tail : cs ≠ [] := fun empty => notSingle empty
      simp [decimal?_of_isDigit h.1, ih tail h.2]

theorem ofDigitValues_map (l : List Char) :
    ofDigitValues (l.map fun c => c.toNat - 48) = Nat.ofDigitChars 10 l 0 := by
  rw [ofDigitValues, List.foldl_map, Nat.ofDigitChars_eq_foldl]
  rfl

/-- No number is written across a line break. -/
theorem digitPart?_newline {l : List Char} (h : '\n' ∈ l) : digitPart? l = none := by
  fun_induction digitPart? l with
  | case1 => rfl
  | case2 c =>
      rw [← List.mem_singleton.mp h]
      decide
  | case3 c cs ih =>
      obtain rfl | h := List.mem_cons.mp h
      · rfl
      · have tail : '\n' ∈ cs := by simpa using h
        simp [ih tail]
  | case4 c cs notSingle notUnderscore ih =>
      obtain rfl | h := List.mem_cons.mp h
      · rfl
      · simp [ih h]

/-- An optional sign and the text after it. -/
def signed : List Char → Bool × List Char
  | '-' :: cs => (true, cs)
  | '+' :: cs => (false, cs)
  | cs => (false, cs)

/-- `int(str)`. -/
def int (l : List Char) : Except Exception Int :=
  let (negative, body) := signed (trim isNumberSpace l)
  match digitPart? body with
  | some ds => .ok (if negative then -(ofDigitValues ds : Int) else ofDigitValues ds)
  | none => .error .valueError

theorem signed_digit {c : Char} (h : c.isDigit) (cs : List Char) :
    signed (c :: cs) = (false, c :: cs) := by
  rw [signed]
  · rintro rest eq
    rw [(List.cons.inj eq).1] at h
    simp at h
  · rintro rest eq
    rw [(List.cons.inj eq).1] at h
    simp at h

theorem mem_signed {l : List Char} {c : Char} (hc : c ∈ l) (hm : c ≠ '-') (hp : c ≠ '+') :
    c ∈ (signed l).2 := by
  fun_cases signed l with
  | case1 cs => exact (List.mem_cons.mp hc).resolve_left hm
  | case2 cs => exact (List.mem_cons.mp hc).resolve_left hp
  | case3 => exact hc

private theorem isNumberSpace_of_isDigit {c : Char} (h : c.isDigit) : isNumberSpace c = false :=
  isNumberSpace_eq_false (isSpace_of_isDigit h)

/-- An unsigned numeral is read as its value. -/
theorem int_digits {l : List Char} (nonempty : l ≠ []) (h : ∀ c ∈ l, c.isDigit) :
    int l = .ok (Nat.ofDigitChars 10 l 0) := by
  obtain ⟨c, cs, rfl⟩ := List.exists_cons_of_ne_nil nonempty
  rw [int, trim_of_forall fun c hc => isNumberSpace_of_isDigit (h c hc),
    signed_digit (h c List.mem_cons_self)]
  simp only [digitPart?_digits nonempty h, ofDigitValues_map, Bool.false_eq_true, if_false]

/-- A line break between two characters that are not whitespace makes `int` fail. -/
theorem int_newline {first last : Char} {before after : List Char}
    (hfirst : isSpace first = false) (hlast : isSpace last = false) :
    int (first :: before ++ '\n' :: (after ++ [last])) = .error .valueError := by
  have same : first :: before ++ '\n' :: (after ++ [last]) =
      first :: (before ++ '\n' :: after) ++ [last] := by simp
  rw [int, same, trim_eq_self (isNumberSpace_eq_false hfirst) (isNumberSpace_eq_false hlast)]
  have inside : '\n' ∈ (signed (first :: (before ++ '\n' :: after) ++ [last])).2 :=
    mem_signed (by simp) (by decide) (by decide)
  simp only [digitPart?_newline inside]

/-- A float, read exactly. -/
inductive FloatValue
  | finite (q : ℚ)
  | infinite (negative : Bool)
  | nan
  deriving DecidableEq

/-- Digits with a radix point before, among or after them: their values, and how many
of them follow the point. -/
def mantissa? (l : List Char) : Option (List Nat × Nat) :=
  match l.splitOn '.' with
  | [whole] => (digitPart? whole).map (·, 0)
  | [whole, []] => (digitPart? whole).map (·, 0)
  | [[], fraction] => (digitPart? fraction).map fun ds => (ds, ds.length)
  | [whole, fraction] => do
      let ws ← digitPart? whole
      let fs ← digitPart? fraction
      pure (ws ++ fs, fs.length)
  | _ => none

/-- The exponent of a float literal; none written is zero. -/
def exponent? : List Char → Option Int
  | [] => some 0
  | _ :: l =>
      let (negative, body) := signed l
      (digitPart? body).map fun ds =>
        if negative then -(ofDigitValues ds : Int) else ofDigitValues ds

/-- `float(str)`. -/
def float (l : List Char) : Except Exception FloatValue :=
  let (negative, body) := signed (trim isNumberSpace l)
  let name := body.map Char.toLower
  if name = "inf".toList ∨ name = "infinity".toList then .ok (.infinite negative)
  else if name = "nan".toList then .ok .nan
  else
    let isMarker := fun c => c == 'e' || c == 'E'
    match mantissa? (body.takeWhile (!isMarker ·)), exponent? (body.dropWhile (!isMarker ·)) with
    | some (ds, k), some e =>
        let magnitude : ℚ := ofDigitValues ds * (10 : ℚ) ^ (e - k)
        .ok (.finite (if negative then -magnitude else magnitude))
    | _, _ => .error .valueError

private theorem mantissa?_decimal {whole fraction : List Char} (hw : whole ≠ [])
    (hf : fraction ≠ []) (wdigits : ∀ c ∈ whole, c.isDigit)
    (fdigits : ∀ c ∈ fraction, c.isDigit) :
    mantissa? (whole ++ '.' :: fraction) =
      some ((whole ++ fraction).map fun c => c.toNat - 48, fraction.length) := by
  have noPoint : ∀ l : List Char, (∀ c ∈ l, c.isDigit) → '.' ∉ l := by
    intro l h point
    simpa using h '.' point
  have split : (whole ++ '.' :: fraction).splitOn '.' = [whole, fraction] := by
    rw [List.splitOn_append_cons_self_of_not_mem (noPoint whole wdigits),
      List.splitOn_eq_singleton (noPoint fraction fdigits)]
  rw [mantissa?, split]
  split
  · simp_all
  · simp_all
  · simp_all
  · rename_i eq
    cases eq
    simp [digitPart?_digits hw wdigits, digitPart?_digits hf fdigits]
  · rename_i other
    exact absurd rfl (other whole fraction)

/-- An unsigned decimal fraction is read as its value. -/
theorem float_decimal {whole fraction : List Char} (hw : whole ≠ []) (hf : fraction ≠ [])
    (wdigits : ∀ c ∈ whole, c.isDigit) (fdigits : ∀ c ∈ fraction, c.isDigit) :
    float (whole ++ '.' :: fraction) =
      .ok (.finite (Nat.ofDigitChars 10 whole 0 +
        Nat.ofDigitChars 10 fraction 0 / 10 ^ fraction.length)) := by
  have chars : ∀ c ∈ whole ++ '.' :: fraction, c.isDigit ∨ c = '.' := by
    simp only [List.mem_append, List.mem_cons]
    rintro c (h | rfl | h)
    · exact .inl (wdigits c h)
    · exact .inr rfl
    · exact .inl (fdigits c h)
  have trimmed : trim isNumberSpace (whole ++ '.' :: fraction) = whole ++ '.' :: fraction :=
    trim_of_forall fun c hc => (chars c hc).elim isNumberSpace_of_isDigit (by rintro rfl; rfl)
  have unsigned : signed (whole ++ '.' :: fraction) = (false, whole ++ '.' :: fraction) := by
    obtain ⟨c, cs, rfl⟩ := List.exists_cons_of_ne_nil hw
    exact signed_digit (wdigits c List.mem_cons_self) _
  -- The radix point distinguishes the literal from the names of the special values.
  have point : '.' ∈ (whole ++ '.' :: fraction).map Char.toLower :=
    List.mem_map.mpr ⟨'.', by simp, rfl⟩
  have named : ∀ name : List Char, '.' ∉ name →
      (whole ++ '.' :: fraction).map Char.toLower ≠ name := by
    rintro name absent rfl
    exact absent point
  have noMarker : ∀ c ∈ whole ++ '.' :: fraction, (!(c == 'e' || c == 'E')) = true := by
    intro c hc
    obtain digit | rfl := chars c hc
    · simp only [Bool.not_eq_true', Bool.or_eq_false_iff, beq_eq_false_iff_ne]
      constructor <;> rintro rfl <;> simp at digit
    · rfl
  rw [float, trimmed, unsigned]
  simp only [named "inf".toList (by decide), named "infinity".toList (by decide),
    named "nan".toList (by decide), or_self, if_false, Bool.false_eq_true,
    List.takeWhile_eq_self_iff.mpr noMarker, List.dropWhile_eq_nil_iff.mpr noMarker,
    mantissa?_decimal hw hf wdigits fdigits, exponent?, ofDigitValues_map,
    Nat.ofDigitChars_append]
  rw [Nat.ofDigitChars_eq_ofDigitChars_zero (l := fraction)]
  congr 2
  rw [zero_sub, zpow_neg, zpow_natCast]
  push_cast
  field_simp

/-- A float under an increasing map of the numbers that fixes the infinities. -/
def FloatValue.map (f : ℚ → ℚ) : FloatValue → FloatValue
  | .finite q => .finite (f q)
  | .infinite negative => .infinite negative
  | .nan => .nan

/-- `int(float)` truncates toward zero. -/
def FloatValue.toInt : FloatValue → Except Exception Int
  | .finite q => .ok (q.num.tdiv q.den)
  | .infinite _ => .error .overflowError
  | .nan => .error .valueError

theorem FloatValue.toInt_intCast (n : Int) : (FloatValue.finite n).toInt = .ok n := by
  simp [FloatValue.toInt]

end Python
