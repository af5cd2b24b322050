import NilAutotest.Text.Lines
import NilAutotest.Text.Numeral
import Mathlib.Data.Char
import Mathlib.Data.List.GetD
import Mathlib.Data.List.Lex
import Mathlib.Data.List.Sort
import Mathlib.Data.List.TakeWhile
import Mathlib.Data.Prod.Lex
import Mathlib.Data.Rat.Defs
import Mathlib.Algebra.Order.Ring.Rat

/-!
# The text filters of a measuring pipeline

`awk '{print $n}'`, `tr -d`, `sort -n` and `tail -1`. Each is a line filter, except `tr`,
which works on characters; on the whole lines that another filter prints it is one too.

Fields are the maximal runs of characters that are not blank. `sort -n` orders lines by
their leading number and breaks ties by the whole line.
-/

namespace Posix

open Text

/-- The characters that separate fields. -/
def isBlank (c : Char) : Bool := c == ' ' || c == '\t'

/-- The fields of a line under the default field separator. -/
def fields (l : List Char) : List (List Char) := (l.splitOnP isBlank).filter (· ≠ [])

@[simp] theorem fields_nil : fields [] = [] := rfl

theorem fields_append_blank (xs ys : List Char) {b : Char} (hb : isBlank b) :
    fields (xs ++ b :: ys) = fields xs ++ fields ys := by
  rw [fields, List.splitOnP_append_cons _ _ hb, List.filter_append]
  rfl

/-- Leading blanks do not count. -/
theorem fields_blank_cons {b : Char} (hb : isBlank b) (l : List Char) :
    fields (b :: l) = fields l :=
  fields_append_blank [] l hb

theorem fields_blanks_append {bs : List Char} (hb : ∀ b ∈ bs, isBlank b) (l : List Char) :
    fields (bs ++ l) = fields l := by
  induction bs with
  | nil => rfl
  | cons b bs ih =>
      rw [List.forall_mem_cons] at hb
      rw [List.cons_append, fields_blank_cons hb.1, ih hb.2]

/-- A word is its own only field. -/
theorem fields_word {w : List Char} (nonempty : w ≠ []) (hw : ∀ c ∈ w, isBlank c = false) :
    fields w = [w] := by
  rw [fields, List.splitOnP_eq_singleton hw]
  simp [nonempty]

theorem fields_word_blank {w : List Char} (nonempty : w ≠ [])
    (hw : ∀ c ∈ w, isBlank c = false) {b : Char} (hb : isBlank b) (rest : List Char) :
    fields (w ++ b :: rest) = w :: fields rest := by
  rw [fields_append_blank _ _ hb, fields_word nonempty hw, List.singleton_append]

/-- A nonblank character in front of a line either lengthens its first field or is a
field of its own; the other fields are those of the line. -/
theorem fields_cons {c : Char} (hc : isBlank c = false) (l : List Char) :
    ∃ w rest, fields (c :: l) = (c :: w) :: rest ∧
      (fields l = rest ∨ fields l = w :: rest) := by
  obtain ⟨w, pieces, split⟩ := List.exists_cons_of_ne_nil (List.splitOnP_ne_nil isBlank l)
  refine ⟨w, pieces.filter (· ≠ []), ?_, ?_⟩
  · simp [fields, List.splitOnP_cons_eq_if_modifyHead, hc, split]
  · by_cases empty : w = []
    · left
      simp [fields, split, empty]
    · right
      simp [fields, split, empty]

private theorem mem_of_mem_splitOnP {p : Char → Bool} {l w : List Char} {c : Char}
    (hw : w ∈ l.splitOnP p) (hc : c ∈ w) : c ∈ l := by
  induction l generalizing w with
  | nil => simp_all
  | cons x l ih =>
      rw [List.splitOnP_cons_eq_if_modifyHead] at hw
      obtain ⟨v, pieces, split⟩ := List.exists_cons_of_ne_nil (List.splitOnP_ne_nil p l)
      simp only [split, List.modifyHead_cons] at hw ih
      split at hw
      · obtain rfl | hw := List.mem_cons.mp hw
        · simp at hc
        · exact List.mem_cons_of_mem _ (ih hw hc)
      · obtain rfl | hw := List.mem_cons.mp hw
        · obtain rfl | hc := List.mem_cons.mp hc
          · exact List.mem_cons_self
          · exact List.mem_cons_of_mem _ (ih List.mem_cons_self hc)
        · exact List.mem_cons_of_mem _ (ih (List.mem_cons_of_mem _ hw) hc)

/-- Fields are cut out of the line. -/
theorem mem_of_mem_fields {l w : List Char} {c : Char} (hw : w ∈ fields l) (hc : c ∈ w) :
    c ∈ l :=
  mem_of_mem_splitOnP (List.mem_filter.mp hw).1 hc

/-- `$n` of a line: the whole line for zero, nothing past the last field. -/
def field : Nat → List Char → List Char
  | 0, l => l
  | n + 1, l => (fields l).getD n []

theorem mem_of_mem_field {n : Nat} {l : List Char} {c : Char} (hc : c ∈ field n l) :
    c ∈ l := by
  cases n with
  | zero => exact hc
  | succ n =>
      by_cases bound : n < (fields l).length
      · rw [field, List.getD_eq_getElem _ _ bound] at hc
        exact mem_of_mem_fields (List.getElem_mem bound) hc
      · rw [field, List.getD_eq_default _ _ (by omega)] at hc
        simp at hc

/-- `awk '{print $n}'`. -/
def awkPrint (n : Nat) : LineFilter where
  onLines ls := ls.map (field n)
  unbroken ls h := by
    intro l hl
    obtain ⟨source, hs, rfl⟩ := List.mem_map.mp hl
    exact fun newline => h source hs (mem_of_mem_field newline)

/-- `tr -d` with one character. -/
def trDelete (c : Char) (t : List Char) : List Char := t.filter (· ≠ c)

/-- `tr -d` seen on lines. -/
def deleteOnLines (c : Char) : LineFilter where
  onLines ls := ls.map (List.filter (· ≠ c))
  unbroken ls h := by
    intro l hl
    obtain ⟨source, hs, rfl⟩ := List.mem_map.mp hl
    exact fun newline => h source hs (List.mem_of_mem_filter newline)

/-- Deleting a character other than the newline from printed lines keeps the lines. -/
theorem trDelete_run {c : Char} (hc : c ≠ '\n') (f : LineFilter) (t : List Char) :
    trDelete c (f.run t) = (f.pipe (deleteOnLines c)).run t := by
  show (unlines (f.onLines (lines t))).filter _ = unlines ((f.onLines (lines t)).map _)
  induction f.onLines (lines t) with
  | nil => rfl
  | cons l ls ih =>
      rw [unlines_cons, List.filter_append, List.filter_cons_of_pos (by simpa using hc.symm),
        ih, List.map_cons, unlines_cons]

/-- The number a line starts with, for `sort -n`: blanks, an optional minus sign, digits
and an optional fraction. A line without digits counts as zero. -/
def numericKey (l : List Char) : ℚ :=
  match l.dropWhile isBlank with
  | '-' :: rest => -magnitude rest
  | rest => magnitude rest
where
  /-- Digits with an optional radix character among them. -/
  magnitude (l : List Char) : ℚ :=
    let whole := l.takeWhile Char.isDigit
    let fraction := match l.dropWhile Char.isDigit with
      | '.' :: rest => rest.takeWhile Char.isDigit
      | _ => []
    Nat.ofDigitChars 10 (whole ++ fraction) 0 / 10 ^ fraction.length

/-- The order of `sort -n`: the numbers first, the whole lines on a tie. -/
def numericLE (a b : List Char) : Prop := toLex (numericKey a, a) ≤ toLex (numericKey b, b)

instance : DecidableRel numericLE := fun a b =>
  inferInstanceAs (Decidable (toLex (numericKey a, a) ≤ toLex (numericKey b, b)))

instance : Std.Total numericLE := ⟨fun _ _ => le_total _ _⟩

instance : IsTrans (List Char) numericLE := ⟨fun _ _ _ h₁ h₂ => le_trans h₁ h₂⟩

theorem numericLE.key_le {a b : List Char} (h : numericLE a b) :
    numericKey a ≤ numericKey b := by
  obtain lt | ⟨eq, _⟩ := Prod.Lex.toLex_le_toLex.mp h
  · exact le_of_lt lt
  · exact le_of_eq eq

/-- On a string of digits the key is the number they write. -/
theorem numericKey_digits {l : List Char} (h : ∀ c ∈ l, c.isDigit) :
    numericKey l = Nat.ofDigitChars 10 l 0 := by
  have whole : numericKey.magnitude l = Nat.ofDigitChars 10 l 0 := by
    have none_left : l.dropWhile Char.isDigit = [] := List.dropWhile_eq_nil_iff.mpr h
    simp [numericKey.magnitude, none_left, List.takeWhile_eq_self_iff.mpr h]
  cases l with
  | nil => simpa [numericKey] using whole
  | cons c cs =>
      have digit : c.isDigit := h c List.mem_cons_self
      have notBlank : isBlank c = false := by
        rw [isBlank, Bool.or_eq_false_iff]
        constructor <;> rw [beq_eq_false_iff_ne] <;> rintro rfl <;> simp at digit
      have notMinus : c ≠ '-' := by
        rintro rfl
        simp at digit
      rw [numericKey, List.dropWhile_cons_of_neg (by simp [notBlank])]
      split
      · rename_i eq
        exact absurd (List.cons.inj eq).1 notMinus
      · exact whole

/-- `sort -n`. -/
def sortNumeric : LineFilter where
  onLines ls := ls.insertionSort numericLE
  unbroken _ h := h.of_subset fun _ hl => (List.mem_insertionSort numericLE).mp hl

/-- `tail -1`, on whole lines. -/
def tailLast : LineFilter where
  onLines ls := ls.getLast?.toList
  unbroken ls h := h.of_subset fun l hl => by
    cases last : ls.getLast? with
    | none => simp [last] at hl
    | some m =>
        rw [last, Option.toList_some, List.mem_singleton] at hl
        exact hl ▸ List.mem_of_getLast? last

/-- The last line of a numeric sort is one of the lines, and no key exceeds its key. -/
theorem getLast?_sortNumeric {ls : List (List Char)} {m : List Char}
    (h : (sortNumeric.onLines ls).getLast? = some m) :
    m ∈ ls ∧ ∀ l ∈ ls, numericKey l ≤ numericKey m := by
  change (ls.insertionSort numericLE).getLast? = some m at h
  obtain ⟨front, sorted⟩ := List.getLast?_eq_some_iff.mp h
  have ordered : (front ++ [m]).Pairwise numericLE :=
    sorted ▸ List.pairwise_insertionSort numericLE ls
  have member : ∀ l, l ∈ ls ↔ l ∈ front ++ [m] := fun l => by
    rw [← sorted, List.mem_insertionSort]
  refine ⟨(member m).mpr (by simp), fun l hl => ?_⟩
  obtain before | last := List.mem_append.mp ((member l).mp hl)
  · exact numericLE.key_le ((List.pairwise_append.mp ordered).2.2 l before m (by simp))
  · rw [List.mem_singleton.mp last]

theorem getLast?_sortNumeric_eq_none {ls : List (List Char)} :
    (sortNumeric.onLines ls).getLast? = none ↔ ls = [] := by
  show (ls.insertionSort numericLE).getLast? = none ↔ _
  rw [List.getLast?_eq_none_iff, ← List.length_eq_zero_iff, List.length_insertionSort,
    List.length_eq_zero_iff]

example : fields " | ->9.1% (2,048B) 0x40".toList =
    ["|".toList, "->9.1%".toList, "(2,048B)".toList, "0x40".toList] := by decide

end Posix
