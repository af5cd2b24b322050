import NilAutotest.Text.Lines
import Mathlib.Data.List.Infix

/-!
# Basic regular expressions as `grep` uses them

The fragment has literal characters and starred bracket expressions, searched anywhere
in a line or, after `^`, only at its start. Matching is the usual backtracking search:
a star first tries to stop and then to take one more character, so the order of the two
does not change what matches. The specifications below say which lines are selected
without mentioning the search.
-/

namespace Posix

/-- One item of a pattern. -/
inductive Item
  /-- A character that stands for itself. -/
  | char (c : Char)
  /-- A bracket expression followed by `*`. -/
  | star (cls : Char → Bool)

/-- A basic regular expression of the fragment. -/
structure Pattern where
  /-- Whether the pattern starts with `^`. -/
  anchored : Bool
  items : List Item

/-- A pattern without special characters. -/
def Pattern.literal (s : String) : Pattern := ⟨false, s.toList.map .char⟩

/-- Any number of characters of the class, then the rest of the pattern. -/
def starHere (cls : Char → Bool) (rest : List Char → Bool) : List Char → Bool
  | [] => rest []
  | c :: cs => rest (c :: cs) || (cls c && starHere cls rest cs)

/-- Whether the items match at the start of the text. -/
def matchHere : List Item → List Char → Bool
  | [], _ => true
  | .char _ :: _, [] => false
  | .char c :: items, x :: xs => x == c && matchHere items xs
  | .star cls :: items, l => starHere cls (matchHere items) l

/-- Whether `grep` selects a line. -/
def Pattern.selects (p : Pattern) (l : List Char) : Bool :=
  if p.anchored then matchHere p.items l else l.tails.any (matchHere p.items)

theorem starHere_iff {cls : Char → Bool} {rest : List Char → Bool} {l : List Char} :
    starHere cls rest l ↔ ∃ a b, l = a ++ b ∧ (∀ c ∈ a, cls c) ∧ rest b := by
  induction l with
  | nil =>
      constructor
      · intro h
        exact ⟨[], [], rfl, by simp, h⟩
      · rintro ⟨a, b, eq, _, h⟩
        obtain ⟨rfl, rfl⟩ := List.append_eq_nil_iff.mp eq.symm
        exact h
  | cons c cs ih =>
      simp only [starHere, Bool.or_eq_true, Bool.and_eq_true, ih]
      constructor
      · rintro (h | ⟨hc, a, b, rfl, ha, h⟩)
        · exact ⟨[], c :: cs, rfl, by simp, h⟩
        · exact ⟨c :: a, b, rfl, List.forall_mem_cons.mpr ⟨hc, ha⟩, h⟩
      · rintro ⟨a, b, eq, ha, h⟩
        cases a with
        | nil => exact .inl (by rw [eq]; exact h)
        | cons x a =>
            obtain ⟨rfl, rfl⟩ := List.cons.inj eq
            rw [List.forall_mem_cons] at ha
            exact .inr ⟨ha.1, a, b, rfl, ha.2, h⟩

theorem matchHere_chars {s l : List Char} : matchHere (s.map .char) l ↔ s <+: l := by
  induction s generalizing l with
  | nil => simp [matchHere]
  | cons c s ih =>
      cases l with
      | nil => simp [matchHere]
      | cons x xs =>
          simp only [List.map_cons, matchHere, Bool.and_eq_true, beq_iff_eq, ih,
            List.cons_prefix_cons]
          exact and_congr_left' eq_comm

/-- A literal pattern selects exactly the lines that contain it. -/
theorem selects_literal {s : String} {l : List Char} :
    (Pattern.literal s).selects l ↔ s.toList <:+: l := by
  simp only [Pattern.selects, Pattern.literal, Bool.false_eq_true, if_false, List.any_eq_true,
    List.mem_tails, matchHere_chars, List.infix_iff_prefix_suffix]
  exact exists_congr fun _ => and_comm

/-- `^[class]*c` selects the lines that start with characters of the class and then `c`. -/
theorem selects_anchored_star_char {cls : Char → Bool} {c : Char} {l : List Char} :
    Pattern.selects ⟨true, [.star cls, .char c]⟩ l ↔
      ∃ a b, l = a ++ c :: b ∧ ∀ x ∈ a, cls x := by
  simp only [Pattern.selects, if_true, matchHere, starHere_iff]
  constructor
  · rintro ⟨a, b, rfl, ha, h⟩
    cases b with
    | nil => simp [matchHere] at h
    | cons x b =>
        simp only [matchHere, Bool.and_true, beq_iff_eq] at h
        exact ⟨a, b, by rw [h], ha⟩
  · rintro ⟨a, b, rfl, ha⟩
    exact ⟨a, c :: b, rfl, ha, by simp [matchHere]⟩

/-- `grep pattern`. -/
def grep (p : Pattern) : Text.LineFilter where
  onLines ls := ls.filter p.selects
  unbroken _ h := h.of_subset fun _ hl => (List.mem_filter.mp hl).1

/-- The exit status of `grep`: zero exactly when a line is selected. -/
def grepStatus (p : Pattern) (t : List Char) : Nat :=
  if (Text.lines t).any p.selects then 0 else 1

theorem grepStatus_eq_zero_iff {p : Pattern} {t : List Char} :
    grepStatus p t = 0 ↔ ∃ l ∈ Text.lines t, p.selects l := by
  unfold grepStatus
  split <;> simp_all

example : (Pattern.literal "real").selects "surreal numbers".toList := by decide

end Posix
