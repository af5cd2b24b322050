import Mathlib.Data.List.Basic
import Mathlib.Data.List.DropRight

/-!
# Texts, lines and line filters

A text is its sequence of characters, already decoded. `lines` reads it the way a
line-oriented tool does: every newline ends a line, and a last piece without one is a
line too. A `LineFilter` is a tool that reads lines and prints whole lines; carrying the
proof that it prints no newline inside a line is what lets a shell pipeline of such
tools be computed on lists of lines, by `LineFilter.run_pipe`.

Languages differ in what they call whitespace and agree on what they do with it at both ends of
a text; `trim` takes the class of characters as an argument.
-/

namespace Text

/-- No line of the list contains a newline. -/
def Unbroken (ls : List (List Char)) : Prop := ∀ l ∈ ls, '\n' ∉ l

@[simp] theorem unbroken_nil : Unbroken [] := by simp [Unbroken]

@[simp] theorem unbroken_cons {l : List Char} {ls : List (List Char)} :
    Unbroken (l :: ls) ↔ '\n' ∉ l ∧ Unbroken ls := by
  simp [Unbroken]

@[simp] theorem unbroken_append {ls ms : List (List Char)} :
    Unbroken (ls ++ ms) ↔ Unbroken ls ∧ Unbroken ms := by
  simp only [Unbroken, List.forall_mem_append]

/-- Discarding lines keeps the others whole. -/
theorem Unbroken.of_subset {ls ms : List (List Char)} (h : Unbroken ms)
    (subset : ∀ l ∈ ls, l ∈ ms) : Unbroken ls :=
  fun l hl => h l (subset l hl)

/-- A fixed text is checked character by character. -/
theorem forall_mem_of_all {P : Char → Prop} [DecidablePred P] {l : List Char}
    (h : l.all (decide <| P ·) = true) : ∀ c ∈ l, P c :=
  fun c hc => of_decide_eq_true (List.all_eq_true.mp h c hc)

/-- What holds of the separator and of every piece holds of the joined text. -/
theorem forall_mem_intercalate {α : Type} {P : α → Prop} {sep : List α} {ls : List (List α)}
    (hsep : ∀ c ∈ sep, P c) (h : ∀ l ∈ ls, ∀ c ∈ l, P c) :
    ∀ c ∈ sep.intercalate ls, P c := by
  induction ls with
  | nil => simp
  | cons l ls ih =>
      rw [List.forall_mem_cons] at h
      cases ls with
      | nil => simpa using h.1
      | cons m ls =>
          rw [List.intercalate_cons_cons]
          simp only [List.forall_mem_append]
          exact ⟨⟨h.1, hsep⟩, ih h.2⟩

/-- Splitting at newlines and dropping the empty piece after a final newline. -/
def lines (t : List Char) : List (List Char) :=
  if (t.splitOn '\n').getLast? = some [] then (t.splitOn '\n').dropLast else t.splitOn '\n'

/-- Every line is printed with its newline. -/
def unlines (ls : List (List Char)) : List Char := ls.flatMap (· ++ ['\n'])

@[simp] theorem unlines_nil : unlines [] = [] := rfl

@[simp] theorem unlines_cons (l : List Char) (ls : List (List Char)) :
    unlines (l :: ls) = l ++ '\n' :: unlines ls := by
  simp [unlines]

theorem unlines_append (ls ms : List (List Char)) :
    unlines (ls ++ ms) = unlines ls ++ unlines ms := by
  simp [unlines]

@[simp] theorem lines_nil : lines [] = [] := by simp [lines]

/-- A text cut at one of its newlines: nothing on the right changes the left lines. -/
theorem lines_append_newline (xs ys : List Char) :
    lines (xs ++ '\n' :: ys) = xs.splitOn '\n' ++ lines ys := by
  have last : (xs.splitOn '\n' ++ ys.splitOn '\n').getLast? = (ys.splitOn '\n').getLast? :=
    List.getLast?_append_of_ne_nil _ (List.splitOn_ne_nil _ _)
  unfold lines
  rw [List.splitOn_append_cons_self, last]
  split
  · exact List.dropLast_append_of_ne_nil (List.splitOn_ne_nil _ _)
  · rfl

/-- Ending a text with a newline makes its lines the plain split. -/
theorem lines_newline (xs : List Char) : lines (xs ++ ['\n']) = xs.splitOn '\n' := by
  simpa using lines_append_newline xs []

theorem lines_line {l : List Char} (h : '\n' ∉ l) (rest : List Char) :
    lines (l ++ '\n' :: rest) = l :: lines rest := by
  rw [lines_append_newline, List.splitOn_eq_singleton h, List.singleton_append]

/-- Printed lines are read back, whatever follows them. -/
theorem lines_unlines_append {ls : List (List Char)} (h : Unbroken ls) (rest : List Char) :
    lines (unlines ls ++ rest) = ls ++ lines rest := by
  induction ls with
  | nil => rfl
  | cons l ls ih =>
      rw [unbroken_cons] at h
      rw [unlines_cons, List.append_assoc, List.cons_append, lines_line h.1, ih h.2,
        List.cons_append]

theorem lines_unlines {ls : List (List Char)} (h : Unbroken ls) : lines (unlines ls) = ls := by
  simpa using lines_unlines_append h []

private theorem unbroken_splitOn (t : List Char) : Unbroken (t.splitOn '\n') := by
  induction t with
  | nil => simp
  | cons c cs ih =>
      rw [List.splitOn_cons_eq_if_modifyHead]
      split
      · simpa using ih
      · rename_i hc
        have hc : '\n' ≠ c := fun h => hc (by simp [h.symm])
        cases hs : cs.splitOn '\n' with
        | nil => simp
        | cons l ls =>
            rw [hs, unbroken_cons] at ih
            simpa [hc] using ih

/-- The lines of a text never contain a newline. -/
theorem unbroken_lines (t : List Char) : Unbroken (lines t) := by
  have whole := unbroken_splitOn t
  unfold lines
  split
  · exact whole.of_subset fun l hl => List.dropLast_subset _ hl
  · exact whole

/-- A final newline adds at most one line, the empty one. -/
theorem mem_lines_of_mem_newline {l xs : List Char} (h : l ∈ lines (xs ++ ['\n'])) :
    l ∈ lines xs ∨ l = [] := by
  rw [lines_newline] at h
  unfold lines
  split
  · rename_i last
    obtain ⟨front, whole⟩ := List.getLast?_eq_some_iff.mp last
    simpa [whole] using h
  · exact .inl h

/-- A tool that reads the lines of its input and prints whole lines. -/
structure LineFilter where
  /-- The lines printed for the lines read. -/
  onLines : List (List Char) → List (List Char)
  /-- No newline is printed inside a line. -/
  unbroken : ∀ ls, Unbroken ls → Unbroken (onLines ls)

namespace LineFilter

/-- The tool on its standard input. -/
def run (f : LineFilter) (t : List Char) : List Char := unlines (f.onLines (lines t))

/-- `f | g`. -/
def pipe (f g : LineFilter) : LineFilter where
  onLines ls := g.onLines (f.onLines ls)
  unbroken ls h := g.unbroken _ (f.unbroken ls h)

theorem lines_run (f : LineFilter) (t : List Char) :
    lines (f.run t) = f.onLines (lines t) :=
  lines_unlines (f.unbroken _ (unbroken_lines t))

/-- A pipeline of line filters never re-reads text: it composes on lines. -/
theorem run_pipe (f g : LineFilter) (t : List Char) : (f.pipe g).run t = g.run (f.run t) := by
  show unlines (g.onLines (f.onLines (lines t))) = unlines (g.onLines (lines (f.run t)))
  rw [lines_run]

end LineFilter

/-! ## Whitespace at both ends -/

/-- Remove the characters of a class from both ends. -/
def trim (p : Char → Bool) (l : List Char) : List Char := (l.dropWhile p).rdropWhile p

theorem trim_eq_self {p : Char → Bool} {first last : Char} {middle : List Char}
    (hfirst : p first = false) (hlast : p last = false) :
    trim p (first :: middle ++ [last]) = first :: middle ++ [last] := by
  rw [trim, List.cons_append, List.dropWhile_cons_of_neg (by simp [hfirst]),
    ← List.cons_append, List.rdropWhile_concat_neg _ _ _ (by simp [hlast])]

theorem trim_of_forall {p : Char → Bool} {l : List Char} (h : ∀ c ∈ l, p c = false) :
    trim p l = l := by
  have left : l.dropWhile p = l := List.dropWhile_eq_self_iff.mpr fun pos => by simp [h]
  rw [trim, left]
  exact List.rdropWhile_eq_self_iff.mpr fun nonempty => by simp [h]

end Text
