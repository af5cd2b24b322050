import NilAutotest.Text.Lines

/-!
# Reading a stream as Python text

Text mode turns every line ending into a newline, and `str.strip` removes whitespace at
both ends. A last line that starts and ends with a character that is not whitespace
survives `strip` whole, whatever stands before it.
-/

namespace Python

open Text

/-- Reading a stream as text turns every line ending into a newline. -/
def universalNewlines : List Char → List Char
  | [] => []
  | '\r' :: '\n' :: cs => '\n' :: universalNewlines cs
  | '\r' :: cs => '\n' :: universalNewlines cs
  | c :: cs => c :: universalNewlines cs

theorem universalNewlines_cons {c : Char} (hc : c ≠ '\r') (cs : List Char) :
    universalNewlines (c :: cs) = c :: universalNewlines cs := by
  rw [universalNewlines]
  · rintro rest rfl
    exact absurd rfl hc
  · exact hc

/-- Text without carriage returns is read as it is. -/
theorem universalNewlines_eq_self {l : List Char} (h : '\r' ∉ l) : universalNewlines l = l := by
  induction l with
  | nil => rfl
  | cons c cs ih =>
      simp only [List.mem_cons, not_or] at h
      rw [universalNewlines_cons (Ne.symm h.1), ih h.2]

/-- Only a newline right after the cut could pair with what precedes it. -/
theorem universalNewlines_append (xs : List Char) {ys : List Char}
    (h : ys.head? ≠ some '\n') :
    universalNewlines (xs ++ ys) = universalNewlines xs ++ universalNewlines ys := by
  fun_induction universalNewlines xs with
  | case1 => rfl
  | case2 cs ih => simp [universalNewlines, ih]
  | case3 cs notNewline ih =>
      cases cs with
      | nil =>
          cases ys with
          | nil => rfl
          | cons y ys =>
              have hy : y ≠ '\n' := by simpa using h
              show universalNewlines ('\r' :: y :: ys) = '\n' :: universalNewlines (y :: ys)
              rw [universalNewlines]
              intro rest eq
              exact hy (List.cons.inj eq).1
      | cons c cs =>
          have hc : c ≠ '\n' := fun eq => notNewline cs (by rw [eq])
          show universalNewlines ('\r' :: c :: (cs ++ ys)) = _
          rw [universalNewlines]
          · exact congrArg ('\n' :: ·) ih
          · intro rest eq
            exact hc (List.cons.inj eq).1
  | case4 c cs notReturnNewline notReturn ih =>
      rw [List.cons_append, universalNewlines_cons notReturn, ih, List.cons_append]

theorem universalNewlines_return_cons {c : Char} (hc : c ≠ '\n') (cs : List Char) :
    universalNewlines ('\r' :: c :: cs) = '\n' :: universalNewlines (c :: cs) := by
  rw [universalNewlines]
  intro rest eq
  exact hc (List.cons.inj eq).1

/-- A final newline survives. -/
theorem getLast?_universalNewlines (l : List Char) :
    (universalNewlines (l ++ ['\n'])).getLast? = some '\n' := by
  fun_induction universalNewlines l with
  | case1 => rfl
  | case2 cs ih =>
      show ('\n' :: universalNewlines (cs ++ ['\n'])).getLast? = some '\n'
      rw [List.getLast?_cons, ih, Option.getD_some]
  | case3 cs notNewline ih =>
      cases cs with
      | nil => rfl
      | cons c cs =>
          have hc : c ≠ '\n' := fun eq => notNewline cs (by rw [eq])
          rw [List.cons_append, List.cons_append, universalNewlines_return_cons hc,
            List.getLast?_cons, ← List.cons_append, ih, Option.getD_some]
  | case4 c cs notReturnNewline notReturn ih =>
      rw [List.cons_append, universalNewlines_cons notReturn, List.getLast?_cons, ih,
        Option.getD_some]

/-- `str.isspace` on one character. -/
def isSpace (c : Char) : Bool :=
  [0x9, 0xa, 0xb, 0xc, 0xd, 0x1c, 0x1d, 0x1e, 0x1f, 0x20, 0x85, 0xa0, 0x1680, 0x2028, 0x2029,
    0x202f, 0x205f, 0x3000].contains c.toNat || (0x2000 ≤ c.toNat && c.toNat ≤ 0x200a)

/-- A decimal digit is not whitespace. -/
theorem isSpace_of_isDigit {c : Char} (h : c.isDigit) : isSpace c = false := by
  obtain ⟨low, high⟩ := Char.isDigit_iff_toNat.mp h
  change 48 ≤ c.toNat at low
  change c.toNat ≤ 57 at high
  simp only [isSpace, List.contains_eq_mem, List.mem_cons, List.not_mem_nil, or_false,
    Bool.or_eq_false_iff, decide_eq_false_iff_not, Bool.and_eq_false_iff]
  omega

/-- Whole lines without their leading whitespace: what is left is nothing, or it starts with
something visible and still ends with a newline. -/
theorem dropWhile_isSpace_shape {l : List Char} (ended : l = [] ∨ l.getLast? = some '\n')
    (h : l.dropWhile isSpace ≠ []) :
    ∃ first before, isSpace first = false ∧ l.dropWhile isSpace = first :: before ++ ['\n'] := by
  have last : (l.dropWhile isSpace).getLast? = some '\n' := by
    obtain ⟨skipped, eq⟩ := List.dropWhile_suffix (l := l) isSpace
    obtain rfl | ended := ended
    · exact absurd rfl h
    · rwa [← eq, List.getLast?_append_of_ne_nil _ h] at ended
  have notSpace : isSpace ((l.dropWhile isSpace).head h) = false :=
    List.head_dropWhile_not isSpace h
  obtain ⟨front, cut⟩ := List.getLast?_eq_some_iff.mp last
  cases front with
  | nil =>
      simp only [cut, List.nil_append, List.head_cons] at notSpace
      exact absurd notSpace (by decide)
  | cons first before =>
      simp only [cut, List.cons_append, List.head_cons] at notSpace
      exact ⟨first, before, notSpace, cut⟩

/-- `str.strip()`. -/
def strip (l : List Char) : List Char := trim isSpace l

/-- A last line without whitespace keeps everything but its newline; what precedes it
loses only its leading whitespace. -/
theorem strip_append_line (noise : List Char) {l : List Char} (nonempty : l ≠ [])
    (h : ∀ c ∈ l, isSpace c = false) :
    strip (noise ++ l ++ ['\n']) = noise.dropWhile isSpace ++ l := by
  have kept : (noise ++ l ++ ['\n']).dropWhile isSpace =
      noise.dropWhile isSpace ++ l ++ ['\n'] := by
    obtain ⟨c, cs, rfl⟩ := List.exists_cons_of_ne_nil nonempty
    rw [List.append_assoc, List.dropWhile_append]
    split
    · rename_i empty
      rw [List.isEmpty_iff.mp empty, List.cons_append,
        List.dropWhile_cons_of_neg (by simp [h])]
      rfl
    · simp
  obtain ⟨front, last, rfl⟩ := (List.eq_nil_or_concat' l).resolve_left nonempty
  rw [strip, trim, kept, List.rdropWhile_concat_pos _ _ _ (by decide), ← List.append_assoc,
    List.rdropWhile_concat_neg _ _ _ (by simp [h])]

theorem strip_line {l : List Char} (nonempty : l ≠ []) (h : ∀ c ∈ l, isSpace c = false) :
    strip (l ++ ['\n']) = l := by
  simpa using strip_append_line [] nonempty h

end Python
