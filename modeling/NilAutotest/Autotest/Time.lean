import NilAutotest.Posix.Filters
import NilAutotest.Posix.Pattern
import NilAutotest.Python.Number
import Mathlib.Tactic.Linarith

/-!
# The measured time

`measureTime` reads the report of `time` out of one stream that the measured command also
writes to. Every line with the word `real` leaves its second field in the text that is
parsed, and the report's own line is the last of them.

The numeral of the report survives to the end of the parsed text. Either nothing visible
stands before it, and it is read exactly; or a line break separates it from something
visible, and then the text does not split into two parts at `m` or its first part is not
an integer.
-/

namespace Autotest

open Text Posix Python

/-- A time as `time` prints it. -/
structure BashTime where
  minutes : Nat
  seconds : Nat
  millis : Nat
  seconds_lt : seconds < 60
  millis_lt : millis < 1000

/-- The whole time in milliseconds. -/
def BashTime.milliseconds (t : BashTime) : Nat :=
  60000 * t.minutes + 1000 * t.seconds + t.millis

/-- The time without its final `s`. -/
def BashTime.body (t : BashTime) : List Char :=
  digits t.minutes ++ 'm' :: (digits t.seconds ++ '.' :: padded 3 t.millis)

/-- `<m>m<s>.<ttt>s`. -/
def BashTime.render (t : BashTime) : List Char := t.body ++ ['s']

/-- The times that `time` reports for a command. -/
structure TimeReport where
  real : BashTime
  user : BashTime
  sys : BashTime

def TimeReport.lines (r : TimeReport) : List (List Char) :=
  ["real\t".toList ++ r.real.render, "user\t".toList ++ r.user.render,
    "sys\t".toList ++ r.sys.render]

/-- An empty line, which also ends an unfinished line of the command, and the three times. -/
def TimeReport.render (r : TimeReport) : List Char := '\n' :: unlines r.lines

/-- The pattern `real`. -/
def realWord : Pattern := .literal "real"

/-- `minutes, seconds = time_string[:-1].split("m")`, and the time in milliseconds. -/
def parseTime (timeString : List Char) : Except Exception FloatValue :=
  match timeString.dropLast.splitOn 'm' with
  | [minutes, seconds] => do
      let minutes ← int minutes
      let seconds ← float seconds
      pure (seconds.map fun seconds => (minutes * 60 + seconds) * 1000)
  | _ => .error .valueError

/-- The stream is what `bash -c 'time ...' 2>&1` prints. -/
def measureTime (stream : List Char) : Except Exception Int := do
  let time := strip (universalNewlines ((awkPrint 2).run ((grep realWord).run stream)))
  let time ← parseTime time
  time.toInt

theorem BashTime.mem_render {t : BashTime} {c : Char} (h : c ∈ t.render) :
    c.isDigit ∨ c = 'm' ∨ c = '.' ∨ c = 's' := by
  simp only [render, body, List.mem_append, List.mem_cons, List.not_mem_nil, or_false] at h
  obtain (h | rfl | h | rfl | h) | rfl := h
  · exact .inl (isDigit_of_mem_digits h)
  · simp
  · exact .inl (isDigit_of_mem_digits h)
  · simp
  · exact .inl (isDigit_of_mem_padded h)
  · simp

theorem BashTime.not_mem_render {t : BashTime} {c : Char}
    (h : ¬(c.isDigit ∨ c = 'm' ∨ c = '.' ∨ c = 's')) : c ∉ t.render :=
  fun hc => h (mem_render hc)

theorem BashTime.isSpace_of_mem_render {t : BashTime} {c : Char} (h : c ∈ t.render) :
    isSpace c = false := by
  obtain digit | rfl | rfl | rfl := mem_render h
  · exact isSpace_of_isDigit digit
  · rfl
  · rfl
  · rfl

theorem BashTime.render_ne_nil (t : BashTime) : t.render ≠ [] := by simp [render]

theorem BashTime.head?_render (t : BashTime) (rest : List Char) :
    (t.render ++ rest).head? ≠ some '\n' := by
  intro h
  rw [List.head?_append_of_ne_nil _ t.render_ne_nil] at h
  exact absurd (isSpace_of_mem_render (List.mem_of_mem_head? h)) (by decide)

theorem TimeReport.unbroken_lines (r : TimeReport) : Unbroken r.lines := by
  have time : ∀ t : BashTime, '\n' ∉ t.render := fun t => BashTime.not_mem_render (by decide)
  simp [lines, time]

/-- Of the report's lines only the first contains the word. -/
theorem TimeReport.filter_lines (r : TimeReport) :
    r.lines.filter realWord.selects = ["real\t".toList ++ r.real.render] := by
  have own : realWord.selects ("real\t".toList ++ r.real.render) :=
    selects_literal.mpr ⟨[], '\t' :: r.real.render, rfl⟩
  have other : ∀ (name : List Char) (t : BashTime), 'a' ∉ name →
      realWord.selects (name ++ t.render) = false := by
    intro name t absent
    rw [Bool.eq_false_iff, ne_eq, realWord, selects_literal]
    intro inside
    have member := inside.subset (show 'a' ∈ "real".toList by decide)
    exact (List.mem_append.mp member).elim absent (BashTime.not_mem_render (by decide))
  rw [lines, List.filter_cons_of_pos own, List.filter_cons_of_neg, List.filter_cons_of_neg,
    List.filter_nil]
  · rw [other _ _ (by decide)]
    decide
  · rw [other _ _ (by decide)]
    decide

theorem TimeReport.field_real (r : TimeReport) :
    field 2 ("real\t".toList ++ r.real.render) = r.real.render := by
  have word : ∀ c ∈ r.real.render, isBlank c = false := by
    intro c hc
    obtain digit | rfl | rfl | rfl := BashTime.mem_render hc
    · rw [isBlank, Bool.or_eq_false_iff]
      constructor <;> rw [beq_eq_false_iff_ne] <;> rintro rfl <;> simp at digit
    · rfl
    · rfl
    · rfl
  have named := fields_word_blank (w := "real".toList) (b := '\t') (by decide)
    (forall_mem_of_all (by decide)) rfl r.real.render
  rw [fields_word r.real.render_ne_nil word] at named
  exact congrArg (List.getD · 1 []) named

/-- The second fields of the lines of the command's own output that contain the word. -/
def interference (out : List Char) : List (List Char) :=
  ((lines (out ++ ['\n'])).filter realWord.selects).map (field 2)

/-- What reaches the parser: the interfering fields and, last, the reported time. -/
theorem pipeline_report (out : List Char) (r : TimeReport) :
    (awkPrint 2).run ((grep realWord).run (out ++ r.render)) =
      unlines (interference out) ++ (r.real.render ++ ['\n']) := by
  have split : lines (out ++ r.render) = lines (out ++ ['\n']) ++ r.lines := by
    rw [TimeReport.render, lines_append_newline, lines_unlines r.unbroken_lines, lines_newline]
  have printed : ((grep realWord).pipe (awkPrint 2)).run (out ++ r.render) =
      unlines (((lines (out ++ r.render)).filter realWord.selects).map (field 2)) := rfl
  rw [← LineFilter.run_pipe, printed, split, List.filter_append, List.map_append,
    r.filter_lines, List.map_singleton, r.field_real, unlines_append, interference, unlines_cons,
    unlines_nil]

/-- The visible part of the interference. -/
def noise (out : List Char) : List Char :=
  (universalNewlines (unlines (interference out))).dropWhile isSpace

theorem strip_report (out : List Char) (r : TimeReport) :
    strip (universalNewlines ((awkPrint 2).run ((grep realWord).run (out ++ r.render)))) =
      noise out ++ r.real.render := by
  have noReturn : '\r' ∉ r.real.render ++ ['\n'] := by
    simpa using BashTime.not_mem_render (t := r.real) (c := '\r') (by decide)
  rw [pipeline_report, universalNewlines_append _ (r.real.head?_render _),
    universalNewlines_eq_self noReturn, ← List.append_assoc,
    strip_append_line _ r.real.render_ne_nil fun _ => BashTime.isSpace_of_mem_render, noise]

theorem parseTime_body (t : BashTime) :
    parseTime t.render = .ok (.finite (t.milliseconds : Int)) := by
  have secondsDigits : ∀ c ∈ digits t.seconds, c.isDigit := fun _ => isDigit_of_mem_digits
  have noSeparator : 'm' ∉ digits t.minutes := not_mem_digits rfl
  have noSeparator' : 'm' ∉ digits t.seconds ++ '.' :: padded 3 t.millis := by
    have inPadded : 'm' ∉ padded 3 t.millis := fun h => by simpa using isDigit_of_mem_padded h
    have inSeconds : 'm' ∉ digits t.seconds := not_mem_digits rfl
    simp [inPadded, inSeconds]
  have split : t.render.dropLast.splitOn 'm' =
      [digits t.minutes, digits t.seconds ++ '.' :: padded 3 t.millis] := by
    rw [BashTime.render, List.dropLast_concat, BashTime.body,
      List.splitOn_append_cons_self_of_not_mem noSeparator, List.splitOn_eq_singleton noSeparator']
  have minutes : int (digits t.minutes) = .ok (t.minutes : Int) := by
    rw [int_digits (digits_ne_nil _) fun _ => isDigit_of_mem_digits,
      Nat.ofDigitChars_ten_toDigits]
  have seconds : float (digits t.seconds ++ '.' :: padded 3 t.millis) =
      .ok (.finite (t.seconds + t.millis / 1000)) := by
    rw [float_decimal (digits_ne_nil _) (padded_ne_nil _ _) secondsDigits
      fun _ => isDigit_of_mem_padded, length_padded (by decide) (by simpa using t.millis_lt),
      Nat.ofDigitChars_ten_toDigits, ofDigitChars_padded]
    norm_num
  rw [parseTime, split]
  simp only [minutes, seconds, bind, Except.bind, pure, Except.pure, FloatValue.map,
    BashTime.milliseconds]
  push_cast
  congr 2
  ring

/-- Visible interference never leaves a time in front of the report. -/
theorem parseTime_noise {first : Char} {before : List Char} (h : isSpace first = false)
    (t : BashTime) : parseTime (first :: before ++ ['\n'] ++ t.render) = .error .valueError := by
  have shape : (first :: before ++ ['\n'] ++ t.render).dropLast =
      (first :: before ++ '\n' :: digits t.minutes) ++
        'm' :: (digits t.seconds ++ '.' :: padded 3 t.millis) := by
    rw [BashTime.render, BashTime.body, ← List.append_assoc, List.dropLast_concat]
    simp
  rw [parseTime, shape, List.splitOn_append_cons_self]
  obtain ⟨piece, pieces, left⟩ := List.exists_cons_of_ne_nil
    (List.splitOn_ne_nil (a := 'm') (first :: before ++ '\n' :: digits t.minutes))
  obtain ⟨piece', pieces', right⟩ := List.exists_cons_of_ne_nil
    (List.splitOn_ne_nil (a := 'm') (digits t.seconds ++ '.' :: padded 3 t.millis))
  rw [left, right]
  cases pieces with
  | cons second pieces => cases pieces <;> rfl
  | nil =>
      -- The first part holds the line break.
      have whole : piece = first :: before ++ '\n' :: digits t.minutes := by
        have joined :
            ['m'].intercalate ((first :: before ++ '\n' :: digits t.minutes).splitOn 'm') =
              first :: before ++ '\n' :: digits t.minutes :=
          List.intercalate_splitOn 'm'
        rw [left] at joined
        simpa using joined
      obtain ⟨after, last, eq⟩ := (List.eq_nil_or_concat' (digits t.minutes)).resolve_left
        (digits_ne_nil _)
      have lastDigit : isSpace last = false :=
        isSpace_of_isDigit (isDigit_of_mem_digits (n := t.minutes) (by simp [eq]))
      cases pieces' with
      | cons => rfl
      | nil =>
          show (int piece).bind _ = _
          rw [whole, eq, int_newline h lastDigit]
          rfl

/-- The interference of a command is a sequence of whole lines. -/
theorem noise_shape {out : List Char} (h : noise out ≠ []) :
    ∃ first before, isSpace first = false ∧ noise out = first :: before ++ ['\n'] := by
  refine dropWhile_isSpace_shape ?_ h
  obtain empty | ⟨ls, l, eq⟩ := List.eq_nil_or_concat' (interference out)
  · exact .inl (by simp [empty, universalNewlines])
  · right
    rw [eq, unlines_append, unlines_cons, unlines_nil, ← List.append_assoc]
    exact getLast?_universalNewlines _

/-- The measurement fails exactly when the command's own lines with the word show anything
in their second field. -/
theorem measureTime_eq (out : List Char) (r : TimeReport) :
    measureTime (out ++ r.render) =
      if noise out = [] then .ok (r.real.milliseconds : Int) else .error .valueError := by
  simp only [measureTime, strip_report]
  split
  · rename_i invisible
    rw [invisible, List.nil_append, parseTime_body]
    exact FloatValue.toInt_intCast _
  · rename_i visible
    obtain ⟨first, before, notSpace, eq⟩ := noise_shape visible
    rw [eq, parseTime_noise notSpace]
    rfl

theorem noise_eq_nil {out : List Char} (h : ∀ l ∈ lines out, ¬"real".toList <:+: l) :
    noise out = [] := by
  have quiet : (lines (out ++ ['\n'])).filter realWord.selects = [] := by
    rw [List.filter_eq_nil_iff]
    intro l hl selected
    rw [realWord, selects_literal] at selected
    obtain own | rfl := mem_lines_of_mem_newline hl
    · exact h l own selected
    · exact absurd (List.eq_nil_of_infix_nil selected) (by decide)
  simp [noise, interference, quiet, universalNewlines]

/-- Whatever the command prints, its time is measured exactly or not at all; and it is
measured when the command prints no line with the word `real`. -/
theorem measureTime_exact (out : List Char) (r : TimeReport) :
    ((∃ e, measureTime (out ++ r.render) = .error e) ∨
      measureTime (out ++ r.render) =
        .ok (60000 * r.real.minutes + 1000 * r.real.seconds + r.real.millis)) ∧
    ((∀ l ∈ lines out, ¬"real".toList <:+: l) →
      measureTime (out ++ r.render) =
        .ok (60000 * r.real.minutes + 1000 * r.real.seconds + r.real.millis)) := by
  have exact : (r.real.milliseconds : Int) =
      60000 * r.real.minutes + 1000 * r.real.seconds + r.real.millis := by
    simp [BashTime.milliseconds]
  rw [measureTime_eq, ← exact]
  refine ⟨?_, fun h => if_pos (noise_eq_nil h)⟩
  split
  · exact .inr rfl
  · exact .inl ⟨_, rfl⟩

theorem measureTime_exact_started :
    measureTime ("started\nnot done".toList ++
      TimeReport.render ⟨⟨0, 0, 250, by decide, by decide⟩, ⟨0, 0, 4, by decide, by decide⟩,
        ⟨0, 0, 0, by decide, by decide⟩⟩) = .ok 250 :=
  (measureTime_exact _ _).2 (by decide)

end Autotest
