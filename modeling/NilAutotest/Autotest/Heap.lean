import NilAutotest.Autotest.Massif
import NilAutotest.Posix.Pattern
import NilAutotest.Python.Number

/-!
# The measured peak of the heap

`extractMaxHeapUsage` never parses the massif table. It takes the third field of every
line of the report, keeps the fields that start with digits and a comma, deletes the
commas, and returns the last line of a numeric sort.

A line is `Quiet` when its third field is not kept. Every line of a report other than a
row of the table is quiet, whatever its text and its depth in a tree, and the row of a
snapshot is kept exactly when its total reaches one thousand.
-/

namespace Autotest

open Text Posix Python Massif

/-- The pattern `^[0-9]*,`. -/
def digitsThenComma : Pattern := ⟨true, [.star Char.isDigit, .char ',']⟩

/-- The standard output of `ms_print` on a file; a missing file is only reported on the
standard error. -/
def msPrint : Option Report → List Char
  | some report => report.render
  | none => []

/-- The shell pipeline over the output of `ms_print`. -/
def peakPipeline (t : List Char) : List Char :=
  tailLast.run (sortNumeric.run (trDelete ',' ((grep digitsThenComma).run ((awkPrint 3).run t))))

def extractMaxHeapUsage (massifFile : Option Report) : Except Exception Int :=
  let peakHeap := strip (universalNewlines (peakPipeline (msPrint massifFile)))
  int peakHeap

/-- The third fields that the pattern selects, in the order of the lines. -/
def kept (ls : List (List Char)) : List (List Char) :=
  (ls.map (field 3)).filter digitsThenComma.selects

@[simp] theorem kept_append (ls ms : List (List Char)) : kept (ls ++ ms) = kept ls ++ kept ms := by
  simp [kept]

/-- The pipeline computed on lines: one output line at most. -/
theorem peakPipeline_eq (t : List Char) :
    peakPipeline t = unlines (sortNumeric.onLines
      ((kept (lines t)).map (List.filter (· ≠ ',')))).getLast?.toList := by
  rw [peakPipeline, ← LineFilter.run_pipe, trDelete_run (by decide), ← LineFilter.run_pipe,
    ← LineFilter.run_pipe]
  rfl

theorem not_selects_of_not_mem {w : List Char} (h : ',' ∉ w) :
    digitsThenComma.selects w = false := by
  rw [Bool.eq_false_iff, ne_eq, digitsThenComma, selects_anchored_star_char]
  rintro ⟨a, b, rfl, _⟩
  simp at h

theorem not_selects_cons {c : Char} {w : List Char} (digit : c.isDigit = false)
    (comma : c ≠ ',') : digitsThenComma.selects (c :: w) = false := by
  rw [Bool.eq_false_iff, ne_eq, digitsThenComma, selects_anchored_star_char]
  rintro ⟨a, b, eq, ha⟩
  cases a with
  | nil => exact comma (List.cons.inj eq).1
  | cons x a =>
      rw [← (List.cons.inj eq).1, List.forall_mem_cons, digit] at ha
      exact absurd ha.1 (by simp)

/-- A grouped number is selected exactly when it shows a comma. -/
theorem selects_grouped (n : Nat) : digitsThenComma.selects (grouped n) ↔ 1000 ≤ n := by
  rw [← comma_mem_grouped_iff]
  constructor
  · intro h
    by_contra absent
    rw [not_selects_of_not_mem absent] at h
    exact absurd h (by simp)
  · intro h
    obtain ⟨a, b, cut, first⟩ := List.eq_append_cons_of_mem h
    refine selects_anchored_star_char.mpr ⟨a, b, cut, fun c hc => ?_⟩
    have member : c ∈ grouped n := by
      rw [cut]
      exact List.mem_append_left _ hc
    exact (mem_grouped member).resolve_right fun eq => first (eq ▸ hc)

/-- The third field of the line is not kept. -/
def Quiet (l : List Char) : Prop := digitsThenComma.selects (field 3 l) = false

theorem Quiet.of_not_mem {l : List Char} (h : ',' ∉ l) : Quiet l :=
  not_selects_of_not_mem fun comma => h (mem_of_mem_field comma)

theorem kept_eq_nil {ls : List (List Char)} (h : ∀ l ∈ ls, Quiet l) : kept ls = [] := by
  rw [kept, List.filter_eq_nil_iff]
  intro w hw
  obtain ⟨l, hl, rfl⟩ := List.mem_map.mp hw
  have quiet : digitsThenComma.selects (field 3 l) = false := h l hl
  simp [quiet]

/-- None of the first three fields could be kept. Putting a bar or a blank in front of
such a line moves the fields to the right but never brings a number to the third place. -/
def Harmless (l : List Char) : Prop :=
  ∀ w ∈ (fields l).take 3, digitsThenComma.selects w = false

theorem Harmless.quiet {l : List Char} (h : Harmless l) : Quiet l := by
  by_cases bound : 2 < (fields l).length
  · apply h
    rw [field, List.getD_eq_getElem _ _ bound]
    exact List.mem_take_iff_getElem.mpr ⟨2, by omega, rfl⟩
  · rw [Quiet, field, List.getD_eq_default _ _ (by omega)]
    rfl

theorem Harmless.blank {b : Char} {l : List Char} (hb : isBlank b) (h : Harmless l) :
    Harmless (b :: l) := by
  rw [Harmless, fields_blank_cons hb]
  exact h

theorem Harmless.bar {l : List Char} (h : Harmless l) : Harmless ('|' :: l) := by
  obtain ⟨w, rest, eq, shape⟩ := fields_cons (c := '|') rfl l
  intro v hv
  rw [eq, List.take_succ_cons] at hv
  obtain rfl | hv := List.mem_cons.mp hv
  · exact not_selects_cons rfl (by decide)
  · apply h
    obtain same | longer := shape
    · rw [same]
      exact (List.take_sublist_take_left (by decide)).subset hv
    · rw [longer, List.take_succ_cons]
      exact List.mem_cons_of_mem _ hv

theorem Harmless.indent {indentation l : List Char}
    (bars : ∀ c ∈ indentation, c = '|' ∨ isBlank c) (h : Harmless l) :
    Harmless (indentation ++ l) := by
  induction indentation with
  | nil => exact h
  | cons c indentation ih =>
      rw [List.forall_mem_cons] at bars
      obtain rfl | blank := bars.1
      · exact (ih bars.2).bar
      · exact (ih bars.2).blank blank

/-- A line of three words, none of which could be kept, and anything after them. -/
theorem harmless_words (first second : List Char) {third rest : List Char} {b d : Char}
    (hb : isBlank b) (hd : isBlank d)
    (hfirst : first ≠ [] ∧ ∀ c ∈ first, isBlank c = false)
    (hsecond : second ≠ [] ∧ ∀ c ∈ second, isBlank c = false)
    (q₁ : digitsThenComma.selects first = false) (q₂ : digitsThenComma.selects second = false)
    (hthird : ∃ others, fields rest = third :: others)
    (q₃ : digitsThenComma.selects third = false) :
    Harmless (first ++ b :: (second ++ d :: rest)) := by
  obtain ⟨others, eq⟩ := hthird
  intro w hw
  rw [fields_word_blank hfirst.1 hfirst.2 hb, fields_word_blank hsecond.1 hsecond.2 hd, eq] at hw
  simp only [List.take_succ_cons, List.take_zero, List.mem_cons, List.not_mem_nil, or_false] at hw
  obtain rfl | rfl | rfl := hw
  · exact q₁
  · exact q₂
  · exact q₃

theorem isBlank_of_isDigit {c : Char} (h : c.isDigit) : isBlank c = false := by
  rw [isBlank, Bool.or_eq_false_iff]
  constructor <;> rw [beq_eq_false_iff_ne] <;> rintro rfl <;> simp at h

theorem isBlank_of_mem_digits {n : Nat} {c : Char} (h : c ∈ digits n) : isBlank c = false :=
  isBlank_of_isDigit (isDigit_of_mem_digits h)

theorem isBlank_of_mem_grouped {n : Nat} {c : Char} (h : c ∈ grouped n) : isBlank c = false := by
  obtain digit | rfl := mem_grouped h
  · exact isBlank_of_isDigit digit
  · rfl

/-- `p% (bytesB)` after an arrow or none: the percentage shows no comma and the bytes
stand behind a parenthesis. -/
theorem harmless_share (lead : List Char) {percent rest third others} (bytes : Nat)
    (hlead : ∀ c ∈ lead, c = '-' ∨ c = '>')
    (hpercent : ∀ c ∈ percent, c.isDigit ∨ c = '.')
    (hrest : fields rest = third :: others) (quiet : digitsThenComma.selects third = false) :
    Harmless (lead ++ share percent bytes ++ rest) := by
  have shape : lead ++ share percent bytes ++ rest = (lead ++ percent ++ ['%']) ++
      ' ' :: (('(' :: grouped bytes ++ ['B', ')']) ++ ' ' :: rest) := by
    simp [share]
  have chars : ∀ c ∈ lead ++ percent ++ ['%'], isBlank c = false ∧ c ≠ ',' := by
    simp only [List.mem_append, List.mem_singleton]
    rintro c ((h | h) | rfl)
    · obtain rfl | rfl := hlead c h <;> exact ⟨rfl, by decide⟩
    · obtain digit | rfl := hpercent c h
      · exact ⟨isBlank_of_isDigit digit, by rintro rfl; simp at digit⟩
      · exact ⟨rfl, by decide⟩
    · exact ⟨rfl, by decide⟩
  rw [shape]
  refine harmless_words _ _ rfl rfl ⟨by simp, fun c hc => (chars c hc).1⟩ ⟨by simp, ?_⟩
    (not_selects_of_not_mem fun comma => (chars _ comma).2 rfl)
    (not_selects_cons rfl (by decide)) ⟨others, hrest⟩ quiet
  intro c hc
  simp only [List.mem_cons, List.mem_append, List.not_mem_nil, or_false] at hc
  obtain (rfl | hc) | rfl | rfl := hc
  · rfl
  · exact isBlank_of_mem_grouped hc
  · rfl
  · rfl

theorem isBlank_of_isHexDigit {c : Char} (h : Char.isHexDigit c) : isBlank c = false := by
  rw [isBlank, Bool.or_eq_false_iff]
  constructor <;> rw [beq_eq_false_iff_ne] <;> rintro rfl <;> simp [Char.isHexDigit] at h

/-- No line of an allocation tree brings a number to the third field. -/
theorem harmless_treeLine (line : TreeLine) : Harmless line.render := by
  refine Harmless.indent line.indentation.2 ?_
  cases line.body with
  | site percent bytes address text =>
      have word : fields ("0x".toList ++ address.1 ++ [':'] ++ ' ' :: text.1) =
          ("0x".toList ++ address.1 ++ [':']) :: fields text.1 := by
        refine fields_word_blank (by simp) (fun c hc => ?_) rfl _
        simp only [List.mem_append, List.mem_singleton] at hc
        obtain (hc | hc) | rfl := hc
        · exact forall_mem_of_all (P := fun c => isBlank c = false) (by decide) c hc
        · exact isBlank_of_isHexDigit (address.2 c hc)
        · rfl
      have quiet : digitsThenComma.selects ("0x".toList ++ address.1 ++ [':']) = false := by
        apply not_selects_of_not_mem
        intro comma
        simp only [List.mem_append, List.mem_singleton] at comma
        obtain (comma | comma) | comma := comma
        · revert comma
          decide
        · simpa [Char.isHexDigit] using address.2 _ comma
        · exact absurd comma (by decide)
      have h := harmless_share "->".toList bytes (forall_mem_of_all (by decide)) percent.2
        word quiet
      simpa only [TreeBody.render, List.append_assoc] using h
  | places percent bytes count text =>
      have word := fields_word_blank (w := "in".toList) (b := ' ') (by decide)
        (forall_mem_of_all (by decide)) rfl (digits count ++ " places, ".toList ++ text.1)
      have h := harmless_share "->".toList bytes (forall_mem_of_all (by decide)) percent.2
        word (by decide)
      simpa only [TreeBody.render, List.append_assoc, List.cons_append] using h
  | root percent bytes text =>
      obtain ⟨w, others, word, _⟩ := fields_cons (c := '(') rfl text.1
      exact harmless_share [] bytes (by simp) percent.2 word
        (not_selects_cons rfl (by decide))
  | connector => exact fun w hw => by simp [TreeBody.render] at hw

end Autotest
