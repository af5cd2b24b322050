import NilAutotest.Autotest.Heap

/-!
# The largest total of a report

Lines other than rows are `Silent`: they contain no newline and contribute nothing. A row
contributes the grouped numeral of its total when that numeral shows a comma. So the
pipeline sorts the totals from one thousand on, and its only output line is the plain
numeral of the largest one; when there is none it prints nothing and `int` fails.
-/

namespace Autotest

open Text Posix Python Massif

/-- A line that is printed whole and is not kept. -/
def Silent (l : List Char) : Prop := '\n' ∉ l ∧ Quiet l

theorem Silent.of_forall {l : List Char} (h : ∀ c ∈ l, c ≠ ',' ∧ c ≠ '\n') : Silent l :=
  ⟨fun newline => (h _ newline).2 rfl, .of_not_mem fun comma => (h _ comma).1 rfl⟩

/-- A fixed text followed by a plain number. -/
theorem Silent.numbered {text : List Char} (n : Nat)
    (h : ∀ c ∈ text, c ≠ ',' ∧ c ≠ '\n') : Silent (text ++ digits n) := by
  apply Silent.of_forall
  intro c hc
  obtain hc | hc := List.mem_append.mp hc
  · exact h c hc
  · constructor <;> rintro rfl <;> exact not_mem_digits rfl hc

theorem silent_commandLine (r : Report) : Silent r.commandLine := by
  have words : ∀ tool : Tool, ∀ word ∈ tool.heapCommand, ∀ c ∈ word.toList,
      c ≠ ',' ∧ c ≠ '\n' := by
    intro tool word hw
    refine forall_mem_of_all (P := fun c => c ≠ ',' ∧ c ≠ '\n') ?_
    revert word
    cases tool <;> decide
  have label : ∀ c ∈ "Command:           ".toList, c ≠ ',' ∧ c ≠ '\n' :=
    forall_mem_of_all (by decide)
  refine .of_forall (List.forall_mem_append.mpr ⟨label, fun c hc => ?_⟩)
  obtain ⟨word, hw, hc⟩ := List.mem_flatMap.mp hc
  obtain rfl | hc := List.mem_cons.mp hc
  · decide
  · exact words r.tool word hw c hc

/-- The list of detailed snapshots opens with a bracket, which hides its commas. -/
theorem quiet_detailed (l : List Char) : Quiet (" Detailed snapshots: ".toList ++ '[' :: l) := by
  obtain ⟨w, others, eq, _⟩ := fields_cons (c := '[') rfl l
  have words := harmless_words "Detailed".toList "snapshots:".toList
    (b := ' ') (d := ' ') rfl rfl ⟨by decide, forall_mem_of_all (by decide)⟩
    ⟨by decide, forall_mem_of_all (by decide)⟩ (by decide) (by decide) ⟨others, eq⟩
    (not_selects_cons rfl (by decide))
  exact (words.blank (b := ' ') rfl).quiet

theorem newline_not_mem_detailedNumbers (snapshots : List Snapshot) :
    '\n' ∉ detailedNumbers snapshots := by
  suffices whole : ∀ c ∈ detailedNumbers snapshots, c ≠ '\n' from fun h => whole _ h rfl
  rw [detailedNumbers, List.forall_mem_append]
  refine ⟨forall_mem_intercalate (forall_mem_of_all (by decide)) fun piece hp => ?_,
    forall_mem_of_all (by decide)⟩
  obtain ⟨s, _, rfl⟩ := List.mem_map.mp hp
  rw [List.forall_mem_append]
  constructor
  · rintro c hc rfl
    exact not_mem_digits rfl hc
  · cases s.peak <;> exact forall_mem_of_all (by decide)

theorem silent_dashes : Silent dashes :=
  .of_forall fun c hc => by
    rw [List.eq_of_mem_replicate hc]
    decide

theorem silent_header (r : Report) : ∀ l ∈ r.header, Silent l := by
  have empty : Silent [] := .of_forall (by simp)
  have arguments : Silent "Massif arguments:   (none)".toList :=
    .of_forall (forall_mem_of_all (by decide))
  have detailed :
      Silent (" Detailed snapshots: ".toList ++ '[' :: detailedNumbers r.snapshots) := by
    refine ⟨?_, quiet_detailed _⟩
    have texts : '\n' ∉ " Detailed snapshots: ".toList := by decide
    simp only [List.mem_append, List.mem_cons, texts, newline_not_mem_detailedNumbers]
    decide
  have process : Silent ("ms_print arguments: massif.out.".toList ++ digits r.pid) :=
    .numbered _ (forall_mem_of_all (by decide))
  have count : Silent ("Number of snapshots: ".toList ++ digits r.snapshots.length) :=
    .numbered _ (forall_mem_of_all (by decide))
  simp only [Report.header, List.forall_mem_append, List.forall_mem_cons, silent_dashes, empty,
    arguments, detailed, process, count, silent_commandLine, true_and, and_true,
    List.not_mem_nil, false_implies, implies_true]
  intro l hl
  obtain ⟨line, _, rfl⟩ := List.mem_map.mp hl
  exact .of_forall line.2

theorem silent_heading : ∀ l ∈ heading, Silent l := by
  simp only [heading, List.forall_mem_cons, silent_dashes, true_and]
  exact ⟨.of_forall (forall_mem_of_all (by decide)), by simp⟩

theorem newline_ne_of_isBlank {c : Char} (h : isBlank c) : c ≠ '\n' := by
  rintro rfl
  simp [isBlank] at h

theorem newline_not_mem_share {percent : List Char} (h : ∀ c ∈ percent, c.isDigit ∨ c = '.')
    (bytes : Nat) : '\n' ∉ share percent bytes := by
  have inPercent : '\n' ∉ percent := fun hc => by simpa using h _ hc
  have inBytes : '\n' ∉ grouped bytes := fun hc => by simpa using mem_grouped hc
  simp [share, inPercent, inBytes]

theorem silent_treeLine (line : TreeLine) : Silent line.render := by
  refine ⟨?_, (harmless_treeLine line).quiet⟩
  have indentation : '\n' ∉ line.indentation.1 := fun hc => by
    simpa [isBlank] using line.indentation.2 _ hc
  have body : '\n' ∉ line.body.render := by
    cases line.body with
    | site percent bytes address text =>
        have inAddress : '\n' ∉ address.1 := fun hc => by
          simpa [Char.isHexDigit] using address.2 _ hc
        have inText : '\n' ∉ text.1 := fun hc => text.2 _ hc rfl
        simp [TreeBody.render, newline_not_mem_share percent.2, inAddress, inText]
    | places percent bytes count text =>
        have inText : '\n' ∉ text.1 := fun hc => text.2 _ hc rfl
        have inCount : '\n' ∉ digits count := not_mem_digits rfl
        simp [TreeBody.render, newline_not_mem_share percent.2, inText, inCount]
    | root percent bytes text =>
        have inText : '\n' ∉ text.1 := fun hc => text.2 _ hc rfl
        simp [TreeBody.render, newline_not_mem_share percent.2, inText]
    | connector => simp [TreeBody.render]
  simp [TreeLine.render, indentation, body]

/-- The blanks after a column end its field. -/
theorem fields_word_gap {w : List Char} (nonempty : w ≠ []) (hw : ∀ c ∈ w, isBlank c = false)
    (gap : Gap) (rest : List Char) : fields (w ++ gap.chars ++ rest) = w :: fields rest := by
  obtain ⟨b, bs, eq⟩ := List.exists_cons_of_ne_nil gap.nonempty
  have blank := gap.blank
  rw [eq, List.forall_mem_cons] at blank
  rw [eq, List.append_assoc, List.cons_append, fields_word_blank nonempty hw blank.1,
    fields_blanks_append blank.2]

/-- The third column of a row is the total. -/
theorem field_row (s : Snapshot) : field 3 s.row = grouped s.total := by
  have column := fun (n : Nat) =>
    fields_word_gap (grouped_ne_nil n) fun _ => isBlank_of_mem_grouped
  rw [Snapshot.row]
  simp only [List.append_assoc]
  rw [field, fields_blanks_append s.margin.2, ← List.append_assoc (digits s.number),
    fields_word_gap (digits_ne_nil _) (fun _ => isBlank_of_mem_digits),
    ← List.append_assoc (grouped s.time), column, ← List.append_assoc (grouped s.total), column]
  rfl

theorem newline_not_mem_row (s : Snapshot) : '\n' ∉ s.row := by
  have margin : '\n' ∉ s.margin.1 := fun hc => newline_ne_of_isBlank (s.margin.2 _ hc) rfl
  have gap : ∀ i, '\n' ∉ (s.gap i).chars := fun i hc =>
    newline_ne_of_isBlank ((s.gap i).blank _ hc) rfl
  have number : '\n' ∉ digits s.number := not_mem_digits rfl
  have column : ∀ n, '\n' ∉ grouped n := fun n hc => by simpa using mem_grouped hc
  simp [Snapshot.row, margin, gap, number, column]

/-- A report prints no newline inside a line. -/
theorem unbroken_report (r : Report) : Unbroken r.lines := by
  rw [Report.lines, unbroken_append]
  refine ⟨fun l hl => (silent_header r l hl).1, fun l hl => ?_⟩
  obtain ⟨s, _, hl⟩ := List.mem_flatMap.mp hl
  obtain hl | hl := List.mem_append.mp hl
  · cases headed : s.headed with
    | false => simp [headed] at hl
    | true => exact (silent_heading l (by simpa [headed] using hl)).1
  · obtain rfl | hl := List.mem_cons.mp hl
    · exact newline_not_mem_row s
    · obtain ⟨line, _, rfl⟩ := List.mem_map.mp hl
      exact (silent_treeLine line).1

/-- What a snapshot contributes is its total, if that total shows a comma. -/
theorem kept_snapshot (s : Snapshot) :
    kept s.lines = if 1000 ≤ s.total then [grouped s.total] else [] := by
  have above : kept (if s.headed then heading else []) = [] := by
    apply kept_eq_nil
    intro l hl
    split at hl
    · exact (silent_heading l hl).2
    · simp at hl
  have below : kept (s.tree.map TreeLine.render) = [] := by
    apply kept_eq_nil
    intro l hl
    obtain ⟨line, _, rfl⟩ := List.mem_map.mp hl
    exact (silent_treeLine line).2
  rw [Snapshot.lines, kept_append, above, List.nil_append, ← List.singleton_append, kept_append,
    below, List.append_nil, kept, List.map_singleton, field_row]
  simp only [List.filter_cons, List.filter_nil, selects_grouped]

/-- The totals from one thousand on, in the order of the snapshots. -/
theorem kept_report (r : Report) :
    kept r.lines = (r.totals.filter (1000 ≤ ·)).map grouped := by
  have header : kept r.header = [] := kept_eq_nil fun l hl => (silent_header r l hl).2
  rw [Report.lines, kept_append, header, List.nil_append, Report.totals]
  induction r.snapshots with
  | nil => rfl
  | cons s snapshots ih =>
      rw [List.flatMap_cons, kept_append, kept_snapshot, ih, List.map_cons]
      by_cases large : 1000 ≤ s.total
      · simp [large]
      · simp [large]

/-- The pipeline prints the plain numeral of the largest total from one thousand on. -/
theorem peakPipeline_render (r : Report) :
    peakPipeline r.render = if 1000 ≤ r.peak then digits r.peak ++ ['\n'] else [] := by
  have printed : (kept (lines r.render)).map (List.filter (· ≠ ',')) =
      (r.totals.filter (1000 ≤ ·)).map digits := by
    rw [Report.render, lines_unlines (unbroken_report r), kept_report, List.map_map]
    exact List.map_congr_left fun n _ => filter_grouped n
  rw [peakPipeline_eq, printed]
  cases last : (sortNumeric.onLines ((r.totals.filter (1000 ≤ ·)).map digits)).getLast? with
  | none =>
      have small : ∀ t ∈ r.totals, t < 1000 := by
        simpa using getLast?_sortNumeric_eq_none.mp last
      have low := Report.peak_lt (by decide) small
      rw [if_neg (by omega)]
      rfl
  | some m =>
      obtain ⟨member, largest⟩ := getLast?_sortNumeric last
      obtain ⟨p, hp, rfl⟩ := List.mem_map.mp member
      rw [List.mem_filter, decide_eq_true_eq] at hp
      have key : ∀ n : Nat, numericKey (digits n) = n := fun n => by
        rw [numericKey_digits fun _ => isDigit_of_mem_digits, Nat.ofDigitChars_ten_toDigits]
      have bound : ∀ t ∈ r.totals, t ≤ p := by
        intro t ht
        by_cases large : 1000 ≤ t
        · have := largest (digits t) (List.mem_map_of_mem (by simp [ht, large]))
          rw [key, key] at this
          exact_mod_cast this
        · omega
      rw [Report.peak_eq hp.1 bound, if_pos hp.2]
      simp

/-- The extraction in terms of the peak of the report. -/
theorem extractMaxHeapUsage_eq (r : Report) :
    extractMaxHeapUsage (some r) =
      if 1000 ≤ r.peak then .ok (r.peak : Int) else .error .valueError := by
  rw [extractMaxHeapUsage, msPrint, peakPipeline_render]
  split
  · have digit : ∀ c ∈ digits r.peak, c.isDigit := fun _ => isDigit_of_mem_digits
    have noReturn : '\r' ∉ digits r.peak ++ ['\n'] := by
      simpa using not_mem_digits (n := r.peak) (c := '\r') rfl
    rw [universalNewlines_eq_self noReturn,
      strip_line (digits_ne_nil _) fun c hc => isSpace_of_isDigit (digit c hc),
      int_digits (digits_ne_nil _) digit, Nat.ofDigitChars_ten_toDigits]
  · rfl

/-- The extracted peak is the largest total of the report, from one thousand on; below that
no row is recognized and the conversion fails. -/
theorem extractMaxHeapUsage_largest (r : Report) :
    (∀ p ∈ r.totals, (∀ t ∈ r.totals, t ≤ p) → 1000 ≤ p →
      extractMaxHeapUsage (some r) = .ok p) ∧
    ((∀ t ∈ r.totals, t < 1000) → extractMaxHeapUsage (some r) = .error .valueError) := by
  rw [extractMaxHeapUsage_eq]
  constructor
  · intro p member largest recognized
    rw [Report.peak_eq member largest, if_pos recognized]
  · intro small
    have below := Report.peak_lt (by decide) small
    rw [if_neg (by omega)]

theorem extractMaxHeapUsage_largest_second :
    extractMaxHeapUsage (some ⟨.assigner, 7, [],
      [.plain 0 0 0, .plain 1 20000 1234567, .plain 2 35000 98304]⟩) = .ok 1234567 :=
  (extractMaxHeapUsage_largest _).1 1234567 (by decide) (by decide) (by decide)

end Autotest
