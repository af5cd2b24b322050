import NilAutotest.Autotest.Suite
import NilAutotest.Control.Except

/-!
# What a passing test tells

A measurement leaves no massif file of its process behind and no other one changed, so every
test of a session has the verdict of its own run; only a heap test of a missing tool could
read a file that was there before under the same process identifier. A passing heap test had
a started tool with a recognized peak below the bound, and a passing verification saw the
line in the output of a started tool. No test looks at how the tool ended.
-/

namespace Autotest

open Text Posix Python Massif Control

/-- What a heap measurement of one run returns. -/
def heapOutcome (tool : Tool) (t : Trial) : Except Exception Int :=
  match t.behaviour with
  | .missing => .error .fileNotFoundError
  | .started e => extractMaxHeapUsage (some ⟨tool, t.pid, e.graph, e.snapshots⟩)

/-- Afterwards there is no massif file of the process, and the others are as before. A file that
was there before is overwritten by a started tool; for a missing tool, whose conversion fails
without one, it would be read. -/
theorem measureAndReportHeapUsage_spec (tool : Tool) (t : Trial) (files : Directory) :
    (measureAndReportHeapUsage tool t files).2 = Function.update files t.pid none ∧
      ((t.behaviour = .missing → files t.pid = none) →
        (measureAndReportHeapUsage tool t files).1 = heapOutcome tool t) := by
  cases behaviour : t.behaviour with
  | missing =>
      have measured : measureMemoryUsage tool t files = (.ok t.pid, files) := by
        simp [measureMemoryUsage, behaviour]
      cases stale : files t.pid with
      | none =>
          have removed : remove t.pid files = (.error .fileNotFoundError, files) := by
            simp [remove, stale]
          have ended : measureAndReportHeapUsage tool t files =
              (.error .fileNotFoundError, files) := by
            rw [measureAndReportHeapUsage, Action.bind_apply_ok measured]
            exact Action.tryFinally_error rfl removed
          rw [ended, heapOutcome, behaviour, ← stale, Function.update_eq_self]
          exact ⟨rfl, fun _ => rfl⟩
      | some report =>
          have removed : remove t.pid files = (.ok (), Function.update files t.pid none) := by
            simp [remove, stale]
          have ended : measureAndReportHeapUsage tool t files =
              (extractMaxHeapUsage (files t.pid), Function.update files t.pid none) := by
            rw [measureAndReportHeapUsage, Action.bind_apply_ok measured]
            exact Action.tryFinally_ok rfl removed
          rw [ended]
          exact ⟨rfl, fun fresh => absurd (fresh rfl) (Option.some_ne_none report)⟩
  | started e =>
      let report : Report := ⟨tool, t.pid, e.graph, e.snapshots⟩
      let written := Function.update files t.pid (some report)
      have measured : measureMemoryUsage tool t files = (.ok t.pid, written) := by
        simp [measureMemoryUsage, behaviour, written, report]
      have extracted : extractFrom t.pid written =
          (extractMaxHeapUsage (some report), written) := by
        simp [extractFrom, written]
      have removed : remove t.pid written = (.ok (), Function.update files t.pid none) := by
        simp [remove, written]
      have ended : measureAndReportHeapUsage tool t files =
          (extractMaxHeapUsage (some report), Function.update files t.pid none) := by
        rw [measureAndReportHeapUsage, Action.bind_apply_ok measured]
        exact Action.tryFinally_ok extracted removed
      have outcome : heapOutcome tool t = extractMaxHeapUsage (some report) := by
        simp only [heapOutcome, behaviour, report]
      simp [ended, outcome]

/-- The verdict of a test on one run of its tool. -/
def Test.verdict (test : Test) (t : Trial) : Except Exception Unit :=
  match test with
  | .assertAssignerHeap => heapOutcome .assigner t >>= testAssertAssignerHeap
  | .assertAssignerTime => assignerTime t >>= testAssertAssignerTime
  | .assertProofGeneratorHeap => heapOutcome .proofGenerator t >>= testAssertProofGeneratorHeap
  | .assertProofGeneratorTime => proofGeneratorTime t >>= testAssertProofGeneratorTime
  | .assertProofGeneratorVerified => testAssertProofGeneratorVerified (proofGeneratorVerify t)

/-- No massif file is there that a heap test of a missing tool would take for that of its own
process. -/
def Test.Fresh (files : Directory) : Test → Trial → Prop
  | .assertAssignerHeap, t => t.behaviour = .missing → files t.pid = none
  | .assertProofGeneratorHeap, t => t.behaviour = .missing → files t.pid = none
  | _, _ => True

theorem Test.run_eq {test : Test} {t : Trial} {files : Directory}
    (fresh : Test.Fresh files test t) : (test.run t files).1 = test.verdict t := by
  cases test with
  | assertAssignerHeap =>
      rw [run, Action.bind_ofExcept, assignerMaxHeap,
        (measureAndReportHeapUsage_spec _ _ _).2 fresh]
      rfl
  | assertProofGeneratorHeap =>
      rw [run, Action.bind_ofExcept, proofGeneratorMaxHeap,
        (measureAndReportHeapUsage_spec _ _ _).2 fresh]
      rfl
  | assertAssignerTime => rfl
  | assertProofGeneratorTime => rfl
  | assertProofGeneratorVerified => rfl

/-- No test adds a massif file. -/
theorem Test.run_none (test : Test) (t : Trial) {files : Directory} {pid : Nat}
    (absent : files pid = none) : (test.run t files).2 pid = none := by
  have updated : Function.update files t.pid none pid = none := by
    by_cases own : pid = t.pid
    · rw [own, Function.update_self]
    · rw [Function.update_of_ne own, absent]
  cases test with
  | assertAssignerHeap =>
      rw [run, Action.bind_ofExcept, assignerMaxHeap, (measureAndReportHeapUsage_spec _ _ _).1]
      exact updated
  | assertProofGeneratorHeap =>
      rw [run, Action.bind_ofExcept, proofGeneratorMaxHeap,
        (measureAndReportHeapUsage_spec _ _ _).1]
      exact updated
  | assertAssignerTime => exact absent
  | assertProofGeneratorTime => exact absent
  | assertProofGeneratorVerified => exact absent

theorem session_none (history : List (Test × Trial)) {files : Directory} {pid : Nat}
    (absent : files pid = none) : (session history files).2 pid = none := by
  induction history generalizing files with
  | nil => exact absent
  | cons first rest ih =>
      obtain ⟨test, t⟩ := first
      exact ih (test.run_none t absent)

theorem Test.Fresh.mono {files files' : Directory} {test : Test} {t : Trial}
    (h : Test.Fresh files test t) (removed : ∀ pid, files pid = none → files' pid = none) :
    Test.Fresh files' test t := by
  cases test with
  | assertAssignerHeap => exact fun missing => removed _ (h missing)
  | assertProofGeneratorHeap => exact fun missing => removed _ (h missing)
  | assertAssignerTime => trivial
  | assertProofGeneratorTime => trivial
  | assertProofGeneratorVerified => trivial

/-- The tests of a session have the verdicts of their own runs, in whatever order they come. -/
theorem session_outcomes (history : List (Test × Trial)) {files : Directory}
    (fresh : ∀ run ∈ history, Test.Fresh files run.1 run.2) :
    (session history files).1 = history.map fun (test, t) => test.verdict t := by
  induction history generalizing files with
  | nil => rfl
  | cons first rest ih =>
      obtain ⟨test, t⟩ := first
      rw [List.forall_mem_cons] at fresh
      have later := ih fun run member => (fresh.2 run member).mono fun _ => test.run_none t
      simp only [session, List.map_cons, Test.run_eq fresh.1, later]

theorem Test.fresh_clean (test : Test) (t : Trial) : Test.Fresh .clean test t := by
  cases test with
  | assertAssignerHeap => exact fun _ => rfl
  | assertProofGeneratorHeap => exact fun _ => rfl
  | assertAssignerTime => trivial
  | assertProofGeneratorTime => trivial
  | assertProofGeneratorVerified => trivial

/-- The tool was started, it reached a recognizable peak, and stayed below the bound. -/
def HeapBelow (bound : Nat) (t : Trial) : Prop :=
  ∃ e, t.behaviour = .started e ∧ (∀ s ∈ e.snapshots, s.total < bound) ∧
    ∃ s ∈ e.snapshots, 1000 ≤ s.total

/-- The time reported for the command is below the bound. -/
def TimeBelow (bound : Nat) (t : Trial) : Prop :=
  60000 * t.times.real.minutes + 1000 * t.times.real.seconds + t.times.real.millis < bound

/-- The tool was started and a line of its standard output contains the text. -/
def ProofVerified (t : Trial) : Prop :=
  ∃ e, t.behaviour = .started e ∧ ∃ l ∈ lines t.stdout, "Proof is verified".toList <:+: l

/-- What a passing test tells about the run. -/
def Test.Criterion : Test → Trial → Prop
  | .assertAssignerHeap => HeapBelow 483000000
  | .assertAssignerTime => TimeBelow 220
  | .assertProofGeneratorHeap => HeapBelow 1180000
  | .assertProofGeneratorTime => TimeBelow 260
  | .assertProofGeneratorVerified => ProofVerified

theorem assertThat_eq_ok {condition : Bool} {message : String} :
    assertThat condition message = .ok () ↔ condition = true := by
  unfold assertThat
  split <;> simp_all

/-- Exactly when a heap assertion passes. -/
theorem heapOutcome_lt {tool : Tool} {t : Trial} {bound : Nat} {message : String} :
    (heapOutcome tool t >>= fun heap => assertThat (heap < bound) message) = .ok () ↔
      HeapBelow bound t := by
  cases behaviour : t.behaviour with
  | missing => simp [heapOutcome, behaviour, HeapBelow, bind, Except.bind]
  | started e =>
      simp only [bind_eq_ok, heapOutcome, behaviour, extractMaxHeapUsage_eq, assertThat_eq_ok,
        decide_eq_true_eq, HeapBelow, Behaviour.started.injEq, exists_eq_left']
      constructor
      · rintro ⟨heap, measured, below⟩
        split at measured
        · rename_i recognized
          obtain rfl := Except.ok.inj measured
          have below : Report.peak ⟨tool, t.pid, e.graph, e.snapshots⟩ < bound := by
            exact_mod_cast below
          refine ⟨fun s hs => ?_, ?_⟩
          · exact (Report.le_peak (List.mem_map_of_mem hs)).trans_lt below
          · have nonempty : e.snapshots ≠ [] := by
              intro empty
              simp [Report.peak, Report.totals, empty] at recognized
            obtain ⟨s, hs, eq⟩ := List.mem_map.mp (Report.peak_mem
              (r := ⟨tool, t.pid, e.graph, e.snapshots⟩) nonempty)
            exact ⟨s, hs, by rwa [eq]⟩
        · simp at measured
      · rintro ⟨below, s, hs, recognized⟩
        have above : s.total ≤ Report.peak ⟨tool, t.pid, e.graph, e.snapshots⟩ :=
          Report.le_peak (List.mem_map_of_mem hs)
        have bounded : Report.peak ⟨tool, t.pid, e.graph, e.snapshots⟩ < bound := by
          apply Report.peak_lt (by have := below s hs; omega)
          intro total ht
          obtain ⟨s', hs', rfl⟩ := List.mem_map.mp ht
          exact below s' hs'
        exact ⟨_, if_pos (recognized.trans above), by exact_mod_cast bounded⟩

/-- Exactly when a time assertion passes. -/
theorem measureTime_lt {t : Trial} {bound : Nat} {message : String} :
    (measureTime (t.merged ++ t.times.render) >>=
      fun time => assertThat (time < bound) message) = .ok () ↔
      noise t.merged = [] ∧ TimeBelow bound t := by
  have bounded : TimeBelow bound t ↔ (t.times.real.milliseconds : Int) < bound := by
    simp only [TimeBelow, BashTime.milliseconds, Nat.cast_lt]
  rw [measureTime_eq, bind_eq_ok, bounded]
  simp only [assertThat_eq_ok, decide_eq_true_eq]
  constructor
  · rintro ⟨time, measured, below⟩
    split at measured
    · rename_i quiet
      obtain rfl := Except.ok.inj measured
      exact ⟨quiet, below⟩
    · simp at measured
  · rintro ⟨quiet, below⟩
    exact ⟨_, if_pos quiet, below⟩

/-- Exactly when the verification passes. -/
theorem proofGeneratorVerify_eq_zero {t : Trial} :
    proofGeneratorVerify t = 0 ↔ ProofVerified t := by
  rw [proofGeneratorVerify, grepStatus_eq_zero_iff]
  simp only [selects_literal, ProofVerified]
  constructor
  · rintro ⟨l, hl, inside⟩
    cases behaviour : t.behaviour with
    | missing => simp [Trial.stdout, behaviour] at hl
    | started e => exact ⟨e, rfl, l, hl, inside⟩
  · rintro ⟨_, _, line⟩
    exact line

/-- Nothing visible of the tool's own output reaches the parser of the elapsed time. -/
def Test.Undisturbed : Test → Trial → Prop
  | .assertAssignerTime, t => noise t.merged = []
  | .assertProofGeneratorTime, t => noise t.merged = []
  | _, _ => True

/-- Exactly when a test passes. -/
theorem Test.verdict_eq_ok {test : Test} {t : Trial} :
    test.verdict t = .ok () ↔ test.Undisturbed t ∧ test.Criterion t := by
  cases test with
  | assertAssignerHeap => exact heapOutcome_lt.trans (iff_of_eq (true_and _)).symm
  | assertProofGeneratorHeap => exact heapOutcome_lt.trans (iff_of_eq (true_and _)).symm
  | assertAssignerTime => exact measureTime_lt
  | assertProofGeneratorTime => exact measureTime_lt
  | assertProofGeneratorVerified =>
      rw [verdict, testAssertProofGeneratorVerified, assertThat_eq_ok, beq_iff_eq]
      exact proofGeneratorVerify_eq_zero.trans (iff_of_eq (true_and _)).symm

/-- The same run with another ending. -/
def Trial.endingWith (t : Trial) (ending : Ending) : Trial :=
  match t.behaviour with
  | .missing => t
  | .started e => { t with behaviour := .started { e with ending } }

/-- No test consults the ending, whatever files there are. -/
theorem Test.run_endingWith (test : Test) (t : Trial) (ending : Ending) (files : Directory) :
    test.run (t.endingWith ending) files = test.run t files := by
  obtain ⟨behaviour, pid, shellMessage, times⟩ := t
  cases behaviour with
  | missing => rfl
  | started e => cases test <;> rfl

/-- In every session, a test passes only if its criterion holds of its own run, unless it is a
heap test of a missing tool and a massif file of its process was there from the start. How a
started tool ends changes no outcome at all. -/
theorem passing_test_criterion (start : Directory) (history : List (Test × Trial)) (test : Test)
    (t : Trial) :
    (Test.Fresh start test t →
      (test.run t (session history start).2).1 = .ok () → test.Criterion t) ∧
    ∀ ending, (test.run (t.endingWith ending) (session history start).2).1 =
      (test.run t (session history start).2).1 := by
  refine ⟨fun fresh passed => ?_, fun ending => by rw [test.run_endingWith]⟩
  rw [Test.run_eq (fresh.mono fun _ => session_none history)] at passed
  exact (Test.verdict_eq_ok.mp passed).2

/-- The tool was started and exited with status zero. -/
def Trial.Succeeded (t : Trial) : Prop :=
  ∃ e, t.behaviour = .started e ∧ e.ending = .exited 0

/-- A report of no time at all. -/
def instantly : TimeReport :=
  let zero : BashTime := ⟨0, 0, 0, by decide, by decide⟩
  ⟨zero, zero, zero⟩

/-- A tool killed by a segmentation fault after it had allocated a little. -/
def crashed : Trial where
  behaviour := .started ⟨[], .killed 11, [], [.plain 0 0 2048]⟩
  pid := 1
  shellMessage := "Segmentation fault\n".toList
  times := instantly

/-- A tool that is not installed. -/
def notInstalled : Trial where
  behaviour := .missing
  pid := 2
  shellMessage := "bash: line 1: assigner: command not found\n".toList
  times := instantly

/-- A tool that prints the line and then fails. -/
def failedLater : Trial where
  behaviour := .started ⟨[(.stdout, "Proof is verified\n".toList)], .exited 1, [], []⟩
  pid := 3
  shellMessage := []
  times := instantly

theorem failedLater_passes :
    (Test.assertProofGeneratorVerified.run failedLater .clean).1 = .ok () := by
  have selected : proofGeneratorVerify failedLater = 0 := by decide
  rw [Test.run_eq (Test.fresh_clean _ _), Test.verdict, selected]
  rfl

theorem passing_test_criterion_failedLater :
    Test.assertProofGeneratorVerified.Criterion failedLater :=
  (passing_test_criterion .clean [] .assertProofGeneratorVerified failedLater).1 trivial
    failedLater_passes

/-- Exactly when a whole session is green. -/
theorem session_green {files : Directory} {history : List (Test × Trial)}
    (fresh : ∀ run ∈ history, Test.Fresh files run.1 run.2) :
    (∀ outcome ∈ (session history files).1, outcome = .ok ()) ↔
      ∀ run ∈ history, run.1.Undisturbed run.2 ∧ run.1.Criterion run.2 := by
  simp only [session_outcomes history fresh, List.forall_mem_map, Test.verdict_eq_ok]

theorem session_green_failedLater :
    (∀ outcome ∈ (session [(.assertProofGeneratorVerified, failedLater)] .clean).1,
        outcome = .ok ()) ↔
      ∀ run ∈ [(Test.assertProofGeneratorVerified, failedLater)],
        run.1.Undisturbed run.2 ∧ run.1.Criterion run.2 :=
  session_green fun run _ => Test.fresh_clean run.1 run.2

/-- A test of each kind passes although its tool crashed, is missing or failed. -/
theorem unsuccessful_tool_passes :
    ((Test.assertAssignerHeap.run crashed .clean).1 = .ok () ∧ ¬crashed.Succeeded) ∧
    ((Test.assertAssignerTime.run notInstalled .clean).1 = .ok () ∧ ¬notInstalled.Succeeded) ∧
    ((Test.assertProofGeneratorVerified.run failedLater .clean).1 = .ok () ∧
      ¬failedLater.Succeeded) := by
  refine ⟨⟨?_, ?_⟩, ⟨?_, ?_⟩, ⟨?_, ?_⟩⟩
  · rw [Test.run_eq (Test.fresh_clean _ _)]
    exact heapOutcome_lt.mpr ⟨_, rfl, by decide, by decide⟩
  · rintro ⟨e, started, ending⟩
    rw [← Behaviour.started.inj started] at ending
    exact absurd ending (by decide)
  · rw [Test.run_eq (Test.fresh_clean _ _)]
    exact measureTime_lt.mpr ⟨noise_eq_nil (by decide), by
      simp [TimeBelow, notInstalled, instantly]⟩
  · rintro ⟨e, started, _⟩
    exact absurd started (by simp [notInstalled])
  · exact failedLater_passes
  · rintro ⟨e, started, ending⟩
    rw [← Behaviour.started.inj started] at ending
    exact absurd ending (by decide)

end Autotest
