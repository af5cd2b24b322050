import NilAutotest.Autotest.Peak
import NilAutotest.Autotest.Time
import NilAutotest.Python.Action
import Mathlib.Logic.Function.Basic

/-!
# The tests

Each test runs its tool once through one of three measurements: under valgrind, under the
shell's `time`, or piped into `grep`. The behaviour of the tool in that run is arbitrary,
and so is what the shell itself adds to the standard error about it.

Massif files live in the working directory, one for each process. A measurement removes
the file it created, so a session that starts in a directory without such files never
reads the file of another process, and the verdict of a test depends on its own run only.
-/

namespace Autotest

open Text Posix Python Massif

/-- How a process ends. -/
inductive Ending
  | exited (status : Fin 256)
  | killed (signal : Nat)
  deriving DecidableEq, Repr

/-- Where a process writes. -/
inductive Channel
  | stdout
  | stderr
  deriving DecidableEq, Repr

/-- The run of a tool that was started. -/
structure Execution where
  /-- What is written, in the order of the writes. -/
  writes : List (Channel × List Char)
  ending : Ending
  graph : List (Over fun c => c ≠ ',' ∧ c ≠ '\n')
  snapshots : List Snapshot

/-- What happens when a test runs its tool. -/
inductive Behaviour
  | missing
  | started (execution : Execution)

/-- One run of a tool by a test. -/
structure Trial where
  behaviour : Behaviour
  /-- The process identifier of valgrind. -/
  pid : Nat
  /-- What the shell says about a command that is missing or was killed. -/
  shellMessage : List Char
  /-- What `time` reports. -/
  times : TimeReport

/-- The standard output of the tool. -/
def Trial.stdout (t : Trial) : List Char :=
  match t.behaviour with
  | .missing => []
  | .started e => (e.writes.filter (·.1 = .stdout)).flatMap (·.2)

/-- Both streams of the command merged, before the report of `time`. -/
def Trial.merged (t : Trial) : List Char :=
  match t.behaviour with
  | .missing => t.shellMessage
  | .started e => e.writes.flatMap (·.2) ++ t.shellMessage

/-- The massif files of the working directory, by the process that wrote them. -/
abbrev Directory := Nat → Option Report

/-- No massif file. -/
def Directory.clean : Directory := fun _ => none

/-- Valgrind writes a massif file for every program it starts. -/
def measureMemoryUsage (tool : Tool) (t : Trial) : Action Directory Nat := fun files =>
  match t.behaviour with
  | .missing => (.ok t.pid, files)
  | .started e =>
      (.ok t.pid, Function.update files t.pid (some ⟨tool, t.pid, e.graph, e.snapshots⟩))

/-- `os.remove` of a massif file. -/
def remove (pid : Nat) : Action Directory Unit := fun files =>
  match files pid with
  | some _ => (.ok (), Function.update files pid none)
  | none => (.error .fileNotFoundError, files)

/-- The extraction from the file of a process, if there is one. -/
def extractFrom (massifOutFile : Nat) : Action Directory Int := fun files =>
  (extractMaxHeapUsage (files massifOutFile), files)

def measureAndReportHeapUsage (tool : Tool) (t : Trial) : Action Directory Int := do
  let massifOutFile ← measureMemoryUsage tool t
  Action.tryFinally (extractFrom massifOutFile) (remove massifOutFile)

/-- `assert condition, message`. -/
def assertThat (condition : Bool) (message : String) : Except Exception Unit :=
  if condition then .ok () else .error (.assertionError message)

/-! ## Fixtures -/

def assignerMaxHeap (t : Trial) : Action Directory Int := measureAndReportHeapUsage .assigner t

def proofGeneratorMaxHeap (t : Trial) : Action Directory Int :=
  measureAndReportHeapUsage .proofGenerator t

def assignerTime (t : Trial) : Except Exception Int := measureTime (t.merged ++ t.times.render)

def proofGeneratorTime (t : Trial) : Except Exception Int :=
  measureTime (t.merged ++ t.times.render)

/-- The status of the pipeline into `grep 'Proof is verified'`. -/
def proofGeneratorVerify (t : Trial) : Nat := grepStatus (.literal "Proof is verified") t.stdout

/-! ## Tests -/

def testAssertAssignerHeap (assignerMaxHeap : Int) : Except Exception Unit :=
  assertThat (assignerMaxHeap < 483000000) "Max heap usage is above 483000000!"

def testAssertAssignerTime (assignerTime : Int) : Except Exception Unit :=
  assertThat (assignerTime < 220) "Execution time is above 220ms!"

def testAssertProofGeneratorHeap (proofGeneratorMaxHeap : Int) : Except Exception Unit :=
  assertThat (proofGeneratorMaxHeap < 1180000) "Max heap usage is above 1180000!"

def testAssertProofGeneratorTime (proofGeneratorTime : Int) : Except Exception Unit :=
  assertThat (proofGeneratorTime < 260) "Execution time is above 260ms!"

def testAssertProofGeneratorVerified (proofGeneratorVerify : Nat) : Except Exception Unit :=
  assertThat (proofGeneratorVerify == 0) "There was no \"proof verified\" line!"

inductive Test
  | assertAssignerHeap
  | assertAssignerTime
  | assertProofGeneratorHeap
  | assertProofGeneratorTime
  | assertProofGeneratorVerified
  deriving DecidableEq, Repr

/-- A test with its fixture. -/
def Test.run (test : Test) (t : Trial) : Action Directory Unit :=
  match test with
  | .assertAssignerHeap => do
      let heap ← assignerMaxHeap t
      Action.ofExcept (testAssertAssignerHeap heap)
  | .assertAssignerTime => Action.ofExcept (assignerTime t >>= testAssertAssignerTime)
  | .assertProofGeneratorHeap => do
      let heap ← proofGeneratorMaxHeap t
      Action.ofExcept (testAssertProofGeneratorHeap heap)
  | .assertProofGeneratorTime =>
      Action.ofExcept (proofGeneratorTime t >>= testAssertProofGeneratorTime)
  | .assertProofGeneratorVerified =>
      Action.ofExcept (testAssertProofGeneratorVerified (proofGeneratorVerify t))

/-- A session runs its tests one after another, whatever their outcomes. -/
def session : List (Test × Trial) → Directory → List (Except Exception Unit) × Directory
  | [], files => ([], files)
  | (test, t) :: rest, files =>
      let (outcome, files) := test.run t files
      let (outcomes, files) := session rest files
      (outcome :: outcomes, files)

end Autotest
