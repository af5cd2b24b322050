import NilAutotest.Posix.Filters

/-!
# The massif report printed by `ms_print`

A report is a header with the profiled command, a graph, the numbers of the snapshots and
a table; a detailed snapshot is followed by its allocation tree. Numbers are printed in
groups of three digits separated by commas, and columns are separated by blanks.

Where `ms_print` chooses the layout (widths of columns, headings repeated inside the
table, depth and shape of the indentation of a tree) the report leaves it free, and
arbitrary text inside a tree line may contain anything but a newline.
-/

namespace Massif

open Text Posix

/-- The two programs that are profiled. -/
inductive Tool
  | assigner
  | proofGenerator
  deriving DecidableEq, Repr

/-- The command of a heap fixture. -/
def Tool.heapCommand : Tool → List String
  | .assigner =>
      ["assigner", "-b", "build/src/template.ll", "-p", "./src/main-input.json",
        "-c", "build/src/template.crct", "-t", "build/src/template.tbl", "-e", "pallas"]
  | .proofGenerator =>
      ["proof-generator-single-threaded", "--circuit", "build/src/template.crct",
        "--assignment", "build/src/template.tbl", "--proof", "build/proof.bin"]

/-- Texts all of whose characters belong to a class. -/
abbrev Over (cls : Char → Prop) := { l : List Char // ∀ c ∈ l, cls c }

/-- The blanks between two columns. -/
structure Gap where
  chars : List Char
  nonempty : chars ≠ []
  blank : ∀ c ∈ chars, isBlank c

/-- What one line of an allocation tree says after its indentation. -/
inductive TreeBody
  /-- `->p% (bytesB) 0xADDRESS: text`. -/
  | site (percent : Over fun c => c.isDigit ∨ c = '.') (bytes : Nat)
      (address : Over fun c => Char.isHexDigit c) (text : Over (· ≠ '\n'))
  /-- `->p% (bytesB) in n places, text`. -/
  | places (percent : Over fun c => c.isDigit ∨ c = '.') (bytes count : Nat)
      (text : Over (· ≠ '\n'))
  /-- The root line `p% (bytesB) (text`. -/
  | root (percent : Over fun c => c.isDigit ∨ c = '.') (bytes : Nat) (text : Over (· ≠ '\n'))
  /-- The bare bars between two branches. -/
  | connector

/-- `p% (bytesB) `, the start of every line that reports an allocation. -/
def share (percent : List Char) (bytes : Nat) : List Char :=
  percent ++ '%' :: ' ' :: ('(' :: grouped bytes ++ ['B', ')']) ++ [' ']

def TreeBody.render : TreeBody → List Char
  | .site percent bytes address text =>
      "->".toList ++ share percent.1 bytes ++ ("0x".toList ++ address.1 ++ [':']) ++
        ' ' :: text.1
  | .places percent bytes count text =>
      "->".toList ++ share percent.1 bytes ++ "in".toList ++ ' ' :: digits count ++
        " places, ".toList ++ text.1
  | .root percent bytes text => share percent.1 bytes ++ '(' :: text.1
  | .connector => []

/-- A line of an allocation tree, at any depth. -/
structure TreeLine where
  indentation : Over fun c => c = '|' ∨ isBlank c
  body : TreeBody

def TreeLine.render (line : TreeLine) : List Char := line.indentation.1 ++ line.body.render

/-- A snapshot: its row of the table, and the lines of its allocation tree when it is a
detailed one. -/
structure Snapshot where
  number : Nat
  time : Nat
  total : Nat
  usefulHeap : Nat
  extraHeap : Nat
  stack : Nat
  /-- The blanks before the first column and before each other column. -/
  margin : Over fun c => isBlank c
  gap : Fin 5 → Gap
  /-- Whether the heading of the table is printed before the row. -/
  headed : Bool
  /-- Whether the snapshot is marked as the peak. -/
  peak : Bool
  tree : List TreeLine

/-- A snapshot without an allocation tree, in columns one blank apart. -/
def Snapshot.plain (number time total : Nat) : Snapshot where
  number := number
  time := time
  total := total
  usefulHeap := total
  extraHeap := 0
  stack := 0
  margin := ⟨[' '], by simp [isBlank]⟩
  gap _ := ⟨[' '], by simp, by simp [isBlank]⟩
  headed := false
  peak := false
  tree := []

/-- `n time total useful-heap extra-heap stacks`. -/
def Snapshot.row (s : Snapshot) : List Char :=
  s.margin.1 ++ digits s.number ++ (s.gap 0).chars ++ grouped s.time ++ (s.gap 1).chars ++
    grouped s.total ++ (s.gap 2).chars ++ grouped s.usefulHeap ++ (s.gap 3).chars ++
    grouped s.extraHeap ++ (s.gap 4).chars ++ grouped s.stack

/-- A separating line. -/
def dashes : List Char := List.replicate 80 '-'

/-- The heading of the table, between two separating lines. -/
def heading : List (List Char) :=
  [dashes,
    "  n        time(i)         total(B)   useful-heap(B) extra-heap(B)    stacks(B)".toList,
    dashes]

/-- The lines a snapshot adds to the table. -/
def Snapshot.lines (s : Snapshot) : List (List Char) :=
  (if s.headed then heading else []) ++ s.row :: s.tree.map TreeLine.render

/-- A report for one run of a tool, of the process `pid`. -/
structure Report where
  tool : Tool
  pid : Nat
  graph : List (Over fun c => c ≠ ',' ∧ c ≠ '\n')
  snapshots : List Snapshot

/-- The command line that was profiled. -/
def Report.commandLine (r : Report) : List Char :=
  "Command:           ".toList ++ r.tool.heapCommand.flatMap fun word => ' ' :: word.toList

/-- `[9, 14 (peak), 24]`, the detailed snapshots after the opening bracket. -/
def detailedNumbers (snapshots : List Snapshot) : List Char :=
  [',', ' '].intercalate ((snapshots.filter fun s => !s.tree.isEmpty).map fun s =>
    digits s.number ++ if s.peak then " (peak)".toList else []) ++ [']']

/-- Everything before the table. -/
def Report.header (r : Report) : List (List Char) :=
  [dashes, r.commandLine, "Massif arguments:   (none)".toList,
    "ms_print arguments: massif.out.".toList ++ digits r.pid, dashes, [], []] ++
  r.graph.map Subtype.val ++
  [[], "Number of snapshots: ".toList ++ digits r.snapshots.length,
    " Detailed snapshots: ".toList ++ '[' :: detailedNumbers r.snapshots, []]

def Report.lines (r : Report) : List (List Char) :=
  r.header ++ r.snapshots.flatMap Snapshot.lines

/-- The text `ms_print` writes to its standard output. -/
def Report.render (r : Report) : List Char := unlines r.lines

/-- The `total(B)` column. -/
def Report.totals (r : Report) : List Nat := r.snapshots.map Snapshot.total

/-- The largest total, and zero for a report without snapshots. -/
def Report.peak (r : Report) : Nat := r.totals.max?.getD 0

theorem Report.le_peak {r : Report} {t : Nat} (h : t ∈ r.totals) : t ≤ r.peak := by
  obtain ⟨p, hp⟩ := Option.isSome_iff_exists.mp (List.isSome_max?_of_mem h)
  rw [peak, hp, Option.getD_some]
  exact (List.max?_eq_some_iff.mp hp).2 t h

/-- Unless there is no snapshot the peak is the total of one of them. -/
theorem Report.peak_mem {r : Report} (h : r.snapshots ≠ []) : r.peak ∈ r.totals := by
  have nonempty : r.totals ≠ [] := by simpa [totals] using h
  cases hp : r.totals.max? with
  | none => exact absurd (List.max?_eq_none_iff.mp hp) nonempty
  | some p =>
      rw [peak, hp, Option.getD_some]
      exact List.max?_mem hp

/-- The largest total is characterized by its two bounds. -/
theorem Report.peak_eq {r : Report} {p : Nat} (member : p ∈ r.totals)
    (bound : ∀ t ∈ r.totals, t ≤ p) : r.peak = p := by
  have nonempty : r.snapshots ≠ [] := by
    rintro empty
    simp [totals, empty] at member
  exact Nat.le_antisymm (bound _ (peak_mem nonempty)) (le_peak member)

theorem Report.peak_lt {r : Report} {bound : Nat} (positive : 0 < bound)
    (h : ∀ t ∈ r.totals, t < bound) : r.peak < bound := by
  by_cases empty : r.snapshots = []
  · simpa [peak, totals, empty] using positive
  · exact h _ (peak_mem empty)

end Massif
