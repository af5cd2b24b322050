import NilAutotest.Codec.Reader
import Mathlib.Data.List.Forall2

/-!
# The flat parameter format

The contents of a parameter file are flattened to six scalars and three runs, each with
its count in front of it. The items may be any type that integers and counts are written
in; a reader of such items reads back what was flattened if every count is the number of
entries of its run and no entry is lost in its item.
-/

namespace Tasks

open Codec

variable {α β : Type}

/-- The contents of a parameter file. -/
structure CircuitParams where
  modulus : Int
  r : Int
  maxDegree : Int
  lambda : Int
  rowsAmount : Int
  omega : Int
  dOmegas : List Int
  stepList : List Int
  arithmetizationParams : List Int
  columnsRotations : List (List Int)
  deriving DecidableEq

namespace CircuitParams

def scalars (cp : CircuitParams) : List Int :=
  [cp.modulus, cp.r, cp.maxDegree, cp.lambda, cp.rowsAmount, cp.omega]

/-- The part of the contents that is flattened. -/
def flat (cp : CircuitParams) : List Int × List Int × List Int × List Int :=
  (cp.scalars, cp.dOmegas, cp.stepList, cp.arithmetizationParams)

/-- Its integers. -/
def entries (cp : CircuitParams) : List Int :=
  cp.scalars ++ cp.dOmegas ++ cp.stepList ++ cp.arithmetizationParams

/-- The items, from an item for each integer and one for each of the three counts. -/
def flatten (item : Int → α) (d s a : α) (cp : CircuitParams) : List α :=
  cp.scalars.map item ++ (d :: cp.dOmegas.map item ++ (s :: cp.stepList.map item ++
    (a :: cp.arithmetizationParams.map item)))

end CircuitParams

/-- Six scalars and three counted runs. -/
def paramsReader (int? : α → Option Int) (count? : α → Option Nat) :
    Reader α (List Int × List Int × List Int × List Int) :=
  let run := counted count? (one int?)
  both (times (one int?) 6) (both run (both run run))

variable {int? : α → Option Int} {count? : α → Option Nat} {item : Int → α}
variable {cp : CircuitParams} {d s a : α}

theorem reads_items {ns : List Int} (h : ∀ n ∈ ns, int? (item n) = some n) :
    Reads (times (one int?) ns.length) ns (ns.map item) := by
  rw [List.map_eq_flatMap]
  apply Reads.times
  intro n hn
  exact .one (h n hn)

theorem reads_run {ns : List Int} {count : α} (hcount : count? count = some ns.length)
    (h : ∀ n ∈ ns, int? (item n) = some n) :
    Reads (counted count? (one int?)) ns (count :: ns.map item) := by
  rw [List.map_eq_flatMap]
  apply Reads.counted hcount
  intro n hn
  exact .one (h n hn)

/-- The flattened contents are read back. -/
theorem reads_flatten (hd : count? d = some cp.dOmegas.length)
    (hs : count? s = some cp.stepList.length) (ha : count? a = some cp.arithmetizationParams.length)
    (h : ∀ n ∈ cp.entries, int? (item n) = some n) :
    Reads (paramsReader int? count?) cp.flat (cp.flatten item d s a) := by
  simp only [CircuitParams.entries, List.forall_mem_append] at h
  obtain ⟨⟨⟨scalars, dOmegas⟩, stepList⟩, arithmetizationParams⟩ := h
  have lists := (reads_run hd dOmegas).both
    ((reads_run hs stepList).both (reads_run ha arithmetizationParams))
  exact (reads_items scalars).both lists

/-- Two ways of writing the contents, related item by item. -/
theorem forall₂_flatten {R : α → β → Prop} {item' : Int → β} {d' s' a' : β} (hd : R d d')
    (hs : R s s') (ha : R a a') (h : ∀ n ∈ cp.entries, R (item n) (item' n)) :
    List.Forall₂ R (cp.flatten item d s a) (cp.flatten item' d' s' a') := by
  have mapped : ∀ ns : List Int, (∀ n ∈ ns, R (item n) (item' n)) →
      List.Forall₂ R (ns.map item) (ns.map item') := by
    intro ns hns
    rw [List.forall₂_map_left_iff, List.forall₂_map_right_iff, List.forall₂_same]
    exact hns
  simp only [CircuitParams.entries, List.forall_mem_append] at h
  obtain ⟨⟨⟨scalars, dOmegas⟩, stepList⟩, arithmetizationParams⟩ := h
  exact List.rel_append (mapped _ scalars) (List.rel_append (.cons hd (mapped _ dOmegas))
    (List.rel_append (.cons hs (mapped _ stepList)) (.cons ha (mapped _ arithmetizationParams))))

end Tasks
