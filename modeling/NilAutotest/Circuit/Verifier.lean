import NilAutotest.Circuit.Expression
import NilAutotest.Batching.Combination
import Mathlib.Data.Finset.Sort
import Mathlib.Data.Fintype.Basic

/-!
# The gate argument of the verifier

The preprocessor collects the rotations under which the gates use each column. The
verifier fills a map with the evaluations of the columns in the proof, one for each
collected rotation, and evaluates the gates with it. A variable that is missing in the map
fails an assertion; for the gates that the rotations were collected from, none is missing,
and the result is the combination of all constraints with the powers of the challenge.
-/

namespace Circuit

open Batching

/-- `plonk_variable::column_type` -/
inductive ColumnType
  | witness
  | publicInput
  | constant
  | selector
  deriving DecidableEq

/-- `plonk_variable`: a column of one of the four types, read the given number of rows away. The
index counts within the type. -/
structure PlonkVariable where
  index : Nat
  rotation : Int
  type : ColumnType
  deriving DecidableEq

/-- `plonk_gate` -/
structure PlonkGate (F : Type*) where
  selectorIndex : Nat
  constraints : List (Expression PlonkVariable F)

/-- The gates of a `plonk_constraint_system`; a lookup gate is given by the inputs of each
of its constraints. -/
structure ConstraintSystem (F : Type*) where
  gates : List (PlonkGate F)
  lookupGates : List (List (List (Expression PlonkVariable F)))

/-- `plonk_table_description` -/
structure TableDescription where
  witnessColumns : Nat
  publicInputColumns : Nat
  constantColumns : Nat
  selectorColumns : Nat

namespace TableDescription

def globalIndex (table : TableDescription) (a : PlonkVariable) : Nat :=
  match a.type with
  | .witness => a.index
  | .publicInput => table.witnessColumns + a.index
  | .constant => table.witnessColumns + table.publicInputColumns + a.index
  | .selector =>
      table.witnessColumns + table.publicInputColumns + table.constantColumns + a.index

def columns (table : TableDescription) : ColumnType → Nat
  | .witness => table.witnessColumns
  | .publicInput => table.publicInputColumns
  | .constant => table.constantColumns
  | .selector => table.selectorColumns

end TableDescription

/-- The order in which a `std::set` is traversed. -/
def ascending (s : Finset Int) : List Int := s.sort (· ≤ ·)

section Preprocessor

variable {F : Type*}

/-- The variables in the order in which the preprocessor visits them. -/
def ConstraintSystem.visited (system : ConstraintSystem F) : List PlonkVariable :=
  (system.gates.flatMap fun gate => gate.constraints.flatMap Expression.vars) ++
    (system.lookupGates.flatMap fun gate => gate.flatMap (·.flatMap Expression.vars))

theorem ConstraintSystem.mem_visited (system : ConstraintSystem F) {gate : PlonkGate F}
    (hgate : gate ∈ system.gates) {constraint : Expression PlonkVariable F}
    (hconstraint : constraint ∈ gate.constraints) {var : PlonkVariable}
    (hvar : var ∈ constraint.vars) : var ∈ system.visited :=
  List.mem_append_left _ (List.mem_flatMap.mpr ⟨gate, hgate,
    List.mem_flatMap.mpr ⟨constraint, hconstraint, hvar⟩⟩)

/-- `columns_rotations`, by the index of a column in the whole table. Every column starts with the
rotation zero, since the permutation argument and the selectors read it there. -/
def columnsRotations (table : TableDescription) (system : ConstraintSystem F) :
    Nat → Finset Int :=
  system.visited.foldl (fun result var =>
    Function.update result (table.globalIndex var)
      (insert var.rotation (result (table.globalIndex var)))) fun _ => {0}

theorem mem_columnsRotations {table : TableDescription} {system : ConstraintSystem F} {k : Nat}
    {r : Int} : r ∈ columnsRotations table system k ↔
      r = 0 ∨ ∃ var ∈ system.visited, table.globalIndex var = k ∧ var.rotation = r := by
  have loop : ∀ (vars : List PlonkVariable) (start : Nat → Finset Int),
      r ∈ vars.foldl (fun result var => Function.update result (table.globalIndex var)
          (insert var.rotation (result (table.globalIndex var)))) start k ↔
        r ∈ start k ∨ ∃ var ∈ vars, table.globalIndex var = k ∧ var.rotation = r := by
    intro vars
    induction vars with
    | nil => simp
    | cons var vars ih =>
        intro start
        rw [List.foldl_cons, ih]
        by_cases column : table.globalIndex var = k
        · subst column
          simp only [Function.update_self, Finset.mem_insert, List.exists_mem_cons_iff, true_and]
          tauto
        · simp [Function.update_of_ne (Ne.symm column), column]
  rw [columnsRotations, loop, Finset.mem_singleton]

theorem exists_position {table : TableDescription} {system : ConstraintSystem F}
    {var : PlonkVariable} (h : var.rotation = 0 ∨ var ∈ system.visited) :
    ∃ j : Nat, (ascending (columnsRotations table system (table.globalIndex var)))[j]? =
      some var.rotation := by
  apply List.mem_iff_getElem?.mp
  rw [ascending, Finset.mem_sort, mem_columnsRotations]
  exact h.imp_right fun visited => ⟨var, visited, rfl, rfl⟩

end Preprocessor

/-! ## The evaluations in the proof -/

abbrev Key := Nat × Int × ColumnType

/-- `evaluation_map` -/
abbrev EvaluationMap (F : Type*) := Key → Option F

section Map

variable {F : Type*}

/-- Assign the entries one after the other; of two entries with one key the later one stays. -/
def fill (entries : List (Key × F)) : EvaluationMap F :=
  entries.foldl (fun (map : EvaluationMap F) entry => Function.update map entry.1 (some entry.2))
    fun _ => none

theorem fill_eq_some {entries : List (Key × F)} {key : Key} {value : F}
    (h : (key, value) ∈ entries) (only : ∀ v, (key, v) ∈ entries → v = value) :
    fill entries key = some value := by
  have loop : ∀ (entries : List (Key × F)) (start : EvaluationMap F),
      (∀ v, (key, v) ∈ entries → v = value) →
      ((key, value) ∈ entries ∨ start key = some value) →
      entries.foldl (fun (map : EvaluationMap F) entry =>
        Function.update map entry.1 (some entry.2)) start key = some value := by
    intro entries
    induction entries with
    | nil =>
        intro start _ h
        exact h.resolve_left List.not_mem_nil
    | cons entry entries ih =>
        intro start only h
        refine ih _ (fun v hv => only v (List.mem_cons_of_mem _ hv)) ?_
        by_cases first : entry.1 = key
        · obtain ⟨key', v⟩ := entry
          obtain rfl : key' = key := first
          rw [only v List.mem_cons_self]
          exact .inr (Function.update_self ..)
        · obtain member | start := h
          · obtain rfl | rest := List.mem_cons.mp member
            · exact absurd rfl first
            · exact .inl rest
          · exact .inr ((Function.update_of_ne (Ne.symm first) _ _).trans start)
  exact loop entries _ only (.inl h)

/-- The evaluations of the columns of one type: `z i j` is the one of the `i`-th column
under its `j`-th rotation. -/
def columnEntries (type : ColumnType) (count offset : Nat) (z : Nat → Nat → F)
    (rotations : Nat → Finset Int) : List (Key × F) :=
  (List.range count).flatMap fun i =>
    (ascending (rotations (offset + i))).zipIdx.map fun (rotation, j) =>
      ((i, rotation, type), z i j)

/-- `columns_at_y`; `z` are the arrays `combined_value.z[0]` and `combined_value.z[3]`. -/
def columnsAtY (table : TableDescription) (permutationSize : Nat) (z₀ z₃ : Nat → Nat → F)
    (rotations : Nat → Finset Int) : EvaluationMap F :=
  fill <|
    columnEntries .witness table.witnessColumns 0 z₀ rotations ++
    columnEntries .publicInput table.publicInputColumns table.witnessColumns
      (fun i => z₀ (table.witnessColumns + i)) rotations ++
    columnEntries .constant table.constantColumns
      (table.witnessColumns + table.publicInputColumns)
      (fun i => z₃ (i + permutationSize * 2)) rotations ++
    columnEntries .selector table.selectorColumns
      (table.witnessColumns + table.constantColumns + table.publicInputColumns)
      (fun i => z₃ (i + permutationSize * 2 + table.constantColumns)) rotations

theorem mem_columnEntries {type type' : ColumnType} {count offset i : Nat} {z : Nat → Nat → F}
    {rotations : Nat → Finset Int} {rotation : Int} {v : F} :
    ((i, rotation, type'), v) ∈ columnEntries type count offset z rotations ↔
      type' = type ∧ i < count ∧
        ∃ j : Nat, (ascending (rotations (offset + i)))[j]? = some rotation ∧ v = z i j := by
  simp only [columnEntries, List.mem_flatMap, List.mem_range, List.mem_map, Prod.exists,
    Prod.mk.injEq, List.mem_zipIdx_iff_getElem?]
  constructor
  · rintro ⟨k, hk, r, j, found, ⟨rfl, rfl, rfl⟩, rfl⟩
    exact ⟨rfl, hk, j, found, rfl⟩
  · rintro ⟨rfl, hi, j, found, rfl⟩
    exact ⟨i, hi, rotation, j, found, ⟨rfl, rfl, rfl⟩, rfl⟩

/-- The evaluation in the proof that belongs to a variable. -/
def valueAt (table : TableDescription) (permutationSize : Nat) (z₀ z₃ : Nat → Nat → F)
    (type : ColumnType) (i j : Nat) : F :=
  match type with
  | .witness => z₀ i j
  | .publicInput => z₀ (table.witnessColumns + i) j
  | .constant => z₃ (i + permutationSize * 2) j
  | .selector => z₃ (i + permutationSize * 2 + table.constantColumns) j

/-- A column under one of its rotations is found in the map, at the position that the rotation has
among those of the column. The four types have different keys, so no loop overwrites another. -/
theorem columnsAtY_eq_some {table : TableDescription} {permutationSize : Nat}
    {z₀ z₃ : Nat → Nat → F} {rotations : Nat → Finset Int} {var : PlonkVariable} {j : Nat}
    (column : var.index < table.columns var.type)
    (found : (ascending (rotations (table.globalIndex var)))[j]? = some var.rotation) :
    columnsAtY table permutationSize z₀ z₃ rotations (var.index, var.rotation, var.type) =
      some (valueAt table permutationSize z₀ z₃ var.type var.index j) := by
  obtain ⟨index, rotation, type⟩ := var
  have unique : ∀ k : Nat, (ascending
      (rotations (table.globalIndex ⟨index, rotation, type⟩)))[k]? = some rotation → k = j := by
    intro k hk
    obtain ⟨hk, eq⟩ := List.getElem?_eq_some_iff.mp hk
    obtain ⟨hj, eq'⟩ := List.getElem?_eq_some_iff.mp found
    exact (Finset.sort_nodup _ _).getElem_inj_iff.mp (eq.trans eq'.symm)
  apply fill_eq_some
  · simp only [List.mem_append, mem_columnEntries]
    cases type with
    | witness => exact .inl (.inl (.inl ⟨rfl, column, j, by rwa [Nat.zero_add], rfl⟩))
    | publicInput => exact .inl (.inl (.inr ⟨rfl, column, j, found, rfl⟩))
    | constant => exact .inl (.inr ⟨rfl, column, j, found, rfl⟩)
    | selector =>
        refine .inr ⟨rfl, column, j, ?_, rfl⟩
        rwa [Nat.add_right_comm table.witnessColumns]
  · intro v hv
    simp only [List.mem_append, mem_columnEntries] at hv
    cases type with
    | witness =>
        simp only [reduceCtorEq, false_and, or_false, true_and, Nat.zero_add] at hv
        obtain ⟨-, k, hk, rfl⟩ := hv
        rw [unique k hk]
        rfl
    | publicInput =>
        simp only [reduceCtorEq, false_and, or_false, false_or, true_and] at hv
        obtain ⟨-, k, hk, rfl⟩ := hv
        rw [unique k hk]
        rfl
    | constant =>
        simp only [reduceCtorEq, false_and, or_false, false_or, true_and] at hv
        obtain ⟨-, k, hk, rfl⟩ := hv
        rw [unique k hk]
        rfl
    | selector =>
        simp only [reduceCtorEq, false_and, false_or, true_and] at hv
        obtain ⟨-, k, hk, rfl⟩ := hv
        rw [Nat.add_right_comm table.witnessColumns] at hk
        rw [unique k hk]
        rfl

end Map

/-! ## The evaluation of the gates -/

section Gates

variable {F : Type*} [CommRing F]

def PlonkVariable.key (var : PlonkVariable) : Key := (var.index, var.rotation, var.type)

/-- `plonk_constraint::evaluate` with an evaluation map: a variable without an entry fails
the assertion. -/
def evaluateConstraint (evaluations : EvaluationMap F) (constraint : Expression PlonkVariable F) :
    Option F :=
  if ∀ var ∈ constraint.vars, (evaluations var.key).isSome then
    some (constraint.evaluate (fun var => (evaluations var.key).getD 0) id)
  else none

/-- Add a constraint to `gate_result` and go on to the next power of `theta`. -/
def addConstraint (evaluations : EvaluationMap F) (theta : F) (acc : F × F)
    (constraint : Expression PlonkVariable F) : Option (F × F) := do
  let value ← evaluateConstraint evaluations constraint
  pure (acc.1 + value * acc.2, acc.2 * theta)

/-- Add a gate to `F[0]`; a selector without an entry reads as zero. -/
def addGate (evaluations : EvaluationMap F) (theta : F) (acc : F × F) (gate : PlonkGate F) :
    Option (F × F) := do
  let (gateResult, thetaAcc) ←
    gate.constraints.foldlM (addConstraint evaluations theta) (0, acc.2)
  pure (acc.1 + gateResult * (evaluations (gate.selectorIndex, 0, .selector)).getD 0, thetaAcc)

/-- `placeholder_gates_argument::verify_eval`. The powers of `theta` run on from one gate to the
next, so every constraint of the circuit has its own. -/
def verifyEval (gates : List (PlonkGate F)) (evaluations : EvaluationMap F) (theta : F) :
    Option F := do
  let (result, _) ← gates.foldlM (addGate evaluations theta) (0, 1)
  pure result

/-- What a gate adds to the combination, constraint by constraint. -/
def PlonkGate.values (row : Key → F) (gate : PlonkGate F) : List F :=
  gate.constraints.map fun constraint =>
    row (gate.selectorIndex, 0, .selector) * constraint.evaluate (fun var => row var.key) id

theorem PlonkGate.length_flatMap_values (row : Key → F) (gates : List (PlonkGate F)) :
    (gates.flatMap (PlonkGate.values row)).length =
      (gates.flatMap PlonkGate.constraints).length := by
  simp [List.length_flatMap, PlonkGate.values]

theorem Expression.evaluate_congr {V A B : Type*} [Add B] [Sub B] [Mul B] [Pow B Nat]
    {value value' : V → B} {convert : A → B} {e : Expression V A}
    (h : ∀ var ∈ e.vars, value var = value' var) :
    e.evaluate value convert = e.evaluate value' convert := by
  induction e with
  | term t =>
      have loop : ∀ (vars : List V) (start : B), (∀ var ∈ vars, value var = value' var) →
          vars.foldl (fun result var => result * value var) start =
            vars.foldl (fun result var => result * value' var) start := by
        intro vars
        induction vars with
        | nil => exact fun _ _ => rfl
        | cons var vars ih =>
            intro start h
            rw [List.foldl_cons, List.foldl_cons, h var List.mem_cons_self,
              ih _ fun v hv => h v (List.mem_cons_of_mem _ hv)]
      exact loop t.vars _ h
  | pow expr power ih => rw [evaluate, evaluate, ih h]
  | binary exprLeft exprRight op left right =>
      rw [vars, List.forall_mem_append] at h
      rw [evaluate, evaluate, left h.1, right h.2]

variable {evaluations : EvaluationMap F} {row : Key → F} (theta : F)

theorem evaluateConstraint_eq {constraint : Expression PlonkVariable F}
    (present : ∀ var ∈ constraint.vars, evaluations var.key = some (row var.key)) :
    evaluateConstraint evaluations constraint =
      some (constraint.evaluate (fun var => row var.key) id) := by
  rw [evaluateConstraint, if_pos fun var hv => by rw [present var hv, Option.isSome_some]]
  congr 1
  apply Expression.evaluate_congr
  intro var hv
  rw [present var hv, Option.getD_some]

theorem foldlM_addConstraint {constraints : List (Expression PlonkVariable F)}
    (present : ∀ constraint ∈ constraints, ∀ var ∈ constraint.vars,
      evaluations var.key = some (row var.key)) (acc : F × F) :
    constraints.foldlM (addConstraint evaluations theta) acc =
      some (acc.1 + acc.2 * combine theta
          (constraints.map fun c => c.evaluate (fun var => row var.key) id),
        acc.2 * theta ^ constraints.length) := by
  induction constraints generalizing acc with
  | nil => simp
  | cons constraint constraints ih =>
      have first := evaluateConstraint_eq (present constraint List.mem_cons_self)
      rw [List.foldlM_cons, addConstraint, first]
      refine (ih (fun c hc => present c (List.mem_cons_of_mem _ hc)) _).trans ?_
      simp only [List.map_cons, combine_cons, List.length_cons, Option.some.injEq, Prod.mk.injEq]
      constructor <;> ring

/-- With all evaluations present, the gate argument is the combination of the gates. The induction
is on the gates and within a gate on its constraints, for any sum and power to start from. -/
theorem verifyEval_eq {gates : List (PlonkGate F)}
    (present : ∀ gate ∈ gates, ∀ constraint ∈ gate.constraints, ∀ var ∈ constraint.vars,
      evaluations var.key = some (row var.key))
    (selectors : ∀ gate ∈ gates, evaluations (gate.selectorIndex, 0, .selector) =
      some (row (gate.selectorIndex, 0, .selector))) :
    verifyEval gates evaluations theta =
      some (combine theta (gates.flatMap (PlonkGate.values row))) := by
  have loop : ∀ (gates : List (PlonkGate F)) (acc : F × F),
      (∀ gate ∈ gates, ∀ constraint ∈ gate.constraints, ∀ var ∈ constraint.vars,
        evaluations var.key = some (row var.key)) →
      (∀ gate ∈ gates, evaluations (gate.selectorIndex, 0, .selector) =
        some (row (gate.selectorIndex, 0, .selector))) →
      ∃ thetaAcc, gates.foldlM (addGate evaluations theta) acc =
        some (acc.1 + acc.2 * combine theta (gates.flatMap (PlonkGate.values row)), thetaAcc) := by
    intro gates
    induction gates with
    | nil =>
        intro acc _ _
        exact ⟨acc.2, by simp⟩
    | cons gate gates ih =>
        intro acc present selectors
        rw [List.forall_mem_cons] at present selectors
        have sum := foldlM_addConstraint theta present.1 (0, acc.2)
        have values : gate.values row =
            (gate.constraints.map fun c => c.evaluate (fun var => row var.key) id).map
              (row (gate.selectorIndex, 0, .selector) * ·) := by
          rw [List.map_map]
          rfl
        have first : addGate evaluations theta acc gate =
            some (acc.1 + acc.2 * combine theta (gate.values row),
              acc.2 * theta ^ gate.constraints.length) := by
          rw [addGate, sum, values, combine_map_mul]
          simp only [Option.bind_eq_bind, Option.bind_some, selectors.1, Option.getD_some,
            Option.pure_def, Option.some.injEq, Prod.mk.injEq, and_true]
          ring
        obtain ⟨thetaAcc, rest⟩ := ih (acc.1 + acc.2 * combine theta (gate.values row),
          acc.2 * theta ^ gate.constraints.length) present.2 selectors.2
        refine ⟨thetaAcc, ?_⟩
        have length : (gate.values row).length = gate.constraints.length := List.length_map _
        rw [List.foldlM_cons, first]
        refine rest.trans ?_
        rw [List.flatMap_cons, combine_append, length]
        congr 2
        ring
  obtain ⟨thetaAcc, sum⟩ := loop gates (0, 1) present selectors
  rw [verifyEval, sum]
  simp

/-- All variables of the gates are columns of the table. Nothing in the source checks this; a
variable outside has no entry in the map, and fails the assertion. -/
structure ConstraintSystem.Within (table : TableDescription) (system : ConstraintSystem F) :
    Prop where
  vars : ∀ gate ∈ system.gates, ∀ constraint ∈ gate.constraints, ∀ var ∈ constraint.vars,
    var.index < table.columns var.type
  selectors : ∀ gate ∈ system.gates, gate.selectorIndex < table.selectorColumns

/-- With the rotations that were collected from the gates no assertion fails, whatever the proof
holds: each variable takes the evaluation at the position of its rotation, and the result is the
combination of all constraints on these values. -/
theorem verifyEval_columnsAtY {table : TableDescription} {system : ConstraintSystem F}
    (within : system.Within table) (permutationSize : Nat) (z₀ z₃ : Nat → Nat → F) (theta : F) :
    let rotations := columnsRotations table system
    ∃ row : Key → F,
      (∀ gate ∈ system.gates, ∀ constraint ∈ gate.constraints, ∀ var ∈ constraint.vars,
        ∃ j : Nat, (ascending (rotations (table.globalIndex var)))[j]? = some var.rotation ∧
          row var.key = valueAt table permutationSize z₀ z₃ var.type var.index j) ∧
      verifyEval system.gates (columnsAtY table permutationSize z₀ z₃ rotations) theta =
        some (combine theta (system.gates.flatMap (PlonkGate.values row))) := by
  intro rotations
  let evaluations := columnsAtY table permutationSize z₀ z₃ rotations
  have read : ∀ var : PlonkVariable, var.index < table.columns var.type →
      (var.rotation = 0 ∨ var ∈ system.visited) →
      ∃ j : Nat, (ascending (rotations (table.globalIndex var)))[j]? = some var.rotation ∧
        evaluations var.key =
          some (valueAt table permutationSize z₀ z₃ var.type var.index j) := by
    intro var column h
    obtain ⟨j, found⟩ := exists_position h
    exact ⟨j, found, columnsAtY_eq_some column found⟩
  refine ⟨fun key => (evaluations key).getD 0, ?_, ?_⟩
  · intro gate hgate constraint hconstraint var hvar
    obtain ⟨j, found, value⟩ := read var (within.vars gate hgate constraint hconstraint var hvar)
      (.inr (system.mem_visited hgate hconstraint hvar))
    refine ⟨j, found, ?_⟩
    show (evaluations var.key).getD 0 = _
    rw [value, Option.getD_some]
  · apply verifyEval_eq
    · intro gate hgate constraint hconstraint var hvar
      obtain ⟨j, -, value⟩ := read var (within.vars gate hgate constraint hconstraint var hvar)
        (.inr (system.mem_visited hgate hconstraint hvar))
      show evaluations var.key = some ((evaluations var.key).getD 0)
      rw [value, Option.getD_some]
    · intro gate hgate
      obtain ⟨j, -, value⟩ := read ⟨gate.selectorIndex, 0, .selector⟩
        (within.selectors gate hgate) (.inl rfl)
      have value : evaluations (gate.selectorIndex, 0, .selector) = _ := value
      show evaluations (gate.selectorIndex, 0, .selector) =
        some ((evaluations (gate.selectorIndex, 0, .selector)).getD 0)
      rw [value, Option.getD_some]

/-- The first column times itself in the row before. -/
def products : ConstraintSystem Int where
  gates := [⟨0, [.term ⟨[⟨0, 0, .witness⟩, ⟨0, -1, .witness⟩], 1⟩]⟩]
  lookupGates := []

/-- One column under two rotations, and no permuted column. -/
theorem verifyEval_columnsAtY_products :
    let table : TableDescription := ⟨1, 0, 0, 1⟩
    let z₀ : Nat → Nat → Int := fun _ j => 2 + j
    let z₃ : Nat → Nat → Int := fun _ _ => 1
    let rotations := columnsRotations table products
    ∃ row : Key → Int,
      (∀ gate ∈ products.gates, ∀ constraint ∈ gate.constraints, ∀ var ∈ constraint.vars,
        ∃ j : Nat, (ascending (rotations (table.globalIndex var)))[j]? = some var.rotation ∧
          row var.key = valueAt table 0 z₀ z₃ var.type var.index j) ∧
      verifyEval products.gates (columnsAtY table 0 z₀ z₃ rotations) 3 =
        some (combine 3 (products.gates.flatMap (PlonkGate.values row))) := by
  intro table z₀ z₃
  have within : products.Within table := by
    constructor <;> simp [products, table, Expression.vars, TableDescription.columns]
  exact verifyEval_columnsAtY within 0 z₀ z₃ 3

end Gates

end Circuit
