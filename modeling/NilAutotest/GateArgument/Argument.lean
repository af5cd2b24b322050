import NilAutotest.GateArgument.Meaning
import NilAutotest.GateArgument.Template
import NilAutotest.Evm.Placement
import NilAutotest.Control.Except

/-!
# The gate argument contract

`evaluate_gates_be` copies the evaluations of the columns out of the proof into arrays,
then calls the two gate libraries, each with its own copy of the arrays. The functions
that find a value in the proof belong to the verifier and are a parameter.

The libraries check no index. They stay within the arrays when there are at least nine
witness columns with three rotations each, one constant column and seventeen selectors;
then the result is the combination of all gates modulo the modulus.
-/

namespace GateArgument

open Evm Batching Control

/-- Why a call reverts: a checked operation of the contract, or the reader of the proof. -/
inductive Failure
  | arithmeticOverflow
  | indexOutOfBounds
  | allocationTooLarge
  | reader
  deriving DecidableEq

/-- `types.gate_argument_params` -/
structure GateParams where
  modulus : Word
  theta : Word

/-- `types.arithmetization_params` -/
structure ArithmetizationParams where
  witnessColumns : Word
  permutationColumns : Word
  constantColumns : Word
  selectorColumns : Word

/-- `get_variable_values_z_i_j_from_proof_be` and `get_fixed_values_z_i_j_from_proof_be` on
the proof at hand. -/
structure ProofReader where
  variableValue : (i j : Nat) → Except Failure Word
  fixedValue : (i j : Nat) → Except Failure Word

/-- `new uint256[](n)`: the elements are filled in later. -/
def allocate (n : Nat) : Except Failure Unit :=
  if n < 2 ^ 64 then .ok () else .error .allocationTooLarge

/-- Checked addition. -/
def checkedAdd (a b : Nat) : Except Failure Nat :=
  if a + b < 2 ^ 256 then .ok (a + b) else .error .arithmeticOverflow

/-- `columns_rotations[i].length` -/
def rotationsLength (columnsRotations : List (List Word)) (i : Nat) : Except Failure Nat :=
  match columnsRotations[i]? with
  | some rotations => .ok rotations.length
  | none => .error .indexOutOfBounds

/-- The first loop: every rotation of every witness column. -/
def loadWitness (reader : ProofReader) (ar : ArithmetizationParams)
    (columnsRotations : List (List Word)) : Except Failure (List (List Word)) := do
  allocate ar.witnessColumns.toNat
  (List.range ar.witnessColumns.toNat).mapM fun i => do
    let length ← rotationsLength columnsRotations i
    allocate length
    (List.range length).mapM (reader.variableValue i)

/-- The second loop: the constant columns behind the permutation polynomials. -/
def loadConstants (reader : ProofReader) (ar : ArithmetizationParams) :
    Except Failure (List Word) := do
  allocate ar.constantColumns.toNat
  (List.range ar.constantColumns.toNat).mapM fun i => do
    let first ← checkedAdd ar.permutationColumns.toNat ar.permutationColumns.toNat
    let index ← checkedAdd first i
    reader.fixedValue index 0

/-- The third loop: the selector columns behind the constant columns. -/
def loadSelectors (reader : ProofReader) (ar : ArithmetizationParams) :
    Except Failure (List Word) := do
  allocate ar.selectorColumns.toNat
  (List.range ar.selectorColumns.toNat).mapM fun i => do
    let first ← checkedAdd ar.permutationColumns.toNat ar.permutationColumns.toNat
    let second ← checkedAdd first ar.constantColumns.toNat
    let index ← checkedAdd second i
    reader.fixedValue index 0

/-- The struct after the three loops. -/
def loadEvaluations (reader : ProofReader) (ar : ArithmetizationParams)
    (columnsRotations : List (List Word)) : Except Failure LocalVars := do
  let witness ← loadWitness reader ar columnsRotations
  let constants ← loadConstants reader ar
  let selectors ← loadSelectors reader ar
  pure {
    constraintEval := 0
    gateEval := 0
    gatesEvaluation := 0
    thetaAcc := 1
    witnessEvaluations := witness
    constantEvaluations := constants
    selectorEvaluations := selectors }

/-! ## The call of a library -/

/-- The first address of decoded arguments. -/
def argumentsBase : Nat := 0x80

def gateParamsPtr : Word := 0x80
def localVarsPtr : Word := 0xc0

/-- The addresses of arrays that follow each other. -/
def pointers (address : Nat) : List (List Word) → List Word
  | [] => []
  | row :: rows => BitVec.ofNat 256 address :: pointers (address + 32 + 32 * row.length) rows

/-- The words that arrays take up. -/
def arraysWords (rows : List (List Word)) : List Word := rows.flatMap arrayWords

/-- The arguments of `evaluate_gate_be`, decoded into the memory of the library. -/
def argumentWords (params : GateParams) (vars : LocalVars) : List Word :=
  let witnessAddress := argumentsBase + 32 * 9
  let rowsAddress := witnessAddress + 32 * (vars.witnessEvaluations.length + 1)
  let constantAddress := rowsAddress + 32 * (arraysWords vars.witnessEvaluations).length
  let selectorAddress := constantAddress + 32 * (vars.constantEvaluations.length + 1)
  [params.modulus, params.theta] ++
    ([vars.constraintEval, vars.gateEval, vars.gatesEvaluation, vars.thetaAcc,
      BitVec.ofNat 256 witnessAddress, BitVec.ofNat 256 constantAddress,
      BitVec.ofNat 256 selectorAddress] ++
    (arrayWords (pointers rowsAddress vars.witnessEvaluations) ++
    (arraysWords vars.witnessEvaluations ++
    (arrayWords vars.constantEvaluations ++ arrayWords vars.selectorEvaluations))))

/-- An external call of `evaluate_gate_be`. Its results replace two members of the struct;
what the library writes stays in its own memory. -/
def callLibrary (gates : List Gate) (params : GateParams) (vars : LocalVars) : LocalVars :=
  let s := evaluateGateBe gates gateParamsPtr localVarsPtr
    (.ofWords argumentsBase (argumentWords params vars))
  { vars with gatesEvaluation := s.gatesEvaluation, thetaAcc := s.thetaAcc }

/-- `evaluate_gates_be` -/
def evaluateGatesBe (reader : ProofReader) (params : GateParams) (ar : ArithmetizationParams)
    (columnsRotations : List (List Word)) : Except Failure Word := do
  let vars ← loadEvaluations reader ar columnsRotations
  let vars := callLibrary templateGate0 params vars
  let vars := callLibrary templateGate15 params vars
  pure vars.gatesEvaluation

/-! ## The arguments in the memory of the library -/

section Placement

variable {base : Nat} {ws : List Word}

/-- Arrays that follow each other in the list of words, at their addresses. -/
theorem arrayAt_pointers {front back : List Word} {rows : List (List Word)} {address : Nat}
    (hws : ws = front ++ (arraysWords rows ++ back)) (ha : address = base + 32 * front.length)
    (fits : base + 32 * ws.length ≤ 2 ^ 256) :
    List.Forall₂ (fun a row => ArrayAt (.ofWords base ws) a row ∧ address ≤ a.toNat)
      (pointers address rows) rows := by
  induction rows generalizing front address with
  | nil => exact .nil
  | cons row rows ih =>
      have next : ws = (front ++ arrayWords row) ++ (arraysWords rows ++ back) := by
        simp [hws, arraysWords]
      have length : ws.length =
          front.length + (row.length + 1) + ((arraysWords rows).length + back.length) := by
        rw [next]
        simp only [List.length_append, length_arrayWords]
      have small : address < 2 ^ 256 := by omega
      have toNat : (BitVec.ofNat 256 address).toNat = address := Nat.mod_eq_of_lt small
      constructor
      · refine ⟨?_, toNat.ge⟩
        apply Memory.arrayAt_ofWords front (arraysWords rows ++ back)
        · simp [hws, arraysWords]
        · rw [toNat, ha]
        · exact fits
      · have tail := @ih (front ++ arrayWords row) (address + 32 + 32 * row.length) next
          (by rw [ha, List.length_append, length_arrayWords]; omega)
        exact tail.imp fun _ _ h => ⟨h.1, by omega⟩

@[simp] theorem length_pointers (address : Nat) (rows : List (List Word)) :
    (pointers address rows).length = rows.length := by
  induction rows generalizing address with
  | nil => rfl
  | cons row rows ih => rw [pointers, List.length_cons, ih, List.length_cons]

end Placement

/-- The arguments have addresses. -/
def Fits (params : GateParams) (vars : LocalVars) : Prop :=
  argumentsBase + 32 * (argumentWords params vars).length ≤ 2 ^ 256

section Arguments

variable {params : GateParams} {vars : LocalVars}

theorem mload_params (params : GateParams) (vars : LocalVars) :
    let m := Memory.ofWords argumentsBase (argumentWords params vars)
    m.mload gateParamsPtr = params.modulus ∧
      m.mload (gateParamsPtr + thetaOffset) = params.theta :=
  ⟨Memory.mload_ofWords (k := 0) rfl rfl, Memory.mload_ofWords (k := 1) rfl rfl⟩

/-- The decoded arguments are a layout of the struct. -/
theorem layout_arguments (fits : Fits params vars) :
    Layout (.ofWords argumentsBase (argumentWords params vars)) localVarsPtr vars := by
  let m := Memory.ofWords argumentsBase (argumentWords params vars)
  let witnessAddress := argumentsBase + 32 * 9
  let rowsAddress := witnessAddress + 32 * (vars.witnessEvaluations.length + 1)
  let constantAddress := rowsAddress + 32 * (arraysWords vars.witnessEvaluations).length
  let selectorAddress := constantAddress + 32 * (vars.constantEvaluations.length + 1)
  let head : List Word := [params.modulus, params.theta, vars.constraintEval, vars.gateEval,
    vars.gatesEvaluation, vars.thetaAcc, BitVec.ofNat 256 witnessAddress,
    BitVec.ofNat 256 constantAddress, BitVec.ofNat 256 selectorAddress]
  let table := arrayWords (pointers rowsAddress vars.witnessEvaluations)
  let columns := arraysWords vars.witnessEvaluations
  let constants := arrayWords vars.constantEvaluations
  let selectors := arrayWords vars.selectorEvaluations
  have words : argumentWords params vars =
      head ++ (table ++ (columns ++ (constants ++ selectors))) := rfl
  have tableLength : table.length = vars.witnessEvaluations.length + 1 := by
    rw [length_arrayWords, length_pointers]
  have columnsLength : columns.length = (arraysWords vars.witnessEvaluations).length := rfl
  have constantsLength : constants.length = vars.constantEvaluations.length + 1 := rfl
  have selectorsLength : selectors.length = vars.selectorEvaluations.length + 1 := rfl
  have headLength : head.length = 9 := rfl
  have length : (argumentWords params vars).length =
      9 + (table.length + (columns.length + (constants.length + selectors.length))) := by
    simp only [words, List.length_append]
    rfl
  have front : (head ++ table).length = 9 + table.length := List.length_append
  have front' : (head ++ table ++ columns).length = 9 + table.length + columns.length := by
    rw [List.length_append, front]
  have front'' : (head ++ table ++ columns ++ constants).length =
      9 + table.length + columns.length + constants.length := by
    rw [List.length_append, front']
  have bound : argumentsBase + 32 * (argumentWords params vars).length ≤ 2 ^ 256 := fits
  have start : argumentsBase = 0x80 := rfl
  have ptr : localVarsPtr.toNat = 0xc0 := rfl
  have toNat : ∀ address, address < 2 ^ 256 → (BitVec.ofNat 256 address).toNat = address :=
    fun _ => Nat.mod_eq_of_lt
  have hw := toNat witnessAddress (by omega)
  have hc := toNat constantAddress (by omega)
  have hs := toNat selectorAddress (by omega)
  have witnessPointer : m.mload (localVarsPtr + witnessEvaluationsOffset) =
      BitVec.ofNat 256 witnessAddress := Memory.mload_ofWords (k := 6) rfl rfl
  have constantPointer : m.mload (localVarsPtr + constantEvaluationsOffset) =
      BitVec.ofNat 256 constantAddress := Memory.mload_ofWords (k := 7) rfl rfl
  have selectorPointer : m.mload (localVarsPtr + selectorEvaluationsOffset) =
      BitVec.ofNat 256 selectorAddress := Memory.mload_ofWords (k := 8) rfl rfl
  constructor
  · rw [ptr]
    norm_num
  · exact Memory.mload_ofWords (k := 4) rfl rfl
  · exact Memory.mload_ofWords (k := 5) rfl rfl
  · refine ⟨pointers rowsAddress vars.witnessEvaluations, ?_, ?_⟩
    · rw [witnessPointer]
      refine ⟨Memory.arrayAt_ofWords head _ words ?_ bound, .inr ?_⟩
      · rw [hw, headLength]
      · rw [ptr, hw]
        decide
    · have rows := arrayAt_pointers (words.trans (List.append_assoc ..).symm)
        (show rowsAddress = _ by rw [front, tableLength]; omega) bound
      refine rows.imp fun a row h => ⟨h.1, .inr ?_⟩
      have above : rowsAddress ≤ a.toNat := h.2
      rw [ptr]
      omega
  · rw [constantPointer]
    refine ⟨Memory.arrayAt_ofWords (head ++ table ++ columns) selectors ?_ ?_ bound,
      .inr (by omega)⟩
    · rw [words, List.append_assoc, List.append_assoc]
    · rw [hc, front']
      omega
  · rw [selectorPointer]
    refine ⟨Memory.arrayAt_ofWords (head ++ table ++ columns ++ constants) [] ?_ ?_ bound,
      .inr (by omega)⟩
    · simp only [words, List.append_assoc, List.append_nil, selectors]
    · rw [hs, front'']
      omega

end Arguments

/-! ## The evaluations from the proof -/

/-- The struct is filled with the values of `value`. -/
structure Reads (reader : ProofReader) (ar : ArithmetizationParams)
    (columnsRotations : List (List Word)) (value : Cell → Word) : Prop where
  witnessSize : ar.witnessColumns.toNat < 2 ^ 64
  constantSize : ar.constantColumns.toNat < 2 ^ 64
  selectorSize : ar.selectorColumns.toNat < 2 ^ 64
  witness : ∀ i < ar.witnessColumns.toNat, ∃ rotations, columnsRotations[i]? = some rotations ∧
    rotations.length < 2 ^ 64 ∧
    ∀ j < rotations.length, reader.variableValue i j = .ok (value (.witness i j))
  constant : ∀ i < ar.constantColumns.toNat,
    let index := ar.permutationColumns.toNat + ar.permutationColumns.toNat + i
    index < 2 ^ 256 ∧ reader.fixedValue index 0 = .ok (value (.constant i))
  selector : ∀ i < ar.selectorColumns.toNat,
    let index := ar.permutationColumns.toNat + ar.permutationColumns.toNat +
      ar.constantColumns.toNat + i
    index < 2 ^ 256 ∧ reader.fixedValue index 0 = .ok (value (.selector i))

/-- The columns that the gates read. -/
structure Covers (ar : ArithmetizationParams) (columnsRotations : List (List Word)) : Prop where
  witness : 9 ≤ ar.witnessColumns.toNat
  rotations : ∀ i < 9, ∀ rotations, columnsRotations[i]? = some rotations → 3 ≤ rotations.length
  constant : 1 ≤ ar.constantColumns.toNat
  selector : 17 ≤ ar.selectorColumns.toNat

/-- The evaluations of the columns as the loops leave them. -/
def evaluations (ar : ArithmetizationParams) (columnsRotations : List (List Word))
    (value : Cell → Word) : LocalVars where
  constraintEval := 0
  gateEval := 0
  gatesEvaluation := 0
  thetaAcc := 1
  witnessEvaluations := (List.range ar.witnessColumns.toNat).map fun i =>
    (List.range (columnsRotations[i]?.getD []).length).map fun j => value (.witness i j)
  constantEvaluations := (List.range ar.constantColumns.toNat).map fun i => value (.constant i)
  selectorEvaluations := (List.range ar.selectorColumns.toNat).map fun i => value (.selector i)

theorem allocate_eq_ok {n : Nat} : allocate n = .ok () ↔ n < 2 ^ 64 := by
  unfold allocate
  split
  · exact ⟨fun _ => ‹_›, fun _ => rfl⟩
  · exact ⟨nofun, fun small => absurd small ‹_›⟩

theorem checkedAdd_eq_ok {a b c : Nat} : checkedAdd a b = .ok c ↔ a + b < 2 ^ 256 ∧ a + b = c := by
  unfold checkedAdd
  split
  · exact ⟨fun h => ⟨‹_›, Except.ok.inj h⟩, fun h => congrArg _ h.2⟩
  · exact ⟨nofun, fun h => absurd h.1 ‹_›⟩

theorem rotationsLength_eq_ok {columnsRotations : List (List Word)} {i n : Nat} :
    rotationsLength columnsRotations i = .ok n ↔
      ∃ rotations, columnsRotations[i]? = some rotations ∧ rotations.length = n := by
  unfold rotationsLength
  split <;> simp [*]

section Loading

variable {reader : ProofReader} {ar : ArithmetizationParams} {columnsRotations : List (List Word)}
variable {value : Cell → Word}

theorem Reads.loadWitness_eq (h : Reads reader ar columnsRotations value) :
    loadWitness reader ar columnsRotations =
      .ok (evaluations ar columnsRotations value).witnessEvaluations := by
  rw [loadWitness, bind_eq_ok]
  refine ⟨(), allocate_eq_ok.mpr h.witnessSize, mapM_eq_ok_map fun i hi => ?_⟩
  obtain ⟨rotations, column, size, values⟩ := h.witness i (List.mem_range.mp hi)
  rw [column, Option.getD_some]
  refine bind_eq_ok.mpr ⟨_, rotationsLength_eq_ok.mpr ⟨rotations, column, rfl⟩, ?_⟩
  refine bind_eq_ok.mpr ⟨(), allocate_eq_ok.mpr size, ?_⟩
  exact mapM_eq_ok_map fun j hj => values j (List.mem_range.mp hj)

theorem Reads.loadConstants_eq (h : Reads reader ar columnsRotations value) :
    loadConstants reader ar = .ok (evaluations ar columnsRotations value).constantEvaluations := by
  rw [loadConstants, bind_eq_ok]
  refine ⟨(), allocate_eq_ok.mpr h.constantSize, mapM_eq_ok_map fun i hi => ?_⟩
  obtain ⟨bound, read⟩ := h.constant i (List.mem_range.mp hi)
  refine bind_eq_ok.mpr ⟨_, checkedAdd_eq_ok.mpr ⟨by omega, rfl⟩, ?_⟩
  exact bind_eq_ok.mpr ⟨_, checkedAdd_eq_ok.mpr ⟨bound, rfl⟩, read⟩

theorem Reads.loadSelectors_eq (h : Reads reader ar columnsRotations value) :
    loadSelectors reader ar = .ok (evaluations ar columnsRotations value).selectorEvaluations := by
  rw [loadSelectors, bind_eq_ok]
  refine ⟨(), allocate_eq_ok.mpr h.selectorSize, mapM_eq_ok_map fun i hi => ?_⟩
  obtain ⟨bound, read⟩ := h.selector i (List.mem_range.mp hi)
  refine bind_eq_ok.mpr ⟨_, checkedAdd_eq_ok.mpr ⟨by omega, rfl⟩, ?_⟩
  refine bind_eq_ok.mpr ⟨_, checkedAdd_eq_ok.mpr ⟨by omega, rfl⟩, ?_⟩
  exact bind_eq_ok.mpr ⟨_, checkedAdd_eq_ok.mpr ⟨bound, rfl⟩, read⟩

theorem Reads.loadEvaluations_eq (h : Reads reader ar columnsRotations value) :
    loadEvaluations reader ar columnsRotations = .ok (evaluations ar columnsRotations value) := by
  rw [loadEvaluations, bind_eq_ok]
  refine ⟨_, h.loadWitness_eq, bind_eq_ok.mpr ⟨_, h.loadConstants_eq, ?_⟩⟩
  exact bind_eq_ok.mpr ⟨_, h.loadSelectors_eq, rfl⟩

/-- The value that a reader returns. -/
def valueOf (x : Except Failure Word) : Word := x.toOption.getD 0

theorem eq_ok_valueOf {x : Except Failure Word} (h : ∃ v, x = .ok v) : x = .ok (valueOf x) := by
  obtain ⟨v, rfl⟩ := h
  rfl

/-- The values of the cells at the places where the loops read them. -/
def ProofReader.cell (reader : ProofReader) (ar : ArithmetizationParams) : Cell → Word
  | .witness i j => valueOf (reader.variableValue i j)
  | .constant i => valueOf
      (reader.fixedValue (ar.permutationColumns.toNat + ar.permutationColumns.toNat + i) 0)
  | .selector i => valueOf
      (reader.fixedValue (ar.permutationColumns.toNat + ar.permutationColumns.toNat +
        ar.constantColumns.toNat + i) 0)

/-- If the loops end normally, they have read everything. -/
theorem reads_of_loadEvaluations {vars : LocalVars}
    (h : loadEvaluations reader ar columnsRotations = .ok vars) :
    Reads reader ar columnsRotations (reader.cell ar) := by
  obtain ⟨witness, hw, h⟩ := bind_eq_ok.mp h
  obtain ⟨constants, hc, h⟩ := bind_eq_ok.mp h
  obtain ⟨selectors, hs, -⟩ := bind_eq_ok.mp h
  obtain ⟨⟨⟩, witnessSize, rows⟩ := bind_eq_ok.mp hw
  obtain ⟨⟨⟩, constantSize, constants⟩ := bind_eq_ok.mp hc
  obtain ⟨⟨⟩, selectorSize, selectors⟩ := bind_eq_ok.mp hs
  constructor
  · exact allocate_eq_ok.mp witnessSize
  · exact allocate_eq_ok.mp constantSize
  · exact allocate_eq_ok.mp selectorSize
  · intro i hi
    obtain ⟨row, h⟩ := exists_mapM_eq_ok.mp ⟨_, rows⟩ i (List.mem_range.mpr hi)
    obtain ⟨length, hlength, h⟩ := bind_eq_ok.mp h
    obtain ⟨⟨⟩, size, h⟩ := bind_eq_ok.mp h
    obtain ⟨rotations, column, rfl⟩ := rotationsLength_eq_ok.mp hlength
    refine ⟨rotations, column, allocate_eq_ok.mp size, fun j hj => ?_⟩
    exact eq_ok_valueOf (exists_mapM_eq_ok.mp ⟨_, h⟩ j (List.mem_range.mpr hj))
  · intro i hi
    obtain ⟨v, h⟩ := exists_mapM_eq_ok.mp ⟨_, constants⟩ i (List.mem_range.mpr hi)
    obtain ⟨first, hfirst, h⟩ := bind_eq_ok.mp h
    obtain ⟨-, rfl⟩ := checkedAdd_eq_ok.mp hfirst
    obtain ⟨index, hindex, h⟩ := bind_eq_ok.mp h
    obtain ⟨bound, rfl⟩ := checkedAdd_eq_ok.mp hindex
    exact ⟨bound, eq_ok_valueOf ⟨v, h⟩⟩
  · intro i hi
    obtain ⟨v, h⟩ := exists_mapM_eq_ok.mp ⟨_, selectors⟩ i (List.mem_range.mpr hi)
    obtain ⟨first, hfirst, h⟩ := bind_eq_ok.mp h
    obtain ⟨-, rfl⟩ := checkedAdd_eq_ok.mp hfirst
    obtain ⟨second, hsecond, h⟩ := bind_eq_ok.mp h
    obtain ⟨-, rfl⟩ := checkedAdd_eq_ok.mp hsecond
    obtain ⟨index, hindex, h⟩ := bind_eq_ok.mp h
    obtain ⟨bound, rfl⟩ := checkedAdd_eq_ok.mp hindex
    exact ⟨bound, eq_ok_valueOf ⟨v, h⟩⟩

end Loading

/-! ## Both libraries on the evaluations -/

section Template

variable {reader : ProofReader} {ar : ArithmetizationParams} {columnsRotations : List (List Word)}
variable {value : Cell → Word} {params : GateParams}

/-- The columns that the template has. -/
def Cell.InTemplate : Cell → Prop
  | .witness idx rotIdx => idx < 9 ∧ rotIdx < 3
  | .constant idx => idx < 1
  | .selector idx => idx < 17

instance : DecidablePred Cell.InTemplate
  | .witness idx rotIdx => inferInstanceAs (Decidable (idx < 9 ∧ rotIdx < 3))
  | .constant idx => inferInstanceAs (Decidable (idx < 1))
  | .selector idx => inferInstanceAs (Decidable (idx < 17))

theorem template_cells :
    ∀ c ∈ (templateGate0 ++ templateGate15).flatMap Gate.cells, c.InTemplate := by
  decide +kernel

theorem length_template_constraints :
    ((templateGate0 ++ templateGate15).flatMap Gate.constraints).length = 57 := by
  decide +kernel

/-- The libraries read within the arrays. -/
theorem cell?_evaluations (reads : Reads reader ar columnsRotations value)
    (covers : Covers ar columnsRotations) :
    ∀ c ∈ (templateGate0 ++ templateGate15).flatMap Gate.cells,
      (evaluations ar columnsRotations value).cell? c = some (value c) := by
  intro c hc
  have bounds := template_cells c hc
  have element : ∀ {n k : Nat} (f : Nat → Word), k < n →
      ((List.range n).map f)[k]? = some (f k) := by
    intro n k f hk
    rw [List.getElem?_map, List.getElem?_range hk, Option.map_some]
  cases c with
  | witness idx rotIdx =>
      obtain ⟨hidx, hrot⟩ := bounds
      have column : idx < ar.witnessColumns.toNat := hidx.trans_le covers.witness
      obtain ⟨rotations, found, -, -⟩ := reads.witness idx column
      have length := covers.rotations idx hidx rotations found
      rw [LocalVars.cell?, evaluations, List.getElem?_map, List.getElem?_range column,
        Option.map_some, Option.bind_some, found, Option.getD_some]
      exact element (fun j => value (.witness idx j)) (by omega)
  | constant idx =>
      have column : idx < 1 := bounds
      exact element (fun i => value (.constant i)) (column.trans_le covers.constant)
  | selector idx =>
      have column : idx < 17 := bounds
      exact element (fun i => value (.selector i)) (column.trans_le covers.selector)

theorem length_arraysWords_le {rows : List (List Word)} {n : Nat}
    (h : ∀ row ∈ rows, row.length < n) : (arraysWords rows).length ≤ rows.length * n := by
  induction rows with
  | nil => simp [arraysWords]
  | cons row rows ih =>
      have first := h row List.mem_cons_self
      have rest := ih fun row hrow => h row (List.mem_cons_of_mem _ hrow)
      have shape : arraysWords (row :: rows) = arrayWords row ++ arraysWords rows := rfl
      rw [shape, List.length_append, length_arrayWords, List.length_cons, Nat.succ_mul]
      omega

/-- The struct after a library has returned. -/
def LocalVars.goOn (vars : LocalVars) (acc : Word × Word) : LocalVars :=
  { vars with gatesEvaluation := acc.1, thetaAcc := acc.2 }

/-- The evaluations have addresses. -/
theorem fits_evaluations (reads : Reads reader ar columnsRotations value) (acc : Word × Word) :
    Fits params ((evaluations ar columnsRotations value).goOn acc) := by
  let rows := (evaluations ar columnsRotations value).witnessEvaluations
  have count : rows.length = ar.witnessColumns.toNat := by
    simp only [rows, evaluations, List.length_map, List.length_range]
  have columns : (arraysWords rows).length ≤ rows.length * 2 ^ 64 := by
    apply length_arraysWords_le
    intro row hrow
    obtain ⟨i, hi, rfl⟩ := List.mem_map.mp hrow
    obtain ⟨rotations, found, size, -⟩ := reads.witness i (List.mem_range.mp hi)
    rwa [found, Option.getD_some, List.length_map, List.length_range]
  have total : (argumentWords params ((evaluations ar columnsRotations value).goOn acc)).length =
      9 + (rows.length + 1 + ((arraysWords rows).length +
        (ar.constantColumns.toNat + 1 + (ar.selectorColumns.toNat + 1)))) := by
    simp only [argumentWords, List.length_append, length_arrayWords, length_pointers, rows,
      evaluations, LocalVars.goOn, List.length_map, List.length_range, List.length_cons,
      List.length_nil]
    omega
  have start : argumentsBase = 0x80 := rfl
  have := reads.witnessSize
  have := reads.constantSize
  have := reads.selectorSize
  rw [Fits, total]
  omega

/-- A call of a library goes on from the sum and the power of `theta` in the struct. -/
theorem callLibrary_eq (params : GateParams) (reads : Reads reader ar columnsRotations value)
    {gates : List Gate} (cells : ∀ c ∈ gates.flatMap Gate.cells,
      (evaluations ar columnsRotations value).cell? c = some (value c)) (acc : Word × Word) :
    callLibrary gates params ((evaluations ar columnsRotations value).goOn acc) =
      (evaluations ar columnsRotations value).goOn
        (gates.foldl (evaluateGate params.modulus params.theta value) acc) := by
  let vars := (evaluations ar columnsRotations value).goOn acc
  obtain ⟨result, -⟩ := evaluateGateBe_eq gateParamsPtr
    (layout_arguments (fits_evaluations reads acc)) cells
  obtain ⟨modulus, theta⟩ := mload_params params vars
  rw [modulus, theta] at result
  exact congrArg (evaluations ar columnsRotations value).goOn result

/-- The contract returns the evaluation of all gates on the values in the proof. -/
theorem evaluateGatesBe_eq_ok (reads : Reads reader ar columnsRotations value)
    (covers : Covers ar columnsRotations) :
    evaluateGatesBe reader params ar columnsRotations =
      .ok ((templateGate0 ++ templateGate15).foldl
        (evaluateGate params.modulus params.theta value) (0, 1)).1 := by
  have cells := cell?_evaluations reads covers
  rw [List.flatMap_append, List.forall_mem_append] at cells
  have first := callLibrary_eq params reads cells.1 (0, 1)
  have second := callLibrary_eq params reads cells.2
  refine bind_eq_ok.mpr ⟨(evaluations ar columnsRotations value).goOn (0, 1),
    reads.loadEvaluations_eq, ?_⟩
  simp only [first, second]
  rw [List.foldl_append]
  rfl

/-- The contract returns, instead of reverting, exactly if it has read all columns. -/
theorem exists_evaluateGatesBe_iff :
    (∃ v, evaluateGatesBe reader params ar columnsRotations = .ok v) ↔
      Reads reader ar columnsRotations (reader.cell ar) := by
  constructor
  · rintro ⟨v, h⟩
    obtain ⟨vars, loaded, -⟩ := bind_eq_ok.mp h
    exact reads_of_loadEvaluations loaded
  · intro reads
    exact ⟨_, bind_eq_ok.mpr ⟨_, reads.loadEvaluations_eq, rfl⟩⟩

end Template

end GateArgument
