import NilAutotest.Tasks.Format
import NilAutotest.Tasks.Params

/-!
# Reading the flat parameters back

A well-formed parameter file describes ten integers and lists of integers. Its flat list
is read back by six scalars and three counted runs: each count that is pushed is the
number of entries that the following loop pushes, whatever the entries are. So no two
files with different contents are flattened to the same parameters.
-/

namespace Tasks

open JavaScript Codec Control

/-- An integer of a document, without fraction and exponent. -/
def IsInt (j : Json) (n : Int) : Prop :=
  ∃ l : NumberLiteral, j = .num l ∧ l.IsInteger ∧ l.value = n

/-- An array of integers. -/
def IsInts (j : Json) (ns : List Int) : Prop :=
  ∃ elements, j = .arr elements ∧ List.Forall₂ IsInt elements ns

/-- An array of arrays of integers. -/
def IsTable (j : Json) (rows : List (List Int)) : Prop :=
  ∃ elements, j = .arr elements ∧ List.Forall₂ IsInts elements rows

/-- A member of a document with its contents. -/
def Holds {α : Type} (document : Json) (name : String) (Is : Json → α → Prop) (a : α) : Prop :=
  ∃ j, document.member? name = some j ∧ Is j a

/-- A well-formed parameter file and its contents. -/
structure Describes (document : Json) (cp : CircuitParams) : Prop where
  modulus : Holds document "modulus" IsInt cp.modulus
  r : Holds document "r" IsInt cp.r
  maxDegree : Holds document "max_degree" IsInt cp.maxDegree
  lambda : Holds document "lambda" IsInt cp.lambda
  rowsAmount : Holds document "rows_amount" IsInt cp.rowsAmount
  omega : Holds document "omega" IsInt cp.omega
  dOmegas : Holds document "D_omegas" IsInts cp.dOmegas
  stepList : Holds document "step_list" IsInts cp.stepList
  arithmetizationParams :
    Holds document "arithmetization_params" IsInts cp.arithmetizationParams
  columnsRotations : Holds document "columns_rotations" IsTable cp.columnsRotations

/-- A file with given contents. -/
def CircuitParams.document (cp : CircuitParams) : Json :=
  let int (n : Int) : Json := .num (.ofInt n)
  let ints (ns : List Int) : Json := .arr (ns.map int)
  .obj (([("modulus", int cp.modulus), ("r", int cp.r), ("max_degree", int cp.maxDegree),
    ("lambda", int cp.lambda), ("rows_amount", int cp.rowsAmount), ("omega", int cp.omega),
    ("D_omegas", ints cp.dOmegas), ("step_list", ints cp.stepList),
    ("arithmetization_params", ints cp.arithmetizationParams),
    ("columns_rotations", .arr (cp.columnsRotations.map ints))] : List (String × Json)).map
      fun (name, j) => (units name.toList, j))

theorem isInt_ofInt (n : Int) : IsInt (.num (.ofInt n)) n :=
  ⟨.ofInt n, rfl, NumberLiteral.isInteger_ofInt n, NumberLiteral.value_ofInt n⟩

/-- The elements of an array that are built from their contents. -/
theorem forall₂_map {α : Type} {Is : Json → α → Prop} {build : α → Json}
    (h : ∀ a, Is (build a) a) (as : List α) : List.Forall₂ Is (as.map build) as := by
  rw [List.forall₂_map_left_iff, List.forall₂_same]
  intro a _
  exact h a

theorem isInts_ofInts (ns : List Int) : IsInts (.arr (ns.map fun n => .num (.ofInt n))) ns :=
  ⟨_, rfl, forall₂_map isInt_ofInt ns⟩

/-- Every contents has a file. -/
theorem describes_document (cp : CircuitParams) : Describes cp.document cp where
  modulus := ⟨_, rfl, isInt_ofInt _⟩
  r := ⟨_, rfl, isInt_ofInt _⟩
  maxDegree := ⟨_, rfl, isInt_ofInt _⟩
  lambda := ⟨_, rfl, isInt_ofInt _⟩
  rowsAmount := ⟨_, rfl, isInt_ofInt _⟩
  omega := ⟨_, rfl, isInt_ofInt _⟩
  dOmegas := ⟨_, rfl, isInts_ofInts _⟩
  stepList := ⟨_, rfl, isInts_ofInts _⟩
  arithmetizationParams := ⟨_, rfl, isInts_ofInts _⟩
  columnsRotations := ⟨_, rfl, _, rfl, forall₂_map isInts_ofInts _⟩

/-- What is loaded for the contents of a file. -/
def CircuitParams.load (cp : CircuitParams) : Params where
  initParams := cp.flatten .bigint (.bigint cp.dOmegas.length) (.number cp.stepList.length)
    (.number cp.arithmetizationParams.length)
  columnsRotations := cp.columnsRotations

/-! ## Loading a well-formed file -/

variable {L : LosslessNumber}

theorem get_of_member? {document j : Json} {name : String} (h : document.member? name = some j) :
    (Value.json document).get name = .ok (.json j) := by
  rw [Value.get_of_member? h, h]
  rfl

theorem IsInt.bigIntOfValue {j : Json} {n : Int} (h : IsInt j n) :
    bigIntOfValue L (.json j) = .ok n := by
  obtain ⟨l, rfl, integer, rfl⟩ := h
  show stringToBigInt (units l.text) = .ok l.value
  rw [NumberLiteral.stringToBigInt_text, if_pos integer]

theorem Holds.scalar {document : Json} {name : String} {n : Int}
    (h : Holds document name IsInt n) : scalar L (.json document) name = .ok n := by
  obtain ⟨j, member, int⟩ := h
  rw [Tasks.scalar, get_of_member? member]
  exact int.bigIntOfValue

/-- A loop over the elements of an array. -/
theorem mapM_entries_arr {α : Type} {f : Value → Except Error α} {Is : Json → α → Prop}
    (h : ∀ j a, Is j a → f (.json j) = .ok a) {elements : List Json} {as : List α}
    (elementwise : List.Forall₂ Is elements as) :
    (Value.json (.arr elements)).entries.mapM f = .ok as := by
  rw [mapM_eq_ok, Value.entries, List.forall₂_map_left_iff]
  exact elementwise.imp h

theorem IsInts.bigInts {j : Json} {ns : List Int} (h : IsInts j ns) :
    bigInts L (.json j) = .ok ns := by
  obtain ⟨elements, rfl, ints⟩ := h
  exact mapM_entries_arr (fun _ _ => IsInt.bigIntOfValue) ints

theorem IsInts.length {j : Json} {ns : List Int} (h : IsInts j ns) :
    (Value.json j).get "length" = .ok (.number ns.length) := by
  obtain ⟨elements, rfl, ints⟩ := h
  rw [← ints.length_eq]
  rfl

theorem IsTable.rows {j : Json} {rows : List (List Int)} (h : IsTable j rows) :
    (Value.json j).entries.mapM (Tasks.bigInts L) = .ok rows := by
  obtain ⟨elements, rfl, ints⟩ := h
  exact mapM_entries_arr (fun _ _ => IsInts.bigInts) ints

/-- A well-formed file is loaded. -/
theorem Describes.load {document : Json} {cp : CircuitParams} (h : Describes document cp) :
    loadParamsFromFile L document = .ok cp.load := by
  obtain ⟨dOmegas, hd, intsD⟩ := h.dOmegas
  obtain ⟨stepList, hs, intsS⟩ := h.stepList
  obtain ⟨arithmetizationParams, ha, intsA⟩ := h.arithmetizationParams
  obtain ⟨columnsRotations, hc, table⟩ := h.columnsRotations
  simp only [loadParamsFromFile, h.modulus.scalar, h.r.scalar, h.maxDegree.scalar,
    h.lambda.scalar, h.rowsAmount.scalar, h.omega.scalar, get_of_member? hd, get_of_member? hs,
    get_of_member? ha, get_of_member? hc, intsD.length, intsS.length, intsA.length,
    intsD.bigInts, intsS.bigInts, intsA.bigInts, table.rows, bigInt, bind, Except.bind]
  rfl

/-! ## Reading it back -/

/-- A big integer or a plain number. -/
def int? : Value → Option Int
  | .number n => some n
  | .bigint n => some n
  | _ => none

/-- A count. -/
def count? (v : Value) : Option Nat :=
  match int? v with
  | some n => if 0 ≤ n then some n.toNat else none
  | none => none

/-- The flat list, read from the left. -/
def initParamsReader : Reader Value (List Int × List Int × List Int × List Int) :=
  paramsReader int? count?

theorem reads_load (cp : CircuitParams) :
    Reads initParamsReader cp.flat cp.load.initParams := by
  apply reads_flatten
  · simp [count?, int?]
  · simp [count?, int?]
  · simp [count?, int?]
  · intro n _
    rfl

theorem read_load (cp : CircuitParams) :
    initParamsReader cp.load.initParams = some (cp.flat, []) := by
  have read := reads_load cp []
  rwa [List.append_nil] at read

/-- What is loaded determines the contents of the file. -/
theorem load_injective : Function.Injective CircuitParams.load := by
  intro cp' cp same
  have flat : cp'.flat = cp.flat := by
    apply (reads_load cp').unique
    rw [same]
    exact reads_load cp
  have rotations : cp'.columnsRotations = cp.columnsRotations :=
    congrArg Params.columnsRotations same
  cases cp
  cases cp'
  simp only [CircuitParams.flat, CircuitParams.scalars, Prod.mk.injEq, List.cons.injEq] at flat
  simp_all

/-- Two well-formed files are loaded to the parameters of a state: each flat list is read back
to the end, and no two files with other contents are loaded to the same parameters. -/
theorem getStateVerifierParams_decodable (L : LosslessNumber) {baseParams scalarParams : Json}
    {base scalars : CircuitParams} (hbase : Describes baseParams base)
    (hscalars : Describes scalarParams scalars) :
    ∃ baseInit scalarsInit,
      getStateVerifierParams L baseParams scalarParams =
        .ok ⟨[[.number 26048, .number 22920], baseInit, scalarsInit],
          [base.columnsRotations, scalars.columnsRotations]⟩ ∧
      initParamsReader baseInit = some (base.flat, []) ∧
      initParamsReader scalarsInit = some (scalars.flat, []) ∧
      ∀ baseParams' scalarParams' base' scalars', Describes baseParams' base' →
        Describes scalarParams' scalars' →
        getStateVerifierParams L baseParams' scalarParams' =
          getStateVerifierParams L baseParams scalarParams →
        base' = base ∧ scalars' = scalars := by
  have loaded : ∀ {p q : Json} {b s : CircuitParams}, Describes p b → Describes q s →
      getStateVerifierParams L p q = .ok
        ⟨[[.number 26048, .number 22920], b.load.initParams, s.load.initParams],
          [b.columnsRotations, s.columnsRotations]⟩ := by
    intro p q b s hp hq
    simp only [getStateVerifierParams, hp.load, hq.load, bind, Except.bind]
    rfl
  refine ⟨_, _, loaded hbase hscalars, read_load base, read_load scalars, ?_⟩
  intro baseParams' scalarParams' base' scalars' hbase' hscalars' same
  rw [loaded hbase hscalars, loaded hbase' hscalars'] at same
  simp only [Except.ok.injEq, StateParams.mk.injEq, List.cons.injEq, and_true, true_and] at same
  obtain ⟨⟨baseInit, scalarsInit⟩, baseRotations, scalarsRotations⟩ := same
  have whole : ∀ {b b' : CircuitParams}, b'.load.initParams = b.load.initParams →
      b'.columnsRotations = b.columnsRotations → b' = b := by
    intro b b' init rotations
    apply load_injective
    simp only [CircuitParams.load] at init ⊢
    rw [init, rotations]
  exact ⟨whole baseInit baseRotations, whole scalarsInit scalarsRotations⟩

/-- Two files in which entries and counts look alike. -/
theorem getStateVerifierParams_decodable_sample :
    let base : CircuitParams := ⟨-7, 1, 2, 3, 0, 1, [2, 1], [], [1, 0], [[-1, 0], []]⟩
    let scalars : CircuitParams := ⟨-7, 1, 2, 3, 0, 1, [2], [1, 1], [0], [[-1], [0]]⟩
    ∃ baseInit scalarsInit,
      getStateVerifierParams .ofText base.document scalars.document =
        .ok ⟨[[.number 26048, .number 22920], baseInit, scalarsInit],
          [[[-1, 0], []], [[-1], [0]]]⟩ ∧
      initParamsReader baseInit = some (([-7, 1, 2, 3, 0, 1], [2, 1], [], [1, 0]), []) ∧
      initParamsReader scalarsInit = some (([-7, 1, 2, 3, 0, 1], [2], [1, 1], [0]), []) ∧
      ∀ baseParams' scalarParams' base' scalars', Describes baseParams' base' →
        Describes scalarParams' scalars' →
        getStateVerifierParams .ofText baseParams' scalarParams' =
          getStateVerifierParams .ofText base.document scalars.document →
        base' = base ∧ scalars' = scalars :=
  getStateVerifierParams_decodable .ofText (describes_document _) (describes_document _)

/-- A well-formed file is loaded, its flat list is read back to the end, and no file with
other contents is loaded to the same parameters. -/
theorem loadParamsFromFile_decodable (L : LosslessNumber) {document : Json} {cp : CircuitParams}
    (h : Describes document cp) :
    ∃ params, loadParamsFromFile L document = .ok params ∧
      initParamsReader params.initParams = some (cp.flat, []) ∧
      params.columnsRotations = cp.columnsRotations ∧
      ∀ document' cp', Describes document' cp' →
        loadParamsFromFile L document' = .ok params → cp' = cp := by
  refine ⟨cp.load, h.load, read_load cp, rfl, ?_⟩
  intro document' cp' h' loaded
  apply load_injective
  exact Except.ok.inj (h'.load.symm.trans loaded)

/-- A file in which entries and counts look alike. -/
theorem loadParamsFromFile_decodable_sample :
    let cp : CircuitParams := ⟨-7, 1, 2, 3, 0, 1, [2, 1], [], [1, 0], [[-1, 0], []]⟩
    ∃ params, loadParamsFromFile .ofText cp.document = .ok params ∧
      initParamsReader params.initParams = some (([-7, 1, 2, 3, 0, 1], [2, 1], [], [1, 0]), []) ∧
      params.columnsRotations = [[-1, 0], []] ∧
      ∀ document' cp', Describes document' cp' →
        loadParamsFromFile .ofText document' = .ok params → cp' = cp :=
  loadParamsFromFile_decodable .ofText (describes_document _)

end Tasks
