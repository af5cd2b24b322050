import NilAutotest.Circuit.Verifier
import NilAutotest.Circuit.Computed
import NilAutotest.Domain.Bounded
import NilAutotest.Control.Except

/-!
# The gate argument of the prover

The prover resizes the columns once and adds up the gates with the powers of the challenge.
Its loops go in step with those of the verifier: at every point the polynomial has the value
that the verifier computes from the evaluations of the columns there, for the constraints as
the prover computes them.
-/

namespace Circuit

open Domain Polynomial

/-! ## The degree -/

section Degree

variable {F : Type*} {system : ConstraintSystem F}

/-- The degree that the preprocessor finds: the largest one of all constraints, the inputs of the
lookups included, in thirty-two bits. -/
def ConstraintSystem.maxGatesDegree (system : ConstraintSystem F) : UInt32 :=
  let gates := system.gates.flatMap PlonkGate.constraints
  let lookups := system.lookupGates.flatMap fun gate => gate.flatMap id
  (gates ++ lookups).foldl (fun degree constraint => max degree constraint.computeMaxDegree) 0

theorem degree_le_maxGatesDegree {gate : PlonkGate F} (hgate : gate ∈ system.gates)
    {constraint : Expression PlonkVariable F} (h : constraint ∈ gate.constraints)
    (positive : constraint.Positive) (small : constraint.degree < 2 ^ 32) :
    constraint.degree ≤ system.maxGatesDegree.toNat := by
  have loop : ∀ (constraints : List (Expression PlonkVariable F)) (start : UInt32),
      let result := constraints.foldl (fun degree c => max degree c.computeMaxDegree) start
      start.toNat ≤ result.toNat ∧
        ∀ c ∈ constraints, c.computeMaxDegree.toNat ≤ result.toNat := by
    intro constraints
    induction constraints with
    | nil => exact fun start => ⟨le_rfl, nofun⟩
    | cons c constraints ih =>
        intro start
        obtain ⟨first, rest⟩ := ih (max start c.computeMaxDegree)
        rw [UInt32.toNat_max, max_le_iff] at first
        exact ⟨first.1, List.forall_mem_cons.mpr ⟨first.2, rest⟩⟩
  rw [← constraint.toNat_computeMaxDegree positive small]
  exact (loop _ 0).2 constraint
    (List.mem_append_left _ (List.mem_flatMap.mpr ⟨gate, hgate, h⟩))

end Degree

/-! ## The columns -/

/-- `plonk_polynomial_dfs_table` -/
structure PolynomialTable (F : Type*) where
  witnesses : List (PolynomialDfs F)
  publicInputs : List (PolynomialDfs F)
  constants : List (PolynomialDfs F)
  selectors : List (PolynomialDfs F)

namespace PolynomialTable

variable {F : Type*}

def column (table : PolynomialTable F) : ColumnType → List (PolynomialDfs F)
  | .witness => table.witnesses
  | .publicInput => table.publicInputs
  | .constant => table.constants
  | .selector => table.selectors

def description (table : PolynomialTable F) : TableDescription :=
  ⟨table.witnesses.length, table.publicInputs.length, table.constants.length,
    table.selectors.length⟩

/-- `rows_amount` -/
def rowsAmount (table : PolynomialTable F) : Nat :=
  (table.witnesses ++ table.publicInputs ++ table.constants ++ table.selectors).foldl
    (fun rowsAmount column => max rowsAmount column.size) 0

/-- Every column has `2 ^ k` values, and the degree `d`. The preprocessor makes the columns from
the values in the rows, so their degree is one less than the number of rows. -/
structure HasShape (table : PolynomialTable F) (d k : Nat) : Prop where
  d : ∀ type, ∀ column ∈ table.column type, column.d = d
  size : ∀ type, ∀ column ∈ table.column type, column.size = 2 ^ k

theorem columns_description (table : PolynomialTable F) (type : ColumnType) :
    table.description.columns type = (table.column type).length := by
  cases type <;> rfl

variable {table : PolynomialTable F} {d k : Nat}

theorem rowsAmount_eq (size : ∀ type, ∀ column ∈ table.column type, column.size = 2 ^ k)
    {type : ColumnType} {column : PolynomialDfs F} (h : column ∈ table.column type) :
    table.rowsAmount = 2 ^ k := by
  have loop : ∀ (columns : List (PolynomialDfs F)) (start : Nat),
      (∀ column ∈ columns, column.size = 2 ^ k) → (columns ≠ [] ∨ start = 2 ^ k) →
      start ≤ 2 ^ k →
      columns.foldl (fun rowsAmount column => max rowsAmount column.size) start = 2 ^ k := by
    intro columns
    induction columns with
    | nil => exact fun start _ h _ => h.resolve_left (fun h => h rfl)
    | cons column columns ih =>
        intro start size _ bound
        rw [List.forall_mem_cons] at size
        have next : max start column.size = 2 ^ k := by
          rw [size.1]
          exact max_eq_right bound
        exact ih _ size.2 (.inr next) next.le
  apply loop
  · intro column h
    simp only [List.mem_append] at h
    obtain ((h | h) | h) | h := h
    · exact size .witness column h
    · exact size .publicInput column h
    · exact size .constant column h
    · exact size .selector column h
  · left
    intro empty
    simp only [List.append_eq_nil_iff] at empty
    obtain ⟨⟨⟨witnesses, publicInputs⟩, constants⟩, selectors⟩ := empty
    cases type <;> simp_all [PolynomialTable.column]
  · exact Nat.zero_le _

end PolynomialTable

section Prover

variable {F : Type*} [Field F] (P : ArithmeticParams F)

/-- `resize` of every column -/
def PolynomialTable.resize (table : PolynomialTable F) (newSize : Nat) :
    Option (PolynomialTable F) := do
  let publicInputs ← table.publicInputs.mapM fun column => PolynomialDfs.resize P column newSize
  let constants ← table.constants.mapM fun column => PolynomialDfs.resize P column newSize
  let selectors ← table.selectors.mapM fun column => PolynomialDfs.resize P column newSize
  let witnesses ← table.witnesses.mapM fun column => PolynomialDfs.resize P column newSize
  pure ⟨witnesses, publicInputs, constants, selectors⟩

/-- The column of a variable, rotated by rows of the original domain: the shift is told its size,
although the columns have been resized. -/
def getVarValue (assignments : PolynomialTable F) (m : Nat) (var : PlonkVariable) :
    Computed P := do
  let assignment ← (assignments.column var.type)[var.index]?
  if var.rotation ≠ 0 then PolynomialDfs.polynomialShift assignment var.rotation m
  else pure assignment

/-- `plonk_constraint::evaluate` with polynomials -/
def evaluateColumns (assignments : PolynomialTable F) (m : Nat)
    (constraint : Expression PlonkVariable F) : Computed P :=
  constraint.evaluate (getVarValue P assignments m) fun coeff =>
    some (PolynomialDfs.constant assignments.rowsAmount coeff)

/-- Add a constraint to `gate_result` and go on to the next power of `theta`. -/
def proveConstraint (assignments : PolynomialTable F) (m : Nat) (theta : F)
    (acc : PolynomialDfs F × F) (constraint : Expression PlonkVariable F) :
    Option (PolynomialDfs F × F) :=
  Option.bind (evaluateColumns P assignments m constraint) fun value => do
    let gateResult ← PolynomialDfs.add P acc.1 (value.scale acc.2)
    pure (gateResult, acc.2 * theta)

/-- Add a gate to `F[0]`. -/
def proveGate (assignments : PolynomialTable F) (m extendedDomainSize : Nat) (theta : F)
    (acc : PolynomialDfs F × F) (gate : PlonkGate F) : Option (PolynomialDfs F × F) := do
  let (gateResult, thetaAcc) ← gate.constraints.foldlM (proveConstraint P assignments m theta)
    (PolynomialDfs.constant extendedDomainSize 0, acc.2)
  let selector ← assignments.selectors[gate.selectorIndex]?
  let gateResult ← PolynomialDfs.mul P gateResult selector
  let result ← PolynomialDfs.add P acc.1 gateResult
  pure (result, thetaAcc)

/-- `placeholder_gates_argument::prove_eval`. The columns are resized once, to as many values as
the degree of the gates asks for; `m` is the size of the original domain. The logarithm of a degree
of zero is minus infinity, and its power zero. -/
def proveEval (gates : List (PlonkGate F)) (columnPolynomials : PolynomialTable F) (m : Nat)
    (maxGatesDegree : UInt32) (theta : F) : Option (PolynomialDfs F) := do
  let extendedDomainSize :=
    if maxGatesDegree = 0 then 0 else m * 2 ^ Nat.clog 2 maxGatesDegree.toNat
  let extended ← columnPolynomials.resize P extendedDomainSize
  let (result, _) ← gates.foldlM (proveGate P extended m extendedDomainSize theta)
    (PolynomialDfs.constant extendedDomainSize 0, 1)
  pure result

end Prover

/-! ## The value at a point -/

section Point

variable {F : Type*} [Field F] (P : ArithmeticParams F)

/-- `pow` of a field element; a negative exponent is taken modulo `2 ^ 128`. For a root of unity
of the domains this is the power all the same, since their orders divide it (`powInt_eq`). -/
def powInt (x : F) (pwr : Int) : F := x ^ (pwr % 2 ^ 128).toNat

/-- The evaluations of the columns at a point, one for each rotation that was collected. -/
def evaluationsAt [DecidableEq F] (table : PolynomialTable F) (system : ConstraintSystem F)
    (omega y : F) : EvaluationMap F := fun (index, rotation, type) =>
  let key := table.description.globalIndex ⟨index, rotation, type⟩
  if rotation ∈ columnsRotations table.description system key then do
    let column ← (table.column type)[index]?
    PolynomialDfs.evaluate P column (y * powInt omega rotation)
  else none

variable {P}

theorem powInt_eq {n : Nat} (hn : P.Admits n) (rotation : Int) :
    powInt (P.root n) rotation = P.root n ^ rotation := by
  have order : 2 ^ n ∣ 2 ^ 128 := pow_dvd_pow 2 (hn.1.le.trans (by decide))
  have nonneg : 0 ≤ rotation % 2 ^ 128 := Int.emod_nonneg _ (by decide)
  rw [powInt, ← zpow_natCast, Int.toNat_of_nonneg nonneg]
  exact root_zpow_emod hn order rotation

/-- The value at `y` is `v`, within bounds for the degree and the number of values. The loops of
the prover keep this: the value is what they have in common with those of the verifier. -/
def Evaluates (P : ArithmeticParams F) (d l : Nat) (y : F) (f : PolynomialDfs F) (v : F) : Prop :=
  ∃ p, PolynomialDfs.Bounded P d l f p ∧ p.eval y = v

namespace Evaluates

variable {d d' e l : Nat} {y v w : F} {f g : PolynomialDfs F}

theorem constant (hl : P.Admits e) (less : e ≤ l) (d : Nat) (y : F) :
    Evaluates P d l y (PolynomialDfs.constant (2 ^ e) 0) 0 :=
  ⟨C 0, .constant hl less d 0, eval_C⟩

theorem scale (h : Evaluates P d l y f v) (x : F) : Evaluates P d l y (f.scale x) (v * x) := by
  obtain ⟨p, bounded, value⟩ := h
  exact ⟨p * C x, bounded.scale x, by rw [eval_mul, eval_C, value]⟩

theorem add (h : Evaluates P d l y f v) (h' : Evaluates P d l y g w) :
    ∃ r, PolynomialDfs.add P f g = some r ∧ Evaluates P d l y r (v + w) := by
  obtain ⟨p, bounded, value⟩ := h
  obtain ⟨q, bounded', value'⟩ := h'
  obtain ⟨r, sum, result⟩ := bounded.add bounded'
  exact ⟨r, sum, p + q, result, by rw [eval_add, value, value']⟩

theorem mul (h : Evaluates P d l y f v) (h' : Evaluates P d' l y g w) (hl : P.Admits l)
    (room : d + d' + 1 ≤ 2 ^ l) :
    ∃ r, PolynomialDfs.mul P f g = some r ∧ Evaluates P (d + d') l y r (v * w) := by
  obtain ⟨p, bounded, value⟩ := h
  obtain ⟨q, bounded', value'⟩ := h'
  obtain ⟨r, product, result⟩ := bounded.mul bounded' hl room
  exact ⟨r, product, p * q, result, by rw [eval_mul, value, value']⟩

theorem evaluate [DecidableEq F] (h : Evaluates P d l y f v) :
    PolynomialDfs.evaluate P f y = some v := by
  obtain ⟨p, bounded, rfl⟩ := h
  exact bounded.evaluate y

end Evaluates

end Point

section Agreement

variable {F : Type*} [Field F] {P : ArithmeticParams F} {table : PolynomialTable F} {n k : Nat}

/-- The columns of the table are those of another one, with `2 ^ k` values. Resizing leaves the
polynomials and their degrees as they are. -/
structure PolynomialTable.Extends (P : ArithmeticParams F) (table extended : PolynomialTable F)
    (d k : Nat) (poly : ColumnType → Nat → F[X]) : Prop where
  size : ∀ type, ∀ column ∈ extended.column type, column.size = 2 ^ k
  column : ∀ type i, i < (table.column type).length → ∃ g, (extended.column type)[i]? = some g ∧
    PolynomialDfs.Represents P g ⟨d, k⟩ (poly type i)

theorem PolynomialTable.HasShape.exists_poly (shape : table.HasShape (2 ^ n - 1) n)
    (hn : P.Admits n) : ∃ poly : ColumnType → Nat → F[X],
      ∀ (type : ColumnType) (i : Nat) (f : PolynomialDfs F), (table.column type)[i]? = some f →
        PolynomialDfs.Represents P f ⟨2 ^ n - 1, n⟩ (poly type i) := by
  have column : ∀ (type : ColumnType) (i : Nat), ∃ p, ∀ f, (table.column type)[i]? = some f →
      PolynomialDfs.Represents P f ⟨2 ^ n - 1, n⟩ p := by
    intro type i
    cases found : (table.column type)[i]? with
    | none => exact ⟨0, nofun⟩
    | some f =>
        have member := List.mem_of_getElem? found
        obtain ⟨p, hp⟩ := PolynomialDfs.exists_represents hn (shape.d type f member)
          (shape.size type f member)
        refine ⟨p, fun g hg => ?_⟩
        rwa [← Option.some_injective _ hg]
  choose poly hpoly using column
  exact ⟨poly, hpoly⟩

theorem PolynomialTable.resize_extends {d : Nat} {poly : ColumnType → Nat → F[X]}
    (columns : ∀ (type : ColumnType) (i : Nat) (f : PolynomialDfs F),
      (table.column type)[i]? = some f → PolynomialDfs.Represents P f ⟨d, n⟩ (poly type i))
    (hk : P.Admits k) (finer : n ≤ k) :
    ∃ extended, table.resize P (2 ^ k) = some extended ∧ table.Extends P extended d k poly := by
  have step : ∀ type, ∃ ys, (table.column type).mapM (fun column =>
      PolynomialDfs.resize P column (2 ^ k)) = some ys ∧
        List.Forall₂ (fun f g => ∀ p, PolynomialDfs.Represents P f ⟨d, n⟩ p →
          PolynomialDfs.Represents P g ⟨d, k⟩ p) (table.column type) ys := by
    intro type
    apply Control.mapM_related
    intro f member
    obtain ⟨i, found⟩ := List.mem_iff_getElem?.mp member
    obtain ⟨g, resized, hg⟩ := (columns type i f found).resize hk finer
    refine ⟨g, resized, fun p hp => ?_⟩
    rwa [hp.unique (columns type i f found)]
  choose ys mapped related using step
  have column : ∀ type i, i < (table.column type).length →
      ∃ g, (ys type)[i]? = some g ∧ PolynomialDfs.Represents P g ⟨d, k⟩ (poly type i) := by
    intro type i hi
    have hi' : i < (ys type).length := (related type).length_eq ▸ hi
    have found := List.getElem?_eq_getElem hi
    exact ⟨_, List.getElem?_eq_getElem hi', (related type).get hi hi' _ (columns type i _ found)⟩
  let extended : PolynomialTable F :=
    ⟨ys .witness, ys .publicInput, ys .constant, ys .selector⟩
  have same : ∀ type, extended.column type = ys type := by
    intro type
    cases type <;> rfl
  refine ⟨extended, ?_, ⟨fun type g member => ?_, fun type i hi => ?_⟩⟩
  · have witnesses := mapped .witness
    have publicInputs := mapped .publicInput
    have constants := mapped .constant
    have selectors := mapped .selector
    simp only [PolynomialTable.column] at witnesses publicInputs constants selectors
    simp only [PolynomialTable.resize, witnesses, publicInputs, constants, selectors]
    rfl
  · rw [same] at member
    obtain ⟨i, hi, rfl⟩ := List.mem_iff_getElem.mp member
    obtain ⟨g, found, represents⟩ := column type i ((related type).length_eq ▸ hi)
    rw [List.getElem?_eq_getElem hi, Option.some_inj] at found
    rw [found]
    exact represents.length
  · rw [same]
    exact column type i hi

/-- The gate with its constraints as the prover computes them. -/
def PlonkGate.asComputed (d k : Nat) (gate : PlonkGate F) : PlonkGate F :=
  { gate with constraints := gate.constraints.map (Expression.asComputed d k) }

/-- The value that a variable takes at `y`: that of its column at `y`, rotated by a power of the
root of unity. At the points of the domain these are the rows of the table. -/
noncomputable def rowAt (poly : ColumnType → Nat → F[X]) (omega y : F) (key : Key) : F :=
  (poly key.2.2 key.1).eval (omega ^ key.2.1 * y)

variable {extended : PolynomialTable F} {poly : ColumnType → Nat → F[X]}

theorem getVarValue_holds {d : Nat} (h : table.Extends P extended d k poly) (coarser : n ≤ k)
    {var : PlonkVariable} (inside : var.index < (table.column var.type).length) :
    (getVarValue P extended (2 ^ n) var).Holds ⟨d, k⟩
      ((poly var.type var.index).comp (C (P.root n ^ var.rotation) * X)) := by
  obtain ⟨g, found, represents⟩ := h.column var.type var.index inside
  simp only [getVarValue, found, Option.bind_eq_bind, Option.bind_some]
  by_cases rotated : var.rotation ≠ 0
  · rw [if_pos rotated]
    exact represents.polynomialShift var.rotation coarser
  · rw [if_neg rotated, not_not.mp rotated, zpow_zero, C_1, one_mul, comp_X]
    exact ⟨g, rfl, represents⟩

section Bounds

variable (n) (m : Nat)

theorem evaluation_bound :
    max (n + Nat.clog 2 m) (Nat.clog 2 (2 * (m * (2 ^ n - 1)) + 1)) ≤ n + Nat.clog 2 m + 1 := by
  have degree : m * (2 ^ n - 1) ≤ 2 ^ Nat.clog 2 m * (2 ^ n - 1) :=
    Nat.mul_le_mul_right _ (Nat.le_pow_clog (by decide) m)
  have whole : 2 ^ (n + Nat.clog 2 m + 1) = 2 * (2 ^ Nat.clog 2 m * 2 ^ n) := by
    rw [pow_succ, pow_add]
    ring
  rw [Nat.mul_sub_one (2 ^ Nat.clog 2 m)] at degree
  have power := Nat.two_pow_pos (Nat.clog 2 m)
  have rows := Nat.le_mul_of_pos_right (2 ^ Nat.clog 2 m) (Nat.two_pow_pos n)
  exact max_le (Nat.le_succ _) ((Nat.clog_le_iff_le_pow (by decide)).mpr (by omega))

theorem selector_bound :
    m * (2 ^ n - 1) + (2 ^ n - 1) + 1 ≤ 2 ^ (n + Nat.clog 2 m + 1) := by
  have degree : m * (2 ^ n - 1) ≤ 2 ^ Nat.clog 2 m * 2 ^ n :=
    Nat.mul_le_mul (Nat.le_pow_clog (by decide) m) (Nat.sub_le _ _)
  have whole : 2 ^ (n + Nat.clog 2 m + 1) = 2 * (2 ^ Nat.clog 2 m * 2 ^ n) := by
    rw [pow_succ, pow_add]
    ring
  have power := Nat.two_pow_pos n
  have rows := Nat.le_mul_of_pos_left (2 ^ n) (Nat.two_pow_pos (Nat.clog 2 m))
  omega

end Bounds

variable {m : Nat}

/-- A constraint over the table of at most the degree `m`. -/
structure PolynomialTable.Takes (table : PolynomialTable F) (m : Nat)
    (constraint : Expression PlonkVariable F) : Prop where
  positive : constraint.Positive
  degree : constraint.degree ≤ m
  inside : ∀ var ∈ constraint.vars, var.index < (table.column var.type).length

theorem evaluateColumns_evaluates (y : F)
    (h : table.Extends P extended (2 ^ n - 1) (n + Nat.clog 2 m) poly)
    (admits : P.Admits (n + Nat.clog 2 m + 1)) (rows : extended.rowsAmount = 2 ^ (n + Nat.clog 2 m))
    {constraint : Expression PlonkVariable F} (takes : table.Takes m constraint) :
    ∃ f, evaluateColumns P extended (2 ^ n) constraint = some f ∧
      Evaluates P (m * (2 ^ n - 1)) (n + Nat.clog 2 m + 1) y f
        ((constraint.asComputed (2 ^ n - 1) (n + Nat.clog 2 m)).evaluate
          (fun var => rowAt poly (P.root n) y var.key) id) := by
  have bound := admits.mono (evaluation_bound n m)
  have room : constraint.degree * (2 ^ n - 1) ≤ m * (2 ^ n - 1) :=
    Nat.mul_le_mul_right _ takes.degree
  have grown := constraint.grown (2 ^ n - 1) (n + Nat.clog 2 m) takes.positive
  obtain ⟨f, value, represents⟩ := constraint.evaluate_holds bound takes.positive
    (fun var member => getVarValue_holds h (Nat.le_add_right _ _) (takes.inside var member)) room
  refine ⟨f, ?_, _, ⟨_, represents, grown.d.trans room, (grown.mono room).bound.trans
    (evaluation_bound n m)⟩, ?_⟩
  · rw [evaluateColumns, rows]
    exact value
  · rw [← coe_evalRingHom, Expression.map_evaluate]
    congr 1
    · funext var
      rw [coe_evalRingHom, eval_comp, eval_mul, eval_C, eval_X]
      rfl
    · funext x
      exact eval_C

section Gates

variable {system : ConstraintSystem F}

/-- A key of the constraints has its evaluation in the map. -/
theorem evaluationsAt_eq [DecidableEq F] {table : PolynomialTable F} {d : Nat} {y : F}
    (hn : P.Admits n)
    (columns : ∀ (type : ColumnType) (i : Nat) (f : PolynomialDfs F),
      (table.column type)[i]? = some f → PolynomialDfs.Represents P f ⟨d, n⟩ (poly type i))
    (var : PlonkVariable) (inside : var.index < (table.column var.type).length)
    (collected : var.rotation = 0 ∨ var ∈ system.visited) :
    evaluationsAt P table system (P.root n) y var.key =
      some (rowAt poly (P.root n) y var.key) := by
  have member : var.rotation ∈ columnsRotations table.description system
      (table.description.globalIndex ⟨var.index, var.rotation, var.type⟩) := by
    rw [mem_columnsRotations]
    exact collected.imp_right fun visited => ⟨var, visited, rfl, rfl⟩
  have found := List.getElem?_eq_getElem inside
  have value := (columns _ _ _ found).evaluate (y * powInt (P.root n) var.rotation)
  rw [PlonkVariable.key, evaluationsAt]
  simp only [if_pos member, found, Option.bind_eq_bind, Option.bind_some]
  rw [value, powInt_eq hn, mul_comm]
  rfl

/-- The states of both loops: the polynomial of the one has the value of the other, and the
powers of the challenge are the same. -/
def InStep (P : ArithmeticParams F) (d l : Nat) (y : F) (s : PolynomialDfs F × F) (t : F × F) :
    Prop :=
  Evaluates P d l y s.1 t.1 ∧ s.2 = t.2

variable {evaluations : EvaluationMap F}

theorem proveConstraint_inStep (theta y : F)
    (h : table.Extends P extended (2 ^ n - 1) (n + Nat.clog 2 m) poly)
    (admits : P.Admits (n + Nat.clog 2 m + 1)) (rows : extended.rowsAmount = 2 ^ (n + Nat.clog 2 m))
    {constraint : Expression PlonkVariable F} (takes : table.Takes m constraint)
    (present : ∀ var ∈ constraint.vars,
      evaluations var.key = some (rowAt poly (P.root n) y var.key))
    (s : PolynomialDfs F × F) (t : F × F)
    (state : InStep P (m * (2 ^ n - 1)) (n + Nat.clog 2 m + 1) y s t) :
    ∃ s' t', proveConstraint P extended (2 ^ n) theta s constraint = some s' ∧
      addConstraint evaluations theta t
          (constraint.asComputed (2 ^ n - 1) (n + Nat.clog 2 m)) = some t' ∧
        InStep P (m * (2 ^ n - 1)) (n + Nat.clog 2 m + 1) y s' t' := by
  obtain ⟨f, computed, value⟩ :=
    evaluateColumns_evaluates y h admits rows takes
  obtain ⟨r, sum, result⟩ := state.1.add (value.scale s.2)
  let v := (constraint.asComputed (2 ^ n - 1) (n + Nat.clog 2 m)).evaluate
    (fun var => rowAt poly (P.root n) y var.key) id
  refine ⟨(r, s.2 * theta), (t.1 + v * t.2, t.2 * theta), ?_, ?_, ?_, congrArg (· * theta) state.2⟩
  · rw [proveConstraint, computed, Option.bind_some, sum]
    rfl
  · rw [addConstraint, evaluateConstraint_eq fun var member =>
      present var (Expression.mem_vars_asComputed.mp member)]
    rfl
  · rw [state.2] at result
    exact result

theorem proveGate_inStep (theta y : F)
    (h : table.Extends P extended (2 ^ n - 1) (n + Nat.clog 2 m) poly)
    (admits : P.Admits (n + Nat.clog 2 m + 1)) {gate : PlonkGate F}
    (takes : ∀ constraint ∈ gate.constraints, table.Takes m constraint)
    (selector : gate.selectorIndex < table.selectors.length)
    (present : ∀ constraint ∈ gate.constraints, ∀ var ∈ constraint.vars,
      evaluations var.key = some (rowAt poly (P.root n) y var.key))
    (selected : evaluations (gate.selectorIndex, 0, .selector) =
      some (rowAt poly (P.root n) y (gate.selectorIndex, 0, .selector)))
    (s : PolynomialDfs F × F) (t : F × F)
    (state : InStep P (m * (2 ^ n - 1) + (2 ^ n - 1)) (n + Nat.clog 2 m + 1) y s t) :
    ∃ s' t', proveGate P extended (2 ^ n) (2 ^ (n + Nat.clog 2 m)) theta s gate = some s' ∧
      addGate evaluations theta t (gate.asComputed (2 ^ n - 1) (n + Nat.clog 2 m)) = some t' ∧
        InStep P (m * (2 ^ n - 1) + (2 ^ n - 1)) (n + Nat.clog 2 m + 1) y s' t' := by
  have hk : P.Admits (n + Nat.clog 2 m) := admits.mono (Nat.le_succ _)
  obtain ⟨q, found, represents⟩ := h.column .selector gate.selectorIndex selector
  have rows := PolynomialTable.rowsAmount_eq h.size (List.mem_of_getElem? found)
  have start : InStep P (m * (2 ^ n - 1)) (n + Nat.clog 2 m + 1) y
      (PolynomialDfs.constant (2 ^ (n + Nat.clog 2 m)) 0, s.2) (0, t.2) :=
    ⟨Evaluates.constant hk (Nat.le_succ _) _ y, state.2⟩
  have step := fun constraint member =>
    proveConstraint_inStep theta y h admits rows (takes constraint member)
      (present constraint member)
  obtain ⟨⟨gateResult, acc⟩, ⟨value, acc'⟩, prove, verify, evaluates, powers⟩ :=
    Control.foldlM_related step start
  have factor : Evaluates P (2 ^ n - 1) (n + Nat.clog 2 m + 1) y q
      (rowAt poly (P.root n) y (gate.selectorIndex, 0, .selector)) := by
    refine ⟨_, represents.bounded (Nat.le_succ _), ?_⟩
    rw [rowAt, zpow_zero, one_mul]
  obtain ⟨r, product, result⟩ := evaluates.mul factor admits (selector_bound n m)
  obtain ⟨r', sum, result'⟩ := state.1.add result
  let v := value * rowAt poly (P.root n) y (gate.selectorIndex, 0, .selector)
  refine ⟨(r', acc), (t.1 + v, acc'), ?_, ?_, result', powers⟩
  · have found : extended.selectors[gate.selectorIndex]? = some q := found
    simp only [proveGate, prove, found, product, sum, Option.bind_eq_bind, Option.bind_some]
    rfl
  · simp only [addGate, PlonkGate.asComputed, List.foldlM_map, verify, selected,
      Option.bind_eq_bind, Option.bind_some]
    rfl

/-- A gate leaves at least the degree of its selector. The prover takes a polynomial of degree
zero for zero, so this tells that a sum of gates is never mistaken for it. -/
theorem proveGate_d {assignments : PolynomialTable F} {gate : PlonkGate F} {theta : F}
    {m size : Nat} {s s' : PolynomialDfs F × F}
    (h : proveGate P assignments m size theta s gate = some s') :
    ∃ selector, assignments.selectors[gate.selectorIndex]? = some selector ∧
      selector.d ≤ s'.1.d := by
  simp only [proveGate, Option.bind_eq_bind, Option.bind_eq_some_iff, Option.pure_def,
    Option.some_inj] at h
  obtain ⟨⟨gateResult, acc⟩, -, selector, found, product, multiplied, sum, added, rfl⟩ := h
  refine ⟨selector, found, ?_⟩
  rw [PolynomialDfs.pointwise_d added, PolynomialDfs.mul_d multiplied]
  exact (Nat.le_add_left _ _).trans (le_max_right _ _)

/-- The polynomial of the prover has at every point the value that the verifier computes from
the evaluations there, for the constraints as they are computed. No operation on the way fails,
whatever the gates are, if the domain that is named here exists. The two loops go in step over
the gates, and within a gate over its constraints (`InStep`). -/
theorem proveEval_evaluates [DecidableEq F] {table : PolynomialTable F}
    (shape : table.HasShape (2 ^ n - 1) n) (within : system.Within table.description)
    (positive : ∀ gate ∈ system.gates, ∀ constraint ∈ gate.constraints, constraint.Positive)
    (small : ∀ gate ∈ system.gates, ∀ constraint ∈ gate.constraints, constraint.degree < 2 ^ 32)
    (hm : system.maxGatesDegree.toNat = m) (degree : 0 < m)
    (admits : P.Admits (n + Nat.clog 2 m + 1)) (theta y : F) :
    ∃ f value, proveEval P system.gates table (2 ^ n) system.maxGatesDegree theta = some f ∧
      (system.gates = [] → f = PolynomialDfs.constant (2 ^ (n + Nat.clog 2 m)) 0) ∧
      (system.gates ≠ [] → 2 ^ n - 1 ≤ f.d) ∧
      Evaluates P (m * (2 ^ n - 1) + (2 ^ n - 1)) (n + Nat.clog 2 m + 1) y f value ∧
      verifyEval (system.gates.map (PlonkGate.asComputed (2 ^ n - 1) (n + Nat.clog 2 m)))
        (evaluationsAt P table system (P.root n) y) theta = some value := by
  have hn : P.Admits n := admits.mono (by omega)
  have hk : P.Admits (n + Nat.clog 2 m) := admits.mono (Nat.le_succ _)
  obtain ⟨poly, columns⟩ := shape.exists_poly hn
  obtain ⟨extended, resized, h⟩ := PolynomialTable.resize_extends columns hk (Nat.le_add_right _ _)
  have takes : ∀ gate ∈ system.gates, ∀ constraint ∈ gate.constraints,
      table.Takes m constraint := by
    intro gate hgate constraint hconstraint
    refine ⟨positive gate hgate constraint hconstraint, ?_, fun var hvar => ?_⟩
    · rw [← hm]
      exact degree_le_maxGatesDegree hgate hconstraint (positive gate hgate constraint hconstraint)
        (small gate hgate constraint hconstraint)
    · rw [← table.columns_description]
      exact within.vars gate hgate constraint hconstraint var hvar
  have step := fun gate member =>
    proveGate_inStep theta y h admits (takes gate member) (within.selectors gate member)
      (fun c hc var hvar => evaluationsAt_eq hn columns var
        ((takes gate member c hc).inside var hvar) (.inr (system.mem_visited member hc hvar)))
      (evaluationsAt_eq hn columns ⟨gate.selectorIndex, 0, .selector⟩
        (within.selectors gate member) (.inl rfl))
  have start : InStep P (m * (2 ^ n - 1) + (2 ^ n - 1)) (n + Nat.clog 2 m + 1) y
      (PolynomialDfs.constant (2 ^ (n + Nat.clog 2 m)) 0, 1) (0, 1) :=
    ⟨Evaluates.constant hk (Nat.le_succ _) _ y, rfl⟩
  obtain ⟨⟨result, acc⟩, ⟨value, acc'⟩, prove, verify, evaluates, -⟩ :=
    Control.foldlM_related step start
  refine ⟨result, value, ?_, fun empty => ?_, fun nonempty => ?_, evaluates, ?_⟩
  · have size : 2 ^ n * 2 ^ Nat.clog 2 m = 2 ^ (n + Nat.clog 2 m) := (pow_add 2 _ _).symm
    have nonzero : system.maxGatesDegree ≠ 0 := by
      intro zero
      rw [← hm, zero] at degree
      exact absurd degree (by decide)
    simp only [proveEval, if_neg nonzero, hm, size, resized, prove, Option.bind_eq_bind,
      Option.bind_some, Option.pure_def]
  · rw [empty] at prove
    exact (congrArg Prod.fst (Option.some_injective _ prove)).symm
  · obtain ⟨gates, gate, eq⟩ := (List.eq_nil_or_concat' system.gates).resolve_left nonempty
    rw [eq, List.foldlM_append] at prove
    simp only [List.foldlM_cons, List.foldlM_nil, Option.bind_eq_bind, Option.bind_eq_some_iff,
      Option.pure_def, Option.some_inj] at prove
    obtain ⟨state, -, last, proved, rfl⟩ := prove
    obtain ⟨selector, found, less⟩ := proveGate_d proved
    obtain ⟨g, found', represents⟩ :=
      h.column .selector gate.selectorIndex (within.selectors gate (by rw [eq]; simp))
    obtain rfl := Option.some_injective _ (found.symm.trans found')
    rwa [represents.d] at less
  · rw [verifyEval, List.foldlM_map, verify]
    rfl

theorem proveEval_eq [DecidableEq F] {table : PolynomialTable F}
    (shape : table.HasShape (2 ^ n - 1) n) (within : system.Within table.description)
    (positive : ∀ gate ∈ system.gates, ∀ constraint ∈ gate.constraints, constraint.Positive)
    (small : ∀ gate ∈ system.gates, ∀ constraint ∈ gate.constraints, constraint.degree < 2 ^ 32)
    (hm : system.maxGatesDegree.toNat = m) (degree : 0 < m)
    (admits : P.Admits (n + Nat.clog 2 m + 1)) (theta y : F) :
    ∃ value, ((proveEval P system.gates table (2 ^ n) system.maxGatesDegree theta).bind
        fun f => PolynomialDfs.evaluate P f y) = some value ∧
      verifyEval (system.gates.map (PlonkGate.asComputed (2 ^ n - 1) (n + Nat.clog 2 m)))
        (evaluationsAt P table system (P.root n) y) theta = some value := by
  obtain ⟨f, value, proved, -, -, evaluates, verified⟩ :=
    proveEval_evaluates shape within positive small hm degree admits theta y
  exact ⟨value, by rw [proved, Option.bind_some, evaluates.evaluate], verified⟩

end Gates

end Agreement

end Circuit
