import NilAutotest.Circuit.Prover

/-!
# Prover and verifier

For gates whose differences are aligned, the polynomial of the prover has at every point the
value that the verifier computes. The multiplication gate of the circuit that the tests of
the gate argument use is not aligned, and the two differ there.
-/

namespace Circuit

open Batching Domain GateArgument Polynomial

/-- No difference in the gates has a first operand with more values than the second, when the
columns have been resized for the degree of the gates. -/
def ConstraintSystem.Aligned {F : Type*} (system : ConstraintSystem F) (n : Nat) : Prop :=
  ∀ gate ∈ system.gates, ∀ constraint ∈ gate.constraints,
    constraint.Aligned (2 ^ n - 1) (n + Nat.clog 2 system.maxGatesDegree.toNat)

section Shapes

variable {F : Type*} (n : Nat)

/-- A column keeps its number of values. -/
theorem shape_column (c : F) (var : PlonkVariable) :
    ((Expression.term ⟨[var], c⟩).shape (2 ^ n - 1) (n + 1)).k = n + 1 := by
  have power := Nat.two_pow_pos n
  have fits : Nat.clog 2 (0 + (2 ^ n - 1) + (2 ^ n - 1) + 1) ≤ n + 1 := by
    rw [Nat.clog_le_iff_le_pow (by decide), pow_succ]
    omega
  show max (max (n + 1) (n + 1)) (Nat.clog 2 (0 + (2 ^ n - 1) + (2 ^ n - 1) + 1)) = n + 1
  omega

/-- The product of two columns needs more values, with four rows or more: `operator*=` counts the
degree of its other operand twice, so it resizes although the columns have room for the product. -/
theorem shape_product (rows : 2 ≤ n) (c : F) (var var' : PlonkVariable) :
    n + 1 < ((Expression.term ⟨[var, var'], c⟩).shape (2 ^ n - 1) (n + 1)).k := by
  have power : 2 ^ 2 ≤ 2 ^ n := Nat.pow_le_pow_right (by decide) rows
  have exceeds : n + 1 < Nat.clog 2 (0 + (2 ^ n - 1) + (2 ^ n - 1) + (2 ^ n - 1) + 1) := by
    rw [Nat.lt_clog_iff_pow_lt (by decide), pow_succ]
    omega
  exact lt_max_of_lt_right exceeds

end Shapes

/-! ## The circuit of the tests -/

section CircuitTest2

variable {F : Type*} [Field F]

def w0 : PlonkVariable := ⟨0, 0, .witness⟩
def w1 : PlonkVariable := ⟨1, 0, .witness⟩
def w2 : PlonkVariable := ⟨2, 0, .witness⟩
def w0Prev : PlonkVariable := ⟨0, -1, .witness⟩

/-- `add_constraint`; a new constraint is the term zero. -/
def addGateConstraint : Expression PlonkVariable F :=
  .binary (.binary (.binary (.term ⟨[], 0⟩) (.term ⟨[w0], 1⟩) .add) (.term ⟨[w1], 1⟩) .add)
    (.term ⟨[w2], 1⟩) .sub

/-- `mul_constraint` -/
def mulGateConstraint : Expression PlonkVariable F :=
  .binary (.binary (.binary (.term ⟨[], 0⟩) (.term (.mul ⟨[w0], 1⟩ ⟨[w1], 1⟩)) .add)
    (.term ⟨[w2], 1⟩) .sub) (.term ⟨[w0Prev], 1⟩) .add

/-- The multiplication gate with the operands of its difference exchanged. -/
def mulGateExchanged : Expression PlonkVariable F :=
  .binary (.binary (.term ⟨[w2], 1⟩) (.binary (.term ⟨[], 0⟩)
    (.term (.mul ⟨[w0], 1⟩ ⟨[w1], 1⟩)) .add) .sub) (.term ⟨[w0Prev], 1⟩) .add

/-- The gates of `circuit_test_2` -/
def circuitTest2 : ConstraintSystem F where
  gates := [⟨0, [addGateConstraint]⟩, ⟨1, [mulGateConstraint]⟩]
  lookupGates := []

/-- The circuit as the prover computes it: the difference of the multiplication gate has a product
as its first operand, and a column, with fewer values, as the second. -/
def circuitTest2Computed : ConstraintSystem F where
  gates := [⟨0, [addGateConstraint]⟩, ⟨1, [mulGateExchanged]⟩]
  lookupGates := []

section Shapes

variable (n : Nat)

theorem addGateConstraint_aligned :
    (addGateConstraint : Expression PlonkVariable F).Aligned (2 ^ n - 1) (n + 1) := by
  refine ⟨⟨⟨trivial, trivial, nofun⟩, trivial, nofun⟩, trivial, fun _ => ?_⟩
  have column := shape_column n (1 : F)
  exact (max_le (max_le le_rfl (column w0).le) (column w1).le).trans (column w2).ge

theorem mulGateExchanged_aligned (rows : 2 ≤ n) :
    (mulGateExchanged : Expression PlonkVariable F).Aligned (2 ^ n - 1) (n + 1) := by
  refine ⟨⟨trivial, ⟨trivial, trivial, nofun⟩, fun _ => ?_⟩, trivial, nofun⟩
  have column := shape_column n (1 : F) w2
  have product := shape_product n rows (1 * 1 : F) w0 w1
  rw [column]
  exact le_max_of_le_right product.le

theorem mulGateConstraint_asComputed (rows : 2 ≤ n) :
    (mulGateConstraint : Expression PlonkVariable F).asComputed (2 ^ n - 1) (n + 1) =
      mulGateExchanged := by
  have column := shape_column n (1 : F) w2
  have product := shape_product n rows (1 * 1 : F) w0 w1
  have misaligned : ((Expression.term ⟨[w2], (1 : F)⟩).shape (2 ^ n - 1) (n + 1)).k <
      ((Expression.binary (.term ⟨[], (0 : F)⟩)
        (.term (.mul ⟨[w0], 1⟩ ⟨[w1], 1⟩)) .add).shape (2 ^ n - 1) (n + 1)).k := by
    rw [column]
    exact lt_max_of_lt_right product
  simp only [mulGateConstraint, Expression.asComputed]
  rw [if_pos misaligned, mulGateExchanged]

end Shapes

theorem circuitTest2_asComputed {n : Nat} (rows : 2 ≤ n) :
    (circuitTest2 : ConstraintSystem F).gates.map
        (PlonkGate.asComputed (2 ^ n - 1) (n + Nat.clog 2 2)) =
      circuitTest2Computed.gates := by
  show [⟨0, [(addGateConstraint : Expression PlonkVariable F).asComputed (2 ^ n - 1) (n + 1)]⟩,
    ⟨1, [mulGateConstraint.asComputed (2 ^ n - 1) (n + 1)]⟩] = circuitTest2Computed.gates
  rw [Expression.asComputed_of_aligned (addGateConstraint_aligned n),
    mulGateConstraint_asComputed n rows, circuitTest2Computed]

theorem circuitTest2Computed_aligned {n : Nat} (rows : 2 ≤ n) :
    (circuitTest2Computed : ConstraintSystem F).Aligned n := by
  show ∀ gate ∈ (circuitTest2Computed : ConstraintSystem F).gates,
    ∀ constraint ∈ gate.constraints, constraint.Aligned (2 ^ n - 1) (n + 1)
  simp only [circuitTest2Computed, List.forall_mem_cons]
  exact ⟨⟨addGateConstraint_aligned n, List.forall_mem_nil _⟩,
    ⟨mulGateExchanged_aligned n rows, List.forall_mem_nil _⟩, List.forall_mem_nil _⟩

/-- The variables of both circuits are the same ones. -/
theorem circuitTest2_vars {gates : List (PlonkGate F)}
    (h : gates = circuitTest2.gates ∨ gates = circuitTest2Computed.gates) :
    (∀ gate ∈ gates, ∀ constraint ∈ gate.constraints, ∀ var ∈ constraint.vars,
      var ∈ [w0, w1, w2, w0Prev]) ∧ ∀ gate ∈ gates, gate.selectorIndex < 2 := by
  obtain rfl | rfl := h
  · simp [circuitTest2, addGateConstraint, mulGateConstraint, Expression.vars, Term.mul]
  · simp [circuitTest2Computed, addGateConstraint, mulGateExchanged, Expression.vars, Term.mul]

theorem circuitTest2_within (system : ConstraintSystem F)
    (h : system.gates = circuitTest2.gates ∨ system.gates = circuitTest2Computed.gates)
    {table : PolynomialTable F} (witnesses : 3 ≤ table.witnesses.length)
    (selectors : 2 ≤ table.selectors.length) : system.Within table.description := by
  obtain ⟨vars, index⟩ := circuitTest2_vars h
  have inside : ∀ var ∈ [w0, w1, w2, w0Prev],
      var.index < table.description.columns var.type := by
    simp only [List.forall_mem_cons, w0, w1, w2, w0Prev, TableDescription.columns,
      PolynomialTable.description]
    exact ⟨by omega, by omega, by omega, by omega, List.forall_mem_nil _⟩
  exact ⟨fun gate hgate constraint hconstraint var hvar =>
      inside var (vars gate hgate constraint hconstraint var hvar),
    fun gate hgate => (index gate hgate).trans_le selectors⟩

theorem circuitTest2_bounds (gates : List (PlonkGate F))
    (h : gates = circuitTest2.gates ∨ gates = circuitTest2Computed.gates) :
    (∀ gate ∈ gates, ∀ constraint ∈ gate.constraints, constraint.Positive) ∧
      ∀ gate ∈ gates, ∀ constraint ∈ gate.constraints, constraint.degree < 2 ^ 32 := by
  obtain rfl | rfl := h
  · simp [circuitTest2, addGateConstraint, mulGateConstraint, Expression.Positive,
      Expression.degree, Term.mul]
  · simp [circuitTest2Computed, addGateConstraint, mulGateExchanged, Expression.Positive,
      Expression.degree, Term.mul]

section Values

variable (row : Key → F)

theorem circuitTest2_values : (circuitTest2 : ConstraintSystem F).gates.flatMap
    (PlonkGate.values row) =
      [row (0, 0, .selector) * (row w0.key + row w1.key - row w2.key),
        row (1, 0, .selector) * (row w0.key * row w1.key - row w2.key + row w0Prev.key)] := by
  simp [circuitTest2, PlonkGate.values, addGateConstraint, mulGateConstraint, Expression.evaluate,
    ArithmeticOperator.apply, Term.mul, Term.evaluate]

theorem circuitTest2Computed_values : (circuitTest2Computed : ConstraintSystem F).gates.flatMap
    (PlonkGate.values row) =
      [row (0, 0, .selector) * (row w0.key + row w1.key - row w2.key),
        row (1, 0, .selector) * (row w2.key - row w0.key * row w1.key + row w0Prev.key)] := by
  simp [circuitTest2Computed, PlonkGate.values, addGateConstraint, mulGateExchanged,
    Expression.evaluate, ArithmeticOperator.apply, Term.mul, Term.evaluate]

end Values

theorem circuitTest2_visited : ∀ var ∈ [w0, w1, w2, w0Prev],
    var ∈ (circuitTest2 : ConstraintSystem F).visited := by
  simp [circuitTest2, ConstraintSystem.visited, addGateConstraint, mulGateConstraint,
    Expression.vars, Term.mul]

variable {P : ArithmeticParams F} {n : Nat}

theorem asComputed_of_aligned {A : Type*} {d k : Nat} {gates : List (PlonkGate A)}
    (aligned : ∀ gate ∈ gates, ∀ constraint ∈ gate.constraints, constraint.Aligned d k) :
    gates.map (PlonkGate.asComputed d k) = gates := by
  refine (List.map_congr_left fun gate member => ?_).trans (List.map_id _)
  rw [PlonkGate.asComputed, List.map_congr_left fun constraint h =>
    Expression.asComputed_of_aligned (aligned gate member constraint h), List.map_id']
  rfl

/-- For gates whose differences are aligned, the prover computes one polynomial that has the
verifier's value at every point. Unless there is no gate at all, it does not count as zero. -/
theorem proveEval_bounded [DecidableEq F] {system : ConstraintSystem F}
    {table : PolynomialTable F} (rows : 0 < n) (shape : table.HasShape (2 ^ n - 1) n)
    (within : system.Within table.description)
    (positive : ∀ gate ∈ system.gates, ∀ constraint ∈ gate.constraints, constraint.Positive)
    (small : ∀ gate ∈ system.gates, ∀ constraint ∈ gate.constraints, constraint.degree < 2 ^ 32)
    (aligned : system.Aligned n) (degree : 0 < system.maxGatesDegree.toNat)
    (admits : P.Admits (n + Nat.clog 2 system.maxGatesDegree.toNat + 1)) (theta : F) :
    ∃ f p, proveEval P system.gates table (2 ^ n) system.maxGatesDegree theta = some f ∧
      PolynomialDfs.Bounded P (system.maxGatesDegree.toNat * (2 ^ n - 1) + (2 ^ n - 1))
        (n + Nat.clog 2 system.maxGatesDegree.toNat + 1) f p ∧ (f.d = 0 → p = 0) ∧
      ∀ y, verifyEval system.gates (evaluationsAt P table system (P.root n) y) theta =
        some (p.eval y) := by
  have evaluates := proveEval_evaluates shape within positive small rfl degree admits theta
  rw [asComputed_of_aligned aligned] at evaluates
  obtain ⟨f, -, proved, empty, filled, ⟨p, bounded, -⟩, -⟩ := evaluates 0
  refine ⟨f, p, proved, bounded, fun zero => ?_, fun y => ?_⟩
  · by_cases gates : system.gates = []
    · have domain : P.Admits (n + Nat.clog 2 system.maxGatesDegree.toNat) :=
        admits.mono (Nat.le_succ _)
      rw [empty gates] at bounded
      rw [bounded.unique (.constant domain le_rfl 0 0), C_0]
    · have degree := filled gates
      have power := Nat.one_lt_two_pow rows.ne'
      omega
  · obtain ⟨f', value, proved', -, -, ⟨p', bounded', rfl⟩, verified⟩ := evaluates y
    obtain rfl := Option.some_injective _ (proved.symm.trans proved')
    rw [verified, bounded.unique bounded']

def sampleTable : PolynomialTable (ZMod circuitModulus) where
  witnesses := [⟨3, [1, 2, 3, 4]⟩, ⟨3, [5, 6, 7, 8]⟩, ⟨3, [0, 0, 1, 1]⟩]
  publicInputs := []
  constants := []
  selectors := [⟨3, [1, 0, 1, 0]⟩, ⟨3, [0, 1, 0, 1]⟩]

theorem sampleTable_hasShape : sampleTable.HasShape (2 ^ 2 - 1) 2 := by
  constructor <;> intro type <;> cases type <;>
    simp [sampleTable, PolynomialTable.column, PolynomialDfs.size]

/-- For gates over columns of the table, the verifier's value at a point is the combination of
the gates in the row of the point. -/
theorem verifyEval_evaluationsAt [DecidableEq F] {system : ConstraintSystem F}
    {table : PolynomialTable F} {poly : ColumnType → Nat → F[X]} {d : Nat} (hn : P.Admits n)
    (columns : ∀ (type : ColumnType) (i : Nat) (f : PolynomialDfs F),
      (table.column type)[i]? = some f → PolynomialDfs.Represents P f ⟨d, n⟩ (poly type i))
    {gates : List (PlonkGate F)}
    (vars : ∀ gate ∈ gates, ∀ constraint ∈ gate.constraints, ∀ var ∈ constraint.vars,
      var.index < (table.column var.type).length ∧ var ∈ system.visited)
    (selectors : ∀ gate ∈ gates, gate.selectorIndex < (table.column .selector).length)
    (theta y : F) :
    verifyEval gates (evaluationsAt P table system (P.root n) y) theta =
      some (combine theta (gates.flatMap (PlonkGate.values (rowAt poly (P.root n) y)))) := by
  apply verifyEval_eq
  · intro gate hgate constraint hconstraint var hvar
    obtain ⟨inside, visited⟩ := vars gate hgate constraint hconstraint var hvar
    exact evaluationsAt_eq hn columns var inside (.inr visited)
  · intro gate hgate
    exact evaluationsAt_eq hn columns ⟨gate.selectorIndex, 0, .selector⟩
      (selectors gate hgate) (.inl rfl)

/-- In the circuit of the tests the prover's polynomial has the product and the result of the
multiplication gate exchanged, so it differs from what the verifier computes wherever the gate
is selected and the third column is not the product of the first two. The test of the gate
argument checks that the two are equal at a random point. -/
theorem circuitTest2_differs [DecidableEq F] (rows : 2 ≤ n)
    (admits : P.Admits (n + 2)) {table : PolynomialTable F} (shape : table.HasShape (2 ^ n - 1) n)
    (witnesses : 3 ≤ table.witnesses.length) (selectors : 2 ≤ table.selectors.length)
    (theta y : F) :
    let system : ConstraintSystem F := circuitTest2
    ∃ a b c q proved verified : F,
      table.witnesses[0]?.bind (PolynomialDfs.evaluate P · y) = some a ∧
      table.witnesses[1]?.bind (PolynomialDfs.evaluate P · y) = some b ∧
      table.witnesses[2]?.bind (PolynomialDfs.evaluate P · y) = some c ∧
      table.selectors[1]?.bind (PolynomialDfs.evaluate P · y) = some q ∧
      ((proveEval P system.gates table (2 ^ n) system.maxGatesDegree theta).bind
        fun f => PolynomialDfs.evaluate P f y) = some proved ∧
      verifyEval system.gates (evaluationsAt P table system (P.root n) y) theta = some verified ∧
      proved - verified = theta * (q * (2 * (c - a * b))) := by
  intro system
  have witnesses : 3 ≤ (table.column .witness).length := witnesses
  have selectors : 2 ≤ (table.column .selector).length := selectors
  have hn : P.Admits n := admits.mono (by omega)
  obtain ⟨poly, columns⟩ := shape.exists_poly hn
  let row := rowAt poly (P.root n) y
  have column : ∀ (type : ColumnType) (i : Nat), i < (table.column type).length →
      (table.column type)[i]?.bind (PolynomialDfs.evaluate P · y) = some (row (i, 0, type)) := by
    intro type i hi
    have found := List.getElem?_eq_getElem hi
    rw [found, Option.bind_some, (columns type i _ found).evaluate y]
    show _ = some ((poly type i).eval (P.root n ^ (0 : Int) * y))
    rw [zpow_zero, one_mul]
  have value : ∀ gates : List (PlonkGate F),
      gates = circuitTest2.gates ∨ gates = circuitTest2Computed.gates →
      verifyEval gates (evaluationsAt P table system (P.root n) y) theta =
        some (combine theta (gates.flatMap (PlonkGate.values row))) := by
    intro gates either
    obtain ⟨vars, index⟩ := circuitTest2_vars either
    have inside := circuitTest2_within ⟨gates, []⟩ either witnesses selectors
    refine verifyEval_evaluationsAt hn columns (fun gate hgate c hc var hvar => ⟨?_, ?_⟩)
      (fun gate hgate => (index gate hgate).trans_le selectors) theta y
    · rw [← table.columns_description]
      exact inside.vars gate hgate c hc var hvar
    · exact circuitTest2_visited var (vars gate hgate c hc var hvar)
  have within := circuitTest2_within system (.inl rfl) witnesses selectors
  obtain ⟨positive, small⟩ := circuitTest2_bounds system.gates (.inl rfl)
  obtain ⟨proved, prove, computed⟩ :=
    proveEval_eq (m := 2) shape within positive small rfl (by decide) admits theta y
  rw [circuitTest2_asComputed rows, value _ (.inr rfl), Option.some_inj] at computed
  refine ⟨_, _, _, _, _, _, column .witness 0 (by omega), column .witness 1 (by omega),
    column .witness 2 (by omega), column .selector 1 (by omega), prove, value _ (.inl rfl), ?_⟩
  have keys : w0.key = (0, 0, .witness) ∧ w1.key = (1, 0, .witness) ∧ w2.key = (2, 0, .witness) :=
    ⟨rfl, rfl, rfl⟩
  simp only [← computed, system, circuitTest2Computed_values, circuitTest2_values, combine_cons,
    combine_nil, keys]
  ring

/-- Four rows of the circuit. -/
theorem circuitTest2_differs_sample :
    let system : ConstraintSystem (ZMod circuitModulus) := circuitTest2
    ∃ a b c q proved verified : ZMod circuitModulus,
      sampleTable.witnesses[0]?.bind (PolynomialDfs.evaluate pallasBaseField · 5) = some a ∧
      sampleTable.witnesses[1]?.bind (PolynomialDfs.evaluate pallasBaseField · 5) = some b ∧
      sampleTable.witnesses[2]?.bind (PolynomialDfs.evaluate pallasBaseField · 5) = some c ∧
      sampleTable.selectors[1]?.bind (PolynomialDfs.evaluate pallasBaseField · 5) = some q ∧
      ((proveEval pallasBaseField system.gates sampleTable (2 ^ 2) 2 9).bind
        fun f => PolynomialDfs.evaluate pallasBaseField f 5) = some proved ∧
      verifyEval system.gates
        (evaluationsAt pallasBaseField sampleTable system (pallasBaseField.root 2) 5) 9 =
          some verified ∧
      proved - verified = 9 * (q * (2 * (c - a * b))) :=
  circuitTest2_differs (by decide) (by decide) sampleTable_hasShape (by decide) (by decide) 9 5

end CircuitTest2

end Circuit
