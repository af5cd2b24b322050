import NilAutotest.Circuit.ArgumentPolynomials

/-!
# What the verifier accepts

The verifier reads the evaluations of a proof at the places where the prover has put them, so its
last check is about the nine polynomials of the argument. A table that satisfies all gates and all
copy constraints gives a proof that is accepted at every challenge. For a table that violates a
gate in some row, whatever permutation polynomial and whatever pieces a prover commits to, only a
bounded number of challenges makes the verifier accept. A violated copy constraint does not keep it
from accepting.
-/

namespace Circuit.Placeholder

open Batching Domain GateArgument PermutationArgument Polynomial

variable {F : Type*} [Field F] [DecidableEq F] {P : ArithmeticParams F} {n k m maxDegree : Nat}
variable {system : ConstraintSystem F} {table : PolynomialTable F}

/-- The polynomial of the gates adds up their constraints with the powers of the challenge. -/
theorem proveEval_gates (fits : Fits P system table n k m maxDegree)
    (aligned : system.Aligned n) {col : Nat → F[X]}
    (columns : HoldsAll P n table.columns.length table.columns col) (theta : F) :
    ∃ f p, proveEval P system.gates table (2 ^ n) system.maxGatesDegree theta = some f ∧
      PolynomialDfs.Bounded P (system.maxGatesDegree.toNat * (2 ^ n - 1) + (2 ^ n - 1))
        (n + Nat.clog 2 system.maxGatesDegree.toNat + 1) f p ∧ (f.d = 0 → p = 0) ∧
      ∀ y, p.eval y = combine theta (system.gates.flatMap
        (PlonkGate.values (rowAt (columnPolynomial table.description col) (P.root n) y))) := by
  obtain ⟨f, p, proved, bounded, zero, verified⟩ := proveEval_bounded fits.rows fits.shape
    fits.within fits.positive fits.small aligned fits.degree fits.gates theta
  refine ⟨f, p, proved, bounded, zero, fun y => ?_⟩
  have value : verifyEval system.gates (evaluationsAt P table system (P.root n) y) theta = _ :=
    verifyEval_evaluationsAt fits.admits (columnPolynomial_represents columns)
      (fun gate hgate constraint hconstraint var hvar => ⟨?_, ?_⟩) fits.within.selectors theta y
  · exact Option.some_injective _ ((verified y).symm.trans value)
  · rw [← table.columns_description]
    exact fits.within.vars gate hgate constraint hconstraint var hvar
  · exact system.mem_visited hgate hconstraint hvar

/-! ## The verifier on opened evaluations -/

/-- The evaluations in the proof are those of the columns and the preprocessed data, of some
permutation polynomial and of some pieces of a quotient, as the commitments promise. The value of
`lagrange_0` is left open: the verifier compares it with its own. -/
structure Opens (P : ArithmeticParams F) (data : PreprocessedData F) (system : ConstraintSystem F)
    (table : PolynomialTable F) (omega : F) (v : F[X]) (pieces : List F) (y : F)
    (proof : EvalProof F) : Prop where
  variableValues : proofEval P (variablePoints table.description
    (columnsRotations table.description system) omega y)
      (table.witnesses ++ table.publicInputs) = some (proof.z 0)
  permutation : proof.z 1 = [[v.eval y, v.eval (omega * y)]]
  quotient : proof.z 2 = pieces.map ([·])
  fixedValues : proofEval P (publicPoints table.description
    (columnsRotations table.description system) omega y data.identityPolynomials.length)
      (data.identityPolynomials ++
        data.permutationPolynomials.take data.identityPolynomials.length ++ table.constants ++
        table.selectors ++ [data.qLast, data.qBlind]) = some (proof.z 3)

section Opened

variable {data : PreprocessedData F} {col id sigma : Nat → F[X]}
variable {lagrange0 qLast qBlind v : F[X]} {pieces : List F} {y : F} {proof : EvalProof F}

theorem Opens.reads (opens : Opens P data system table (P.root n) v pieces y proof)
    (holds : Holds P n m data id sigma lagrange0 qLast qBlind)
    (columns : HoldsAll P n table.columns.length table.columns col) :
    (proof.z 3).length = m * 2 + (table.constants.length + table.selectors.length) + 2 ∧
      Reads table.description (columnsRotations table.description system) (P.root n) y m col
        (proof.z 0) (proof.z 3) := by
  obtain ⟨z₀, first, variableValues⟩ := exists_variableValues columns
    (columnsRotations table.description system) (P.root n) y
  obtain ⟨z₃, last, length, fixedValues⟩ := exists_fixedValues holds columns
    (columnsRotations table.description system) (P.root n) y
  obtain rfl := Option.some_injective _ (first.symm.trans opens.variableValues)
  have opened := opens.fixedValues
  rw [holds.count] at opened
  rw [← Option.some_injective _ (last.symm.trans opened)]
  exact ⟨length, variableValues, fixedValues⟩

/-- The verifier's last check is about the polynomials of the argument: it finds every evaluation
where the prover has put it, and combines it as the polynomials are combined. -/
theorem verify_eq (fits : Fits P system table n k m maxDegree)
    (holds : Holds P n m data id sigma lagrange0 qLast qBlind)
    (columns : HoldsAll P n table.columns.length table.columns col)
    (opens : Opens P data system table (P.root n) v pieces y proof)
    (challenge : proof.challenge = y) (first : proof.lagrange0 = lagrange0.eval y)
    {gates : F[X]} {theta : F}
    (value : gates.eval y = combine theta (system.gates.flatMap
      (PlonkGate.values (rowAt (columnPolynomial table.description col) (P.root n) y))))
    (beta gamma : F) (alphas : List F) :
    verify P data system table.description maxDegree true proof ⟨beta, gamma, theta, alphas, y⟩ =
      some (finalCheck ((argumentPolynomials (P.root n) m col id sigma lagrange0 qLast qBlind beta
        gamma v gates).map (eval y)) alphas pieces y maxDegree (2 ^ n)) := by
  obtain ⟨l, -, room⟩ := room_of fits.fri fits.coarser fits.products
  obtain ⟨length, reads⟩ := opens.reads holds columns
  have sizes : 2 + table.description.constantColumns + table.description.selectorColumns ≤
      (proof.z 3).length := by
    show 2 + table.constants.length + table.selectors.length ≤ _
    omega
  have permutationSize : ((proof.z 3).length - 2 - table.description.constantColumns -
      table.description.selectorColumns) / 2 = m := by
    show ((proof.z 3).length - 2 - table.constants.length - table.selectors.length) / 2 = m
    omega
  have constrained := reads.copyConstrained_eq (fun i => mem_columnsRotations.mpr (.inl rfl))
    fits.columns
  have polynomials := PermutationArgument.verifyEval_eq holds room
    (show ((List.range m).map fun i => (col i).eval y).length = m by simp) y (v.eval y)
    (v.eval (P.root n * y)) beta gamma
  have binding : ∀ s : Nat → F[X], ∏ i ∈ Finset.range m,
      (Domain.get ((List.range m).map fun i => (col i).eval y) i + (s i).eval y * beta + gamma) =
        ∏ i ∈ Finset.range m, ((col i).eval y + (s i).eval y * beta + gamma) := fun s =>
    Finset.prod_congr rfl fun i hi => by rw [PolynomialDfs.get_map_range _ (Finset.mem_range.mp hi)]
  have read : ∀ var : PlonkVariable, var.index < table.description.columns var.type →
      (var.rotation = 0 ∨ var ∈ system.visited) →
      columnsAtY table.description m (entry (proof.z 0)) (entry (proof.z 3))
          (columnsRotations table.description system) var.key =
        some (rowAt (columnPolynomial table.description col) (P.root n) y var.key) := by
    intro var column collected
    have rotated : var.rotation ∈
        columnsRotations table.description system (table.description.globalIndex var) :=
      mem_columnsRotations.mpr (collected.imp_right fun visited => ⟨var, visited, rfl, rfl⟩)
    rw [reads.columnsAtY_eq column rotated, powInt_eq fits.admits, mul_comm]
    rfl
  have gateValue : Circuit.verifyEval system.gates _ theta = _ :=
    Circuit.verifyEval_eq theta
      (fun gate hgate constraint hconstraint var hvar =>
        read var (fits.within.vars gate hgate constraint hconstraint var hvar)
          (.inr (system.mem_visited hgate hconstraint hvar)))
      fun gate hgate =>
        read ⟨gate.selectorIndex, 0, .selector⟩ (fits.within.selectors gate hgate) (.inl rfl)
  have quotient : (List.range (proof.z 2).length).map (entry (proof.z 2) · 0) = pieces := by
    rw [opens.quotient, map_entry]
  rw [binding, binding] at polynomials
  rw [verify, if_neg (not_lt.mpr sizes)]
  simp only [permutationSize, constrained, challenge, first, holds.lagrange0.evaluate,
    opens.permutation, quotient, gateValue, map_argumentPolynomials, value, holds.domainSize,
    Option.bind_some]
  have entries : entry [[v.eval y, v.eval (P.root n * y)]] 0 0 = v.eval y ∧
      entry [[v.eval y, v.eval (P.root n * y)]] 0 1 = v.eval (P.root n * y) := ⟨rfl, rfl⟩
  rw [if_neg (not_not.mpr rfl), entries.1, entries.2, polynomials, Option.bind_some,
    if_neg (by simp)]

end Opened

/-! ## The prover -/

/-- The prover returns a proof at every challenge, and the verifier accepts it exactly where the
remainder of the division vanishes. -/
theorem exists_proof (fits : Fits P system table n k m maxDegree)
    (aligned : system.Aligned n) {data : PreprocessedData F}
    {col id sigma : Nat → F[X]} {lagrange0 qLast qBlind : F[X]}
    (holds : Holds P n m data id sigma lagrange0 qLast qBlind)
    (columns : HoldsAll P n table.columns.length table.columns col) (beta gamma theta : F)
    (alphas : List F) :
    ∃ v gates : F[X],
      (∀ j < 2 ^ n, v.eval (P.root n ^ j) = ∏ r ∈ Finset.range j, ∏ i ∈ Finset.range m,
        ((col i).eval (P.root n ^ r) + (id i).eval (P.root n ^ r) * beta + gamma) /
          ((col i).eval (P.root n ^ r) + (sigma i).eval (P.root n ^ r) * beta + gamma)) ∧
      (∀ y, gates.eval y = combine theta (system.gates.flatMap
        (PlonkGate.values (rowAt (columnPolynomial table.description col) (P.root n) y)))) ∧
      ∀ y, ∃ proof,
        prove P data system table (2 ^ k) maxDegree ⟨beta, gamma, theta, alphas, y⟩ = some proof ∧
        (verify P data system table.description maxDegree true proof
            ⟨beta, gamma, theta, alphas, y⟩ = some true ↔
          (consolidated (argumentPolynomials (P.root n) m col id sigma lagrange0 qLast qBlind beta
            gamma v gates) alphas %ₘ (X ^ 2 ^ n - C 1)).eval y = 0) := by
  obtain ⟨l, less, room⟩ := room_of fits.fri fits.coarser fits.products
  obtain ⟨permutation, v, proved, hv, values, held⟩ := proveEval_holds holds fits.rows
    (fun i hi => columns i (hi.trans_le fits.count)) fits.coarser less room beta gamma
  obtain ⟨f, gates, computed, bounded, zero, value⟩ := proveEval_gates fits aligned columns theta
  obtain ⟨first, head⟩ : ∃ first, permutation.polynomials[0]? = some first := by
    have length := held.length_eq
    exact ⟨_, List.getElem?_eq_getElem (by rw [length]; exact Nat.succ_pos 2)⟩
  obtain ⟨q, ts, divided, split, check⟩ := finalCheck_spec
    (holdsArgument_append held head bounded zero) (by simp [arguments])
    fits.fri fits.pieces alphas (Nat.two_pow_pos n)
  refine ⟨v, gates, values, value, fun y => ?_⟩
  obtain ⟨pieces, evaluated, passes⟩ := check y
  obtain ⟨z₀, variableValues, -⟩ := exists_variableValues columns
    (columnsRotations table.description system) (P.root n) y
  obtain ⟨z₃, fixedValues, -⟩ := exists_fixedValues holds columns
    (columnsRotations table.description system) (P.root n) y
  have shifted : proofEval P [[y, y * P.root n]] [permutation.permutationPolynomial] =
      some [[v.eval y, v.eval (P.root n * y)]] := by
    rw [proofEval_eq (.cons hv.evaluate .nil) fun _ => List.cons_ne_nil _ _, mul_comm]
    rfl
  have quotient := proofEval_pieces evaluated
  refine ⟨⟨y, lagrange0.eval y, ![z₀, [[v.eval y, v.eval (P.root n * y)]], pieces.map ([·]), z₃]⟩,
    ?_, ?_⟩
  · simp only [prove, proved, head, holds.domainSize, computed, divided, split,
      holds.lagrange0.evaluate, makeEvaluationDomain_eq fits.admits fits.rows, variableValues,
      shifted, quotient, holds.count, fixedValues, Option.bind_eq_bind, Option.bind_some,
      Option.pure_def]
  · have opens : Opens P data system table (P.root n) v pieces y ⟨y, lagrange0.eval y,
        ![z₀, [[v.eval y, v.eval (P.root n * y)]], pieces.map ([·]), z₃]⟩ :=
      ⟨variableValues, rfl, rfl, by rw [holds.count]; exact fixedValues⟩
    rw [verify_eq fits holds columns opens rfl rfl (value y), Option.some_inj]
    exact passes

/-- A proof that is accepted is about the challenge of the transcript. -/
theorem challenge_of_verify {data : PreprocessedData F} {description : TableDescription}
    {opened : Bool} {proof : EvalProof F} {transcript : Challenges F}
    (accepted : verify P data system description maxDegree opened proof transcript = some true) :
    proof.challenge = transcript.challenge ∧
      PolynomialDfs.evaluate P data.lagrange0 proof.challenge = some proof.lagrange0 := by
  rw [verify] at accepted
  split at accepted
  · cases accepted
  · obtain ⟨lagrange0, evaluated, accepted⟩ := Option.bind_eq_some_iff.mp accepted
    split at accepted
    · cases accepted
    · next same =>
        obtain ⟨permutation, -, accepted⟩ := Option.bind_eq_some_iff.mp accepted
        obtain ⟨gates, -, accepted⟩ := Option.bind_eq_some_iff.mp accepted
        split at accepted
        · cases accepted
        · next checked =>
            have challenge := not_not.mp (not_or.mp checked).1
            exact ⟨challenge.symm, by rw [evaluated, not_not.mp same]⟩

/-! ## Four rows of the circuit of the tests -/

/-- Both gates are selected in the first row only. The rotation of the multiplication gate goes
around to the last row there. -/
def satisfyingTable : PolynomialTable (ZMod circuitModulus) where
  witnesses := [⟨3, [1, 0, 0, -1]⟩, ⟨3, [0, 1, 0, 0]⟩, ⟨3, [1, 0, 1, 0]⟩]
  publicInputs := []
  constants := []
  selectors := [⟨3, [1, 0, 0, 0]⟩, ⟨3, [1, 0, 0, 0]⟩]

/-- The sum in the first row is wrong. -/
def violatingTable : PolynomialTable (ZMod circuitModulus) where
  witnesses := [⟨3, [1, 0, 0, -1]⟩, ⟨3, [1, 1, 0, 0]⟩, ⟨3, [1, 0, 1, 0]⟩]
  publicInputs := []
  constants := []
  selectors := [⟨3, [1, 0, 0, 0]⟩, ⟨3, [1, 0, 0, 0]⟩]

theorem satisfyingTable_hasShape : satisfyingTable.HasShape (2 ^ 2 - 1) 2 := by
  constructor <;> intro type <;> cases type <;>
    simp [satisfyingTable, PolynomialTable.column, PolynomialDfs.size]

theorem violatingTable_hasShape : violatingTable.HasShape (2 ^ 2 - 1) 2 := by
  constructor <;> intro type <;> cases type <;>
    simp [violatingTable, PolynomialTable.column, PolynomialDfs.size]

theorem satisfyingTable_satisfies : satisfyingTable.Satisfies circuitTest2Computed (2 ^ 2) := by
  intro j hj
  have hj : j < 4 := hj
  rw [circuitTest2Computed_values]
  interval_cases j <;>
    simp [PolynomialTable.row, PolynomialTable.column, satisfyingTable, PlonkVariable.key, w0, w1,
      w2, w0Prev, Domain.get]

theorem satisfyingTable_nonzero : ∀ i < 3, ∀ j < 1,
    satisfyingTable.cell (i, j) + 5 ^ i * pallasBaseField.root 2 ^ j * 2 + 9 ≠ 0 := by
  intro i hi j hj
  obtain rfl : j = 0 := Nat.lt_one_iff.mp hj
  rw [pow_zero]
  interval_cases i <;> decide

theorem fits_sample {table : PolynomialTable (ZMod circuitModulus)}
    (shape : table.HasShape (2 ^ 2 - 1) 2) (witnesses : 3 ≤ table.witnesses.length)
    (selectors : 2 ≤ table.selectors.length) :
    Fits pallasBaseField circuitTest2Computed table 2 4 3 3 where
  rows := by decide
  shape := shape
  within := circuitTest2_within _ (.inr rfl) witnesses selectors
  positive := (circuitTest2_bounds _ (.inr rfl)).1
  small := (circuitTest2_bounds _ (.inr rfl)).2
  degree := by decide
  gates := by decide
  columns := by omega
  coarser := by decide
  fri := by decide
  products := by decide
  pieces := by decide

/-! ## The results -/

/-- If the table violates a gate in some row, then whatever a prover commits to, in the order in
which the challenges are drawn, few challenges make the verifier accept: fewer `theta` than there
are constraints, at most one last `alpha`, and no more evaluation points than the degrees allow.
The proof may come from any prover; only its evaluations must be those of what was committed. -/
theorem verify_sound (fits : Fits P system table n k m maxDegree)
    (violated : ¬ table.Satisfies system (2 ^ n))
    (copyConstraints : List (PlonkVariable × PlonkVariable)) {u : Nat} (usable : u < 2 ^ n)
    (delta : F) :
    ∃ data, process P copyConstraints table.description (2 ^ n) u m delta = some data ∧
      ∃ thetas : Set F, thetas.Finite ∧
        thetas.ncard < (system.gates.flatMap PlonkGate.constraints).length ∧
        ∀ theta ∉ thetas, ∀ (beta gamma : F) (v : F[X]) (alphas : List F), alphas.length = 8 →
          ∃ bad, ∀ alpha ≠ bad, ∀ ts : List F[X], (∀ t ∈ ts, t.natDegree ≤ maxDegree) →
            ∃ points : Finset F,
              points.card ≤ max
                ((max m system.maxGatesDegree.toNat + 1) * (2 ^ n - 1) + 2 * v.natDegree)
                (2 ^ n + (maxDegree + 1) * ts.length) ∧
              ∀ y proof, Opens P data system table (P.root n) v (ts.map (eval y)) y proof →
                verify P data system table.description maxDegree true proof
                    ⟨beta, gamma, theta, alphas ++ [alpha], y⟩ = some true →
                  y ∈ points := by
  obtain ⟨permutation, -, cycles, -⟩ :=
    exists_cycleRepresentation table.description (2 ^ n) copyConstraints
  obtain ⟨data, id, sigma, lagrange0, qLast, qBlind, processed, holds, -⟩ :=
    process_holds copyConstraints table.description fits.admits fits.rows usable m delta cycles
  obtain ⟨col, columns⟩ := columns_hold fits.admits fits.shape le_rfl
  have columnsM : HoldsAll P n m table.columns col := fun i hi =>
    columns i (hi.trans_le fits.count)
  obtain ⟨j, hj, value, member, nonzero⟩ : ∃ j < 2 ^ n, ∃ value ∈
      system.gates.flatMap (PlonkGate.values (table.row (2 ^ n) j)), value ≠ 0 := by
    simpa only [PolynomialTable.Satisfies, not_forall, exists_prop] using violated
  obtain ⟨finite, few⟩ := ncard_combine_lt ⟨value, member, nonzero⟩
  rw [PlonkGate.length_flatMap_values] at few
  refine ⟨data, processed, _, finite, few, fun theta notBad beta gamma v alphas eight => ?_⟩
  obtain ⟨gates, degree, gateValues⟩ := exists_gates fits columns theta
  have fails : gates.eval (P.root n ^ j) ≠ 0 := by
    rw [gateValues, values_rowAt fits columns]
    exact notBad
  -- the one last challenge for which the sum of all polynomials vanishes in the violated row
  let ps : List F[X] := argumentValues lagrange0 qLast qBlind v (v.comp (C (P.root n) * X))
      (∏ i ∈ Finset.range m, (col i + id i * C beta + C gamma))
      (∏ i ∈ Finset.range m, (col i + sigma i * C beta + C gamma)) ++ List.replicate 5 0
  have length : ps.length = alphas.length := eight.symm
  let rest : F := (consolidated ps alphas).eval (P.root n ^ j)
  refine ⟨-rest / gates.eval (P.root n ^ j), fun alpha other ts pieces => ?_⟩
  have sum : (consolidated (ps ++ [gates]) (alphas ++ [alpha])).eval (P.root n ^ j) ≠ 0 := by
    rw [consolidated_append length, eval_add, eval_mul, eval_C]
    intro zero
    apply other
    rw [eq_div_iff fails, eq_neg_iff_add_eq_zero, add_comm, mul_comm]
    exact zero
  have degrees := natDegree_argumentPolynomials_le holds columnsM (P.root n) beta gamma v gates
  obtain ⟨points, card, passes⟩ := finalCheck_sound fits.admits degrees pieces _ sum
  refine ⟨points, card.trans (max_le_max ?_ le_rfl), fun y proof opens accepted => passes y ?_⟩
  · have least := Nat.mul_le_mul_right (2 ^ n - 1)
      (Nat.add_le_add_right (le_max_left m system.maxGatesDegree.toNat) 1)
    have most := Nat.mul_le_mul_right (2 ^ n - 1)
      (Nat.add_le_add_right (le_max_right m system.maxGatesDegree.toNat) 1)
    exact max_le (Nat.add_le_add_right least _)
      ((degree.trans most).trans (Nat.le_add_right _ _))
  · obtain ⟨challenge, first⟩ := challenge_of_verify accepted
    rw [holds.lagrange0.evaluate, Option.some_inj, challenge] at first
    rw [verify_eq fits holds columns opens challenge first.symm (gateValues y)] at accepted
    exact Option.some_injective _ accepted

theorem verify_sound_sample :
    let system : ConstraintSystem (ZMod circuitModulus) := circuitTest2Computed
    ∃ data, process pallasBaseField [] violatingTable.description (2 ^ 2) 1 3 5 = some data ∧
      ∃ thetas : Set (ZMod circuitModulus), thetas.Finite ∧ thetas.ncard < 2 ∧
        ∀ theta ∉ thetas, ∀ (beta gamma : ZMod circuitModulus) (v : (ZMod circuitModulus)[X])
          (alphas : List (ZMod circuitModulus)), alphas.length = 8 →
          ∃ bad, ∀ alpha ≠ bad, ∀ ts : List (ZMod circuitModulus)[X],
            (∀ t ∈ ts, t.natDegree ≤ 3) →
            ∃ points : Finset (ZMod circuitModulus),
              points.card ≤ max ((3 + 1) * (2 ^ 2 - 1) + 2 * v.natDegree)
                (2 ^ 2 + (3 + 1) * ts.length) ∧
              ∀ y proof, Opens pallasBaseField data system violatingTable
                  (pallasBaseField.root 2) v (ts.map (eval y)) y proof →
                verify pallasBaseField data system violatingTable.description 3 true proof
                    ⟨beta, gamma, theta, alphas ++ [alpha], y⟩ = some true →
                  y ∈ points := by
  intro system
  have violated : ¬ violatingTable.Satisfies system (2 ^ 2) := by
    intro satisfied
    have first := satisfied 0 (by decide)
    rw [circuitTest2Computed_values, List.forall_mem_cons] at first
    have sum := first.1
    simp [PolynomialTable.row, PolynomialTable.column, violatingTable, PlonkVariable.key, w0, w1,
      w2, Domain.get] at sum
  exact verify_sound (fits_sample violatingTable_hasShape (by decide) (by decide)) violated []
    (by decide) 5

/-- The copy constraints are not enforced: for a table that satisfies the gates, whether or not it
meets the copy constraints, there are a permutation polynomial and, for all further challenges,
pieces of a quotient with which the verifier accepts at every point. The permutation polynomial is
the one of `exists_vanishing`, whose first row nothing holds to one. -/
theorem verify_unconstrained (fits : Fits P system table n k m maxDegree)
    (satisfied : table.Satisfies system (2 ^ n))
    (copyConstraints : List (PlonkVariable × PlonkVariable)) {u : Nat} (usable : u < 2 ^ n)
    (delta beta gamma : F)
    (nonzero : ∀ i < m, ∀ j < u, table.cell (i, j) + delta ^ i * P.root n ^ j * beta + gamma ≠ 0) :
    ∃ data, process P copyConstraints table.description (2 ^ n) u m delta = some data ∧
      ∃ v : F[X], v.natDegree ≤ 2 ^ n - 1 ∧ ∀ (theta : F) (alphas : List F),
        ∃ ts : List F[X], (∀ t ∈ ts, t.natDegree ≤ maxDegree) ∧ ∀ y, ∃ proof,
          Opens P data system table (P.root n) v (ts.map (eval y)) y proof ∧
          verify P data system table.description maxDegree true proof
            ⟨beta, gamma, theta, alphas, y⟩ = some true := by
  obtain ⟨permutation, -, cycles, -⟩ :=
    exists_cycleRepresentation table.description (2 ^ n) copyConstraints
  obtain ⟨data, id, sigma, lagrange0, qLast, qBlind, processed, holds, idValues, -, selectors⟩ :=
    process_holds copyConstraints table.description fits.admits fits.rows usable m delta cycles
  obtain ⟨col, columns⟩ := columns_hold fits.admits fits.shape le_rfl
  obtain ⟨vP, v, hv, vanish⟩ := exists_vanishing fits.admits sigma usable
    (fun i hi => columns i (hi.trans_le fits.count)) idValues selectors nonzero
  refine ⟨data, processed, v, hv.degree, fun theta alphas => ?_⟩
  obtain ⟨gates, -, gateValues⟩ := exists_gates fits columns theta
  have vanishes : ∀ j < 2 ^ n, (consolidated (argumentPolynomials (P.root n) m col id sigma
      lagrange0 qLast qBlind beta gamma v gates) alphas).eval (P.root n ^ j) = 0 := by
    intro j hj
    apply consolidated_vanishes
    · exact vanish j hj
    · rw [gateValues, values_rowAt fits columns, combine_eq_zero (satisfied j hj)]
  obtain ⟨ts, pieces, passes⟩ := exists_passing fits.admits vanishes maxDegree
  refine ⟨ts, pieces, fun y => ?_⟩
  obtain ⟨z₀, variableValues, -⟩ := exists_variableValues columns
    (columnsRotations table.description system) (P.root n) y
  obtain ⟨z₃, fixedValues, -⟩ := exists_fixedValues holds columns
    (columnsRotations table.description system) (P.root n) y
  have opens : Opens P data system table (P.root n) v (ts.map (eval y)) y ⟨y, lagrange0.eval y,
      ![z₀, [[v.eval y, v.eval (P.root n * y)]], (ts.map (eval y)).map ([·]), z₃]⟩ :=
    ⟨variableValues, rfl, rfl, by rw [holds.count]; exact fixedValues⟩
  refine ⟨_, opens, ?_⟩
  rw [verify_eq fits holds columns opens rfl rfl (gateValues y), passes]

/-- The first cells of the first two columns are constrained to be equal, and are not. -/
theorem verify_unconstrained_sample :
    let system : ConstraintSystem (ZMod circuitModulus) := circuitTest2Computed
    ∃ data, process pallasBaseField sampleConstraints satisfyingTable.description (2 ^ 2) 1 3 5 =
        some data ∧
      ∃ v : (ZMod circuitModulus)[X], v.natDegree ≤ 2 ^ 2 - 1 ∧
        ∀ (theta : ZMod circuitModulus) (alphas : List (ZMod circuitModulus)),
        ∃ ts : List (ZMod circuitModulus)[X], (∀ t ∈ ts, t.natDegree ≤ 3) ∧ ∀ y, ∃ proof,
          Opens pallasBaseField data system satisfyingTable (pallasBaseField.root 2) v
            (ts.map (eval y)) y proof ∧
          verify pallasBaseField data system satisfyingTable.description 3 true proof
            ⟨2, 9, theta, alphas, y⟩ = some true := by
  intro system
  exact verify_unconstrained (fits_sample satisfyingTable_hasShape (by decide) (by decide))
    satisfyingTable_satisfies sampleConstraints (by decide) 5 2 9 satisfyingTable_nonzero

end Circuit.Placeholder
