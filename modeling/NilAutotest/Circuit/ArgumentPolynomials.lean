import NilAutotest.Circuit.Placeholder

/-!
# The polynomials of the argument

The columns of a table are polynomials, and a gate in a row is the gate over these polynomials at
the point of the row. All gates together are one polynomial, whose degree is bounded by that of the
circuit; with the three polynomials of the permutation argument and the zeros in the place of the
lookups it makes the nine that the last check of the verifier is about.
-/

namespace Circuit

open Domain GateArgument Polynomial

/-! ## The rows of a table -/

section Rows

variable {F : Type*} [Field F]

/-- The values that the variables take in a row of the table. The rows are a cycle: a rotation
before the first one reads the last one. -/
def PolynomialTable.row (table : PolynomialTable F) (rows j : Nat) (key : Key) : F :=
  ((table.column key.2.2)[key.1]?.map fun f =>
    Domain.get f.val (((j : Int) + key.2.1) % rows).toNat).getD 0

/-- The constraints of all gates hold in every row that selects them. -/
def PolynomialTable.Satisfies (table : PolynomialTable F) (system : ConstraintSystem F)
    (rows : Nat) : Prop :=
  ∀ j < rows, ∀ value ∈ system.gates.flatMap (PlonkGate.values (table.row rows j)), value = 0

/-- The polynomials of the columns, by type and index. -/
def columnPolynomial (table : TableDescription) (col : Nat → F[X]) (type : ColumnType)
    (index : Nat) : F[X] :=
  col (table.globalIndex ⟨index, 0, type⟩)

open PermutationArgument

variable {P : ArithmeticParams F} {n : Nat} {table : PolynomialTable F} {col : Nat → F[X]}

theorem columnPolynomial_represents
    (columns : HoldsAll P n table.columns.length table.columns col) (type : ColumnType) (i : Nat)
    (f : PolynomialDfs F) (found : (table.column type)[i]? = some f) :
    PolynomialDfs.Represents P f ⟨2 ^ n - 1, n⟩
      (columnPolynomial table.description col type i) := by
  have place := table.columns_getElem? ⟨i, 0, type⟩ (List.getElem?_eq_some_iff.mp found).1
  rw [show (table.column type)[i]? = some f from found] at place
  obtain ⟨g, held, represents⟩ := columns _ (List.getElem?_eq_some_iff.mp place).1
  obtain rfl := Option.some_injective _ (place.symm.trans held)
  exact represents

/-- At the point of a row the variables take the values of the row. A rotation multiplies the point
by a power of the root, so it goes around the domain like the rows do. -/
theorem rowAt_eq (hn : P.Admits n)
    (columns : HoldsAll P n table.columns.length table.columns col) {key : Key}
    (inside : key.1 < (table.column key.2.2).length) (j : Nat) :
    rowAt (columnPolynomial table.description col) (P.root n) (P.root n ^ j) key =
      table.row (2 ^ n) j key := by
  have found := List.getElem?_eq_getElem inside
  have represents := columnPolynomial_represents columns _ _ _ found
  have nonzero : P.root n ≠ 0 := (primitive_root hn.2).ne_zero (Nat.two_pow_pos n).ne'
  have rows : ((2 ^ n : Nat) : Int) ≠ 0 := by exact_mod_cast (Nat.two_pow_pos n).ne'
  have nonneg := Int.emod_nonneg ((j : Int) + key.2.1) rows
  have less := Int.emod_lt_of_pos ((j : Int) + key.2.1) (lt_of_le_of_ne (by positivity) rows.symm)
  have bound : (((j : Int) + key.2.1) % (2 ^ n : Nat)).toNat < 2 ^ n := by
    omega
  have point : P.root n ^ key.2.1 * P.root n ^ j =
      P.root n ^ (((j : Int) + key.2.1) % (2 ^ n : Nat)).toNat := by
    rw [← zpow_natCast (P.root n) (Int.toNat _), Int.toNat_of_nonneg nonneg,
      root_zpow_emod hn dvd_rfl, zpow_add₀ nonzero, zpow_natCast, mul_comm]
  rw [rowAt, point, PolynomialTable.row, found, Option.map_some, Option.getD_some,
    represents.values _ bound]

end Rows

namespace Placeholder

open Batching PermutationArgument

variable {F : Type*} [Field F] {P : ArithmeticParams F} {n k m maxDegree : Nat}
variable {system : ConstraintSystem F} {table : PolynomialTable F}

/-- The circuit is about the table, and every size that is needed on the way has a domain. The
rows are `2 ^ n`, the columns of the permutation argument `m`, and commitments are made to `2 ^ k`
values. That the gates have a degree is an assertion of the preprocessor. Nothing is asked of the
values in the table. -/
structure Fits (P : ArithmeticParams F) (system : ConstraintSystem F) (table : PolynomialTable F)
    (n k m maxDegree : Nat) : Prop where
  rows : 0 < n
  shape : table.HasShape (2 ^ n - 1) n
  within : system.Within table.description
  positive : ∀ gate ∈ system.gates, ∀ constraint ∈ gate.constraints, constraint.Positive
  small : ∀ gate ∈ system.gates, ∀ constraint ∈ gate.constraints, constraint.degree < 2 ^ 32
  degree : 0 < system.maxGatesDegree.toNat
  gates : P.Admits (n + Nat.clog 2 system.maxGatesDegree.toNat + 1)
  columns : m ≤ table.witnesses.length + table.publicInputs.length + table.constants.length
  coarser : n ≤ k
  fri : P.Admits k
  products : P.Admits (Nat.clog 2 ((max m 1 + 2) * (2 ^ n - 1) + 1))
  pieces : maxDegree + 1 ≤ 2 ^ k

namespace Fits

theorem admits (fits : Fits P system table n k m maxDegree) : P.Admits n :=
  fits.fri.mono fits.coarser

theorem count (fits : Fits P system table n k m maxDegree) : m ≤ table.columns.length := by
  have columns := fits.columns
  simp only [PolynomialTable.columns, List.length_append]
  omega

end Fits

/-- The gates in the row of a point. -/
theorem values_rowAt (fits : Fits P system table n k m maxDegree) {col : Nat → F[X]}
    (columns : HoldsAll P n table.columns.length table.columns col) (j : Nat) :
    system.gates.flatMap (PlonkGate.values
        (rowAt (columnPolynomial table.description col) (P.root n) (P.root n ^ j))) =
      system.gates.flatMap (PlonkGate.values (table.row (2 ^ n) j)) := by
  have same : ∀ var : PlonkVariable, var.index < table.description.columns var.type →
      rowAt (columnPolynomial table.description col) (P.root n) (P.root n ^ j) var.key =
        table.row (2 ^ n) j var.key := by
    intro var inside
    rw [table.columns_description] at inside
    exact rowAt_eq fits.admits columns (show var.key.1 < _ from inside) j
  apply List.flatMap_congr
  intro gate hgate
  apply List.map_congr_left
  intro constraint hconstraint
  have selected := same ⟨gate.selectorIndex, 0, .selector⟩ (fits.within.selectors gate hgate)
  rw [PlonkVariable.key] at selected
  rw [selected, Expression.evaluate_congr fun var hvar =>
    same var (fits.within.vars gate hgate constraint hconstraint var hvar)]

/-! ## The polynomial of the gates -/

theorem natDegree_evaluate_le {V : Type*} {value : V → F[X]} {d : Nat} (e : Expression V F)
    (degrees : ∀ var ∈ e.vars, (value var).natDegree ≤ d) :
    (e.evaluate value C).natDegree ≤ e.degree * d := by
  induction e with
  | term t =>
      have loop : ∀ (vars : List V) (start : F[X]), (∀ var ∈ vars, (value var).natDegree ≤ d) →
          (vars.foldl (fun result var => result * value var) start).natDegree ≤
            start.natDegree + vars.length * d := by
        intro vars
        induction vars with
        | nil => exact fun start _ => Nat.le_add_right _ _
        | cons var vars ih =>
            intro start degrees
            rw [List.forall_mem_cons] at degrees
            have first := natDegree_mul_le_of_le (le_refl start.natDegree) degrees.1
            calc _ ≤ (start * value var).natDegree + vars.length * d := ih _ degrees.2
              _ ≤ start.natDegree + (var :: vars).length * d := by
                  rw [List.length_cons, Nat.succ_mul]
                  omega
      have product := loop t.vars (C t.coeff) degrees
      rwa [natDegree_C, Nat.zero_add] at product
  | pow expr power ih =>
      rw [Expression.degree, Nat.mul_right_comm, Nat.mul_comm]
      exact natDegree_pow_le_of_le power (ih degrees)
  | binary exprLeft exprRight op left right =>
      rw [Expression.vars, List.forall_mem_append] at degrees
      have sum : max exprLeft.degree exprRight.degree * d =
          max (exprLeft.degree * d) (exprRight.degree * d) := (Nat.mul_max_mul_right _ _ _).symm
      cases op with
      | add =>
          show _ ≤ max exprLeft.degree exprRight.degree * d
          rw [sum]
          exact natDegree_add_le_of_le (left degrees.1) (right degrees.2)
      | sub =>
          show _ ≤ max exprLeft.degree exprRight.degree * d
          rw [sum]
          exact natDegree_sub_le_of_le (left degrees.1) (right degrees.2)
      | mult =>
          rw [Expression.degree, Nat.add_mul]
          exact natDegree_mul_le_of_le (left degrees.1) (right degrees.2)

theorem natDegree_combine_le {vs : List F[X]} {d : Nat} (degrees : ∀ p ∈ vs, p.natDegree ≤ d)
    (theta : F) : (combine (C theta) vs).natDegree ≤ d := by
  induction vs with
  | nil => exact natDegree_zero.trans_le (Nat.zero_le d)
  | cons p vs ih =>
      rw [List.forall_mem_cons] at degrees
      exact natDegree_add_le_of_degree_le degrees.1
        ((natDegree_C_mul_le _ _).trans (ih degrees.2))

/-- There is a polynomial with the verifier's value at every point, aligned or not. -/
theorem exists_gates (fits : Fits P system table n k m maxDegree) {col : Nat → F[X]}
    (columns : HoldsAll P n table.columns.length table.columns col) (theta : F) :
    ∃ gates : F[X], gates.natDegree ≤ (system.maxGatesDegree.toNat + 1) * (2 ^ n - 1) ∧
      ∀ y, gates.eval y = combine theta (system.gates.flatMap
        (PlonkGate.values (rowAt (columnPolynomial table.description col) (P.root n) y))) := by
  let rotated (key : Key) : F[X] :=
    (columnPolynomial table.description col key.2.2 key.1).comp (C (P.root n ^ key.2.1) * X)
  let values : List F[X] := system.gates.flatMap fun gate => gate.constraints.map fun constraint =>
    rotated (gate.selectorIndex, 0, .selector) *
      constraint.evaluate (fun var => rotated var.key) C
  have degree : ∀ var : PlonkVariable, var.index < table.description.columns var.type →
      (rotated var.key).natDegree ≤ 2 ^ n - 1 := by
    intro var inside
    rw [table.columns_description] at inside
    have represents := columnPolynomial_represents columns var.type var.index _
      (List.getElem?_eq_getElem inside)
    exact (PolynomialDfs.natDegree_comp_linear_le _ _).trans represents.degree
  refine ⟨combine (C theta) values, natDegree_combine_le ?_ theta, fun y => ?_⟩
  · intro p member
    obtain ⟨gate, hgate, member⟩ := List.mem_flatMap.mp member
    obtain ⟨constraint, hconstraint, rfl⟩ := List.mem_map.mp member
    have selector := degree ⟨gate.selectorIndex, 0, .selector⟩ (fits.within.selectors gate hgate)
    have evaluated := natDegree_evaluate_le constraint fun var hvar =>
      degree var (fits.within.vars gate hgate constraint hconstraint var hvar)
    have most := Nat.mul_le_mul_right (2 ^ n - 1) (degree_le_maxGatesDegree hgate hconstraint
      (fits.positive gate hgate constraint hconstraint)
      (fits.small gate hgate constraint hconstraint))
    rw [Nat.succ_mul, Nat.add_comm]
    exact natDegree_mul_le_of_le selector (evaluated.trans most)
  · have value : ∀ key, (rotated key).eval y =
        rowAt (columnPolynomial table.description col) (P.root n) y key := by
      intro key
      rw [eval_comp, eval_mul, eval_C, eval_X]
      rfl
    have constraintValue : ∀ constraint : Expression PlonkVariable F,
        (constraint.evaluate (fun var => rotated var.key) C).eval y = constraint.evaluate
          (fun var => rowAt (columnPolynomial table.description col) (P.root n) y var.key) id := by
      intro constraint
      have map := constraint.map_evaluate (fun var => rotated var.key) (evalRingHom y) C
      simp only [coe_evalRingHom, value, eval_C] at map
      exact map
    have map := map_combine (evalRingHom y) (C theta) values
    rw [coe_evalRingHom, eval_C] at map
    rw [map, List.map_flatMap]
    simp only [List.map_map, Function.comp_def, eval_mul, value, constraintValue]
    rfl

/-! ## The polynomials of the argument -/

section Polynomials

variable (omega : F) (m : Nat) (col id sigma : Nat → F[X]) (lagrange0 qLast qBlind : F[X])
variable (beta gamma : F)

/-- The polynomials that the last check is about: three of the permutation argument, five zeros
for the lookups, and the one of the gates. -/
noncomputable def argumentPolynomials (v gates : F[X]) : List F[X] :=
  argumentValues lagrange0 qLast qBlind v (v.comp (C omega * X))
      (∏ i ∈ Finset.range m, (col i + id i * C beta + C gamma))
      (∏ i ∈ Finset.range m, (col i + sigma i * C beta + C gamma)) ++
    List.replicate 5 0 ++ [gates]

theorem map_argumentPolynomials (v gates : F[X]) (y : F) :
    (argumentPolynomials omega m col id sigma lagrange0 qLast qBlind beta gamma v gates).map
        (eval y) =
      argumentValues (lagrange0.eval y) (qLast.eval y) (qBlind.eval y) (v.eval y)
          (v.eval (omega * y))
          (∏ i ∈ Finset.range m, ((col i).eval y + (id i).eval y * beta + gamma))
          (∏ i ∈ Finset.range m, ((col i).eval y + (sigma i).eval y * beta + gamma)) ++
        List.replicate 5 0 ++ [gates.eval y] := by
  simp only [argumentPolynomials, List.map_append, eval_argumentValues, List.map_replicate,
    eval_zero, List.map_cons, List.map_nil, eval_prod, eval_add, eval_mul, eval_C]

end Polynomials

/-- The sum of the polynomials vanishes where the three of the permutation argument and the one of
the gates do. -/
theorem consolidated_vanishes {omega : F} {col id sigma : Nat → F[X]}
    {lagrange0 qLast qBlind : F[X]} {beta gamma : F} {v gates : F[X]} {y : F}
    (permutation : (argumentValues lagrange0 qLast qBlind v (v.comp (C omega * X))
      (∏ i ∈ Finset.range m, (col i + id i * C beta + C gamma))
      (∏ i ∈ Finset.range m, (col i + sigma i * C beta + C gamma))).map (eval y) = [0, 0, 0])
    (gate : gates.eval y = 0) (alphas : List F) :
    (consolidated (argumentPolynomials omega m col id sigma lagrange0 qLast qBlind beta gamma v
      gates) alphas).eval y = 0 := by
  apply eval_consolidated_eq_zero
  rw [argumentPolynomials, List.forall_mem_append, List.forall_mem_append,
    List.forall_mem_singleton]
  refine ⟨⟨forall_eval_eq_zero permutation, fun p lookup => ?_⟩, gate⟩
  rw [List.eq_of_mem_replicate lookup, eval_zero]

/-- The degrees of the polynomials, for a permutation polynomial of any degree: nothing in the
last check bounds the one that a prover commits to. -/
theorem natDegree_argumentPolynomials_le {data : PreprocessedData F} {col id sigma : Nat → F[X]}
    {lagrange0 qLast qBlind : F[X]} (holds : Holds P n m data id sigma lagrange0 qLast qBlind)
    (columns : HoldsAll P n m table.columns col) (omega beta gamma : F) (v gates : F[X]) :
    ∀ p ∈ argumentPolynomials omega m col id sigma lagrange0 qLast qBlind beta gamma v gates,
      p.natDegree ≤ max ((m + 1) * (2 ^ n - 1) + 2 * v.natDegree) gates.natDegree := by
  have degree : ∀ {polynomials : List (PolynomialDfs F)} {s : Nat → F[X]},
      HoldsAll P n m polynomials s → ∀ i < m, (s i).natDegree ≤ 2 ^ n - 1 := by
    intro polynomials s h i hi
    obtain ⟨f, -, represents⟩ := h i hi
    exact represents.degree
  have bindings : ∀ {polynomials : List (PolynomialDfs F)} {s : Nat → F[X]},
      HoldsAll P n m polynomials s →
      (∏ i ∈ Finset.range m, (col i + s i * C beta + C gamma)).natDegree ≤ m * (2 ^ n - 1) := by
    intro polynomials s h
    calc (∏ i ∈ Finset.range m, (col i + s i * C beta + C gamma)).natDegree
        ≤ ∑ i ∈ Finset.range m, (col i + s i * C beta + C gamma).natDegree := natDegree_prod_le _ _
      _ ≤ ∑ _i ∈ Finset.range m, (2 ^ n - 1) := by
          refine Finset.sum_le_sum fun i hi => ?_
          have scaled := (natDegree_mul_C_le (s i) beta).trans (degree h i (Finset.mem_range.mp hi))
          have column := degree columns i (Finset.mem_range.mp hi)
          exact natDegree_add_le_of_degree_le (natDegree_add_le_of_degree_le column scaled)
            ((natDegree_C gamma).trans_le (Nat.zero_le _))
      _ = m * (2 ^ n - 1) := by rw [Finset.sum_const, Finset.card_range, smul_eq_mul]
  have shifted := PolynomialDfs.natDegree_comp_linear_le v omega
  have one : (1 : F[X]).natDegree ≤ 0 := natDegree_one.le
  have first := natDegree_mul_le_of_le holds.lagrange0.degree
    (natDegree_sub_le_of_le one (le_refl v.natDegree))
  have active := natDegree_sub_le_of_le one
    (natDegree_add_le_of_le holds.qLast.degree holds.qBlind.degree)
  have step := natDegree_sub_le_of_le
    (natDegree_mul_le_of_le shifted (bindings holds.permutation))
    (natDegree_mul_le_of_le (le_refl v.natDegree) (bindings holds.identity))
  have second := natDegree_mul_le_of_le active step
  have third := natDegree_mul_le_of_le holds.qLast.degree (natDegree_sub_le_of_le
    (natDegree_mul_le_of_le (le_refl v.natDegree) (le_refl v.natDegree)) (le_refl v.natDegree))
  have rows : (m + 1) * (2 ^ n - 1) = m * (2 ^ n - 1) + (2 ^ n - 1) := Nat.succ_mul _ _
  simp only [argumentPolynomials, argumentValues, List.forall_mem_append, List.forall_mem_cons,
    List.mem_replicate, and_imp]
  refine ⟨⟨⟨first.trans (le_max_of_le_left ?_), second.trans (le_max_of_le_left ?_),
    third.trans (le_max_of_le_left ?_), List.forall_mem_nil _⟩, fun p _ zero => ?_⟩,
    le_max_right _ _, List.forall_mem_nil _⟩
  · dsimp only
    omega
  · dsimp only
    omega
  · dsimp only
    omega
  · rw [zero, natDegree_zero]
    exact Nat.zero_le _

/-- The zeros in the place of the lookups, and the polynomial of the gates, are held too. -/
theorem holdsArgument_append {d d' l l' : Nat} {fs : List (PolynomialDfs F)} {ps : List F[X]}
    (held : HoldsArgument P d l fs ps) {first f : PolynomialDfs F} {p : F[X]}
    (head : fs[0]? = some first) (bounded : PolynomialDfs.Bounded P d' l' f p)
    (zero : f.d = 0 → p = 0) :
    HoldsArgument P (max d d') (max l l') (arguments first f fs)
      (ps ++ List.replicate 5 0 ++ [p]) := by
  have grown : HoldsArgument P (max d d') (max l l') fs ps := by
    refine List.Forall₂.imp (fun f p own => ⟨?_, own.2⟩) held
    exact (own.1.mono (le_max_left d d')).mono_size (le_max_left l l')
  have none : PolynomialDfs.Bounded P (max d d') (max l l')
      (PolynomialDfs.constant first.size 0) 0 := by
    obtain ⟨inside, rfl⟩ := List.getElem?_eq_some_iff.mp head
    obtain ⟨⟨s, represents, -, size⟩, -⟩ := grown.get inside (grown.length_eq ▸ inside)
    have length : fs[0].size = 2 ^ s.k := represents.length
    rw [length, ← C_0]
    exact .constant represents.admits size _ 0
  have zeros : HoldsArgument P (max d d') (max l l')
      (List.replicate 5 (PolynomialDfs.constant first.size 0)) (List.replicate 5 0) := by
    refine List.forall₂_iff_get.mpr ⟨by rw [List.length_replicate, List.length_replicate],
      fun i hi hi' => ?_⟩
    rw [List.get_eq_getElem, List.get_eq_getElem, List.getElem_replicate, List.getElem_replicate]
    exact ⟨none, fun _ => rfl⟩
  have last := (bounded.mono (le_max_right d d')).mono_size (le_max_right l l')
  exact List.rel_append (List.rel_append grown zeros) (.cons ⟨last, zero⟩ .nil)

end Placeholder

end Circuit
