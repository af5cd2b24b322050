import NilAutotest.Circuit.PermutationArgument
import Mathlib.Algebra.Polynomial.Div
import Mathlib.Algebra.BigOperators.Intervals

/-!
# What the permutation argument says

Prover and verifier agree on the three polynomials at every point. For columns that meet the
copy constraints the polynomials vanish on the whole domain. But the polynomial `lagrange_0`
of the common data is one at the row after the usable ones, like `q_last`, so the permutation
polynomial is held to one at that row only, and not at the first row: some permutation
polynomial passes for any columns, whether they meet the copy constraints or not.
-/

namespace Circuit.PermutationArgument

open Domain GateArgument Polynomial

/-! ## On the domain -/

section Values

variable {R : Type*} [CommRing R]

/-- The row after the usable ones holds the permutation polynomial to one, and each usable row
holds it to its step. The rows after these are masked, and nothing holds the first row. -/
theorem argumentValues_vanish_iff {u j : Nat} (v shifted g h : R) :
    argumentValues (if j = u then 1 else 0) (if j = u then 1 else 0) (if u < j then 1 else 0)
        v shifted g h = [0, 0, 0] ↔
      (j = u → v = 1) ∧ (j < u → shifted * h = v * g) := by
  rcases Nat.lt_trichotomy j u with before | rfl | after
  · simp [argumentValues, before, before.ne, before.not_gt, sub_eq_zero]
  · have one : 1 - v = 0 ↔ v = 1 := by rw [sub_eq_zero, eq_comm]
    simp only [argumentValues, if_pos, lt_irrefl, if_false, add_zero, sub_self, zero_mul, one_mul,
      one, List.cons.injEq, and_true, true_and, true_imp_iff, false_imp_iff, and_iff_left_iff_imp]
    rintro rfl
    ring
  · simp [argumentValues, after, after.ne', after.not_gt]

end Values

variable {F : Type*} [Field F] {P : ArithmeticParams F} {n m k l u : Nat}

/-- A polynomial that vanishes on the domain is a multiple of the one that the verifier
divides by. -/
theorem exists_quotient (hn : P.Admits n) {f : F[X]}
    (vanishes : ∀ j < 2 ^ n, f.eval (P.root n ^ j) = 0) :
    ∃ t : F[X], ∀ y, f.eval y = (y ^ 2 ^ n - 1) * t.eval y := by
  refine ⟨f /ₘ (X ^ 2 ^ n - C 1), fun y => ?_⟩
  conv_lhs => rw [← modByMonic_add_div f (X ^ 2 ^ n - C 1)]
  rw [(modByMonic_eq_zero_iff hn).mpr vanishes, zero_add, eval_mul, eval_sub, eval_pow, eval_X,
    eval_C]

theorem forall_eval_eq_zero {fs : List F[X]} {y : F} (zero : fs.map (eval y) = [0, 0, 0]) :
    ∀ f ∈ fs, f.eval y = 0 := by
  intro f member
  have value := List.mem_map_of_mem (f := eval y) member
  rw [zero] at value
  simpa using value

theorem exists_quotients (hn : P.Admits n) {fs : List F[X]}
    (vanish : ∀ j < 2 ^ n, ∀ f ∈ fs, f.eval (P.root n ^ j) = 0) :
    ∃ ts : List F[X], ∀ y, fs.map (eval y) = ts.map fun t => (y ^ 2 ^ n - 1) * t.eval y := by
  induction fs with
  | nil => exact ⟨[], fun _ => rfl⟩
  | cons f fs ih =>
      simp only [List.forall_mem_cons] at vanish
      obtain ⟨t, first⟩ := exists_quotient hn fun j hj => (vanish j hj).1
      obtain ⟨ts, rest⟩ := ih fun j hj => (vanish j hj).2
      exact ⟨t :: ts, fun y => by rw [List.map_cons, List.map_cons, first, rest]⟩

/-! ## The preprocessor -/

section Processed

variable (copyConstraints : List (PlonkVariable × PlonkVariable)) (table : TableDescription)

/-- The preprocessed data, with the values of its polynomials on the domain: all that the argument
knows about them. The mapping may be any permutation, as the copy constraints make it. -/
theorem process_holds (hn : P.Admits n) (positive : 0 < n) {u : Nat} (usable : u < 2 ^ n)
    (m : Nat) (delta : F) {permutation : CycleRepresentation}
    (cycles : cycleRepresentation table (2 ^ n) copyConstraints = some permutation) :
    ∃ data id sigma lagrange0 qLast qBlind,
      process P copyConstraints table (2 ^ n) u m delta = some data ∧
      Holds P n m data id sigma lagrange0 qLast qBlind ∧
      (∀ i < m, ∀ j < 2 ^ n, (id i).eval (P.root n ^ j) = delta ^ i * P.root n ^ j) ∧
      (∀ i < m, ∀ j < 2 ^ n, (sigma i).eval (P.root n ^ j) =
        delta ^ (permutation.image (i, j)).1 * P.root n ^ (permutation.image (i, j)).2) ∧
      ∀ j < 2 ^ n, lagrange0.eval (P.root n ^ j) = (if j = u then 1 else 0) ∧
        qLast.eval (P.root n ^ j) = (if j = u then 1 else 0) ∧
        qBlind.eval (P.root n ^ j) = if u < j then 1 else 0 := by
  have list : ∀ value : Nat → Nat → F, ∃ p : Nat → F[X],
      HoldsAll P n m ((List.range m).map fun i => onDomain (2 ^ n) (value i)) p ∧
        ∀ i < m, ∀ j < 2 ^ n, (p i).eval (P.root n ^ j) = value i j := by
    intro value
    choose p hp values using fun i => onDomain_represents hn (value i)
    refine ⟨p, fun i hi => ⟨_, ?_, hp i⟩, fun i _ => values i⟩
    rw [List.getElem?_map, List.getElem?_range hi, Option.map_some]
  obtain ⟨id, hid, idValues⟩ := list fun i j => delta ^ i * P.root n ^ j
  obtain ⟨sigma, hsigma, sigmaValues⟩ := list fun i j =>
    delta ^ (permutation.image (i, j)).1 * P.root n ^ (permutation.image (i, j)).2
  obtain ⟨last, hlast, lastValues⟩ := onDomain_represents hn fun j => if j = u then (1 : F) else 0
  obtain ⟨blind, hblind, blindValues⟩ :=
    onDomain_represents hn fun j => if u < j then (1 : F) else 0
  let data : PreprocessedData F :=
    { permutationPolynomials :=
        permutationPolynomials m (P.root n) delta permutation (2 ^ n)
      identityPolynomials := identityPolynomials m (P.root n) delta (2 ^ n)
      qLast := lagrangePolynomial (2 ^ n) u
      qBlind := selectorBlind u (2 ^ n)
      lagrange0 := lagrangePolynomial (2 ^ n) u
      domainSize := 2 ^ n }
  have count : data.identityPolynomials.length = m := (List.length_map _).trans List.length_range
  refine ⟨data, id, sigma, last, last, blind, ?_, ⟨hid, count, hsigma, hlast, hlast, hblind, rfl⟩,
    idValues, sigmaValues, fun j hj => ⟨lastValues j hj, lastValues j hj, blindValues j hj⟩⟩
  rw [process, if_neg (not_le.mpr usable), makeEvaluationDomain_eq hn positive, cycles]
  rfl

end Processed

section Columns

/-- The evaluations of the columns that the verifier is given. -/
def columnValues [DecidableEq F] (P : ArithmeticParams F) (columns : List (PolynomialDfs F))
    (permutationSize : Nat) (y : F) : Option (List F) :=
  (List.range permutationSize).mapM fun i => columns[i]?.bind (PolynomialDfs.evaluate P · y)

variable {table : PolynomialTable F}

theorem columns_hold (hn : P.Admits n) (shape : table.HasShape (2 ^ n - 1) n)
    (count : m ≤ table.columns.length) : ∃ col, HoldsAll P n m table.columns col := by
  have represented : ∀ f ∈ table.columns, ∃ p, PolynomialDfs.Represents P f ⟨2 ^ n - 1, n⟩ p := by
    intro f member
    obtain ⟨type, member⟩ : ∃ type, f ∈ table.column type := by
      simp only [PolynomialTable.columns, List.mem_append] at member
      obtain ((member | member) | member) | member := member
      · exact ⟨.witness, member⟩
      · exact ⟨.publicInput, member⟩
      · exact ⟨.constant, member⟩
      · exact ⟨.selector, member⟩
    exact PolynomialDfs.exists_represents hn (shape.d type f member) (shape.size type f member)
  have column : ∀ i, ∃ p, i < m → ∃ f, table.columns[i]? = some f ∧
      PolynomialDfs.Represents P f ⟨2 ^ n - 1, n⟩ p := by
    intro i
    by_cases hi : i < table.columns.length
    · obtain ⟨p, hp⟩ := represented _ (List.getElem_mem hi)
      exact ⟨p, fun _ => ⟨_, List.getElem?_eq_getElem hi, hp⟩⟩
    · exact ⟨0, fun less => absurd (less.trans_le count) hi⟩
  choose col hcol using column
  exact ⟨col, hcol⟩

theorem HoldsAll.cell_eq {col : Nat → F[X]} (h : HoldsAll P n m table.columns col) {i j : Nat}
    (hi : i < m) (hj : j < 2 ^ n) : table.cell (i, j) = (col i).eval (P.root n ^ j) :=
  h.entry_eq hi hj

theorem columnValues_eq [DecidableEq F] {columns : List (PolynomialDfs F)} {col : Nat → F[X]}
    (h : HoldsAll P n m columns col) (y : F) :
    ∃ values, columnValues P columns m y = some values ∧ values.length = m ∧
      ∀ i < m, get values i = (col i).eval y := by
  have step : ∀ i ∈ List.range m, ∃ x, columns[i]?.bind (PolynomialDfs.evaluate P · y) = some x ∧
      x = (col i).eval y := by
    intro i member
    obtain ⟨f, found, represents⟩ := h i (List.mem_range.mp member)
    exact ⟨_, by rw [found, Option.bind_some, represents.evaluate y], rfl⟩
  obtain ⟨values, mapped, related⟩ := Control.mapM_related step
  have size : values.length = m := related.length_eq.symm.trans List.length_range
  refine ⟨values, mapped, size, fun i hi => ?_⟩
  have value := related.get (by rwa [List.length_range]) (size.symm ▸ hi)
  rw [List.get_eq_getElem, List.get_eq_getElem, List.getElem_range] at value
  exact (List.getD_eq_getElem _ _ (size.symm ▸ hi)).trans value

end Columns

theorem room_of (fri : P.Admits k) (coarser : n ≤ k)
    (products : P.Admits (Nat.clog 2 ((max m 1 + 2) * (2 ^ n - 1) + 1))) :
    ∃ l, k ≤ l ∧ Room P n m l := by
  refine ⟨max k (Nat.clog 2 ((max m 1 + 2) * (2 ^ n - 1) + 1)), le_max_left _ _,
    ⟨⟨max_lt fri.1 products.1, max_le fri.2 products.2⟩, coarser.trans (le_max_left _ _), ?_⟩⟩
  exact (Nat.le_pow_clog (by decide) _).trans (Nat.pow_le_pow_right (by decide) (le_max_right _ _))

/-- Whatever the columns are, the steps can be followed from the last usable row back to the
first: the permutation polynomial with these values meets all that the argument demands. -/
theorem exists_vanishing (hn : P.Admits n) {table : PolynomialTable F} {col id : Nat → F[X]}
    (sigma : Nat → F[X]) {lagrange0 qLast qBlind : F[X]} {delta beta gamma : F} {u : Nat}
    (usable : u < 2 ^ n) (hcol : HoldsAll P n m table.columns col)
    (idValues : ∀ i < m, ∀ j < 2 ^ n, (id i).eval (P.root n ^ j) = delta ^ i * P.root n ^ j)
    (selectors : ∀ j < 2 ^ n, lagrange0.eval (P.root n ^ j) = (if j = u then 1 else 0) ∧
      qLast.eval (P.root n ^ j) = (if j = u then 1 else 0) ∧
      qBlind.eval (P.root n ^ j) = if u < j then 1 else 0)
    (nonzero : ∀ i < m, ∀ j < u, table.cell (i, j) + delta ^ i * P.root n ^ j * beta + gamma ≠ 0) :
    ∃ vP v, PolynomialDfs.Represents P vP ⟨2 ^ n - 1, n⟩ v ∧ ∀ j < 2 ^ n,
      (argumentValues lagrange0 qLast qBlind v (v.comp (C (P.root n) * X))
        (∏ i ∈ Finset.range m, (col i + id i * C beta + C gamma))
        (∏ i ∈ Finset.range m, (col i + sigma i * C beta + C gamma))).map
          (eval (P.root n ^ j)) = [0, 0, 0] := by
  let g : F[X] := ∏ i ∈ Finset.range m, (col i + id i * C beta + C gamma)
  let h : F[X] := ∏ i ∈ Finset.range m, (col i + sigma i * C beta + C gamma)
  have gNonzero : ∀ j < u, g.eval (P.root n ^ j) ≠ 0 := by
    intro j hj
    rw [eval_prod, Finset.prod_ne_zero_iff]
    intro i hi
    have hi := Finset.mem_range.mp hi
    have cell := nonzero i hi j hj
    rw [hcol.cell_eq hi (hj.trans usable)] at cell
    rwa [eval_add, eval_add, eval_mul, eval_C, eval_C, idValues i hi j (hj.trans usable)]
  obtain ⟨v, hv, values⟩ := onDomain_represents hn fun j =>
    ∏ r ∈ Finset.Ico j u, h.eval (P.root n ^ r) / g.eval (P.root n ^ r)
  refine ⟨_, v, hv, fun j hj => ?_⟩
  obtain ⟨first, last, blind⟩ := selectors j hj
  rw [eval_argumentValues, first, last, blind, ← pow_succ', argumentValues_vanish_iff]
  refine ⟨fun last => ?_, fun less => ?_⟩
  · rw [values j hj, last, Finset.Ico_self, Finset.prod_empty]
  · rw [values j hj, values (j + 1) (by omega), Finset.prod_eq_prod_Ico_succ_bot less]
    show _ * h.eval (P.root n ^ j) = _ * g.eval (P.root n ^ j)
    field_simp [gNonzero j less]

/-! ## Two columns of four rows -/

/-- One usable row, whose two cells are constrained to be equal. -/
def sampleConstraints : List (PlonkVariable × PlonkVariable) :=
  [(⟨0, 0, .witness⟩, ⟨1, 0, .witness⟩)]

def equalTable : PolynomialTable (ZMod circuitModulus) where
  witnesses := [⟨3, [1, 0, 1, 0]⟩, ⟨3, [1, 1, 0, 0]⟩]
  publicInputs := []
  constants := []
  selectors := []

/-- The cells of the usable row differ. -/
def unequalTable : PolynomialTable (ZMod circuitModulus) where
  witnesses := [⟨3, [1, 0, 1, 0]⟩, ⟨3, [0, 1, 0, 0]⟩]
  publicInputs := []
  constants := []
  selectors := []

theorem equalTable_hasShape : equalTable.HasShape (2 ^ 2 - 1) 2 := by
  constructor <;> intro type <;> cases type <;>
    simp [equalTable, PolynomialTable.column, PolynomialDfs.size]

theorem unequalTable_hasShape : unequalTable.HasShape (2 ^ 2 - 1) 2 := by
  constructor <;> intro type <;> cases type <;>
    simp [unequalTable, PolynomialTable.column, PolynomialDfs.size]

theorem sample_nonzero (table : PolynomialTable (ZMod circuitModulus))
    (first : table.cell (0, 0) + 5 ^ 0 * 1 * 2 + 9 ≠ 0)
    (second : table.cell (1, 0) + 5 ^ 1 * 1 * 2 + 9 ≠ 0) : ∀ i < 2, ∀ j < 1,
      table.cell (i, j) + 5 ^ i * pallasBaseField.root 2 ^ j * 2 + 9 ≠ 0 := by
  intro i hi j hj
  obtain rfl : j = 0 := Nat.lt_one_iff.mp hj
  rw [pow_zero]
  obtain rfl | rfl : i = 0 ∨ i = 1 := by omega
  · exact first
  · exact second

/-! ## The results -/

/-- For any columns, with or without the copy constraints, there is a permutation polynomial
for which the three values of the verifier are multiples of the value of the vanishing
polynomial at every point, as its last check demands; no binding of a usable row may be zero.
Its values are found backwards, from one at the row after the usable ones to whatever comes out
at the first row. -/
theorem unconstrained [DecidableEq F] (copyConstraints : List (PlonkVariable × PlonkVariable))
    {table : PolynomialTable F}
    (shape : table.HasShape (2 ^ n - 1) n) (positive : 0 < n) (count : m ≤ table.columns.length)
    (coarser : n ≤ k) (fri : P.Admits k)
    (products : P.Admits (Nat.clog 2 ((max m 1 + 2) * (2 ^ n - 1) + 1))) (delta beta gamma : F)
    {u : Nat} (usable : u < 2 ^ n)
    (nonzero : ∀ i < m, ∀ j < u, table.cell (i, j) + delta ^ i * P.root n ^ j * beta + gamma ≠ 0) :
    ∃ data vP, process P copyConstraints table.description (2 ^ n) u m delta = some data ∧
      vP.d = 2 ^ n - 1 ∧ vP.size = 2 ^ n ∧
      ∃ quotients : List F[X], ∀ y, ∃ values v shifted,
        columnValues P table.columns m y = some values ∧
        PolynomialDfs.evaluate P vP y = some v ∧
        PolynomialDfs.evaluate P vP (P.root n * y) = some shifted ∧
        verifyEval P data y values v shifted beta gamma =
          some (quotients.map fun t => (y ^ 2 ^ n - 1) * t.eval y) := by
  have hn : P.Admits n := fri.mono coarser
  obtain ⟨l, -, room⟩ := room_of fri coarser products
  obtain ⟨permutation, -, cycles, -⟩ :=
    exists_cycleRepresentation table.description (2 ^ n) copyConstraints
  obtain ⟨data, id, sigma, lagrange0, qLast, qBlind, processed, holds, idValues, -, selectors⟩ :=
    process_holds copyConstraints table.description hn positive usable m delta cycles
  obtain ⟨col, hcol⟩ := columns_hold hn shape count
  obtain ⟨vP, v, hv, vanish⟩ := exists_vanishing hn sigma usable hcol idValues selectors nonzero
  obtain ⟨quotients, quotient⟩ := exists_quotients hn fun j hj => forall_eval_eq_zero (vanish j hj)
  refine ⟨data, vP, processed, hv.d, hv.length, quotients, fun y => ?_⟩
  obtain ⟨values, evaluated, length, value⟩ := columnValues_eq hcol y
  refine ⟨values, _, _, evaluated, hv.evaluate y, hv.evaluate _, ?_⟩
  rw [verifyEval_eq holds room length, ← quotient, eval_argumentValues]
  simp only [eval_prod, eval_add, eval_mul, eval_C]
  have binding : ∀ s : Nat → F[X],
      ∏ i ∈ Finset.range m, (get values i + (s i).eval y * beta + gamma) =
        ∏ i ∈ Finset.range m, ((col i).eval y + (s i).eval y * beta + gamma) := fun s =>
    Finset.prod_congr rfl fun i hi => by rw [value i (Finset.mem_range.mp hi)]
  rw [binding, binding]

/-- The copy constraint of the only usable row is not met. -/
theorem unconstrained_sample : ∃ data vP,
    process pallasBaseField sampleConstraints unequalTable.description (2 ^ 2) 1 2 5 = some data ∧
      vP.d = 2 ^ 2 - 1 ∧ vP.size = 2 ^ 2 ∧
      ∃ quotients : List (ZMod circuitModulus)[X], ∀ y, ∃ values v shifted,
        columnValues pallasBaseField unequalTable.columns 2 y = some values ∧
        PolynomialDfs.evaluate pallasBaseField vP y = some v ∧
        PolynomialDfs.evaluate pallasBaseField vP (pallasBaseField.root 2 * y) = some shifted ∧
        verifyEval pallasBaseField data y values v shifted 2 9 =
          some (quotients.map fun t => (y ^ 2 ^ 2 - 1) * t.eval y) :=
  unconstrained sampleConstraints unequalTable_hasShape (by decide) (by decide)
    (by decide : 2 ≤ 4) (by decide) (by decide) 5 2 9 (by decide)
    (sample_nonzero unequalTable (by decide) (by decide))

/-- The accumulated steps of the usable rows. -/
theorem step_of_accumulated {u : Nat} {v : Nat → F} {g h : Nat → F} (usable : u < 2 ^ n)
    (accumulated : ∀ j < 2 ^ n, v j = ∏ r ∈ Finset.range j, g r / h r) (one : v u = 1) {j : Nat}
    (hj : j < u) : v (j + 1) * h j = v j * g j := by
  have nonzero : h j ≠ 0 := by
    intro zero
    rw [accumulated u usable, Finset.prod_eq_zero (Finset.mem_range.mpr hj)] at one
    · exact zero_ne_one one
    · rw [zero, div_zero]
  rw [accumulated j (by omega), accumulated (j + 1) (by omega), Finset.prod_range_succ]
  field_simp

/-- The cells of the usable rows in the columns of the argument. -/
def usableCells (permutationSize usableRows : Nat) : Finset KeyType :=
  Finset.range permutationSize ×ˢ Finset.range usableRows

/-- The permutation stays within the usable cells if the copy constraints do, and leaves the
values as they are if the columns meet these. -/
theorem exists_permutation {copyConstraints : List (PlonkVariable × PlonkVariable)}
    {table : PolynomialTable F}
    (columns : m ≤ table.witnesses.length + table.publicInputs.length + table.constants.length)
    {u : Nat} (usable : u < 2 ^ n)
    (cells : ∀ c ∈ copyConstraints, copyKey table.description c.1 ∈ usableCells m u ∧
      copyKey table.description c.2 ∈ usableCells m u)
    (met : ∀ c ∈ copyConstraints, table.cell (copyKey table.description c.1) =
      table.cell (copyKey table.description c.2)) :
    ∃ (permutation : CycleRepresentation) (p : Equiv.Perm KeyType),
      cycleRepresentation table.description (2 ^ n) copyConstraints = some permutation ∧
      (∀ z, z ∈ usableCells m u ↔ p z ∈ usableCells m u) ∧
      (∀ z, table.cell (p z) = table.cell z) ∧
      ∀ x ∈ usableCells m u, permutation.image x = p x := by
  obtain ⟨permutation, p, cycles, invariant, keys, classes⟩ :=
    exists_cycleRepresentation table.description (2 ^ n) copyConstraints
  have inside : ∀ z, (p z ∈ usableCells m u) = (z ∈ usableCells m u) := by
    rw [Permutation.fixed_iff_eqvGen classes]
    rintro x y ⟨c, hc, rfl, rfl⟩
    exact propext (iff_of_true (cells c hc).1 (cells c hc).2)
  have same : ∀ z, table.cell (p z) = table.cell z := by
    rw [Permutation.fixed_iff_eqvGen classes]
    rintro x y ⟨c, hc, rfl, rfl⟩
    exact met c hc
  refine ⟨permutation, p, cycles, fun z => iff_of_eq (inside z).symm, same, fun x hx => ?_⟩
  have column := (Finset.mem_range.mp (Finset.mem_product.mp hx).1).trans_le columns
  have row := (Finset.mem_range.mp (Finset.mem_product.mp hx).2).trans usable
  have key : x ∈ permutation.keys :=
    keys (Finset.mem_product.mpr ⟨Finset.mem_range.mpr column, Finset.mem_range.mpr row⟩)
  rw [CycleRepresentation.image, if_pos key, invariant.mapping]

/-- For columns that meet the copy constraints, accumulating the quotients of the bindings gives
one again after the last usable row: the permutation only exchanges the factors. -/
theorem argumentValues_vanish {copyConstraints : List (PlonkVariable × PlonkVariable)}
    {table : PolynomialTable F} {permutation : CycleRepresentation}
    (cycles : cycleRepresentation table.description (2 ^ n) copyConstraints = some permutation)
    {col id sigma : Nat → F[X]} {lagrange0 qLast qBlind v : F[X]} {delta beta gamma : F} {u : Nat}
    (columns : m ≤ table.witnesses.length + table.publicInputs.length + table.constants.length)
    (usable : u < 2 ^ n)
    (cells : ∀ c ∈ copyConstraints, copyKey table.description c.1 ∈ usableCells m u ∧
      copyKey table.description c.2 ∈ usableCells m u)
    (met : ∀ c ∈ copyConstraints, table.cell (copyKey table.description c.1) =
      table.cell (copyKey table.description c.2))
    (nonzero : ∀ i < m, ∀ j < u, table.cell (i, j) + delta ^ i * P.root n ^ j * beta + gamma ≠ 0)
    (hcol : HoldsAll P n m table.columns col)
    (idValues : ∀ i < m, ∀ j < 2 ^ n, (id i).eval (P.root n ^ j) = delta ^ i * P.root n ^ j)
    (sigmaValues : ∀ i < m, ∀ j < 2 ^ n, (sigma i).eval (P.root n ^ j) =
      delta ^ (permutation.image (i, j)).1 * P.root n ^ (permutation.image (i, j)).2)
    (selectors : ∀ j < 2 ^ n, lagrange0.eval (P.root n ^ j) = (if j = u then 1 else 0) ∧
      qLast.eval (P.root n ^ j) = (if j = u then 1 else 0) ∧
      qBlind.eval (P.root n ^ j) = if u < j then 1 else 0)
    (values : ∀ j < 2 ^ n, v.eval (P.root n ^ j) = ∏ r ∈ Finset.range j, ∏ i ∈ Finset.range m,
      ((col i).eval (P.root n ^ r) + (id i).eval (P.root n ^ r) * beta + gamma) /
        ((col i).eval (P.root n ^ r) + (sigma i).eval (P.root n ^ r) * beta + gamma))
    {j : Nat} (hj : j < 2 ^ n) :
    argumentValues (lagrange0.eval (P.root n ^ j)) (qLast.eval (P.root n ^ j))
      (qBlind.eval (P.root n ^ j)) (v.eval (P.root n ^ j)) (v.eval (P.root n * P.root n ^ j))
      (∏ i ∈ Finset.range m,
        ((col i).eval (P.root n ^ j) + (id i).eval (P.root n ^ j) * beta + gamma))
      (∏ i ∈ Finset.range m,
        ((col i).eval (P.root n ^ j) + (sigma i).eval (P.root n ^ j) * beta + gamma)) =
        [0, 0, 0] := by
  obtain ⟨permutation', p, cycles', inside, same, image⟩ :=
    exists_permutation columns usable cells met
  obtain rfl := Option.some_injective _ (cycles.symm.trans cycles')
  let binding (x : KeyType) : F := table.cell x + delta ^ x.1 * P.root n ^ x.2 * beta + gamma
  let g (r : Nat) : F := ∏ i ∈ Finset.range m,
    ((col i).eval (P.root n ^ r) + (id i).eval (P.root n ^ r) * beta + gamma)
  let h (r : Nat) : F := ∏ i ∈ Finset.range m,
    ((col i).eval (P.root n ^ r) + (sigma i).eval (P.root n ^ r) * beta + gamma)
  have accumulated : ∀ j < 2 ^ n, v.eval (P.root n ^ j) = ∏ r ∈ Finset.range j, g r / h r := by
    intro j hj
    simp only [values j hj, Finset.prod_div_distrib, g, h]
  have quotient : ∀ x ∈ usableCells m u,
      ((col x.1).eval (P.root n ^ x.2) + (id x.1).eval (P.root n ^ x.2) * beta + gamma) /
          ((col x.1).eval (P.root n ^ x.2) + (sigma x.1).eval (P.root n ^ x.2) * beta + gamma) =
        binding x / binding (p x) := by
    intro x hx
    have column := Finset.mem_range.mp (Finset.mem_product.mp hx).1
    have row := (Finset.mem_range.mp (Finset.mem_product.mp hx).2).trans usable
    rw [← hcol.cell_eq column row, idValues _ column _ row, sigmaValues _ column _ row, image x hx]
    simp only [binding, same]
  have one : v.eval (P.root n ^ u) = 1 := by
    rw [values u usable, Finset.prod_comm, ← Finset.prod_product']
    refine (Finset.prod_congr rfl quotient).trans ?_
    apply Permutation.prod_div_image inside
    intro x hx
    exact nonzero x.1 (Finset.mem_range.mp (Finset.mem_product.mp hx).1) x.2
      (Finset.mem_range.mp (Finset.mem_product.mp hx).2)
  rw [(selectors j hj).1, (selectors j hj).2.1, (selectors j hj).2.2, ← pow_succ',
    (argumentValues_vanish_iff _ _ _ _).mpr ⟨fun last => ?_, fun before => ?_⟩]
  · rw [last, one]
  · exact step_of_accumulated usable accumulated one before

/-- If the columns meet the copy constraints, and these are about usable cells, then the three
polynomials of the prover vanish on the whole domain. The bindings of the usable cells must not
be zero, which the challenges decide. A constraint about a cell that is masked or not among the
columns of the argument would take the permutation out of the cells whose factors cancel. -/
theorem complete [DecidableEq F] {copyConstraints : List (PlonkVariable × PlonkVariable)}
    {table : PolynomialTable F} (shape : table.HasShape (2 ^ n - 1) n) (positive : 0 < n)
    (columns : m ≤ table.witnesses.length + table.publicInputs.length + table.constants.length)
    (coarser : n ≤ k) (fri : P.Admits k)
    (products : P.Admits (Nat.clog 2 ((max m 1 + 2) * (2 ^ n - 1) + 1)))
    (delta beta gamma : F) {u : Nat} (usable : u < 2 ^ n)
    (cells : ∀ c ∈ copyConstraints, copyKey table.description c.1 ∈ usableCells m u ∧
      copyKey table.description c.2 ∈ usableCells m u)
    (met : ∀ c ∈ copyConstraints, table.cell (copyKey table.description c.1) =
      table.cell (copyKey table.description c.2))
    (nonzero : ∀ i < m, ∀ j < u, table.cell (i, j) + delta ^ i * P.root n ^ j * beta + gamma ≠ 0) :
    ∃ data result, process P copyConstraints table.description (2 ^ n) u m delta = some data ∧
      proveEval P data table.columns (2 ^ k) beta gamma = some result ∧
      ∀ j < 2 ^ n, result.polynomials.mapM (PolynomialDfs.evaluate P · (P.root n ^ j)) =
        some [0, 0, 0] := by
  have hn : P.Admits n := fri.mono coarser
  obtain ⟨l, less, room⟩ := room_of fri coarser products
  have count : m ≤ table.columns.length := by
    simp only [PolynomialTable.columns, List.length_append]
    omega
  obtain ⟨permutation, -, cycles, -⟩ :=
    exists_cycleRepresentation table.description (2 ^ n) copyConstraints
  obtain ⟨data, id, sigma, lagrange0, qLast, qBlind, processed, holds, idValues, sigmaValues,
    selectors⟩ := process_holds copyConstraints table.description hn positive usable m delta cycles
  obtain ⟨col, hcol⟩ := columns_hold hn shape count
  obtain ⟨result, v, proved, -, values, polynomials⟩ :=
    proveEval_eq holds positive hcol coarser less room beta gamma
  refine ⟨data, result, processed, proved, fun j hj => ?_⟩
  rw [polynomials, argumentValues_vanish cycles columns usable cells met nonzero hcol idValues
    sigmaValues selectors values hj]

theorem complete_sample : ∃ data result,
    process pallasBaseField sampleConstraints equalTable.description (2 ^ 2) 1 2 5 = some data ∧
      proveEval pallasBaseField data equalTable.columns (2 ^ 4) 2 9 = some result ∧
      ∀ j < 2 ^ 2, result.polynomials.mapM
        (PolynomialDfs.evaluate pallasBaseField · (pallasBaseField.root 2 ^ j)) = some [0, 0, 0] :=
  complete equalTable_hasShape (by decide) (by decide) (by decide) (by decide) (by decide) 5 2 9
    (by decide) (by decide) (by decide) (sample_nonzero equalTable (by decide) (by decide))

end Circuit.PermutationArgument
