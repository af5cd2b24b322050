import NilAutotest.Circuit.CopyConstraints
import NilAutotest.Circuit.Prover
import NilAutotest.Circuit.Quotient
import Mathlib.Algebra.BigOperators.Group.Finset.Basic

/-!
# The permutation argument

The preprocessor names the cells by products of powers, in the order of the columns and as
the copy constraints permute them. The prover accumulates the quotients of the bindings of
both in the permutation polynomial and returns three polynomials; the verifier computes the
values of the three from the evaluations in the proof.
-/

namespace Circuit

open Domain Polynomial

/-! ## The preprocessed data -/

/-- The preprocessed data that the permutation argument reads. The names are those of the source,
also where the polynomial is not the one that its name promises (`process`). -/
structure PreprocessedData (F : Type*) where
  permutationPolynomials : List (PolynomialDfs F)
  identityPolynomials : List (PolynomialDfs F)
  qLast : PolynomialDfs F
  qBlind : PolynomialDfs F
  lagrange0 : PolynomialDfs F
  domainSize : Nat

/-- `operator[]` of the representation; a key that is missing is inserted, with the first
cell as its image. -/
def CycleRepresentation.image (permutation : CycleRepresentation) (key : KeyType) : KeyType :=
  if key ∈ permutation.keys then permutation.mapping key else (0, 0)

section Preprocessor

variable {F : Type*}

/-- The polynomial with given values on the domain. Its degree is set to one less than their
number, whatever the values are. -/
def onDomain (size : Nat) (value : Nat → F) : PolynomialDfs F :=
  ⟨size - 1, (List.range size).map value⟩

variable [Field F] (P : ArithmeticParams F)

/-- `identity_polynomials`: in the row `j` of the column `i` stands `delta ^ i * omega ^ j`, which
names the cell. -/
def identityPolynomials (permutationSize : Nat) (omega delta : F) (size : Nat) :
    List (PolynomialDfs F) :=
  (List.range permutationSize).map fun i => onDomain size fun j => delta ^ i * omega ^ j

/-- `permutation_polynomials`: in each cell stands the name of the cell that it is mapped to. -/
def permutationPolynomials (permutationSize : Nat) (omega delta : F)
    (permutation : CycleRepresentation) (size : Nat) : List (PolynomialDfs F) :=
  (List.range permutationSize).map fun i => onDomain size fun j =>
    delta ^ (permutation.image (i, j)).1 * omega ^ (permutation.image (i, j)).2

/-- `lagrange_polynomial`: one in a row and zero in all others. -/
def lagrangePolynomial (size number : Nat) : PolynomialDfs F :=
  onDomain size fun j => if j = number then 1 else 0

/-- `selector_blind` -/
def selectorBlind (usableRows size : Nat) : PolynomialDfs F :=
  onDomain size fun j => if usableRows < j then 1 else 0

/-- The part of `process` for the permutation argument. The field `lagrange_0` of the common
data is one at the row after the usable ones, which is written without a check, so there has to
be such a row; the polynomial that is one at row zero is computed too, but not kept. -/
def process (copyConstraints : List (PlonkVariable × PlonkVariable)) (table : TableDescription)
    (rowsAmount usableRows columnsWithCopyConstraints : Nat) (delta : F) :
    Option (PreprocessedData F) :=
  if rowsAmount ≤ usableRows then none
  else Option.bind (makeEvaluationDomain P rowsAmount) fun omega =>
    (cycleRepresentation table rowsAmount copyConstraints).map fun permutation => {
      permutationPolynomials :=
        permutationPolynomials columnsWithCopyConstraints omega delta permutation rowsAmount
      identityPolynomials :=
        identityPolynomials columnsWithCopyConstraints omega delta rowsAmount
      qLast := lagrangePolynomial rowsAmount usableRows
      qBlind := selectorBlind usableRows rowsAmount
      lagrange0 := lagrangePolynomial rowsAmount usableRows
      domainSize := rowsAmount }

end Preprocessor

/-- `operator[]` of the table counts the columns of all types. -/
def PolynomialTable.columns {F : Type*} (table : PolynomialTable F) : List (PolynomialDfs F) :=
  table.witnesses ++ table.publicInputs ++ table.constants ++ table.selectors

theorem PolynomialTable.columns_eq {F : Type*} (table : PolynomialTable F) : table.columns =
    (table.witnesses ++ table.publicInputs) ++ (table.constants ++ table.selectors) :=
  List.append_assoc _ _ _

/-- `operator[]` of the table finds a column under its global index. -/
theorem PolynomialTable.columns_getElem? {F : Type*} (table : PolynomialTable F)
    (var : PlonkVariable) (inside : var.index < (table.column var.type).length) :
    table.columns[table.description.globalIndex var]? =
      (table.column var.type)[var.index]? := by
  obtain ⟨index, rotation, type⟩ := var
  have groups := table.columns_eq
  have before : (table.witnesses ++ table.publicInputs).length =
      table.witnesses.length + table.publicInputs.length := List.length_append
  cases type with
  | witness =>
      show table.columns[index]? = table.witnesses[index]?
      have inside : index < table.witnesses.length := inside
      rw [groups, List.getElem?_append_left (by omega), List.getElem?_append_left inside]
  | publicInput =>
      show table.columns[table.witnesses.length + index]? = table.publicInputs[index]?
      have inside : index < table.publicInputs.length := inside
      rw [groups, List.getElem?_append_left (by omega), List.getElem?_append_right (by omega),
        Nat.add_sub_cancel_left]
  | constant =>
      show table.columns[table.witnesses.length + table.publicInputs.length + index]? =
        table.constants[index]?
      have inside : index < table.constants.length := inside
      rw [groups, List.getElem?_append_right (by omega), before, Nat.add_sub_cancel_left,
        List.getElem?_append_left inside]
  | selector =>
      show table.columns[table.witnesses.length + table.publicInputs.length +
        table.constants.length + index]? = table.selectors[index]?
      rw [groups, List.getElem?_append_right (by omega), before, Nat.add_assoc,
        Nat.add_sub_cancel_left, List.getElem?_append_right (by omega), Nat.add_sub_cancel_left]

/-- The value in a cell of the table. -/
def PolynomialTable.cell {F : Type*} [Field F] (table : PolynomialTable F) (key : KeyType) : F :=
  (table.columns[key.1]?.map fun f => get f.val key.2).getD 0

/-- The values of the three polynomials, over any ring: the prover has them as polynomials and the
verifier as values at a point. The first one is to hold the permutation polynomial to one where
`lagrange_0` is one, the second to its step in the usable rows, and the third to zero or one where
`q_last` is one. -/
def argumentValues {R : Type*} [CommRing R] (lagrange0 qLast qBlind v shifted g h : R) : List R :=
  [lagrange0 * (1 - v), (1 - (qLast + qBlind)) * (shifted * h - v * g), qLast * (v * v - v)]

theorem map_argumentValues {R S : Type*} [CommRing R] [CommRing S] (f : R →+* S)
    (lagrange0 qLast qBlind v shifted g h : R) :
    (argumentValues lagrange0 qLast qBlind v shifted g h).map f =
      argumentValues (f lagrange0) (f qLast) (f qBlind) (f v) (f shifted) (f g) (f h) := by
  simp [argumentValues]

/-- The values of the polynomials at a point are made from the values of their parts there. -/
theorem eval_argumentValues {F : Type*} [Field F] (lagrange0 qLast qBlind v g h : F[X])
    (omega y : F) :
    (argumentValues lagrange0 qLast qBlind v (v.comp (C omega * X)) g h).map (eval y) =
      argumentValues (lagrange0.eval y) (qLast.eval y) (qBlind.eval y) (v.eval y)
        (v.eval (omega * y)) (g.eval y) (h.eval y) := by
  have map := map_argumentValues (evalRingHom y) lagrange0 qLast qBlind v (v.comp (C omega * X)) g h
  rwa [coe_evalRingHom, eval_comp, eval_mul, eval_C, eval_X] at map

namespace PermutationArgument

/-! ## The prover -/

section Prover

variable {F : Type*} [Field F] (P : ArithmeticParams F)

/-- The bindings `g_v` of the identity polynomials, or `h_v` of the permutation polynomials;
the sizes are checked by assertions. -/
def bindings (columns polynomials : List (PolynomialDfs F)) (size count : Nat) (beta gamma : F) :
    Option (List (PolynomialDfs F)) :=
  (List.range count).mapM fun i => do
    let column ← columns[i]?
    let polynomial ← polynomials[i]?
    if column.size = size ∧ polynomial.size = size then do
      let binding ← PolynomialDfs.add P column (polynomial.scale beta)
      pure (binding.addValue gamma)
    else none

/-- A value of one of the bindings. -/
def entry (v : List (PolynomialDfs F)) (i j : Nat) : F :=
  (v[i]?.map fun f => get f.val j).getD 0

/-- The values of `V_P`. A row is the product of the quotients of all rows before it, so the first
row is one. -/
def grandProduct (gV hV : List (PolynomialDfs F)) (count : Nat) : Nat → F
  | 0 => 1
  | j + 1 => grandProduct gV hV count j *
      (List.range count).foldl (fun coeff i => coeff * (entry gV i j / entry hV i j)) 1

/-- The product of all bindings; without any it is the polynomial zero. -/
def product (v : List (PolynomialDfs F)) (count : Nat) : Option (PolynomialDfs F) :=
  (List.range count).foldlM (fun g i => do
    let binding ← v[i]?
    if i = 0 then pure binding else PolynomialDfs.mul P g binding) ⟨0, [0]⟩

structure ProverResult (F : Type*) where
  polynomials : List (PolynomialDfs F)
  permutationPolynomial : PolynomialDfs F

/-- The three polynomials for a permutation polynomial. -/
def polynomials (data : PreprocessedData F) (vP g h : PolynomialDfs F) :
    Option (List (PolynomialDfs F)) := do
  let onePolynomial := PolynomialDfs.constant vP.size 1
  let vPShifted ← PolynomialDfs.polynomialShift vP 1 data.domainSize
  let difference ← PolynomialDfs.sub P onePolynomial vP
  let first ← PolynomialDfs.mul P data.lagrange0 difference
  let selectors ← PolynomialDfs.add P data.qLast data.qBlind
  let active ← PolynomialDfs.sub P onePolynomial selectors
  let left ← PolynomialDfs.mul P vPShifted h
  let right ← PolynomialDfs.mul P vP g
  let step ← PolynomialDfs.sub P left right
  let second ← PolynomialDfs.mul P active step
  let squared ← PolynomialDfs.mul P vP vP
  let binary ← PolynomialDfs.sub P squared vP
  let third ← PolynomialDfs.mul P data.qLast binary
  pure [first, second, third]

/-- `placeholder_permutation_argument::prove_eval`; the division by zero is zero in the source
too. -/
def proveEval (data : PreprocessedData F) (columnPolynomials : List (PolynomialDfs F))
    (friSize : Nat) (beta gamma : F) : Option (ProverResult F) := do
  let count := data.identityPolynomials.length
  let gV ← bindings P columnPolynomials data.identityPolynomials data.domainSize count beta gamma
  let hV ← bindings P columnPolynomials data.permutationPolynomials data.domainSize count beta gamma
  let vP ← PolynomialDfs.resize P (onDomain data.domainSize (grandProduct gV hV count)) friSize
  let g ← product P gV count
  let h ← product P hV count
  let polynomials ← polynomials P data vP g h
  pure ⟨polynomials, vP⟩

end Prover

/-! ## The verifier -/

section Verifier

variable {F : Type*} [Field F] (P : ArithmeticParams F)

/-- `g_poly` for the identity polynomials, or `h_poly` for the permutation polynomials. -/
def bound (polynomials : List (PolynomialDfs F)) (size : Nat) (values : List F) (beta gamma : F) :
    Option (PolynomialDfs F) :=
  (List.range values.length).foldlM (fun g i => do
    let polynomial ← polynomials[i]?
    let pp := get values i + gamma
    PolynomialDfs.mul P g ((polynomial.scale beta).addValue pp)) (PolynomialDfs.constant size 1)

/-- `placeholder_permutation_argument::verify_eval` -/
def verifyEval [DecidableEq F] (data : PreprocessedData F) (challenge : F) (values : List F)
    (permPolynomialValue permPolynomialShiftedValue beta gamma : F) : Option (List F) := do
  let gPoly ← bound P data.identityPolynomials data.domainSize values beta gamma
  let hPoly ← bound P data.permutationPolynomials data.domainSize values beta gamma
  let lagrange0 ← PolynomialDfs.evaluate P data.lagrange0 challenge
  let first := lagrange0 * (1 - permPolynomialValue)
  let active ← PolynomialDfs.sub P (PolynomialDfs.valueSub 1 data.qLast) data.qBlind
  let step ← PolynomialDfs.sub P (hPoly.scale permPolynomialShiftedValue)
    (gPoly.scale permPolynomialValue)
  let second ← PolynomialDfs.mul P active step
  let second ← PolynomialDfs.evaluate P second challenge
  let qLast ← PolynomialDfs.evaluate P data.qLast challenge
  let third := qLast * (permPolynomialValue ^ 2 - permPolynomialValue)
  pure [first, second, third]

end Verifier

/-! ## What the loops compute -/

section Loops

variable {F : Type*} [Field F] {P : ArithmeticParams F} {n m l : Nat}
variable {columns polynomials v v' : List (PolynomialDfs F)} {p q : Nat → F[X]}

/-- The first `m` polynomials of a list, each by `2 ^ n` values. A list may be longer: the argument
is about as many columns as there are permutation polynomials. -/
def HoldsAll (P : ArithmeticParams F) (n m : Nat) (v : List (PolynomialDfs F)) (p : Nat → F[X]) :
    Prop :=
  ∀ i < m, ∃ f, v[i]? = some f ∧ PolynomialDfs.Represents P f ⟨2 ^ n - 1, n⟩ (p i)

theorem HoldsAll.entry_eq (h : HoldsAll P n m v p) {i j : Nat} (hi : i < m) (hj : j < 2 ^ n) :
    entry v i j = (p i).eval (P.root n ^ j) := by
  obtain ⟨f, found, represents⟩ := h i hi
  rw [entry, found, Option.map_some, Option.getD_some, represents.values j hj]

theorem bindings_holds (hcolumns : HoldsAll P n m columns p)
    (hpolynomials : HoldsAll P n m polynomials q) (beta gamma : F) :
    ∃ v, bindings P columns polynomials (2 ^ n) m beta gamma = some v ∧
      HoldsAll P n m v fun i => p i + q i * C beta + C gamma := by
  have step : ∀ i ∈ List.range m, ∃ f, (do
      let column ← columns[i]?
      let polynomial ← polynomials[i]?
      if column.size = 2 ^ n ∧ polynomial.size = 2 ^ n then do
        let binding ← PolynomialDfs.add P column (polynomial.scale beta)
        pure (binding.addValue gamma)
      else none) = some f ∧
        PolynomialDfs.Represents P f ⟨2 ^ n - 1, n⟩ (p i + q i * C beta + C gamma) := by
    intro i member
    obtain ⟨column, found, represents⟩ := hcolumns i (List.mem_range.mp member)
    obtain ⟨polynomial, found', represents'⟩ := hpolynomials i (List.mem_range.mp member)
    obtain ⟨binding, sum, result⟩ := represents.add (represents'.scale beta)
    have same : PolynomialDfs.Shape.add ⟨2 ^ n - 1, n⟩ ⟨2 ^ n - 1, n⟩ = ⟨2 ^ n - 1, n⟩ := by
      rw [PolynomialDfs.Shape.add, max_self, max_self]
    rw [same] at result
    refine ⟨_, ?_, result.addValue gamma⟩
    simp only [found, found', Option.bind_eq_bind, Option.bind_some]
    rw [if_pos ⟨represents.length, represents'.length⟩, sum]
    rfl
  obtain ⟨v, mapped, related⟩ := Control.mapM_related step
  refine ⟨v, mapped, fun i hi => ?_⟩
  have length := related.length_eq
  rw [List.length_range] at length
  have hi' : i < v.length := length ▸ hi
  refine ⟨_, List.getElem?_eq_getElem hi', ?_⟩
  have result := related.get (by rwa [List.length_range]) hi'
  simpa using result

theorem foldl_entries (hv : HoldsAll P n m v p) (hv' : HoldsAll P n m v' q) {j : Nat}
    (hj : j < 2 ^ n) :
    (List.range m).foldl (fun coeff i => coeff * (entry v i j / entry v' i j)) 1 =
      ∏ i ∈ Finset.range m, (p i).eval (P.root n ^ j) / (q i).eval (P.root n ^ j) := by
  have loop : ∀ k ≤ m,
      (List.range k).foldl (fun coeff i => coeff * (entry v i j / entry v' i j)) 1 =
        ∏ i ∈ Finset.range k, (p i).eval (P.root n ^ j) / (q i).eval (P.root n ^ j) := by
    intro k
    induction k with
    | zero => exact fun _ => rfl
    | succ k ih =>
        intro hk
        rw [List.range_succ, List.foldl_append, List.foldl_cons, List.foldl_nil, ih (by omega),
          Finset.prod_range_succ, hv.entry_eq hk hj, hv'.entry_eq hk hj]
  exact loop m le_rfl

theorem grandProduct_eq (hv : HoldsAll P n m v p) (hv' : HoldsAll P n m v' q) {j : Nat}
    (hj : j ≤ 2 ^ n) : grandProduct v v' m j =
      ∏ r ∈ Finset.range j, ∏ i ∈ Finset.range m,
        (p i).eval (P.root n ^ r) / (q i).eval (P.root n ^ r) := by
  induction j with
  | zero => rfl
  | succ j ih =>
      rw [grandProduct, ih (by omega), foldl_entries hv hv' hj, Finset.prod_range_succ]

theorem product_bounded (hv : HoldsAll P n m v p) (hl : P.Admits l) (finer : n ≤ l)
    (room : m * (2 ^ n - 1) + 1 ≤ 2 ^ l) (positive : 0 < m) :
    ∃ f, product P v m = some f ∧
      PolynomialDfs.Bounded P (m * (2 ^ n - 1)) l f (∏ i ∈ Finset.range m, p i) := by
  have loop : ∀ k < m, ∃ f, product P v (k + 1) = some f ∧
      PolynomialDfs.Bounded P ((k + 1) * (2 ^ n - 1)) l f (∏ i ∈ Finset.range (k + 1), p i) := by
    intro k
    induction k with
    | zero =>
        intro hk
        obtain ⟨f, found, represents⟩ := hv 0 hk
        refine ⟨f, ?_, ?_⟩
        · simp [product, List.range_succ, found]
        · rw [Finset.prod_range_one, Nat.zero_add, one_mul]
          exact represents.bounded finer
    | succ k ih =>
        intro hk
        obtain ⟨f, computed, bounded⟩ := ih (by omega)
        obtain ⟨g, found, represents⟩ := hv (k + 1) hk
        have less : (k + 1) * (2 ^ n - 1) + (2 ^ n - 1) ≤ m * (2 ^ n - 1) := by
          rw [← Nat.succ_mul]
          exact Nat.mul_le_mul_right _ hk
        obtain ⟨r, multiplied, result⟩ := bounded.mul (represents.bounded finer) hl
          (by dsimp only; omega)
        refine ⟨r, ?_, ?_⟩
        · rw [product] at computed ⊢
          rw [List.range_succ, List.foldlM_append, computed]
          simp [found, multiplied]
        · rw [Finset.prod_range_succ, Nat.succ_mul]
          exact result
  obtain ⟨k, rfl⟩ := Nat.exists_eq_succ_of_ne_zero positive.ne'
  exact loop k (Nat.lt_succ_self k)

theorem bound_bounded (hpolynomials : HoldsAll P n m polynomials q) (hn : P.Admits n)
    (hl : P.Admits l) (finer : n ≤ l) {values : List F} (count : values.length = m)
    (room : m * (2 ^ n - 1) + 1 ≤ 2 ^ l) (beta gamma : F) :
    ∃ f, bound P polynomials (2 ^ n) values beta gamma = some f ∧
      PolynomialDfs.Bounded P (m * (2 ^ n - 1)) l f
        (∏ i ∈ Finset.range m, (q i * C beta + C (get values i + gamma))) := by
  have loop : ∀ k ≤ m, ∃ f, (List.range k).foldlM (fun g i => do
        let polynomial ← polynomials[i]?
        let pp := get values i + gamma
        PolynomialDfs.mul P g ((polynomial.scale beta).addValue pp))
          (PolynomialDfs.constant (2 ^ n) 1) = some f ∧
      PolynomialDfs.Bounded P (k * (2 ^ n - 1)) l f
        (∏ i ∈ Finset.range k, (q i * C beta + C (get values i + gamma))) := by
    intro k
    induction k with
    | zero =>
        intro _
        rw [Finset.prod_range_zero, ← C_1]
        exact ⟨_, rfl, .constant hn finer _ 1⟩
    | succ k ih =>
        intro hk
        obtain ⟨f, computed, bounded⟩ := ih (by omega)
        obtain ⟨polynomial, found, represents⟩ := hpolynomials k hk
        have less : k * (2 ^ n - 1) + (2 ^ n - 1) ≤ m * (2 ^ n - 1) := by
          rw [← Nat.succ_mul]
          exact Nat.mul_le_mul_right _ hk
        have factor := ((represents.bounded finer).scale beta).addValue (get values k + gamma)
        obtain ⟨r, multiplied, result⟩ := bounded.mul factor hl (by dsimp only; omega)
        refine ⟨r, ?_, ?_⟩
        · rw [List.range_succ, List.foldlM_append, computed]
          simp [found, multiplied]
        · rw [Finset.prod_range_succ, Nat.succ_mul]
          exact result
  rw [bound, count]
  exact loop m le_rfl

end Loops

/-! ## The polynomials and their values -/

section Specification

variable {F : Type*} [Field F] {P : ArithmeticParams F} {n m l : Nat}

/-- The polynomials of the preprocessed data. -/
structure Holds (P : ArithmeticParams F) (n m : Nat) (data : PreprocessedData F)
    (id sigma : Nat → F[X]) (lagrange0 qLast qBlind : F[X]) : Prop where
  identity : HoldsAll P n m data.identityPolynomials id
  count : data.identityPolynomials.length = m
  permutation : HoldsAll P n m data.permutationPolynomials sigma
  lagrange0 : PolynomialDfs.Represents P data.lagrange0 ⟨2 ^ n - 1, n⟩ lagrange0
  qLast : PolynomialDfs.Represents P data.qLast ⟨2 ^ n - 1, n⟩ qLast
  qBlind : PolynomialDfs.Represents P data.qBlind ⟨2 ^ n - 1, n⟩ qBlind
  domainSize : data.domainSize = 2 ^ n

variable {data : PreprocessedData F} {id sigma : Nat → F[X]} {lagrange0 qLast qBlind : F[X]}

/-- There is a domain with enough values for all products of the argument. The largest one is that
of all bindings and the permutation polynomial, masked by the selectors. -/
structure Room (P : ArithmeticParams F) (n m l : Nat) : Prop where
  admits : P.Admits l
  finer : n ≤ l
  values : (max m 1 + 2) * (2 ^ n - 1) + 1 ≤ 2 ^ l

theorem Room.bounds (room : Room P n m l) :
    m * (2 ^ n - 1) + (2 ^ n - 1) + (2 ^ n - 1) + 1 ≤ 2 ^ l ∧ 3 * (2 ^ n - 1) + 1 ≤ 2 ^ l := by
  have values := room.values
  have some := Nat.mul_le_mul_right (2 ^ n - 1) (Nat.add_le_add_right (le_max_left m 1) 2)
  have one := Nat.mul_le_mul_right (2 ^ n - 1) (Nat.add_le_add_right (le_max_right m 1) 2)
  have expand : (m + 2) * (2 ^ n - 1) = m * (2 ^ n - 1) + (2 ^ n - 1) + (2 ^ n - 1) := by ring
  omega

theorem polynomials_eq (h : Holds P n m data id sigma lagrange0 qLast qBlind) (positive : 0 < n)
    {k : Nat} (coarser : n ≤ k) (less : k ≤ l) (room : Room P n m l) {vP g h' : PolynomialDfs F}
    {v pG pH : F[X]} (hv : PolynomialDfs.Represents P vP ⟨2 ^ n - 1, k⟩ v)
    (hg : PolynomialDfs.Bounded P (m * (2 ^ n - 1)) l g pG)
    (hh : PolynomialDfs.Bounded P (m * (2 ^ n - 1)) l h' pH) :
    ∃ fs, polynomials P data vP g h' = some fs ∧ HoldsArgument P (2 ^ l) l fs
      (argumentValues lagrange0 qLast qBlind v (v.comp (C (P.root n) * X)) pG pH) := by
  have hk : P.Admits k := hv.admits
  obtain ⟨several, three⟩ := room.bounds
  obtain ⟨shifted, rotated, hshifted⟩ := hv.polynomialShift 1 coarser
  rw [zpow_one] at hshifted
  have boundedV := hv.bounded less
  have boundedS := hshifted.bounded less
  have one : PolynomialDfs.Bounded P (2 ^ n - 1) l (.constant (2 ^ k) 1) (C 1) :=
    .constant hk less _ 1
  obtain ⟨difference, e₁, h₁⟩ := one.sub boundedV
  obtain ⟨first, e₂, h₂⟩ := (h.lagrange0.bounded room.finer).mul h₁ room.admits (by
    dsimp only; omega)
  obtain ⟨selectors, e₃, h₃⟩ := (h.qLast.bounded room.finer).add (h.qBlind.bounded room.finer)
  obtain ⟨active, e₄, h₄⟩ := one.sub h₃
  obtain ⟨left, e₅, h₅⟩ := boundedS.mul hh room.admits (by dsimp only; omega)
  obtain ⟨right, e₆, h₆⟩ := boundedV.mul hg room.admits (by dsimp only; omega)
  obtain ⟨step, e₇, h₇⟩ := h₅.sub h₆
  obtain ⟨second, e₈, h₈⟩ := h₄.mul h₇ room.admits (by dsimp only; omega)
  obtain ⟨squared, e₉, h₉⟩ := boundedV.mul boundedV room.admits (by dsimp only; omega)
  obtain ⟨binary, e₁₀, h₁₀⟩ := h₉.sub (boundedV.mono (Nat.le_add_left _ _))
  obtain ⟨third, e₁₁, h₁₁⟩ := (h.qLast.bounded room.finer).mul h₁₀ room.admits (by
    dsimp only; omega)
  rw [C_1] at h₂ h₈
  -- none of the three counts as zero
  have rows := Nat.one_lt_two_pow positive.ne'
  have dLagrange := h.lagrange0.d
  have dLast := h.qLast.d
  have d₂ := PolynomialDfs.mul_d e₂
  have d₃ := PolynomialDfs.pointwise_d e₃
  have d₄ := PolynomialDfs.pointwise_d e₄
  have d₈ := PolynomialDfs.mul_d e₈
  have d₁₁ := PolynomialDfs.mul_d e₁₁
  dsimp only at dLagrange dLast h₂ h₈ h₁₁
  refine ⟨[first, second, third], ?_, .cons ⟨h₂.mono (by omega), fun zero => ?_⟩ <|
    .cons ⟨h₈.mono (by omega), fun zero => ?_⟩ <|
      .cons ⟨h₁₁.mono (by omega), fun zero => ?_⟩ .nil⟩
  · have size : vP.size = 2 ^ k := hv.length
    simp only [polynomials, size, h.domainSize, rotated, e₁, e₂, e₃, e₄, e₅, e₆, e₇, e₈, e₉, e₁₀,
      e₁₁, Option.bind_eq_bind, Option.bind_some, Option.pure_def]
  · omega
  · omega
  · omega

/-- The verifier computes the values of the three polynomials, for whatever it is told about the
permutation polynomial. It multiplies the bindings in another order than the prover does. -/
theorem verifyEval_eq [DecidableEq F] (h : Holds P n m data id sigma lagrange0 qLast qBlind)
    (room : Room P n m l) {values : List F} (count : values.length = m) (y v v' beta gamma : F) :
    verifyEval P data y values v v' beta gamma = some (argumentValues (lagrange0.eval y)
      (qLast.eval y) (qBlind.eval y) v v'
      (∏ i ∈ Finset.range m, (get values i + (id i).eval y * beta + gamma))
      (∏ i ∈ Finset.range m, (get values i + (sigma i).eval y * beta + gamma))) := by
  obtain ⟨several, -⟩ := room.bounds
  have hn : P.Admits n := room.admits.mono room.finer
  obtain ⟨g, e₁, h₁⟩ := bound_bounded h.identity hn room.admits room.finer count (by omega)
    beta gamma
  obtain ⟨h', e₂, h₂⟩ := bound_bounded h.permutation hn room.admits room.finer count (by omega)
    beta gamma
  obtain ⟨active, e₃, h₃⟩ := ((h.qLast.bounded room.finer).valueSub 1).sub
    (h.qBlind.bounded room.finer)
  obtain ⟨step, e₄, h₄⟩ := (h₂.scale v').sub (h₁.scale v)
  obtain ⟨second, e₅, h₅⟩ := h₃.mul h₄ room.admits (by dsimp only; omega)
  simp only [verifyEval, h.domainSize, e₁, e₂, h.lagrange0.evaluate, e₃, e₄, e₅, h₅.evaluate,
    h.qLast.evaluate, Option.bind_eq_bind, Option.bind_some, Option.pure_def, Option.some_inj,
    argumentValues, List.cons.injEq, and_true, true_and, eval_mul, eval_sub, eval_add, eval_C,
    eval_prod]
  have binding : ∀ s : Nat → F[X],
      ∏ i ∈ Finset.range m, ((s i).eval y * beta + (get values i + gamma)) =
        ∏ i ∈ Finset.range m, (get values i + (s i).eval y * beta + gamma) := fun s =>
    Finset.prod_congr rfl fun i _ => by ring
  rw [binding, binding]
  constructor <;> ring

theorem onDomain_represents (hn : P.Admits n) (value : Nat → F) : ∃ p,
    PolynomialDfs.Represents P (onDomain (2 ^ n) value) ⟨2 ^ n - 1, n⟩ p ∧
      ∀ j < 2 ^ n, p.eval (P.root n ^ j) = value j := by
  have size : (onDomain (2 ^ n) value).size = 2 ^ n := by
    rw [onDomain, PolynomialDfs.size, List.length_map, List.length_range]
  obtain ⟨p, hp⟩ := PolynomialDfs.exists_represents hn rfl size
  refine ⟨p, hp, fun j hj => ?_⟩
  rw [← hp.values j hj, onDomain, PolynomialDfs.get_map_range _ hj]

/-- A polynomial that is one on the whole domain is constant. -/
theorem eq_one_of_onDomain (hn : P.Admits n) {v : F[X]} {f : PolynomialDfs F}
    (h : PolynomialDfs.Represents P f ⟨2 ^ n - 1, n⟩ v)
    (one : ∀ j < 2 ^ n, v.eval (P.root n ^ j) = 1) : v = C 1 := by
  refine h.unique ⟨hn, h.d, h.length, (natDegree_C 1).trans_le (Nat.zero_le _), h.room, ?_⟩
  intro j hj
  rw [h.values j hj, one j hj, eval_C]

/-- The prover's polynomials are those of the argument, with the quotients of the bindings
accumulated in the permutation polynomial. -/
theorem proveEval_holds (h : Holds P n m data id sigma lagrange0 qLast qBlind) (positive : 0 < n)
    {columns : List (PolynomialDfs F)} {col : Nat → F[X]} (hcolumns : HoldsAll P n m columns col)
    {k : Nat} (coarser : n ≤ k) (less : k ≤ l) (room : Room P n m l) (beta gamma : F) :
    ∃ result v, proveEval P data columns (2 ^ k) beta gamma = some result ∧
      PolynomialDfs.Represents P result.permutationPolynomial ⟨2 ^ n - 1, k⟩ v ∧
      (∀ j < 2 ^ n, v.eval (P.root n ^ j) = ∏ r ∈ Finset.range j, ∏ i ∈ Finset.range m,
        ((col i).eval (P.root n ^ r) + (id i).eval (P.root n ^ r) * beta + gamma) /
          ((col i).eval (P.root n ^ r) + (sigma i).eval (P.root n ^ r) * beta + gamma)) ∧
      HoldsArgument P (2 ^ l) l result.polynomials
        (argumentValues lagrange0 qLast qBlind v (v.comp (C (P.root n) * X))
          (∏ i ∈ Finset.range m, (col i + id i * C beta + C gamma))
          (∏ i ∈ Finset.range m, (col i + sigma i * C beta + C gamma))) := by
  have hn : P.Admits n := room.admits.mono room.finer
  have hk : P.Admits k := room.admits.mono less
  obtain ⟨gV, e₁, h₁⟩ := bindings_holds hcolumns h.identity beta gamma
  obtain ⟨hV, e₂, h₂⟩ := bindings_holds hcolumns h.permutation beta gamma
  obtain ⟨v, hv, values⟩ := onDomain_represents hn (grandProduct gV hV m)
  have values : ∀ j < 2 ^ n, v.eval (P.root n ^ j) = _ := fun j hj =>
    (values j hj).trans (grandProduct_eq h₁ h₂ hj.le)
  simp only [eval_add, eval_mul, eval_C] at values
  obtain ⟨vP, e₃, h₃⟩ := hv.resize hk coarser
  obtain ⟨several, -⟩ := room.bounds
  rcases Nat.eq_zero_or_pos m with rfl | filled
  · -- without columns the prover's products are zero, and the argument holds everywhere
    have one : v = C 1 := eq_one_of_onDomain hn hv fun j hj => by
      rw [values j hj]
      exact Finset.prod_eq_one fun _ _ => rfl
    have zero : PolynomialDfs.Bounded P (0 * (2 ^ n - 1)) l ⟨0, [0]⟩ (C 0) :=
      .constant (e := 0) (room.admits.mono (Nat.zero_le l)) (Nat.zero_le l) _ 0
    obtain ⟨fs, e₄, h₄⟩ := polynomials_eq h positive coarser less room h₃ zero zero
    refine ⟨⟨fs, vP⟩, v, ?_, h₃, values, ?_⟩
    · simp only [proveEval, h.count, h.domainSize, e₁, e₂, e₃, Option.bind_eq_bind,
        Option.bind_some]
      exact congrArg (Option.bind · _) e₄
    · convert h₄ using 1
      simp [argumentValues, one]
  · obtain ⟨g, e₅, h₅⟩ := product_bounded h₁ room.admits room.finer (by omega) filled
    obtain ⟨g', e₆, h₆⟩ := product_bounded h₂ room.admits room.finer (by omega) filled
    obtain ⟨fs, e₄, h₄⟩ := polynomials_eq h positive coarser less room h₃ h₅ h₆
    refine ⟨⟨fs, vP⟩, v, ?_, h₃, values, h₄⟩
    simp only [proveEval, h.count, h.domainSize, e₁, e₂, e₃, e₄, e₅, e₆, Option.bind_eq_bind,
      Option.bind_some, Option.pure_def]

/-- The values of the prover's polynomials at every point. The accumulated quotients are values on
the domain only; that the permutation polynomial has them is all that is known about it. -/
theorem proveEval_eq [DecidableEq F] (h : Holds P n m data id sigma lagrange0 qLast qBlind)
    (positive : 0 < n) {columns : List (PolynomialDfs F)} {col : Nat → F[X]}
    (hcolumns : HoldsAll P n m columns col) {k : Nat} (coarser : n ≤ k) (less : k ≤ l)
    (room : Room P n m l) (beta gamma : F) :
    ∃ result v, proveEval P data columns (2 ^ k) beta gamma = some result ∧
      PolynomialDfs.Represents P result.permutationPolynomial ⟨2 ^ n - 1, k⟩ v ∧
      (∀ j < 2 ^ n, v.eval (P.root n ^ j) = ∏ r ∈ Finset.range j, ∏ i ∈ Finset.range m,
        ((col i).eval (P.root n ^ r) + (id i).eval (P.root n ^ r) * beta + gamma) /
          ((col i).eval (P.root n ^ r) + (sigma i).eval (P.root n ^ r) * beta + gamma)) ∧
      ∀ y, result.polynomials.mapM (PolynomialDfs.evaluate P · y) =
        some (argumentValues (lagrange0.eval y) (qLast.eval y) (qBlind.eval y) (v.eval y)
          (v.eval (P.root n * y))
          (∏ i ∈ Finset.range m, ((col i).eval y + (id i).eval y * beta + gamma))
          (∏ i ∈ Finset.range m, ((col i).eval y + (sigma i).eval y * beta + gamma))) := by
  obtain ⟨result, v, proved, hv, values, held⟩ :=
    proveEval_holds h positive hcolumns coarser less room beta gamma
  refine ⟨result, v, proved, hv, values, fun y => ?_⟩
  rw [held.mapM_evaluate, eval_argumentValues]
  simp only [eval_prod, eval_add, eval_mul, eval_C]

end Specification

end PermutationArgument

end Circuit
