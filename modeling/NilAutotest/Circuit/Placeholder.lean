import NilAutotest.Circuit.PermutationAgreement
import NilAutotest.Circuit.ProverAgreement

/-!
# Placeholder

The prover puts the three polynomials of the permutation argument, five zeros in the place of the
lookups and the polynomial of the gates together, divides, and evaluates all its polynomials at the
challenge and at the rotations of it that the columns need. The verifier reads the evaluations from
the four batches and checks them against each other. The commitments to the polynomials are not
modelled: whether they are opened to the evaluations is a parameter of the verifier, and so are the
challenges that both draw from the transcript.
-/

namespace Circuit.Placeholder

open Domain GateArgument Polynomial

/-- The challenges, in the order in which they are drawn. Prover and verifier draw the same ones,
from transcripts that both feed with the same commitments. -/
structure Challenges (F : Type*) where
  beta : F
  gamma : F
  theta : F
  alphas : List F
  challenge : F

/-- `eval_proof`, with the evaluations of the four batches -/
structure EvalProof (F : Type*) where
  challenge : F
  lagrange0 : F
  z : Fin 4 → List (List F)

section Points

variable {F : Type*} [Field F]

/-- The points at which a column is evaluated, one for each of its rotations. -/
def rotatedPoints (rotations : Nat → Finset Int) (omega challenge : F) (index : Nat) : List F :=
  (ascending (rotations index)).map fun rotation => challenge * powInt omega rotation

/-- `variable_values_evaluation_points`: every column of the first batch is opened once for each of
its rotations, in ascending order. -/
def variablePoints (table : TableDescription) (rotations : Nat → Finset Int)
    (omega challenge : F) : List (List F) :=
  (List.range (table.witnessColumns + table.publicInputColumns)).map
    (rotatedPoints rotations omega challenge)

/-- `evaluation_points_public`: the permutation argument and the two selectors of the rows need the
challenge only, the constants and the selectors of the gates all their rotations. -/
def publicPoints (table : TableDescription) (rotations : Nat → Finset Int) (omega challenge : F)
    (permutationSize : Nat) : List (List F) :=
  List.replicate permutationSize [challenge] ++ List.replicate permutationSize [challenge] ++
    (List.range table.constantColumns).map (fun k => rotatedPoints rotations omega challenge
      (table.witnessColumns + table.publicInputColumns + k)) ++
    (List.range table.selectorColumns).map (fun k => rotatedPoints rotations omega challenge
      (table.witnessColumns + table.publicInputColumns + table.constantColumns + k)) ++
    [[challenge], [challenge]]

end Points

/-! ## The prover -/

section Prover

variable {F : Type*} [Field F] [DecidableEq F] (P : ArithmeticParams F)

/-- The evaluations of one batch in `proof_eval`; a polynomial without points of its own is
evaluated at those of the first one. -/
def proofEval (points : List (List F)) (g : List (PolynomialDfs F)) : Option (List (List F)) :=
  g.zipIdx.mapM fun (f, i) => do
    let first ← points[0]?
    (points[i]?.getD first).mapM (PolynomialDfs.evaluate P f)

/-- `F_dfs`: three polynomials of the permutation argument, five of the lookups, which are switched
off in the source, and the one of the gates. -/
def arguments (permutation gates : PolynomialDfs F) (polynomials : List (PolynomialDfs F)) :
    List (PolynomialDfs F) :=
  polynomials ++ List.replicate 5 (PolynomialDfs.constant permutation.size 0) ++ [gates]

/-- `placeholder_prover::process`, without the commitments. The proof is the evaluations alone,
since nothing else of it is compared by the verifier but the commitments. -/
def prove (data : PreprocessedData F) (system : ConstraintSystem F) (table : PolynomialTable F)
    (friSize maxDegree : Nat) (transcript : Challenges F) : Option (EvalProof F) := do
  let permutation ← PermutationArgument.proveEval P data table.columns friSize transcript.beta
    transcript.gamma
  let first ← permutation.polynomials[0]?
  let gates ← proveEval P system.gates table data.domainSize system.maxGatesDegree transcript.theta
  let t ← quotientPolynomial P (arguments first gates permutation.polynomials) transcript.alphas
    data.domainSize
  let tSplitted ← splitQuotient P t maxDegree friSize
  let challenge := transcript.challenge
  let lagrange0 ← PolynomialDfs.evaluate P data.lagrange0 challenge
  let omega ← makeEvaluationDomain P data.domainSize
  let rotations := columnsRotations table.description system
  let permutationSize := data.identityPolynomials.length
  let z₀ ← proofEval P (variablePoints table.description rotations omega challenge)
    (table.witnesses ++ table.publicInputs)
  let z₁ ← proofEval P [[challenge, challenge * omega]] [permutation.permutationPolynomial]
  let z₂ ← proofEval P [[challenge]] tSplitted
  let z₃ ← proofEval P (publicPoints table.description rotations omega challenge permutationSize)
    (data.identityPolynomials ++ data.permutationPolynomials.take permutationSize ++
      table.constants ++ table.selectors ++ [data.qLast, data.qBlind])
  pure ⟨challenge, lagrange0, ![z₀, z₁, z₂, z₃]⟩

end Prover

/-! ## The verifier -/

section Verifier

variable {F : Type*} [Field F]

/-- An evaluation in a batch. A read outside of the vectors is not defined in the source; the
results are about proofs whose batches have the sizes that the verifier counts on. -/
def entry (z : List (List F)) (i j : Nat) : F := ((z[i]?.bind (·[j]?)).getD 0)

/-- The evaluations of the columns at the challenge itself, at the position of the rotation zero.
A selector column is never asked for and left at zero. -/
def copyConstrained (table : TableDescription) (rotations : Nat → Finset Int)
    (permutationSize : Nat) (z₀ z₃ : List (List F)) : List F :=
  (List.range permutationSize).map fun i =>
    let zeroIndex := ((ascending (rotations i)).takeWhile (· ≠ 0)).length
    if i < table.witnessColumns + table.publicInputColumns then entry z₀ i zeroIndex
    else if i < table.witnessColumns + table.publicInputColumns + table.constantColumns then
      entry z₃ (i - table.witnessColumns - table.publicInputColumns + permutationSize * 2) zeroIndex
    else 0

variable [DecidableEq F] (P : ArithmeticParams F)

/-- `placeholder_verifier::process`; `opened` is the outcome for the commitments. Where the size of
the last batch is too small, the size of the vector wraps around and it is not allocated. -/
def verify (data : PreprocessedData F) (system : ConstraintSystem F) (table : TableDescription)
    (maxDegree : Nat) (opened : Bool) (proof : EvalProof F) (transcript : Challenges F) :
    Option Bool :=
  if (proof.z 3).length < 2 + table.constantColumns + table.selectorColumns then none
  else
    let permutationSize :=
      ((proof.z 3).length - 2 - table.constantColumns - table.selectorColumns) / 2
    let rotations := columnsRotations table system
    let f := copyConstrained table rotations permutationSize (proof.z 0) (proof.z 3)
    let evaluations :=
      columnsAtY table permutationSize (entry (proof.z 0)) (entry (proof.z 3)) rotations
    Option.bind (PolynomialDfs.evaluate P data.lagrange0 proof.challenge) fun lagrange0 =>
      if lagrange0 ≠ proof.lagrange0 then some false
      else Option.bind (PermutationArgument.verifyEval P data proof.challenge f
          (entry (proof.z 1) 0 0) (entry (proof.z 1) 0 1) transcript.beta transcript.gamma)
        fun permutation => Option.bind (verifyEval system.gates evaluations transcript.theta)
          fun gates =>
            if transcript.challenge ≠ proof.challenge ∨ opened = false then some false
            else some <| finalCheck (permutation ++ List.replicate 5 0 ++ [gates]) transcript.alphas
              ((List.range (proof.z 2).length).map (entry (proof.z 2) · 0)) transcript.challenge
              maxDegree data.domainSize

end Verifier

/-! ## The evaluations in the proof -/

section Evaluations

variable {F : Type*} [Field F] {P : ArithmeticParams F} {n m : Nat}

/-- An evaluation at one of the polynomial's own points. -/
theorem entry_eq {ps : List F[X]} {points : List (List F)} {p : F[X]} {pts : List F} {y : F}
    {i j : Nat} (polynomial : ps[i]? = some p) (own : points[i]? = some pts)
    (point : pts[j]? = some y) :
    entry (ps.zipIdx.map fun (p, i) => (points[i]?.getD (points[0]?.getD [])).map fun y => p.eval y)
      i j = p.eval y := by
  simp [entry, List.getElem?_zipIdx, polynomial, own, point]

theorem rotatedPoints_getElem? {rotations : Nat → Finset Int} {omega y : F} {index j : Nat}
    {rotation : Int} (found : (ascending (rotations index))[j]? = some rotation) :
    (rotatedPoints rotations omega y index)[j]? = some (y * powInt omega rotation) := by
  rw [rotatedPoints, List.getElem?_map, found, Option.map_some]

/-- The points of the constants and selectors follow those of the permutation argument. -/
theorem publicPoints_eq (table : TableDescription) (rotations : Nat → Finset Int) (omega y : F)
    (m : Nat) : publicPoints table rotations omega y m =
      List.replicate (m * 2) [y] ++
        ((List.range (table.constantColumns + table.selectorColumns)).map (fun k =>
          rotatedPoints rotations omega y (table.witnessColumns + table.publicInputColumns + k)) ++
        [[y], [y]]) := by
  rw [publicPoints, List.range_add, List.map_append, List.map_map, Nat.mul_two,
    ← List.replicate_append_replicate]
  simp only [List.append_assoc, Function.comp_def, Nat.add_assoc]

theorem publicPoints_getElem? (table : TableDescription) (rotations : Nat → Finset Int)
    (omega y : F) (m : Nat) {k : Nat} (hk : k < table.constantColumns + table.selectorColumns) :
    (publicPoints table rotations omega y m)[k + m * 2]? =
      some (rotatedPoints rotations omega y
        (table.witnessColumns + table.publicInputColumns + k)) := by
  rw [publicPoints_eq, List.getElem?_append_right (by rw [List.length_replicate]; omega),
    List.length_replicate, Nat.add_sub_cancel, List.getElem?_append_left (by simpa using hk),
    List.getElem?_map, List.getElem?_range hk, Option.map_some]

/-- The position of the rotation zero, where there is one. -/
theorem takeWhile_getElem? {l : List Int} (h : (0 : Int) ∈ l) :
    l[(l.takeWhile (· ≠ 0)).length]? = some 0 := by
  induction l with
  | nil => exact absurd h List.not_mem_nil
  | cons rotation l ih =>
      by_cases zero : rotation = 0
      · simp [zero]
      · have rest := (List.mem_cons.mp h).resolve_left (Ne.symm zero)
        rw [List.takeWhile_cons_of_pos (by simpa using zero), List.length_cons,
          List.getElem?_cons_succ]
        exact ih rest

theorem map_entry (values : List F) :
    (List.range (values.map ([·])).length).map (entry (values.map ([·])) · 0) = values := by
  apply List.ext_getElem
  · simp
  · intro i hi hi'
    simp [entry, hi']

variable [DecidableEq F]

/-- The polynomial has its value at every point. -/
def Evaluable (P : ArithmeticParams F) (f : PolynomialDfs F) (p : F[X]) : Prop :=
  ∀ y, PolynomialDfs.evaluate P f y = some (p.eval y)

theorem evaluable_of_holdsAll {v : List (PolynomialDfs F)} {p : Nat → F[X]}
    (h : PermutationArgument.HoldsAll P n m v p) (length : v.length = m) :
    List.Forall₂ (Evaluable P) v ((List.range m).map p) := by
  rw [List.forall₂_iff_get]
  refine ⟨by rw [length, List.length_map, List.length_range], fun i hi _ => ?_⟩
  obtain ⟨f, found, represents⟩ := h i (length ▸ hi)
  rw [List.getElem?_eq_getElem hi, Option.some_inj] at found
  simp only [List.get_eq_getElem, List.getElem_map, List.getElem_range, found]
  exact represents.evaluate

theorem proofEval_eq {g : List (PolynomialDfs F)} {ps : List F[X]} {points : List (List F)}
    (h : List.Forall₂ (Evaluable P) g ps) (nonempty : g ≠ [] → points ≠ []) :
    proofEval P points g = some (ps.zipIdx.map fun (p, i) =>
      (points[i]?.getD (points[0]?.getD [])).map fun y => p.eval y) := by
  have loop : ∀ k, (g.zipIdx k).mapM (fun (f, i) => do
      let first ← points[0]?
      (points[i]?.getD first).mapM (PolynomialDfs.evaluate P f)) =
        some ((ps.zipIdx k).map fun (p, i) =>
          (points[i]?.getD (points[0]?.getD [])).map fun y => p.eval y) := by
    induction h with
    | nil => exact fun _ => rfl
    | @cons f p g ps first rest ih =>
        intro k
        obtain ⟨pts, points, rfl⟩ := List.exists_cons_of_ne_nil (nonempty (List.cons_ne_nil f g))
        have values : ∀ pts : List F, pts.mapM (PolynomialDfs.evaluate P f) =
            some (pts.map fun y => p.eval y) := by
          intro pts
          induction pts with
          | nil => rfl
          | cons y pts ih =>
              rw [List.mapM_cons, first, ih]
              rfl
        rw [List.zipIdx_cons, List.mapM_cons, ih (fun _ => List.cons_ne_nil _ _)]
        simp [values]
  exact loop 0

/-- The batch of the pieces, which are all evaluated at the challenge. -/
theorem proofEval_pieces {ts : List (PolynomialDfs F)} {pieces : List F} {y : F}
    (h : ts.mapM (PolynomialDfs.evaluate P · y) = some pieces) :
    proofEval P [[y]] ts = some (pieces.map ([·])) := by
  have loop : ∀ (ts : List (PolynomialDfs F)) (pieces : List F) (k : Nat),
      ts.mapM (PolynomialDfs.evaluate P · y) = some pieces →
      (ts.zipIdx k).mapM (fun (f, i) => do
        let first ← [[y]][0]?
        ([[y]][i]?.getD first).mapM (PolynomialDfs.evaluate P f)) = some (pieces.map ([·])) := by
    intro ts
    induction ts with
    | nil =>
        intro pieces k h
        obtain rfl := Option.some_injective _ h
        rfl
    | cons t ts ih =>
        intro pieces k h
        rw [List.mapM_cons] at h
        simp only [Option.bind_eq_bind, Option.bind_eq_some_iff, Option.pure_def,
          Option.some_inj] at h
        obtain ⟨value, evaluated, values, rest, rfl⟩ := h
        have points : [[y]][k]?.getD [y] = [y] := by
          cases k <;> rfl
        rw [List.zipIdx_cons, List.mapM_cons, ih values (k + 1) rest]
        simp [points, evaluated]
  exact loop ts pieces 0 h

end Evaluations

/-! ## What the verifier reads -/

section Reading

variable {F : Type*} [Field F]

/-- The evaluations of the columns in the first and the last batch, at the places where the
verifier looks for them: a column by its number, and its rotation by the position among those
that were collected. -/
structure Reads (table : TableDescription) (rotations : Nat → Finset Int) (omega y : F) (m : Nat)
    (col : Nat → F[X]) (z₀ z₃ : List (List F)) : Prop where
  variableValues : ∀ i < table.witnessColumns + table.publicInputColumns,
    ∀ (j : Nat) (rotation : Int), (ascending (rotations i))[j]? = some rotation →
      entry z₀ i j = (col i).eval (y * powInt omega rotation)
  fixedValues : ∀ k < table.constantColumns + table.selectorColumns,
    ∀ (j : Nat) (rotation : Int),
    (ascending (rotations (table.witnessColumns + table.publicInputColumns + k)))[j]? =
      some rotation → entry z₃ (k + m * 2) j =
        (col (table.witnessColumns + table.publicInputColumns + k)).eval
          (y * powInt omega rotation)

namespace Reads

variable {table : TableDescription} {rotations : Nat → Finset Int} {omega y : F} {m : Nat}
variable {col : Nat → F[X]} {z₀ z₃ : List (List F)}

/-- The evaluations for the permutation argument are those at the challenge itself. -/
theorem copyConstrained_eq (r : Reads table rotations omega y m col z₀ z₃)
    (zero : ∀ i, (0 : Int) ∈ rotations i)
    (columns : m ≤ table.witnessColumns + table.publicInputColumns + table.constantColumns) :
    copyConstrained table rotations m z₀ z₃ = (List.range m).map fun i => (col i).eval y := by
  apply List.map_congr_left
  intro i hi
  have hi := List.mem_range.mp hi
  have member : (0 : Int) ∈ ascending (rotations i) := (Finset.mem_sort (· ≤ ·)).mpr (zero i)
  have found := takeWhile_getElem? member
  have own : y * powInt omega 0 = y := by
    rw [powInt, Int.zero_emod, Int.toNat_zero, pow_zero, mul_one]
  dsimp only
  split
  · next early =>
      rw [r.variableValues i early _ 0 found, own]
  · next late =>
      obtain ⟨k, rfl⟩ := Nat.exists_eq_add_of_le (not_lt.mp late)
      have constant : k < table.constantColumns := by omega
      have place : table.witnessColumns + table.publicInputColumns + k - table.witnessColumns -
          table.publicInputColumns + m * 2 = k + m * 2 := by omega
      rw [if_pos (by omega), place, r.fixedValues k (by omega) _ 0 found, own]

/-- A variable of the gates takes the evaluation of its column under its rotation. -/
theorem columnsAtY_eq (r : Reads table rotations omega y m col z₀ z₃) {var : PlonkVariable}
    (column : var.index < table.columns var.type)
    (collected : var.rotation ∈ rotations (table.globalIndex var)) :
    columnsAtY table m (entry z₀) (entry z₃) rotations var.key =
      some ((col (table.globalIndex var)).eval (y * powInt omega var.rotation)) := by
  obtain ⟨j, found⟩ := List.mem_iff_getElem?.mp ((Finset.mem_sort (· ≤ ·)).mpr collected)
  rw [PlonkVariable.key, columnsAtY_eq_some column found, Option.some_inj]
  obtain ⟨index, rotation, type⟩ := var
  cases type with
  | witness => exact r.variableValues index (Nat.lt_add_right _ column) j rotation found
  | publicInput =>
      exact r.variableValues (table.witnessColumns + index) (Nat.add_lt_add_left column _) j
        rotation found
  | constant => exact r.fixedValues index (Nat.lt_add_right _ column) j rotation found
  | selector =>
      have value := r.fixedValues (table.constantColumns + index)
        (Nat.add_lt_add_left column _) j rotation (by rwa [← Nat.add_assoc])
      have place : index + m * 2 + table.constantColumns =
          table.constantColumns + index + m * 2 := by
        omega
      show entry z₃ (index + m * 2 + table.constantColumns) j = (col (table.witnessColumns +
        table.publicInputColumns + table.constantColumns + index)).eval _
      rw [place, Nat.add_assoc _ table.constantColumns]
      exact value

end Reads

variable [DecidableEq F] {P : ArithmeticParams F} {n m : Nat} {table : PolynomialTable F}
variable {col : Nat → F[X]}

open PermutationArgument

theorem variableValues_evaluable (columns : HoldsAll P n table.columns.length table.columns col) :
    List.Forall₂ (Evaluable P) (table.witnesses ++ table.publicInputs)
      ((List.range (table.witnesses.length + table.publicInputs.length)).map col) := by
  refine evaluable_of_holdsAll (n := n) (fun i hi => ?_) List.length_append
  obtain ⟨f, found, represents⟩ := columns i (by
    rw [PolynomialTable.columns_eq, List.length_append, List.length_append]
    omega)
  refine ⟨f, ?_, represents⟩
  rwa [PolynomialTable.columns_eq, List.getElem?_append_left (by rwa [List.length_append])] at found

theorem fixedValues_evaluable (columns : HoldsAll P n table.columns.length table.columns col) :
    List.Forall₂ (Evaluable P) (table.constants ++ table.selectors)
      ((List.range (table.constants.length + table.selectors.length)).map fun k =>
        col (table.witnesses.length + table.publicInputs.length + k)) := by
  refine evaluable_of_holdsAll (n := n) (fun k hk => ?_) List.length_append
  have inside : table.witnesses.length + table.publicInputs.length + k < table.columns.length := by
    rw [PolynomialTable.columns_eq, List.length_append, List.length_append, List.length_append]
    omega
  obtain ⟨f, found, represents⟩ := columns _ inside
  refine ⟨f, ?_, represents⟩
  rwa [PolynomialTable.columns_eq, List.getElem?_append_right (by rw [List.length_append]; omega),
    List.length_append, Nat.add_sub_cancel_left] at found

theorem take_evaluable {v : List (PolynomialDfs F)} {p : Nat → F[X]} (h : HoldsAll P n m v p) :
    List.Forall₂ (Evaluable P) (v.take m) ((List.range m).map p) := by
  refine evaluable_of_holdsAll (n := n) (fun i hi => ?_) (List.length_take_of_le ?_)
  · obtain ⟨f, found, represents⟩ := h i hi
    exact ⟨f, by rwa [List.getElem?_take_of_lt hi], represents⟩
  · by_contra short
    obtain ⟨f, found, -⟩ := h _ (not_le.mp short)
    rw [List.getElem?_eq_none le_rfl] at found
    exact Option.some_ne_none f found.symm

theorem exists_variableValues (columns : HoldsAll P n table.columns.length table.columns col)
    (rotations : Nat → Finset Int) (omega y : F) : ∃ z₀,
    proofEval P (variablePoints table.description rotations omega y)
      (table.witnesses ++ table.publicInputs) = some z₀ ∧
    ∀ i < table.witnesses.length + table.publicInputs.length, ∀ (j : Nat) (rotation : Int),
      (ascending (rotations i))[j]? = some rotation →
        entry z₀ i j = (col i).eval (y * powInt omega rotation) := by
  have points : table.witnesses ++ table.publicInputs ≠ [] →
      variablePoints table.description rotations omega y ≠ [] := by
    intro nonempty
    have filled := List.length_pos_iff.mpr nonempty
    rw [List.length_append] at filled
    apply List.ne_nil_of_length_pos
    rwa [variablePoints, List.length_map, List.length_range]
  refine ⟨_, proofEval_eq (variableValues_evaluable columns) points,
    fun i hi j rotation found => ?_⟩
  have index := List.getElem?_range hi
  refine entry_eq (p := col i) ?_ ?_ (rotatedPoints_getElem? found)
  · rw [List.getElem?_map, index, Option.map_some]
  · exact (List.getElem?_map ..).trans (congrArg (Option.map _) index)

theorem exists_fixedValues {data : PreprocessedData F} {id sigma : Nat → F[X]}
    {lagrange0 qLast qBlind : F[X]} (holds : Holds P n m data id sigma lagrange0 qLast qBlind)
    (columns : HoldsAll P n table.columns.length table.columns col) (rotations : Nat → Finset Int)
    (omega y : F) : ∃ z₃,
    proofEval P (publicPoints table.description rotations omega y m)
      (data.identityPolynomials ++ data.permutationPolynomials.take m ++ table.constants ++
        table.selectors ++ [data.qLast, data.qBlind]) = some z₃ ∧
    z₃.length = m * 2 + (table.constants.length + table.selectors.length) + 2 ∧
    ∀ k < table.constants.length + table.selectors.length, ∀ (j : Nat) (rotation : Int),
      (ascending (rotations (table.witnesses.length + table.publicInputs.length + k)))[j]? =
        some rotation → entry z₃ (k + m * 2) j =
          (col (table.witnesses.length + table.publicInputs.length + k)).eval
            (y * powInt omega rotation) := by
  have first : List.Forall₂ (Evaluable P)
      (data.identityPolynomials ++ data.permutationPolynomials.take m)
      ((List.range m).map id ++ (List.range m).map sigma) :=
    List.rel_append (evaluable_of_holdsAll holds.identity holds.count)
      (take_evaluable holds.permutation)
  have last : List.Forall₂ (Evaluable P) [data.qLast, data.qBlind] [qLast, qBlind] :=
    .cons holds.qLast.evaluate (.cons holds.qBlind.evaluate .nil)
  have batch := List.rel_append first (List.rel_append (fixedValues_evaluable columns) last)
  have points : publicPoints table.description rotations omega y m ≠ [] :=
    List.append_ne_nil_of_right_ne_nil _ (List.cons_ne_nil _ _)
  have before : ((List.range m).map id ++ (List.range m).map sigma).length = m * 2 := by
    rw [List.length_append, List.length_map, List.length_map, List.length_range, Nat.mul_two]
  simp only [List.append_assoc] at batch ⊢
  refine ⟨_, proofEval_eq batch fun _ => points, ?_, fun k hk j rotation found => ?_⟩
  · simp only [List.length_map, List.length_zipIdx, List.length_append, List.length_range,
      List.length_cons, List.length_nil]
    omega
  · refine entry_eq ?_ (publicPoints_getElem? _ _ _ _ _ hk) (rotatedPoints_getElem? found)
    rw [← List.append_assoc, List.getElem?_append_right (by omega), before, Nat.add_sub_cancel,
      List.getElem?_append_left (by simpa using hk), List.getElem?_map, List.getElem?_range hk,
      Option.map_some]

end Reading

end Circuit.Placeholder
