import NilAutotest.Domain.Division
import NilAutotest.Domain.Bounded
import NilAutotest.Control.Except
import Mathlib.Algebra.BigOperators.Group.List.Basic
import Mathlib.RingTheory.SimpleRing.Principal

/-!
# The quotient polynomial

The prover adds up its polynomials with challenges, divides the sum by the polynomial that
vanishes on the domain, and cuts the quotient into pieces. The last check of the verifier puts
the evaluations of the pieces together again. It holds at a point exactly when the remainder of
the division vanishes there: at every point if the sum vanishes on the domain, and otherwise at
fewer points than the domain has.
-/

namespace Circuit

open Domain GateArgument Polynomial

section Prover

variable {F : Type*} [Field F] [DecidableEq F] (P : ArithmeticParams F)

/-- The polynomial `Z` of the common data, `X ^ rowsAmount - 1`, by its coefficients. -/
def vanishingPolynomial (rowsAmount : Nat) : List F :=
  ((List.replicate (rowsAmount + 1) 0).set 0 (-1)).set rowsAmount 1

/-- `F_consolidated_dfs`; a polynomial counts as zero when the bound on its degree is. -/
def consolidate (fs : List (PolynomialDfs F)) (alphas : List F) : Option (PolynomialDfs F) := do
  let first ← fs[0]?
  (fs.zip alphas).foldlM (fun acc (f, alpha) =>
    if f.d = 0 then some acc else PolynomialDfs.add P acc (f.scale alpha))
      (PolynomialDfs.constant first.size 0)

/-- `quotient_polynomial` -/
def quotientPolynomial (fs : List (PolynomialDfs F)) (alphas : List F) (rowsAmount : Nat) :
    Option (List F) := do
  let consolidated ← consolidate P fs alphas
  let normal ← PolynomialDfs.coefficients P consolidated
  let (quotient, _) ← division normal (vanishingPolynomial rowsAmount)
  pure quotient

/-- `split_polynomial`: the coefficients in chunks, of which the last may be shorter. No piece is
cut from a quotient without coefficients. -/
def splitPolynomial (f : List F) (maxDegree : Nat) : List (List F) :=
  let chunkSize := maxDegree + 1
  (List.range ((f.length + maxDegree) / chunkSize)).map fun i =>
    (f.drop (i * chunkSize)).take chunkSize

/-- `from_coefficients` -/
def fromCoefficients (tmp : List F) : Option (PolynomialDfs F) := do
  let n := powerOfTwo tmp.length
  let omega ← unityRoot P n
  let val ← basicRadix2Fft (PolynomialDfs.vectorResize tmp n 0) omega
  pure ⟨tmp.length - 1, val⟩

/-- `T_splitted_dfs` -/
def splitQuotient (quotient : List F) (maxDegree friSize : Nat) :
    Option (List (PolynomialDfs F)) :=
  (splitPolynomial quotient maxDegree).mapM fun piece => do
    let dfs ← fromCoefficients P piece
    if dfs.size ≠ friSize then PolynomialDfs.resize P dfs friSize else pure dfs

/-- The last check of the verifier. The polynomials are combined by their values at the challenge,
and the pieces are put together with the powers of it that their places in the quotient have. -/
def finalCheck (values alphas pieces : List F) (challenge : F) (maxDegree rowsAmount : Nat) :
    Bool :=
  let fConsolidated := (values.zip alphas).foldl (fun acc (value, alpha) => acc + alpha * value) 0
  let tConsolidated := pieces.zipIdx.foldl (fun acc (piece, i) =>
    acc + piece * challenge ^ ((maxDegree + 1) * i)) 0
  fConsolidated = evaluateCoefficients (vanishingPolynomial rowsAmount) challenge * tConsolidated

end Prover

/-! ## The polynomial that is divided by -/

section Vanishing

variable {F : Type*} [Field F] {P : ArithmeticParams F} {n : Nat}

theorem length_vanishingPolynomial (rows : Nat) :
    (vanishingPolynomial rows : List F).length = rows + 1 := by
  rw [vanishingPolynomial, List.length_set, List.length_set, List.length_replicate]

theorem ofCoefficients_vanishing {rows : Nat} (positive : 0 < rows) :
    ofCoefficients (vanishingPolynomial rows : List F) = X ^ rows - C 1 := by
  have value : ∀ i, get (vanishingPolynomial rows : List F) i =
      if rows = i then 1 else if 0 = i then -1 else 0 := by
    intro i
    rw [vanishingPolynomial, get_set, get_set, get_replicate_zero, List.length_set,
      List.length_replicate]
    by_cases last : rows = i
    · rw [if_pos ⟨last, by omega⟩, if_pos last]
    · rw [if_neg (by omega), if_neg last]
      by_cases first : 0 = i
      · rw [if_pos ⟨first, by omega⟩, if_pos first]
      · rw [if_neg (by omega), if_neg first]
  rw [ofCoefficients_binomial positive (length_vanishingPolynomial rows)]
  · rw [value, if_neg (by omega), if_pos rfl, neg_neg]
  · rw [value, if_pos rfl]
  · intro i below above
    rw [value, if_neg (by omega), if_neg (by omega)]

theorem monic_vanishing (n : Nat) : (X ^ 2 ^ n - C 1 : F[X]).Monic :=
  monic_X_pow_sub_C 1 (Nat.two_pow_pos n).ne'

theorem degree_vanishing (n : Nat) : (X ^ 2 ^ n - C 1 : F[X]).degree = (2 ^ n : Nat) :=
  degree_X_pow_sub_C (Nat.two_pow_pos n) 1

/-- The remainder has the values of the polynomial on the domain, and its degree is too low to
vanish on all of it without being zero. -/
theorem modByMonic_eq_zero_iff (hn : P.Admits n) {f : F[X]} :
    f %ₘ (X ^ 2 ^ n - C 1) = 0 ↔ ∀ j < 2 ^ n, f.eval (P.root n ^ j) = 0 := by
  have value : ∀ j, f.eval (P.root n ^ j) = (f %ₘ (X ^ 2 ^ n - C 1)).eval (P.root n ^ j) := by
    intro j
    have root : (P.root n ^ j) ^ 2 ^ n = 1 := by
      rw [← pow_mul, mul_comm, pow_mul, (primitive_root hn.2).pow_eq_one, one_pow]
    conv_lhs => rw [← modByMonic_add_div f (X ^ 2 ^ n - C 1)]
    rw [eval_add, eval_mul, eval_sub, eval_pow, eval_X, eval_C, root, sub_self, zero_mul, add_zero]
  constructor
  · intro zero j _
    rw [value, zero, eval_zero]
  · intro vanishes
    have nodes : Set.InjOn (fun j => P.root n ^ j) (Finset.range (2 ^ n)) := by
      intro i hi j hj equal
      exact (primitive_root hn.2).pow_inj (Finset.mem_range.mp hi) (Finset.mem_range.mp hj) equal
    apply eq_zero_of_degree_lt_of_eval_index_eq_zero _ nodes
    · rw [Finset.card_range, ← degree_vanishing (F := F) n]
      exact degree_modByMonic_lt f (monic_vanishing n)
    · intro j hj
      rw [← value, vanishes j (Finset.mem_range.mp hj)]

end Vanishing

/-! ## The pieces -/

section Pieces

variable {F : Type*} {f : List F} {maxDegree : Nat}

theorem mem_splitPolynomial {piece : List F} (h : piece ∈ splitPolynomial f maxDegree) :
    piece ≠ [] ∧ piece.length ≤ maxDegree + 1 := by
  simp only [splitPolynomial, List.mem_map, List.mem_range] at h
  obtain ⟨i, hi, rfl⟩ := h
  have start : i * (maxDegree + 1) < f.length := by
    have := (Nat.le_div_iff_mul_le (show 0 < maxDegree + 1 by omega)).mp hi
    rw [Nat.succ_mul] at this
    omega
  constructor
  · apply List.ne_nil_of_length_pos
    rw [List.length_take, List.length_drop]
    omega
  · exact List.length_take_le _ _

variable [Field F]

theorem get_piece (i j : Nat) :
    get ((f.drop (i * (maxDegree + 1))).take (maxDegree + 1)) j =
      if j < maxDegree + 1 then get f (i * (maxDegree + 1) + j) else 0 := by
  split
  · next inside =>
      rw [Domain.get, Domain.get, List.getD_eq_getElem?_getD, List.getD_eq_getElem?_getD,
        List.getElem?_take_of_lt inside, List.getElem?_drop]
  · next outside =>
      exact PolynomialDfs.get_eq_zero ((List.length_take_le _ _).trans (not_lt.mp outside))

/-- The pieces, each moved to its place, add up to the polynomial. -/
theorem sum_splitPolynomial (f : List F) (maxDegree : Nat) :
    ∑ i ∈ Finset.range ((f.length + maxDegree) / (maxDegree + 1)),
      ofCoefficients ((f.drop (i * (maxDegree + 1))).take (maxDegree + 1)) *
        X ^ ((maxDegree + 1) * i) = ofCoefficients f := by
  ext j
  have positive : 0 < maxDegree + 1 := Nat.succ_pos maxDegree
  have split := Nat.div_add_mod j (maxDegree + 1)
  have small := Nat.mod_lt j positive
  have own : j - (maxDegree + 1) * (j / (maxDegree + 1)) = j % (maxDegree + 1) := by omega
  simp only [finsetSum_coeff, coeff_mul_X_pow', coeff_ofCoefficients]
  rw [Finset.sum_eq_single (j / (maxDegree + 1))]
  · rw [if_pos (Nat.mul_div_le j _), own, get_piece, if_pos small, Nat.mul_comm, split]
  · intro i _ other
    split
    · next low =>
        rw [get_piece, if_neg]
        intro inside
        apply other
        have more : j < (maxDegree + 1) * (i + 1) := by
          rw [Nat.mul_succ]
          omega
        apply le_antisymm
        · rwa [Nat.le_div_iff_mul_le positive, Nat.mul_comm]
        · rwa [← Nat.lt_succ_iff, Nat.div_lt_iff_lt_mul positive, Nat.mul_comm]
    · rfl
  · intro outside
    have high : f.length ≤ j := by
      rw [Finset.mem_range, not_lt, ← Nat.lt_succ_iff, Nat.div_lt_iff_lt_mul positive,
        Nat.succ_mul, Nat.mul_comm] at outside
      omega
    rw [if_pos (Nat.mul_div_le j _), own, get_piece, if_pos small, Nat.mul_comm, split,
      PolynomialDfs.get_eq_zero high]

/-- The sum of the pieces that the verifier computes. -/
theorem foldl_pieces (pieces : List F) (challenge : F) :
    pieces.zipIdx.foldl (fun acc (piece, i) => acc + piece * challenge ^ ((maxDegree + 1) * i)) 0 =
      ∑ i ∈ Finset.range pieces.length,
        Domain.get pieces i * challenge ^ ((maxDegree + 1) * i) := by
  induction pieces using List.reverseRecOn with
  | nil => rfl
  | append_singleton pieces piece ih =>
      have before : ∀ i ∈ Finset.range pieces.length,
          Domain.get pieces i * challenge ^ ((maxDegree + 1) * i) =
            Domain.get (pieces ++ [piece]) i * challenge ^ ((maxDegree + 1) * i) := by
        intro i hi
        rw [Domain.get, Domain.get, List.getD_append _ _ _ _ (Finset.mem_range.mp hi)]
      have last : Domain.get (pieces ++ [piece]) pieces.length = piece := by
        rw [Domain.get, List.getD_append_right _ _ _ _ le_rfl, Nat.sub_self, List.getD_cons_zero]
      rw [List.zipIdx_append, List.foldl_append, ih, List.length_append, List.length_singleton,
        Finset.sum_range_succ, last, Finset.sum_congr rfl before]
      simp

/-- The evaluations of the pieces give the value of the polynomial. -/
theorem foldl_splitPolynomial (f : List F) (maxDegree : Nat) (challenge : F) :
    ((splitPolynomial f maxDegree).map (evaluateCoefficients · challenge)).zipIdx.foldl
      (fun acc (piece, i) => acc + piece * challenge ^ ((maxDegree + 1) * i)) 0 =
        (ofCoefficients f).eval challenge := by
  rw [foldl_pieces, ← sum_splitPolynomial f maxDegree, eval_finsetSum, splitPolynomial,
    List.map_map, List.length_map, List.length_range]
  apply Finset.sum_congr rfl
  intro i hi
  rw [PolynomialDfs.get_map_range _ (Finset.mem_range.mp hi), eval_mul, eval_pow, eval_X,
    eval_ofCoefficients]
  rfl

end Pieces

/-! ## The prover's polynomials -/

section Specification

variable {F : Type*} [Field F] {P : ArithmeticParams F} {k l d : Nat}

theorem natDegree_ofCoefficients_le (f : List F) : (ofCoefficients f).natDegree ≤ f.length - 1 := by
  rw [natDegree_le_iff_coeff_eq_zero]
  intro i hi
  rw [coeff_ofCoefficients, PolynomialDfs.get_eq_zero (by omega)]

theorem fromCoefficients_bounded (hk : P.Admits k) {tmp : List F} (nonempty : tmp ≠ [])
    (short : tmp.length ≤ 2 ^ k) : ∃ f, fromCoefficients P tmp = some f ∧
      PolynomialDfs.Represents P f ⟨tmp.length - 1, Nat.clog 2 tmp.length⟩
        (ofCoefficients tmp) := by
  have positive := List.length_pos_iff.mpr nonempty
  have bits : Nat.clog 2 tmp.length ≤ k := (Nat.clog_le_iff_le_pow (by decide)).mpr short
  have enough : tmp.length ≤ 2 ^ Nat.clog 2 tmp.length := Nat.le_pow_clog (by decide) _
  have small : tmp.length ≤ 2 ^ 32 := short.trans (Nat.pow_le_pow_right (by decide) hk.1.le)
  have degree := natDegree_ofCoefficients_le tmp
  have room : tmp.length - 1 < 2 ^ Nat.clog 2 tmp.length := by omega
  have admits := hk.mono bits
  obtain ⟨val, computed, length, values⟩ := fft_eq admits
    (PolynomialDfs.length_vectorResize tmp (2 ^ Nat.clog 2 tmp.length) 0)
    (p := ofCoefficients tmp) (by omega) (by
      intro i hi
      rw [PolynomialDfs.get_vectorResize _ _ hi, coeff_ofCoefficients]
      split
      · rfl
      · next outside => exact (PolynomialDfs.get_eq_zero (not_lt.mp outside)).symm)
  refine ⟨⟨tmp.length - 1, val⟩, ?_, admits, rfl, length, degree, room, values⟩
  rw [fromCoefficients, powerOfTwo_eq positive small, unityRoot_eq admits]
  simp only [Option.bind_eq_bind, Option.bind_some, computed, Option.pure_def]

theorem splitQuotient_spec (hk : P.Admits k) {maxDegree : Nat} (room : maxDegree + 1 ≤ 2 ^ k)
    (quotient : List F) : ∃ ts, splitQuotient P quotient maxDegree (2 ^ k) = some ts ∧
      List.Forall₂ (fun piece t => PolynomialDfs.Bounded P maxDegree k t (ofCoefficients piece))
        (splitPolynomial quotient maxDegree) ts := by
  apply Control.mapM_related
  intro piece member
  obtain ⟨nonempty, short⟩ := mem_splitPolynomial member
  obtain ⟨f, computed, represents⟩ := fromCoefficients_bounded hk nonempty (short.trans room)
  have bits : Nat.clog 2 piece.length ≤ k :=
    (Nat.clog_le_iff_le_pow (by decide)).mpr (short.trans room)
  have degree : piece.length - 1 ≤ maxDegree := by omega
  rw [computed]
  by_cases same : f.size = 2 ^ k
  · exact ⟨f, if_neg (not_not.mpr same), (represents.bounded bits).mono degree⟩
  · obtain ⟨g, resized, represents⟩ := represents.resize hk bits
    exact ⟨g, (if_pos same).trans resized, (represents.bounded le_rfl).mono degree⟩

/-- The polynomials that the prover holds. One that counts as zero must be zero: the prover leaves
a polynomial out of the sum when the bound on its degree is zero, also if it is a constant. -/
def HoldsArgument (P : ArithmeticParams F) (d l : Nat) (fs : List (PolynomialDfs F))
    (ps : List F[X]) : Prop :=
  List.Forall₂ (fun f p => PolynomialDfs.Bounded P d l f p ∧ (f.d = 0 → p = 0)) fs ps

/-- The sum of the polynomials with the challenges. -/
noncomputable def consolidated (ps : List F[X]) (alphas : List F) : F[X] :=
  ((ps.zip alphas).map fun (p, alpha) => p * C alpha).sum

theorem consolidated_cons (p : F[X]) (ps : List F[X]) (alpha : F) (alphas : List F) :
    consolidated (p :: ps) (alpha :: alphas) = p * C alpha + consolidated ps alphas :=
  List.sum_cons

theorem eval_consolidated (ps : List F[X]) (alphas : List F) (y : F) :
    (consolidated ps alphas).eval y = ((ps.map (eval y)).zip alphas).foldl
      (fun acc (value, alpha) => acc + alpha * value) 0 := by
  have loop : ∀ (ps : List F[X]) (alphas : List F) (start : F),
      ((ps.map (eval y)).zip alphas).foldl (fun acc (value, alpha) => acc + alpha * value) start =
        start + (consolidated ps alphas).eval y := by
    intro ps
    induction ps with
    | nil => simp [consolidated]
    | cons p ps ih =>
        intro alphas start
        cases alphas with
        | nil => simp [consolidated]
        | cons alpha alphas =>
            rw [List.map_cons, List.zip_cons_cons, List.foldl_cons, ih, consolidated_cons, eval_add,
              eval_mul, eval_C]
            ring
  rw [loop, zero_add]

theorem eval_consolidated_eq_zero {ps : List F[X]} {y : F} (zero : ∀ p ∈ ps, p.eval y = 0)
    (alphas : List F) : (consolidated ps alphas).eval y = 0 := by
  induction ps generalizing alphas with
  | nil => simp [consolidated]
  | cons p ps ih =>
      rw [List.forall_mem_cons] at zero
      cases alphas with
      | nil => simp [consolidated]
      | cons alpha alphas => rw [consolidated_cons, eval_add, eval_mul, zero.1, ih zero.2, zero_mul,
          add_zero]

/-- The last polynomial is multiplied by the last challenge. -/
theorem consolidated_append {ps : List F[X]} {alphas : List F} (length : ps.length = alphas.length)
    (p : F[X]) (alpha : F) :
    consolidated (ps ++ [p]) (alphas ++ [alpha]) = consolidated ps alphas + p * C alpha := by
  rw [consolidated, List.zip_append length, List.map_append, List.sum_append]
  exact congrArg (_ + ·) List.sum_singleton

theorem natDegree_consolidated_le {ps : List F[X]} {degree : Nat}
    (degrees : ∀ p ∈ ps, p.natDegree ≤ degree) (alphas : List F) :
    (consolidated ps alphas).natDegree ≤ degree := by
  induction ps generalizing alphas with
  | nil => simp [consolidated]
  | cons p ps ih =>
      rw [List.forall_mem_cons] at degrees
      cases alphas with
      | nil => simp [consolidated]
      | cons alpha alphas =>
          rw [consolidated_cons]
          exact (natDegree_add_le _ _).trans
            (max_le ((natDegree_mul_C_le p alpha).trans degrees.1) (ih degrees.2 alphas))

/-- The polynomial whose values the verifier puts together from the pieces. The degrees of the
pieces are not bounded here; longer ones overlap. -/
noncomputable def recombined (ts : List F[X]) (maxDegree : Nat) : F[X] :=
  ∑ i ∈ Finset.range ts.length, ts.getD i 0 * X ^ ((maxDegree + 1) * i)

theorem eval_recombined (ts : List F[X]) (maxDegree : Nat) (y : F) :
    (recombined ts maxDegree).eval y = (ts.map (eval y)).zipIdx.foldl
      (fun acc (piece, i) => acc + piece * y ^ ((maxDegree + 1) * i)) 0 := by
  rw [foldl_pieces, recombined, eval_finsetSum, List.length_map]
  apply Finset.sum_congr rfl
  intro i hi
  have inside := Finset.mem_range.mp hi
  rw [eval_mul, eval_pow, eval_X, Domain.get, List.getD_eq_getElem _ _ inside,
    List.getD_eq_getElem _ _ (by rwa [List.length_map]), List.getElem_map]

theorem natDegree_recombined_le {ts : List F[X]} {maxDegree : Nat}
    (pieces : ∀ t ∈ ts, t.natDegree ≤ maxDegree) :
    (recombined ts maxDegree).natDegree ≤ (maxDegree + 1) * ts.length := by
  apply natDegree_sum_le_of_forall_le
  intro i hi
  have inside := Finset.mem_range.mp hi
  have degree : (ts.getD i 0).natDegree ≤ maxDegree := by
    rw [List.getD_eq_getElem _ _ inside]
    exact pieces _ (List.getElem_mem inside)
  calc (ts.getD i 0 * X ^ ((maxDegree + 1) * i)).natDegree
      ≤ (ts.getD i 0).natDegree + (maxDegree + 1) * i := by
        refine natDegree_mul_le.trans (Nat.add_le_add_left ?_ _)
        rw [natDegree_X_pow]
    _ ≤ (maxDegree + 1) * (i + 1) := by rw [Nat.mul_succ]; omega
    _ ≤ (maxDegree + 1) * ts.length := Nat.mul_le_mul_left _ inside

/-- Every polynomial can be cut into pieces. -/
theorem exists_pieces (t : F[X]) (maxDegree : Nat) :
    ∃ ts : List F[X], (∀ p ∈ ts, p.natDegree ≤ maxDegree) ∧ recombined ts maxDegree = t := by
  let f : List F := (List.range (t.natDegree + 1)).map t.coeff
  have coefficients : ofCoefficients f = t := by
    ext i
    rw [coeff_ofCoefficients]
    by_cases inside : i < t.natDegree + 1
    · exact PolynomialDfs.get_map_range t.coeff inside
    · rw [coeff_eq_zero_of_natDegree_lt (by omega)]
      exact PolynomialDfs.get_eq_zero (by simpa [f] using not_lt.mp inside)
  refine ⟨(splitPolynomial f maxDegree).map ofCoefficients, ?_, ?_⟩
  · intro p member
    obtain ⟨piece, inside, rfl⟩ := List.mem_map.mp member
    have short := (mem_splitPolynomial inside).2
    exact (natDegree_ofCoefficients_le piece).trans (by omega)
  · have count : (splitPolynomial f maxDegree).length =
        (f.length + maxDegree) / (maxDegree + 1) := by
      rw [splitPolynomial, List.length_map, List.length_range]
    conv_rhs => rw [← coefficients, ← sum_splitPolynomial f maxDegree]
    rw [recombined, List.length_map, count]
    apply Finset.sum_congr rfl
    intro i hi
    have inside := Finset.mem_range.mp hi
    rw [List.getD_eq_getElem _ _ (by rwa [List.length_map, count]), List.getElem_map]
    simp only [splitPolynomial, List.getElem_map, List.getElem_range]

theorem consolidate_bounded {fs : List (PolynomialDfs F)} {ps : List F[X]}
    (h : HoldsArgument P d l fs ps) (nonempty : fs ≠ []) (alphas : List F) :
    ∃ f, consolidate P fs alphas = some f ∧
      PolynomialDfs.Bounded P d l f (consolidated ps alphas) := by
  have loop : ∀ (alphas : List F) (acc : PolynomialDfs F) (q : F[X]),
      PolynomialDfs.Bounded P d l acc q → ∃ f, (fs.zip alphas).foldlM (fun acc (f, alpha) =>
        if f.d = 0 then some acc else PolynomialDfs.add P acc (f.scale alpha)) acc = some f ∧
          PolynomialDfs.Bounded P d l f (q + consolidated ps alphas) := by
    clear nonempty
    induction h with
    | nil =>
        intro alphas acc q start
        exact ⟨acc, rfl, by simpa [consolidated] using start⟩
    | @cons f p fs ps first rest ih =>
        intro alphas acc q start
        cases alphas with
        | nil => exact ⟨acc, rfl, by simpa [consolidated] using start⟩
        | cons alpha alphas =>
            rw [List.zip_cons_cons, List.foldlM_cons, consolidated_cons, ← add_assoc]
            dsimp only
            by_cases zero : f.d = 0
            · rw [if_pos zero, first.2 zero, zero_mul, add_zero]
              exact ih alphas acc q start
            · obtain ⟨sum, computed, bounded⟩ := start.add (first.1.scale alpha)
              rw [if_neg zero, computed]
              exact ih alphas sum _ bounded
  obtain ⟨f, fs, rfl⟩ := List.exists_cons_of_ne_nil nonempty
  obtain ⟨p, ps, ⟨⟨s, represents, -, small⟩, -⟩, -, rfl⟩ := List.forall₂_cons_left_iff.mp h
  obtain ⟨r, computed, bounded⟩ := loop alphas _ _
    (PolynomialDfs.Bounded.constant represents.admits small d 0)
  refine ⟨r, ?_, by rwa [C_0, zero_add] at bounded⟩
  rw [← computed, ← represents.length]
  rfl

variable [DecidableEq F]

/-- The evaluations of the polynomials. -/
theorem HoldsArgument.mapM_evaluate {fs : List (PolynomialDfs F)} {ps : List F[X]}
    (h : HoldsArgument P d l fs ps) (y : F) :
    fs.mapM (PolynomialDfs.evaluate P · y) = some (ps.map (eval y)) := by
  induction h with
  | nil => rfl
  | cons first rest ih =>
      rw [List.mapM_cons, first.1.evaluate, ih]
      rfl

theorem quotientPolynomial_spec {fs : List (PolynomialDfs F)} {ps : List F[X]}
    (h : HoldsArgument P d l fs ps) (nonempty : fs ≠ []) (alphas : List F) {rows : Nat}
    (positive : 0 < rows) : ∃ (q : List F) (r : F[X]),
      quotientPolynomial P fs alphas rows = some q ∧
      consolidated ps alphas = ofCoefficients q * (X ^ rows - C 1) + r ∧ r.degree < rows := by
  obtain ⟨f, computed, s, represents, -, -⟩ := consolidate_bounded h nonempty alphas
  obtain ⟨normal, interpolated, -, coefficient⟩ := represents.coefficients
  have length := length_vanishingPolynomial (F := F) rows
  have vanishing := ofCoefficients_vanishing (F := F) positive
  have last : Domain.get (vanishingPolynomial rows : List F)
      ((vanishingPolynomial rows : List F).length - 1) ≠ 0 := by
    rw [length, ← coeff_ofCoefficients, vanishing, Nat.add_sub_cancel, coeff_sub, coeff_X_pow,
      if_pos rfl, coeff_C, if_neg positive.ne', sub_zero]
    exact one_ne_zero
  have notOne : (vanishingPolynomial rows : List F) ≠ [1] := by
    intro one
    rw [one, List.length_singleton] at length
    omega
  obtain ⟨q, r, divided, equal, less⟩ := exists_division (a := normal) last notOne
  have same : ofCoefficients normal = consolidated ps alphas := by
    ext i
    rw [coeff_ofCoefficients, coefficient]
  rw [vanishing] at equal less
  refine ⟨q, ofCoefficients r, ?_, same ▸ equal, less.trans_eq (degree_X_pow_sub_C positive 1)⟩
  rw [quotientPolynomial, computed, Option.bind_eq_bind, Option.bind_some, interpolated,
    Option.bind_eq_bind, Option.bind_some, divided]
  rfl

/-! ## The last check -/

theorem mapM_evaluate {pieces : List (List F)} {ts : List (PolynomialDfs F)}
    (h : List.Forall₂ (fun piece t => PolynomialDfs.Bounded P d l t (ofCoefficients piece))
      pieces ts) (y : F) : ts.mapM (PolynomialDfs.evaluate P · y) =
        some (pieces.map (evaluateCoefficients · y)) := by
  induction h with
  | nil => rfl
  | cons first rest ih =>
      rw [List.mapM_cons, first.evaluate, ih, eval_ofCoefficients]
      rfl

/-- The evaluations of the pieces pass the last check exactly where the remainder vanishes: the
prover drops the remainder, and quotient and pieces are exact otherwise. -/
theorem finalCheck_spec {fs : List (PolynomialDfs F)} {ps : List F[X]}
    (h : HoldsArgument P d l fs ps) (nonempty : fs ≠ []) (hk : P.Admits k) {maxDegree : Nat}
    (room : maxDegree + 1 ≤ 2 ^ k) (alphas : List F) {rows : Nat} (positive : 0 < rows) :
    ∃ q ts, quotientPolynomial P fs alphas rows = some q ∧
      splitQuotient P q maxDegree (2 ^ k) = some ts ∧ ∀ y, ∃ pieces,
        ts.mapM (PolynomialDfs.evaluate P · y) = some pieces ∧
        (finalCheck (ps.map (eval y)) alphas pieces y maxDegree rows = true ↔
          (consolidated ps alphas %ₘ (X ^ rows - C 1)).eval y = 0) := by
  obtain ⟨q, r, computed, equal, less⟩ := quotientPolynomial_spec h nonempty alphas positive
  obtain ⟨ts, split, held⟩ := splitQuotient_spec hk room q
  have remainder : consolidated ps alphas %ₘ (X ^ rows - C 1) = r := by
    refine (div_modByMonic_unique (ofCoefficients q) r (monic_X_pow_sub_C 1 positive.ne')
      ⟨?_, by rwa [degree_X_pow_sub_C positive]⟩).2
    rw [equal]
    ring
  refine ⟨q, ts, computed, split, fun y => ⟨_, mapM_evaluate held y, ?_⟩⟩
  rw [remainder, finalCheck, decide_eq_true_iff, ← eval_consolidated, foldl_splitPolynomial,
    ← eval_ofCoefficients, ofCoefficients_vanishing positive, equal, eval_add, eval_mul, mul_comm,
    add_eq_left]

/-- The evaluations of the pieces at a point pass the last check there. -/
def PassesAt (P : ArithmeticParams F) (ps : List F[X]) (alphas : List F)
    (ts : List (PolynomialDfs F)) (maxDegree rows : Nat) (y : F) : Prop :=
  ∃ pieces, ts.mapM (PolynomialDfs.evaluate P · y) = some pieces ∧
    finalCheck (ps.map (eval y)) alphas pieces y maxDegree rows = true

theorem card_roots_remainder_lt {n : Nat} {f : F[X]} (nonzero : f %ₘ (X ^ 2 ^ n - C 1) ≠ 0) :
    (f %ₘ (X ^ 2 ^ n - C 1)).roots.toFinset.card < 2 ^ n := by
  have less : (f %ₘ (X ^ 2 ^ n - C 1)).natDegree < 2 ^ n := by
    rw [natDegree_lt_iff_degree_lt nonzero, ← degree_vanishing (F := F) n]
    exact degree_modByMonic_lt f (monic_vanishing n)
  exact ((Multiset.toFinset_card_le _).trans (card_roots' _)).trans_lt less

/-- For whatever polynomials the prover holds, the quotient that it computes passes the last
check at every point if the sum with the challenges vanishes on the domain. If it does not,
there are fewer points than rows at which the check passes, since the remainder is not zero and
its degree is below the number of rows. -/
theorem finalCheck_quotient {n : Nat} {fs : List (PolynomialDfs F)} {ps : List F[X]}
    (h : HoldsArgument P d l fs ps) (nonempty : fs ≠ []) (hn : P.Admits n) (hk : P.Admits k)
    {maxDegree : Nat} (room : maxDegree + 1 ≤ 2 ^ k) (alphas : List F) :
    ∃ q ts, quotientPolynomial P fs alphas (2 ^ n) = some q ∧
      splitQuotient P q maxDegree (2 ^ k) = some ts ∧
      ((∀ j < 2 ^ n, (consolidated ps alphas).eval (P.root n ^ j) = 0) →
        ∀ y, PassesAt P ps alphas ts maxDegree (2 ^ n) y) ∧
      ((∃ j < 2 ^ n, (consolidated ps alphas).eval (P.root n ^ j) ≠ 0) →
        ∃ points : Finset F, points.card < 2 ^ n ∧
          ∀ y, PassesAt P ps alphas ts maxDegree (2 ^ n) y → y ∈ points) := by
  obtain ⟨q, ts, computed, split, check⟩ :=
    finalCheck_spec h nonempty hk room alphas (Nat.two_pow_pos n)
  refine ⟨q, ts, computed, split, fun vanishes y => ?_, fun ⟨j, hj, fails⟩ => ?_⟩
  · obtain ⟨pieces, evaluated, passes⟩ := check y
    refine ⟨pieces, evaluated, passes.mpr ?_⟩
    rw [(modByMonic_eq_zero_iff hn).mpr vanishes, eval_zero]
  · have nonzero : consolidated ps alphas %ₘ (X ^ 2 ^ n - C 1) ≠ 0 :=
      fun zero => fails ((modByMonic_eq_zero_iff hn).mp zero j hj)
    refine ⟨_, card_roots_remainder_lt nonzero, fun y ⟨pieces, evaluated, passes⟩ => ?_⟩
    obtain ⟨pieces', evaluated', check⟩ := check y
    obtain rfl := Option.some_injective _ (evaluated.symm.trans evaluated')
    rw [Multiset.mem_toFinset, mem_roots nonzero]
    exact check.mp passes

/-- The polynomial `X`, which is one at the first of two rows. -/
theorem finalCheck_quotient_linear :
    let ps : List (ZMod circuitModulus)[X] := .cons X .nil
    ∃ q ts, quotientPolynomial pallasBaseField [⟨1, [1, -1]⟩] [1] (2 ^ 1) = some q ∧
      splitQuotient pallasBaseField q 1 (2 ^ 1) = some ts ∧
      ((∀ j < 2 ^ 1, (consolidated ps [1]).eval (pallasBaseField.root 1 ^ j) = 0) →
        ∀ y, PassesAt pallasBaseField ps [1] ts 1 (2 ^ 1) y) ∧
      ((∃ j < 2 ^ 1, (consolidated ps [1]).eval (pallasBaseField.root 1 ^ j) ≠ 0) →
        ∃ points : Finset (ZMod circuitModulus), points.card < 2 ^ 1 ∧
          ∀ y, PassesAt pallasBaseField ps [1] ts 1 (2 ^ 1) y → y ∈ points) := by
  intro ps
  have held : HoldsArgument pallasBaseField 1 1 [⟨1, [1, -1]⟩] ps :=
    .cons ⟨PolynomialDfs.linear_represents.bounded le_rfl, fun zero => absurd zero one_ne_zero⟩ .nil
  exact finalCheck_quotient held (List.cons_ne_nil _ _) (by decide) (by decide) (by decide) [1]

/-- Whatever pieces a prover commits to: if the sum with the challenges does not vanish at some
row, the pieces pass the last check at no more points than the degrees allow. The two sides of
the check are polynomials in the challenge, and they differ in that row, where `Z` is zero. -/
theorem finalCheck_sound {n : Nat} (hn : P.Admits n) {ps ts : List F[X]} {degree maxDegree : Nat}
    (degrees : ∀ p ∈ ps, p.natDegree ≤ degree) (pieces : ∀ t ∈ ts, t.natDegree ≤ maxDegree)
    (alphas : List F) {j : Nat} (fails : (consolidated ps alphas).eval (P.root n ^ j) ≠ 0) :
    ∃ points : Finset F, points.card ≤ max degree (2 ^ n + (maxDegree + 1) * ts.length) ∧
      ∀ y, finalCheck (ps.map (eval y)) alphas (ts.map (eval y)) y maxDegree (2 ^ n) = true →
        y ∈ points := by
  let defect : F[X] := consolidated ps alphas - (X ^ 2 ^ n - C 1) * recombined ts maxDegree
  have root : (P.root n ^ j) ^ 2 ^ n = 1 := by
    rw [← pow_mul, mul_comm, pow_mul, (primitive_root hn.2).pow_eq_one, one_pow]
  have nonzero : defect ≠ 0 := by
    intro zero
    apply fails
    have value := congrArg (eval (P.root n ^ j)) zero
    rwa [eval_sub, eval_mul, eval_sub, eval_pow, eval_X, eval_C, root, sub_self, zero_mul,
      sub_zero, eval_zero] at value
  have bound : defect.natDegree ≤ max degree (2 ^ n + (maxDegree + 1) * ts.length) := by
    refine (natDegree_sub_le _ _).trans (max_le_max (natDegree_consolidated_le degrees alphas) ?_)
    refine natDegree_mul_le.trans (Nat.add_le_add ?_ (natDegree_recombined_le pieces))
    rw [natDegree_X_pow_sub_C]
  refine ⟨defect.roots.toFinset,
    ((Multiset.toFinset_card_le _).trans (card_roots' _)).trans bound, fun y passes => ?_⟩
  rw [finalCheck, decide_eq_true_iff, ← eval_consolidated, ← eval_recombined,
    ← eval_ofCoefficients, ofCoefficients_vanishing (Nat.two_pow_pos n)] at passes
  rw [Multiset.mem_toFinset, mem_roots nonzero, IsRoot.def, eval_sub, eval_mul, passes, sub_self]

/-- The polynomial `X` and no piece at all. -/
theorem finalCheck_sound_linear :
    let ps : List (ZMod circuitModulus)[X] := .cons X .nil
    let ts : List (ZMod circuitModulus)[X] := []
    ∃ points : Finset (ZMod circuitModulus), points.card ≤ max 1 (2 ^ 1 + (0 + 1) * 0) ∧
      ∀ y, finalCheck (ps.map (eval y)) [1] (ts.map (eval y)) y 0 (2 ^ 1) = true → y ∈ points := by
  intro ps ts
  have degrees : ∀ p ∈ ps, p.natDegree ≤ 1 := by
    simp [ps]
  have fails : (consolidated ps [1]).eval (pallasBaseField.root 1 ^ 0) ≠ 0 := by
    simp [ps, consolidated]
  exact finalCheck_sound (by decide) degrees (List.forall_mem_nil _) [1] fails

/-- If the sum with the challenges vanishes on the domain, then there are pieces that pass the
last check at every point. -/
theorem exists_passing {n : Nat} (hn : P.Admits n) {ps : List F[X]} {alphas : List F}
    (vanishes : ∀ j < 2 ^ n, (consolidated ps alphas).eval (P.root n ^ j) = 0) (maxDegree : Nat) :
    ∃ ts : List F[X], (∀ t ∈ ts, t.natDegree ≤ maxDegree) ∧
      ∀ y, finalCheck (ps.map (eval y)) alphas (ts.map (eval y)) y maxDegree (2 ^ n) = true := by
  obtain ⟨ts, pieces, whole⟩ :=
    exists_pieces (consolidated ps alphas /ₘ (X ^ 2 ^ n - C 1)) maxDegree
  refine ⟨ts, pieces, fun y => ?_⟩
  have division := modByMonic_add_div (consolidated ps alphas) (X ^ 2 ^ n - C 1)
  rw [(modByMonic_eq_zero_iff hn).mpr vanishes, zero_add, ← whole] at division
  rw [finalCheck, decide_eq_true_iff, ← eval_consolidated, ← eval_recombined,
    ← eval_ofCoefficients, ofCoefficients_vanishing (Nat.two_pow_pos n), ← eval_mul, division]

end Specification

end Circuit
