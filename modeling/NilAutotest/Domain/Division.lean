import NilAutotest.Domain.PolynomialDfs

/-!
# Polynomials by their coefficients

`polynomial` is a vector of coefficients, lowest first. Its division has two loops: one for
divisors of the form `X ^ d + c`, which goes through the coefficients once, and long division
for all others. Both leave a quotient and a remainder of lower degree than the divisor.
-/

namespace Domain

open Polynomial PolynomialDfs

variable {F : Type*} [Field F]

/-- The polynomial of a vector of coefficients. Zeros at the end of the vector do not matter, so
many vectors are one polynomial; `condense` removes the zeros. -/
noncomputable def ofCoefficients (a : List F) : F[X] :=
  ∑ i ∈ Finset.range a.length, C (get a i) * X ^ i

/-- `evaluate` -/
def evaluateCoefficients (a : List F) (value : F) : F :=
  a.foldr (fun coefficient result => result * value + coefficient) 0

theorem get_replicate_zero (n i : Nat) : get (List.replicate n (0 : F)) i = 0 := by
  rw [get, List.getD_eq_getElem?_getD, List.getElem?_replicate]
  split <;> rfl

@[simp] theorem coeff_ofCoefficients (a : List F) (i : Nat) :
    (ofCoefficients a).coeff i = get a i := by
  simp only [ofCoefficients, finsetSum_coeff, coeff_C_mul, coeff_X_pow, mul_ite, mul_one,
    mul_zero, Finset.sum_ite_eq, Finset.mem_range]
  split
  · rfl
  · next outside => exact (get_eq_zero (not_lt.mp outside)).symm

theorem eval_ofCoefficients (a : List F) (value : F) :
    (ofCoefficients a).eval value = evaluateCoefficients a value := by
  rw [evaluateCoefficients, foldr_horner, ofCoefficients, eval_finsetSum]
  simp only [eval_mul, eval_C, eval_pow, eval_X]

theorem degree_ofCoefficients_lt (a : List F) : (ofCoefficients a).degree < a.length := by
  rw [degree_lt_iff_coeff_zero]
  intro i hi
  rw [coeff_ofCoefficients, get_eq_zero hi]

theorem ofCoefficients_congr {a b : List F} (h : ∀ i, get a i = get b i) :
    ofCoefficients a = ofCoefficients b := by
  ext i
  rw [coeff_ofCoefficients, coeff_ofCoefficients, h]

/-- The last coefficient, if it is not zero, is the leading one. -/
theorem degree_ofCoefficients {a : List F} (last : get a (a.length - 1) ≠ 0) :
    (ofCoefficients a).degree = (a.length - 1 : Nat) := by
  apply le_antisymm
  · rw [degree_le_iff_coeff_zero]
    intro i hi
    rw [coeff_ofCoefficients, get_eq_zero]
    have := Nat.cast_lt.mp hi
    omega
  · apply le_degree_of_ne_zero
    rwa [coeff_ofCoefficients]

theorem ofCoefficients_set {q : List F} {shift : Nat} {leadCoeff : F} (inside : shift < q.length)
    (zero : get q shift = 0) :
    ofCoefficients (q.set shift leadCoeff) = ofCoefficients q + C leadCoeff * X ^ shift := by
  ext i
  rw [coeff_add, coeff_C_mul_X_pow]
  simp only [coeff_ofCoefficients, get_set]
  rcases eq_or_ne i shift with rfl | different
  · rw [if_pos ⟨rfl, inside⟩, if_pos rfl, zero, zero_add]
  · rw [if_neg (by omega), if_neg different, add_zero]

theorem ofCoefficients_binomial {b : List F} {d : Nat} (positive : 0 < d)
    (length : b.length = d + 1) (one : get b d = 1) (middle : ∀ i < d, 0 < i → get b i = 0) :
    ofCoefficients b = X ^ d - C (-get b 0) := by
  ext i
  rw [C_neg, sub_neg_eq_add, coeff_add, coeff_X_pow, coeff_C, coeff_ofCoefficients]
  rcases Nat.eq_zero_or_pos i with rfl | low
  · rw [if_neg (by omega), if_pos rfl, zero_add]
  · rw [if_neg (show i ≠ 0 by omega), add_zero]
    rcases Nat.lt_trichotomy i d with below | rfl | above
    · rw [if_neg (by omega), middle i below low]
    · rw [if_pos rfl, one]
    · rw [if_neg (by omega), get_eq_zero (by omega)]

/-! ## The operations -/

section Operations

variable [DecidableEq F]

/-- `condense` -/
def condense (a : List F) : List F := vectorResize a (trimmed a a.length) 0

/-- The loop over the quotient for a divisor `X ^ d - x`, from the highest coefficient down. The
product of a coefficient and `x` belongs `d` places lower, in the quotient or in the remainder. -/
def binomialDivision (a : List F) (d : Nat) (x : F) : Nat → List F → List F → List F × List F
  | 0, q, r => (q, r)
  | t + 1, q, r =>
      let q := q.set t (get q t + get a (t + d))
      if d ≤ t then binomialDivision a d x t (q.set (t - d) (get q t * x)) r
      else binomialDivision a d x t q (r.set t (get r t + get q t * x))

/-- The remainder after one step: a multiple of the divisor is subtracted from its end. -/
def reduce (b r : List F) (shift : Nat) (leadCoeff : F) : List F :=
  let r := vectorResize r (max r.length (b.length + shift + 1)) 0
  condense <| (List.range r.length).map fun i =>
    if shift ≤ i ∧ i < shift + b.length then get r i - get b (i - shift) * leadCoeff else get r i

/-- Long division; there is no result when it takes more steps than `fuel`. The remainder gets
shorter with every step, so as many steps as it has coefficients are enough. -/
def longDivision (b : List F) : Nat → List F → List F → Option (List F × List F)
  | 0, _, _ => none
  | fuel + 1, q, r =>
      let d := b.length - 1
      if d ≤ r.length - 1 ∧ ∃ x ∈ r, x ≠ 0 then
        let shift := r.length - 1 - d
        let leadCoeff := get r (r.length - 1) * (get b d)⁻¹
        longDivision b fuel (q.set shift leadCoeff) (reduce b r shift leadCoeff)
      else some (q, r)

/-- `division`. For the divisor one the range of coefficients that are compared with zero would
end before it starts, which the source does not define, and there is no result. -/
def division (a b : List F) : Option (List F × List F) :=
  let d := b.length - 1
  if b = [] ∨ b = [1] then none
  else if get b d = 1 ∧ (∀ i < d, 0 < i → get b i = 0) ∧ b.length ≤ a.length then
    let q := List.replicate (a.length - b.length + 1) 0
    let (q, r) := binomialDivision a d (-get b 0) q.length q (a.take d)
    some (condense q, condense r)
  else do
    let (q, r) ← longDivision b (a.length + 1) (List.replicate a.length 0) a
    pure (condense q, r)

theorem get_condense (a : List F) (i : Nat) : get (condense a) i = get a i := by
  have kept := trimmed_le a a.length
  rcases Nat.lt_or_ge i (trimmed a a.length) with inside | outside
  · rw [condense, get_vectorResize _ _ inside, if_pos (inside.trans_le kept)]
  · rw [get_eq_zero (by rwa [condense, length_vectorResize])]
    rcases Nat.lt_or_ge i a.length with low | high
    · exact (get_trimmed a outside low).symm
    · exact (get_eq_zero high).symm

@[simp] theorem ofCoefficients_condense (a : List F) :
    ofCoefficients (condense a) = ofCoefficients a :=
  ofCoefficients_congr (get_condense a)

/-- Zeros at the end are removed, but for the first coefficient. -/
theorem length_condense_le {a : List F} {n : Nat} (positive : 0 < n)
    (zero : ∀ i < a.length, n ≤ i → get a i = 0) : (condense a).length ≤ n := by
  rw [condense, length_vectorResize]
  have loop : ∀ r, (∀ i < r, n ≤ i → get a i = 0) → trimmed a r ≤ n := by
    intro r
    fun_induction trimmed a r with
    | case1 => exact fun _ => Nat.zero_le n
    | case2 => exact fun _ => positive
    | case3 r last ih => exact fun h => ih fun i hi => h i (by omega)
    | case4 r last =>
        intro h
        by_contra more
        exact last (h (r + 1) (by omega) (by omega))
  exact loop a.length zero

end Operations

/-! ## Divisors of the form `X ^ d + c` -/

section Binomial

/-- The quotient is final from `t` on, below it has the products that were put there, and the
remainder is final from `t` on. -/
structure Divided (a : List F) (d : Nat) (x : F) (t : Nat) (q r : List F) : Prop where
  quotient : q.length = a.length - d
  remainder : r.length = d
  final : ∀ i, t ≤ i → i < q.length → get q i = get a (i + d) + x * get q (i + d)
  pending : ∀ i < t, get q i = if t ≤ i + d then x * get q (i + d) else 0
  rest : ∀ i < d, get r i = get a i + if t ≤ i then x * get q i else 0

variable {a q r : List F} {d t : Nat} {x : F}

theorem Divided.start (enough : d ≤ a.length) :
    Divided a d x (a.length - d) (List.replicate (a.length - d) 0) (a.take d) where
  quotient := List.length_replicate
  remainder := List.length_take_of_le enough
  final := by
    intro i low high
    rw [List.length_replicate] at high
    omega
  pending := by
    intro i hi
    rw [get_replicate_zero, get_replicate_zero, mul_zero, ite_self]
  rest := by
    intro i hi
    rw [get_replicate_zero, mul_zero, ite_self, add_zero, get, get, List.getD_eq_getElem?_getD,
      List.getD_eq_getElem?_getD, List.getElem?_take_of_lt hi]

/-- One turn of the loop, with the product of the new coefficient put in the quotient or in the
remainder. -/
theorem Divided.step (positive : 0 < d) (h : Divided a d x (t + 1) q r) (inside : t < q.length) :
    let q' := q.set t (get q t + get a (t + d))
    Divided a d x t (if d ≤ t then q'.set (t - d) (get q' t * x) else q')
      (if d ≤ t then r else r.set t (get r t + get q' t * x)) := by
  intro q'
  have length : q'.length = q.length := List.length_set
  have above : ∀ i, t < i → get q' i = get q i := by
    intro i hi
    rw [get_set, if_neg (by omega)]
  have new : get q' t = get a (t + d) + x * get q (t + d) := by
    rw [get_set, if_pos ⟨rfl, inside⟩, h.pending t (Nat.lt_succ_self t), if_pos (by omega),
      add_comm]
  by_cases product : d ≤ t
  · rw [if_pos product, if_pos product]
    have other : ∀ i, i ≠ t - d → get (q'.set (t - d) (get q' t * x)) i = get q' i := by
      intro i hi
      rw [get_set, if_neg (by omega)]
    refine ⟨by rw [List.length_set, length, h.quotient], h.remainder, fun i low high => ?_,
      fun i hi => ?_, fun i hi => ?_⟩
    · rw [List.length_set, length] at high
      rw [other i (by omega), other (i + d) (by omega), above (i + d) (by omega)]
      rcases Nat.eq_or_lt_of_le low with rfl | more
      · exact new
      · rw [above i more]
        exact h.final i more high
    · rcases eq_or_ne i (t - d) with rfl | different
      · rw [if_pos (by omega), Nat.sub_add_cancel product, other t (by omega), get_set,
          if_pos ⟨rfl, by omega⟩, mul_comm]
      · have old : get q' i = get q i := by
          rw [get_set, if_neg (by omega)]
        rw [other i different, old, h.pending i (by omega)]
        by_cases near : t ≤ i + d
        · rw [if_pos near, if_pos (by omega), other (i + d) (by omega), above (i + d) (by omega)]
        · rw [if_neg near, if_neg (by omega)]
    · rw [h.rest i hi, if_neg (by omega), if_neg (by omega)]
  · rw [if_neg product, if_neg product]
    refine ⟨by rw [length, h.quotient], by rw [List.length_set, h.remainder],
      fun i low high => ?_, fun i hi => ?_, fun i hi => ?_⟩
    · rw [length] at high
      rw [above (i + d) (by omega)]
      rcases Nat.eq_or_lt_of_le low with rfl | more
      · exact new
      · rw [above i more]
        exact h.final i more high
    · have old : get q' i = get q i := by
        rw [get_set, if_neg (by omega)]
      rw [old, h.pending i (by omega), if_pos (by omega), if_pos (by omega),
        above (i + d) (by omega)]
    · rw [get_set, h.remainder]
      rcases eq_or_ne t i with rfl | different
      · rw [if_pos ⟨rfl, hi⟩, if_pos le_rfl, h.rest t hi, if_neg (by omega), add_zero, mul_comm x]
      · rw [if_neg (by omega), h.rest i hi]
        by_cases more : t ≤ i
        · rw [if_pos more, if_pos (by omega), above i (by omega)]
        · rw [if_neg more, if_neg (by omega)]

theorem binomialDivision_divided (positive : 0 < d) (h : Divided a d x t q r)
    (inside : t ≤ q.length) : Divided a d x 0 (binomialDivision a d x t q r).1
      (binomialDivision a d x t q r).2 := by
  induction t generalizing q r with
  | zero => exact h
  | succ t ih =>
      have next := h.step positive inside
      rw [binomialDivision]
      split
      · next product =>
          simp only [if_pos product] at next
          refine ih next ?_
          rw [List.length_set, List.length_set]
          omega
      · next product =>
          simp only [if_neg product] at next
          refine ih next ?_
          rw [List.length_set]
          omega

/-- What the loop leaves is quotient and remainder. -/
theorem Divided.eq (enough : d ≤ a.length) (h : Divided a d x 0 q r) :
    ofCoefficients a = ofCoefficients q * (X ^ d - C x) + ofCoefficients r := by
  ext i
  rw [mul_sub, coeff_add, coeff_sub, coeff_mul_C, coeff_mul_X_pow']
  simp only [coeff_ofCoefficients]
  split
  · next high =>
      have shifted : get q (i - d) = get a i + x * get q i := by
        rcases Nat.lt_or_ge (i - d) q.length with inside | outside
        · have value := h.final (i - d) (Nat.zero_le _) inside
          rwa [Nat.sub_add_cancel high] at value
        · have length := h.quotient
          rw [get_eq_zero outside, get_eq_zero (a := a) (by omega), get_eq_zero (a := q) (by omega),
            mul_zero, add_zero]
      rw [shifted, get_eq_zero (a := r) (by rw [h.remainder]; exact high)]
      ring
  · next low =>
      rw [h.rest i (by omega), if_pos (Nat.zero_le i)]
      ring

end Binomial

/-! ## Long division -/

section Long

variable [DecidableEq F] {b q r : List F} {shift : Nat} {leadCoeff : F}

theorem get_reduce (i : Nat) : get (reduce b r shift leadCoeff) i =
    if shift ≤ i ∧ i < shift + b.length then get r i - get b (i - shift) * leadCoeff
    else get r i := by
  have same : ∀ n, r.length ≤ n → ∀ j, get (vectorResize r n 0) j = get r j := by
    intro n enough j
    rcases Nat.lt_or_ge j n with inside | outside
    · rw [get_vectorResize _ _ inside]
      split
      · rfl
      · next high => exact (get_eq_zero (not_lt.mp high)).symm
    · rw [get_eq_zero (by rwa [length_vectorResize]), get_eq_zero (enough.trans outside)]
  rw [reduce, get_condense]
  simp only [same _ (le_max_left _ _), length_vectorResize]
  rcases Nat.lt_or_ge i (max r.length (b.length + shift + 1)) with inside | outside
  · rw [get_map_range _ inside]
  · rw [get_eq_zero (by rwa [List.length_map, List.length_range]), if_neg (by omega),
      get_eq_zero (by omega)]

theorem ofCoefficients_reduce : ofCoefficients (reduce b r shift leadCoeff) =
    ofCoefficients r - C leadCoeff * X ^ shift * ofCoefficients b := by
  ext i
  rw [coeff_sub, mul_assoc, coeff_C_mul, coeff_X_pow_mul']
  simp only [coeff_ofCoefficients, get_reduce]
  by_cases low : shift ≤ i
  · by_cases high : i < shift + b.length
    · rw [if_pos ⟨low, high⟩, if_pos low, mul_comm]
    · rw [if_neg (by omega), if_pos low, get_eq_zero (a := b) (by omega), mul_zero, sub_zero]
  · rw [if_neg (by omega), if_neg low, mul_zero, sub_zero]

/-- The last coefficient is cancelled, so the remainder gets shorter. -/
theorem length_reduce_le (last : get b (b.length - 1) ≠ 0) (enough : b.length - 1 ≤ r.length - 1)
    (nonempty : 0 < b.length) :
    let result := reduce b r (r.length - 1 - (b.length - 1))
      (get r (r.length - 1) * (get b (b.length - 1))⁻¹)
    result.length ≤ max 1 (r.length - 1) ∧ get result (r.length - 1) = 0 := by
  intro result
  have cancelled : get result (r.length - 1) = 0 := by
    have index : r.length - 1 - (r.length - 1 - (b.length - 1)) = b.length - 1 := by omega
    rw [get_reduce, if_pos (by omega), index]
    field_simp
    ring
  refine ⟨length_condense_le (by omega) fun i _ high => ?_, cancelled⟩
  rw [← get_condense]
  show get result i = 0
  rcases Nat.eq_or_lt_of_le (show r.length - 1 ≤ i by omega) with rfl | more
  · exact cancelled
  · rw [get_reduce, if_neg (by omega), get_eq_zero (by omega)]

theorem ofCoefficients_eq_zero (zero : ¬ ∃ x ∈ r, x ≠ 0) : ofCoefficients r = 0 := by
  ext i
  rw [coeff_ofCoefficients, coeff_zero, get]
  by_contra nonzero
  rcases Nat.lt_or_ge i r.length with inside | outside
  · rw [List.getD_eq_getElem _ _ inside] at nonzero
    exact zero ⟨_, List.getElem_mem inside, nonzero⟩
  · exact nonzero (get_eq_zero outside)

/-- The coefficients of the quotient that are still to come are zero. -/
def Open (b q r : List F) : Prop :=
  (∃ x ∈ r, x ≠ 0) → r.length ≤ q.length ∧ ∀ i, i + (b.length - 1) < r.length → get q i = 0

theorem longDivision_spec (nonempty : 0 < b.length) (last : get b (b.length - 1) ≠ 0) {fuel : Nat}
    (enough : 0 < fuel ∧ ((∃ x ∈ r, x ≠ 0) → r.length < fuel)) (unused : Open b q r) :
    ∃ q' r', longDivision b fuel q r = some (q', r') ∧
      ofCoefficients q * ofCoefficients b + ofCoefficients r =
        ofCoefficients q' * ofCoefficients b + ofCoefficients r' ∧
      (ofCoefficients r').degree < (ofCoefficients b).degree := by
  induction fuel generalizing q r with
  | zero => exact absurd enough.1 (lt_irrefl 0)
  | succ fuel ih =>
      rw [longDivision]
      by_cases more : b.length - 1 ≤ r.length - 1 ∧ ∃ x ∈ r, x ≠ 0
      · obtain ⟨space, zero⟩ := unused more.2
        have size := enough.2 more.2
        have filled : 0 < r.length := by
          obtain ⟨x, member, -⟩ := more.2
          exact List.length_pos_of_mem member
        let shift := r.length - 1 - (b.length - 1)
        let leadCoeff := get r (r.length - 1) * (get b (b.length - 1))⁻¹
        obtain ⟨shorter, cancelled⟩ : (reduce b r shift leadCoeff).length ≤ max 1 (r.length - 1) ∧
            get (reduce b r shift leadCoeff) (r.length - 1) = 0 :=
          length_reduce_le last more.1 nonempty
        -- a single coefficient that is left is the one that was cancelled
        have left : (∃ x ∈ reduce b r shift leadCoeff, x ≠ 0) → 1 < r.length := by
          rintro ⟨x, member, nonzero⟩
          by_contra single
          obtain ⟨i, hi, rfl⟩ := List.mem_iff_getElem.mp member
          have index : i = r.length - 1 := by omega
          subst index
          exact nonzero ((List.getD_eq_getElem _ _ hi).symm.trans cancelled)
        have next : Open b (q.set shift leadCoeff) (reduce b r shift leadCoeff) := by
          intro h
          have several := left h
          refine ⟨by rw [List.length_set]; omega, fun i hi => ?_⟩
          rw [get_set, if_neg (by omega)]
          exact zero i (by omega)
        obtain ⟨q', r', computed, equal, less⟩ :=
          ih ⟨by omega, fun h => by have := left h; omega⟩ next
        refine ⟨q', r', (if_pos more).trans computed, ?_, less⟩
        rw [← equal, ofCoefficients_reduce, ofCoefficients_set (by omega) (zero _ (by omega))]
        ring
      · refine ⟨q, r, if_neg more, rfl, ?_⟩
        rw [degree_ofCoefficients last]
        by_cases zero : ∃ x ∈ r, x ≠ 0
        · have short : r.length ≤ b.length - 1 := by
            have short : ¬ b.length - 1 ≤ r.length - 1 := fun less => more ⟨less, zero⟩
            omega
          exact (degree_ofCoefficients_lt r).trans_le (by exact_mod_cast short)
        · rw [ofCoefficients_eq_zero zero, degree_zero]
          exact WithBot.bot_lt_coe _

/-! ## Division -/

/-- Both loops divide with remainder: whichever of the two is taken, it ends, and what it leaves is
the quotient and a remainder of lower degree than the divisor. -/
theorem exists_division {a : List F} (last : get b (b.length - 1) ≠ 0) (notOne : b ≠ [1]) :
    ∃ q r, division a b = some (q, r) ∧
      ofCoefficients a = ofCoefficients q * ofCoefficients b + ofCoefficients r ∧
      (ofCoefficients r).degree < (ofCoefficients b).degree := by
  have nonempty : b ≠ [] := by
    rintro rfl
    exact last rfl
  have size := List.length_pos_iff.mpr nonempty
  rw [division]
  simp only [if_neg (not_or.mpr ⟨nonempty, notOne⟩)]
  by_cases binomial : get b (b.length - 1) = 1 ∧
      (∀ i < b.length - 1, 0 < i → get b i = 0) ∧ b.length ≤ a.length
  · obtain ⟨one, middle, enough⟩ := binomial
    have positive : 0 < b.length - 1 := by
      by_contra single
      obtain ⟨c, rfl⟩ := List.length_eq_one_iff.mp (show b.length = 1 by omega)
      exact notOne (congrArg (fun c => [c]) one)
    have count : a.length - b.length + 1 = a.length - (b.length - 1) := by omega
    have run := binomialDivision_divided positive
      (Divided.start (a := a) (d := b.length - 1) (x := -get b 0) (by omega))
      (by rw [List.length_replicate])
    rw [if_pos ⟨one, middle, enough⟩, count, List.length_replicate]
    refine ⟨_, _, rfl, ?_, ?_⟩
    · rw [ofCoefficients_condense, ofCoefficients_condense,
        ofCoefficients_binomial positive (by omega) one middle]
      exact run.eq (by omega)
    · rw [ofCoefficients_condense, degree_ofCoefficients last]
      exact (degree_ofCoefficients_lt _).trans_le (by rw [run.remainder])
  · obtain ⟨q, r, computed, equal, less⟩ := longDivision_spec size last
      (q := List.replicate a.length 0) (r := a)
      ⟨Nat.succ_pos _, fun _ => Nat.lt_succ_self _⟩
      fun _ => ⟨by rw [List.length_replicate], fun i _ => get_replicate_zero _ i⟩
    have start : ofCoefficients (List.replicate a.length (0 : F)) = 0 := by
      ext i
      rw [coeff_ofCoefficients, get_replicate_zero, coeff_zero]
    rw [if_neg binomial, computed]
    refine ⟨_, _, rfl, ?_, less⟩
    rw [ofCoefficients_condense, ← equal, start, zero_mul, zero_add]

end Long

end Domain
