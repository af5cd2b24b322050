import Mathlib.LinearAlgebra.Lagrange

/-!
# Combinations with the powers of a challenge

Many values are checked at once by adding them up with the powers of one challenge. If all
values are zero, so is every combination. Conversely, over an integral domain the
combination of `n` values is a polynomial of degree below `n` in the challenge, so values
whose combination vanishes at `n` challenges are all zero.
-/

namespace Batching

open Polynomial

variable {R S : Type*} [CommRing R] [CommRing S]

/-- The values, each multiplied by the next power of the challenge. -/
def combine (θ : R) : List R → R
  | [] => 0
  | v :: vs => v + θ * combine θ vs

@[simp] theorem combine_nil (θ : R) : combine θ [] = 0 := rfl

@[simp] theorem combine_cons (θ v : R) (vs : List R) :
    combine θ (v :: vs) = v + θ * combine θ vs := rfl

theorem combine_append (θ : R) (vs vs' : List R) :
    combine θ (vs ++ vs') = combine θ vs + θ ^ vs.length * combine θ vs' := by
  induction vs with
  | nil => simp
  | cons v vs ih =>
      rw [List.cons_append, combine_cons, ih, combine_cons, List.length_cons]
      ring

theorem combine_map_mul (θ s : R) (vs : List R) :
    combine θ (vs.map (s * ·)) = s * combine θ vs := by
  induction vs with
  | nil => simp
  | cons v vs ih =>
      rw [List.map_cons, combine_cons, ih, combine_cons]
      ring

theorem map_combine (f : R →+* S) (θ : R) (vs : List R) :
    f (combine θ vs) = combine (f θ) (vs.map f) := by
  induction vs with
  | nil => simp
  | cons v vs ih => simp [ih]

theorem combine_eq_zero {vs : List R} (h : ∀ v ∈ vs, v = 0) (θ : R) : combine θ vs = 0 := by
  induction vs with
  | nil => rfl
  | cons v vs ih =>
      rw [combine_cons, h v List.mem_cons_self, ih fun v hv => h v (List.mem_cons_of_mem _ hv)]
      ring

/-- The combination as a polynomial in the challenge. -/
noncomputable def polynomial (vs : List R) : R[X] := combine X (vs.map C)

@[simp] theorem eval_polynomial (θ : R) (vs : List R) :
    (polynomial vs).eval θ = combine θ vs := by
  induction vs with
  | nil => simp [polynomial]
  | cons v vs ih =>
      rw [combine_cons, ← ih]
      simp [polynomial]

theorem coeff_polynomial (vs : List R) (k : Nat) :
    (polynomial vs).coeff k = vs[k]?.getD 0 := by
  induction vs generalizing k with
  | nil => simp [polynomial]
  | cons v vs ih =>
      have shape : polynomial (v :: vs) = C v + X * polynomial vs := rfl
      cases k with
      | zero => simp [shape]
      | succ k => simp [shape, coeff_X_mul, ih]

theorem degree_polynomial_lt (vs : List R) : (polynomial vs).degree < vs.length := by
  rw [degree_lt_iff_coeff_zero]
  intro k hk
  rw [coeff_polynomial, List.getElem?_eq_none hk, Option.getD_none]

theorem eq_zero_of_polynomial {vs : List R} (zero : polynomial vs = 0) : ∀ v ∈ vs, v = 0 := by
  intro v hv
  obtain ⟨k, hk, rfl⟩ := List.mem_iff_getElem.mp hv
  have coefficient := coeff_polynomial vs k
  rwa [zero, coeff_zero, List.getElem?_eq_getElem hk, Option.getD_some, eq_comm] at coefficient

/-- As many challenges as there are values tell whether all values are zero. -/
theorem eq_zero_of_combine [IsDomain R] {vs : List R} (challenges : Finset R)
    (enough : vs.length ≤ challenges.card) (h : ∀ θ ∈ challenges, combine θ vs = 0) :
    ∀ v ∈ vs, v = 0 := by
  have zero : polynomial vs = 0 := by
    apply eq_zero_of_degree_lt_of_eval_finset_eq_zero challenges
    · exact (degree_polynomial_lt vs).trans_le (by exact_mod_cast enough)
    · intro θ hθ
      rw [eval_polynomial, h θ hθ]
  exact eq_zero_of_polynomial zero

/-- Values that are not all zero are combined to zero by fewer challenges than there are
values. -/
theorem ncard_combine_lt [IsDomain R] {vs : List R} (h : ∃ v ∈ vs, v ≠ 0) :
    {θ | combine θ vs = 0}.Finite ∧ {θ | combine θ vs = 0}.ncard < vs.length := by
  have nonzero : polynomial vs ≠ 0 := by
    intro zero
    obtain ⟨v, hv, hne⟩ := h
    exact hne (eq_zero_of_polynomial zero v hv)
  have roots : {θ | combine θ vs = 0} ⊆ (polynomial vs).rootSet R := by
    intro θ hθ
    simpa [mem_rootSet, nonzero, aeval_def] using hθ
  have finite := (rootSet_finite (polynomial vs) R).subset roots
  refine ⟨finite, ?_⟩
  by_contra enough
  obtain ⟨v, hv, hne⟩ := h
  apply hne
  apply eq_zero_of_combine finite.toFinset _ _ v hv
  · rw [← Set.ncard_eq_toFinset_card _ finite]
    omega
  · intro θ hθ
    simpa using hθ

end Batching
