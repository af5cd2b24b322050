import Mathlib.Algebra.BigOperators.Intervals
import Mathlib.Algebra.Field.GeomSum
import Mathlib.Algebra.Polynomial.Eval.Degree
import Mathlib.RingTheory.RootsOfUnity.PrimitiveRoots

/-!
# The discrete Fourier transform

The transform of `n` values with a root `ω` is the evaluation of the polynomial with these
coefficients at the powers of `ω`. A transform of twice the size is put together from the
transforms of the even and of the odd values, and transforming back with the inverse root
gives `n` times the values.
-/

namespace Fourier

open Finset Polynomial

variable {F : Type*}

section Ring

variable [CommRing F]

def transform (n : Nat) (ω : F) (x : Nat → F) (j : Nat) : F :=
  ∑ t ∈ range n, x t * ω ^ (t * j)

@[simp] theorem transform_one (ω : F) (x : Nat → F) (j : Nat) : transform 1 ω x j = x 0 := by
  simp [transform]

theorem transform_congr {n : Nat} {ω : F} {x y : Nat → F} (h : ∀ t < n, x t = y t) (j : Nat) :
    transform n ω x j = transform n ω y j :=
  sum_congr rfl fun t ht => by rw [h t (mem_range.mp ht)]

theorem sum_range_two_mul (f : Nat → F) (m : Nat) :
    ∑ t ∈ range (2 * m), f t = ∑ t ∈ range m, f (2 * t) + ∑ t ∈ range m, f (2 * t + 1) := by
  induction m with
  | zero => simp
  | succ m ih =>
      have double : 2 * (m + 1) = 2 * m + 1 + 1 := by omega
      rw [double, sum_range_succ, sum_range_succ, ih, sum_range_succ, sum_range_succ]
      ring

/-- The even and the odd values. -/
theorem transform_two_mul (m : Nat) (ω : F) (x : Nat → F) (j : Nat) :
    transform (2 * m) ω x j = transform m (ω ^ 2) (fun t => x (2 * t)) j +
      ω ^ j * transform m (ω ^ 2) (fun t => x (2 * t + 1)) j := by
  rw [transform, sum_range_two_mul, transform, transform, mul_sum]
  congr 1
  · apply sum_congr rfl
    intro t _
    rw [← pow_mul, mul_assoc]
  · apply sum_congr rfl
    intro t _
    have exponent : (2 * t + 1) * j = j + 2 * (t * j) := by ring
    rw [exponent, pow_add, pow_mul, mul_left_comm]

/-- The second half of the transform, where the power of the root is minus one. -/
theorem transform_two_mul_add (m : Nat) {ω : F} (half : ω ^ m = -1) (x : Nat → F) (j : Nat) :
    transform (2 * m) ω x (j + m) = transform m (ω ^ 2) (fun t => x (2 * t)) j -
      ω ^ j * transform m (ω ^ 2) (fun t => x (2 * t + 1)) j := by
  have period : (ω ^ 2) ^ m = 1 := by rw [← pow_mul, mul_comm, pow_mul, half, neg_one_sq]
  have shift : ∀ y : Nat → F, transform m (ω ^ 2) y (j + m) = transform m (ω ^ 2) y j := by
    intro y
    apply sum_congr rfl
    intro t _
    rw [mul_add, pow_add, mul_comm t m, pow_mul (ω ^ 2) m t, period, one_pow, mul_one]
  rw [transform_two_mul, shift, shift, pow_add, half]
  ring

/-- The transform of the coefficients of a polynomial. -/
theorem transform_coeff {n : Nat} {p : F[X]} (degree : p.natDegree < n) (ω : F) (j : Nat) :
    transform n ω p.coeff j = p.eval (ω ^ j) := by
  rw [eval_eq_sum_range' degree, transform]
  apply sum_congr rfl
  intro t _
  rw [← pow_mul, mul_comm j t]

end Ring

section Field

variable [Field F]

/-- The order is a power of two if half the power is minus one. -/
theorem isPrimitiveRoot_two_pow {ω : F} {n : Nat} (half : ω ^ 2 ^ n = -1) (apart : (-1 : F) ≠ 1) :
    IsPrimitiveRoot ω (2 ^ (n + 1)) := by
  have order : orderOf ω = 2 ^ (n + 1) := by
    apply orderOf_eq_prime_pow
    · rw [half]
      exact apart
    · rw [pow_succ, pow_mul, half, neg_one_sq]
  rw [← order]
  exact IsPrimitiveRoot.orderOf ω

/-- The powers of a primitive root cancel. -/
theorem sum_pow_eq_zero {n : Nat} {ω : F} (primitive : IsPrimitiveRoot ω n) {s t : Nat}
    (hs : s < n) (ht : t < n) (apart : s ≠ t) :
    ∑ j ∈ range n, ω ^ (s * j) * ω⁻¹ ^ (j * t) = 0 := by
  have nonzero : ω ≠ 0 := primitive.ne_zero (by omega)
  have ratio : ω ^ s * ω⁻¹ ^ t ≠ 1 := by
    intro one
    apply apart
    apply primitive.pow_inj hs ht
    rw [inv_pow, ← div_eq_mul_inv, div_eq_one_iff_eq (pow_ne_zero t nonzero)] at one
    exact one
  have terms : ∀ j, ω ^ (s * j) * ω⁻¹ ^ (j * t) = (ω ^ s * ω⁻¹ ^ t) ^ j := by
    intro j
    rw [mul_pow, ← pow_mul, ← pow_mul, mul_comm j t]
  have whole : (ω ^ s * ω⁻¹ ^ t) ^ n = 1 := by
    rw [mul_pow, ← pow_mul, ← pow_mul, mul_comm s n, mul_comm t n, pow_mul, pow_mul ω⁻¹, inv_pow,
      primitive.pow_eq_one]
    simp
  simp only [terms]
  rw [geom_sum_eq ratio, whole, sub_self, zero_div]

/-- Transforming back. -/
theorem transform_transform {n : Nat} {ω : F} (primitive : IsPrimitiveRoot ω n) (x : Nat → F)
    {t : Nat} (ht : t < n) : transform n ω⁻¹ (transform n ω x) t = n * x t := by
  have nonzero : ω ≠ 0 := primitive.ne_zero (by omega)
  have swap : transform n ω⁻¹ (transform n ω x) t =
      ∑ s ∈ range n, x s * ∑ j ∈ range n, ω ^ (s * j) * ω⁻¹ ^ (j * t) := by
    simp only [transform, sum_mul, mul_sum]
    rw [sum_comm]
    simp only [mul_assoc]
  have own : ∑ j ∈ range n, ω ^ (t * j) * ω⁻¹ ^ (j * t) = n := by
    have one : ∀ j, ω ^ (t * j) * ω⁻¹ ^ (j * t) = 1 := by
      intro j
      rw [mul_comm j t, ← mul_pow, mul_inv_cancel₀ nonzero, one_pow]
    rw [sum_congr rfl fun j _ => one j]
    simp
  rw [swap, sum_eq_single t, own, mul_comm]
  · intro s hs apart
    rw [sum_pow_eq_zero primitive (mem_range.mp hs) ht apart, mul_zero]
  · intro outside
    exact absurd (mem_range.mpr ht) outside

/-- The values of a polynomial at the powers of the root give its coefficients. -/
theorem transform_eval {n : Nat} {ω : F} (primitive : IsPrimitiveRoot ω n) {p : F[X]}
    (degree : p.natDegree < n) {t : Nat} (ht : t < n) :
    transform n ω⁻¹ (fun j => p.eval (ω ^ j)) t = n * p.coeff t := by
  rw [← transform_transform primitive p.coeff ht]
  exact transform_congr (fun j _ => (transform_coeff degree ω j).symm) t

end Field

end Fourier
