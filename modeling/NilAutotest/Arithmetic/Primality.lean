import Mathlib.Data.List.Prime
import Mathlib.NumberTheory.LucasPrimality

/-!
# Primes by Lucas's test

A number `p` is prime if some `a` has order exactly `p - 1` modulo `p`, which is tested
with the prime factors of `p - 1`. The powers are computed by repeated squaring, so that
the test is evaluated by the kernel also for large numbers.
-/

namespace Arithmetic

/-- Repeated squaring, from the least significant digit of the exponent on. -/
def squareAndMultiply (m : Nat) : (fuel base exponent acc : Nat) → Nat
  | 0, _, _, acc => acc
  | fuel + 1, base, exponent, acc =>
      squareAndMultiply m fuel (base * base % m) (exponent / 2)
        (if exponent % 2 = 1 then acc * base % m else acc)

/-- A power modulo `m`. -/
def powMod (m a n : Nat) : Nat := squareAndMultiply m (n.log2 + 1) a n 1 % m

theorem squareAndMultiply_modEq (m : Nat) {fuel exponent : Nat} (base acc : Nat)
    (h : exponent < 2 ^ fuel) :
    squareAndMultiply m fuel base exponent acc ≡ acc * base ^ exponent [MOD m] := by
  induction fuel generalizing base exponent acc with
  | zero =>
      obtain rfl : exponent = 0 := by simpa using h
      simpa [squareAndMultiply] using Nat.ModEq.refl acc
  | succ fuel ih =>
      have half : exponent / 2 < 2 ^ fuel := by omega
      have square : (base * base % m) ^ (exponent / 2) ≡ base ^ (2 * (exponent / 2)) [MOD m] := by
        rw [pow_mul, pow_two]
        exact (Nat.mod_modEq _ _).pow _
      have digit := Nat.div_add_mod exponent 2
      rw [squareAndMultiply]
      refine (ih _ _ half).trans ?_
      obtain even | odd := Nat.mod_two_eq_zero_or_one exponent
      · rw [if_neg (by omega)]
        have split : 2 * (exponent / 2) = exponent := by omega
        rw [split] at square
        exact square.mul_left acc
      · rw [if_pos odd]
        have split : base ^ exponent = base * base ^ (2 * (exponent / 2)) := by
          rw [← pow_succ', ← digit, odd]
          congr 1
          omega
        rw [split, ← mul_assoc]
        exact ((Nat.mod_modEq _ _).mul square)

theorem powMod_eq (m a n : Nat) : powMod m a n = a ^ n % m := by
  have exact := squareAndMultiply_modEq m a 1 (Nat.lt_log2_self (n := n))
  rwa [one_mul] at exact

theorem natCast_pow_eq (m a n : Nat) : (a : ZMod m) ^ n = powMod m a n := by
  rw [powMod_eq, ZMod.natCast_mod, Nat.cast_pow]

/-- Lucas's test with the factors of `p - 1`. -/
theorem prime_of_factors {p : Nat} (a : Nat) (factors : List Nat) (large : 1 < p)
    (primes : ∀ q ∈ factors, q.Prime) (product : factors.prod = p - 1)
    (one : powMod p a (p - 1) = 1) (order : ∀ q ∈ factors, powMod p a ((p - 1) / q) ≠ 1) :
    p.Prime := by
  have power : ∀ n, ((a : ZMod p) ^ n = 1 ↔ powMod p a n = 1) := by
    intro n
    rw [powMod_eq, ← Nat.cast_pow, ← Nat.cast_one, ZMod.natCast_eq_natCast_iff',
      Nat.mod_eq_of_lt large]
  apply lucas_primality p (a : ZMod p)
  · exact (power _).mpr one
  · intro q prime divides
    rw [← product] at divides
    obtain ⟨q', member, divides⟩ := (Prime.dvd_prod_iff prime.prime).mp divides
    obtain rfl := (Nat.prime_dvd_prime_iff_eq prime (primes q' member)).mp divides
    exact (power _).not.mpr (order q member)

end Arithmetic
