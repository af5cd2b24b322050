import NilAutotest.Arithmetic.Primality
import Mathlib.Tactic.NormNum.Prime

/-!
# The field of the circuit

The modulus of the circuit parameters is prime, so the gates are polynomials over a field.
The primes before it are the large factors that Lucas's test goes through.
-/

namespace GateArgument

open Arithmetic

/-- `modulus` in `circuit_params.json`. -/
def circuitModulus : Nat :=
  28948022309329048855892746252171976963363056481941560715954676764349967630337

theorem prime_325086459374267 : Nat.Prime 325086459374267 := by
  apply prime_of_factors 2 [2, 509, 413527, 772231] (by decide) _ (by decide)
    (by decide +kernel) (by decide +kernel)
  simp only [List.forall_mem_cons]
  norm_num

theorem prime_22160661629 : Nat.Prime 22160661629 := by
  apply prime_of_factors 3 [2, 2, 7, 19, 41655379] (by decide) _ (by decide)
    (by decide +kernel) (by decide +kernel)
  simp only [List.forall_mem_cons]
  norm_num

theorem prime_8999194758858563409123804352480028797519453 :
    Nat.Prime 8999194758858563409123804352480028797519453 := by
  apply prime_of_factors 2 [2, 2, 3, 3, 3, 3, 11, 2531, 115603, 1197907, 22160661629,
    325086459374267] (by decide) _ (by decide) (by decide +kernel) (by decide +kernel)
  simp only [List.forall_mem_cons, prime_22160661629, prime_325086459374267]
  norm_num

theorem prime_417677162933 : Nat.Prime 417677162933 := by
  apply prime_of_factors 2 [2, 2, 59, 1973, 897019] (by decide) _ (by decide)
    (by decide +kernel) (by decide +kernel)
  simp only [List.forall_mem_cons]
  norm_num

theorem prime_539204044132271846773 : Nat.Prime 539204044132271846773 := by
  apply prime_of_factors 5 [2, 2, 3, 3, 3, 3, 3, 89, 14923, 417677162933] (by decide) _ (by decide)
    (by decide +kernel) (by decide +kernel)
  simp only [List.forall_mem_cons, prime_417677162933]
  norm_num

theorem circuitModulus_prime : circuitModulus.Prime := by
  apply prime_of_factors 5 (List.replicate 32 2 ++ [3, 463, 539204044132271846773,
    8999194758858563409123804352480028797519453]) (by decide +kernel) _ (by decide +kernel)
    (by decide +kernel) (by decide +kernel)
  rw [List.forall_mem_append]
  constructor
  · intro q hq
    rw [List.eq_of_mem_replicate hq]
    exact Nat.prime_two
  · simp only [List.forall_mem_cons, prime_539204044132271846773,
      prime_8999194758858563409123804352480028797519453]
    norm_num

instance : Fact circuitModulus.Prime := ⟨circuitModulus_prime⟩

end GateArgument
