import NilAutotest.Domain.Radix2
import NilAutotest.GateArgument.Modulus
import Mathlib.Data.Nat.Log
import Mathlib.Data.Nat.Bitwise

/-!
# Evaluation domains

The domain of `2 ^ k` elements are the powers of a root of unity, which is a power of the
one that the field's parameters name. With these roots the transform evaluates a polynomial
on the domain, and the transform back interpolates it.
-/

namespace Domain

open Fourier Polynomial

/-- `power_of_two`, which smears the highest bit of `n - 1` over all lower ones. -/
def powerOfTwo (n : Nat) : Nat :=
  let n := n - 1
  let n := n ||| n >>> 1
  let n := n ||| n >>> 2
  let n := n ||| n >>> 4
  let n := n ||| n >>> 8
  let n := n ||| n >>> 16
  n + 1

section PowerOfTwo

theorem testBit_smear (n k w i : Nat) (h : ∀ i, n.testBit i = true ↔ ∃ j < w, k.testBit (i + j)) :
    (n ||| n >>> w).testBit i = true ↔ ∃ j < 2 * w, k.testBit (i + j) := by
  rw [Nat.testBit_or, Nat.testBit_shiftRight, Bool.or_eq_true, h, h]
  constructor
  · rintro (⟨j, hj, bit⟩ | ⟨j, hj, bit⟩)
    · exact ⟨j, by omega, bit⟩
    · exact ⟨w + j, by omega, by rwa [← Nat.add_assoc, Nat.add_comm i w]⟩
  · rintro ⟨j, hj, bit⟩
    by_cases near : j < w
    · exact .inl ⟨j, near, bit⟩
    · refine .inr ⟨j - w, by omega, ?_⟩
      have index : w + i + (j - w) = i + j := by omega
      rwa [index]

/-- The least power of two that is at least `n`. -/
theorem powerOfTwo_eq {n : Nat} (positive : 0 < n) (small : n ≤ 2 ^ 32) :
    powerOfTwo n = 2 ^ Nat.clog 2 n := by
  let k := n - 1
  have smeared : ∀ i, (powerOfTwo n - 1).testBit i = true ↔ ∃ j < 32, k.testBit (i + j) := by
    have zero : ∀ i, k.testBit i = true ↔ ∃ j < 1, k.testBit (i + j) := by simp
    have one := fun i => testBit_smear _ _ 1 i zero
    have two := fun i => testBit_smear _ _ 2 i one
    have three := fun i => testBit_smear _ _ 4 i two
    have four := fun i => testBit_smear _ _ 8 i three
    exact fun i => testBit_smear _ _ 16 i four
  have bits : powerOfTwo n - 1 = 2 ^ Nat.clog 2 n - 1 := by
    apply Nat.eq_of_testBit_eq
    intro i
    rw [Bool.eq_iff_iff, smeared, Nat.testBit_two_pow_sub_one, decide_eq_true_iff,
      ← Nat.not_le, Nat.clog_le_iff_le_pow (by decide)]
    have below : k < 2 ^ 32 := by omega
    constructor
    · rintro ⟨j, -, bit⟩
      have high := Nat.ge_two_pow_of_testBit bit
      have mono : 2 ^ i ≤ 2 ^ (i + j) := Nat.pow_le_pow_right (by decide) (by omega)
      omega
    · intro large
      obtain ⟨b, hb, bit⟩ := Nat.exists_ge_and_testBit_of_ge_two_pow (show k ≥ 2 ^ i by omega)
      have top : b < 32 := by
        by_contra high
        have := Nat.ge_two_pow_of_testBit bit
        have : 2 ^ 32 ≤ 2 ^ b := Nat.pow_le_pow_right (by decide) (by omega)
        omega
      exact ⟨b - i, by omega, by rwa [Nat.add_sub_cancel' hb]⟩
  have := Nat.two_pow_pos (Nat.clog 2 n)
  have top : powerOfTwo n = powerOfTwo n - 1 + 1 := rfl
  omega

end PowerOfTwo

/-! ## Domains -/

/-- `arithmetic_params` of a field: a root of unity whose order is the largest power of two that the
source counts on. That it has this order is a field here. -/
structure ArithmeticParams (F : Type*) [Field F] where
  s : Nat
  rootOfUnity : F
  primitive : IsPrimitiveRoot rootOfUnity (2 ^ s)

section Domains

variable {F : Type*} [Field F] (P : ArithmeticParams F)

/-- `unity_root` -/
def unityRoot (n : Nat) : Option F :=
  let logn := Nat.clog 2 n
  if n = 2 ^ logn ∧ logn < 32 ∧ logn ≤ P.s then
    some ((List.range (P.s - logn)).foldl (fun omega _ => omega * omega) P.rootOfUnity)
  else none

/-- The generator of a `basic_radix2_domain`. There is none for a size of one, nor for one that is
larger than the order of the root. -/
def makeEvaluationDomain (m : Nat) : Option F := if 1 < m then unityRoot P m else none

/-- The transform back; the domain has the size of the vector. -/
def inverseFft (a : List F) (omega : F) : Option (List F) := do
  let a ← basicRadix2Fft a omega⁻¹
  let sconst := (a.length : F)⁻¹
  pure (a.map (· * sconst))

/-- The root of unity of order `2 ^ k`. -/
def ArithmeticParams.root (k : Nat) : F := P.rootOfUnity ^ 2 ^ (P.s - k)

/-- The sizes for which there are domains. The transform shifts a one of thirty-two bits by the
logarithm of the size, so that has to be below thirty-two. -/
def ArithmeticParams.Admits (k : Nat) : Prop := k < 32 ∧ k ≤ P.s

instance (k : Nat) : Decidable (P.Admits k) := inferInstanceAs (Decidable (_ ∧ _))

variable {P}

theorem ArithmeticParams.Admits.mono {k l : Nat} (h : P.Admits l) (less : k ≤ l) : P.Admits k :=
  ⟨less.trans_lt h.1, less.trans h.2⟩

theorem primitive_root {k : Nat} (hk : k ≤ P.s) : IsPrimitiveRoot (P.root k) (2 ^ k) := by
  apply P.primitive.pow (Nat.two_pow_pos _)
  rw [← pow_add, Nat.sub_add_cancel hk]

/-- The exponents of a root count modulo every multiple of its order. -/
theorem root_zpow_emod {n w : Nat} (hn : P.Admits n) (order : 2 ^ n ∣ w)
    (a : Int) :
    P.root n ^ (a % w) = P.root n ^ a := by
  have nonzero : P.root n ≠ 0 := (primitive_root hn.2).ne_zero (Nat.two_pow_pos n).ne'
  have whole : P.root n ^ (w : Int) = 1 := by
    obtain ⟨c, rfl⟩ := order
    rw [zpow_natCast, pow_mul, (primitive_root hn.2).pow_eq_one, one_pow]
  rw [Int.emod_def, zpow_sub₀ nonzero, zpow_mul, whole, one_zpow, div_one]

theorem root_pow {k d : Nat} (hk : k + d ≤ P.s) : P.root (k + d) ^ 2 ^ d = P.root k := by
  rw [ArithmeticParams.root, ArithmeticParams.root, ← pow_mul, ← pow_add]
  congr 2
  omega

theorem root_one (order : 1 ≤ P.s) : P.root 1 = -1 :=
  (primitive_root order).eq_neg_one_of_two_right

theorem unityRoot_eq {k : Nat} (hk : P.Admits k) : unityRoot P (2 ^ k) = some (P.root k) := by
  have squares : ∀ (x : F) (n : Nat),
      (List.range n).foldl (fun omega _ => omega * omega) x = x ^ 2 ^ n := by
    intro x n
    induction n with
    | zero => simp
    | succ n ih =>
        rw [List.range_succ, List.foldl_append, List.foldl_cons, List.foldl_nil, ih, ← pow_add,
          pow_succ, mul_two]
  have log : Nat.clog 2 (2 ^ k) = k := Nat.clog_pow 2 k (by decide)
  rw [unityRoot, log, squares]
  exact if_pos ⟨rfl, hk⟩

theorem makeEvaluationDomain_eq {k : Nat} (hk : P.Admits k) (positive : 0 < k) :
    makeEvaluationDomain P (2 ^ k) = some (P.root k) := by
  rw [makeEvaluationDomain, if_pos (Nat.one_lt_two_pow positive.ne'), unityRoot_eq hk]

theorem get_map (f : F → F) {a : List F} {i : Nat} (hi : i < a.length) :
    get (a.map f) i = f (get a i) := by
  simp [get, hi]

/-- Interpolation: the transform back of the values of a polynomial. -/
theorem inverseFft_eq {k : Nat} (hk : P.Admits k) {a : List F} (size : a.length = 2 ^ k) {p : F[X]}
    (degree : p.natDegree < 2 ^ k) (values : ∀ i < 2 ^ k, get a i = p.eval (P.root k ^ i)) :
    ∃ b, inverseFft a (P.root k) = some b ∧ b.length = 2 ^ k ∧
      ∀ i < 2 ^ k, get b i = p.coeff i := by
  have primitive := primitive_root hk.2
  obtain ⟨b, computed, length, transformed⟩ := basicRadix2Fft_eq size hk.1 primitive.inv
  have nonzero : ((2 ^ k : Nat) : F) ≠ 0 := by
    have : NeZero (2 ^ k) := ⟨(Nat.two_pow_pos k).ne'⟩
    exact primitive.neZero'.out
  refine ⟨b.map (· * (b.length : F)⁻¹), ?_, by rw [List.length_map, length], fun i hi => ?_⟩
  · rw [inverseFft, computed]
    rfl
  · have coefficient : transform (2 ^ k) (P.root k)⁻¹ (get a) i = (2 ^ k : Nat) * p.coeff i := by
      rw [transform_congr values, transform_eval primitive degree hi]
    rw [get_map _ (by rwa [length]), transformed i hi, coefficient, length]
    field_simp

/-- Evaluation: the transform of the coefficients of a polynomial. -/
theorem fft_eq {k : Nat} (hk : P.Admits k) {a : List F} (size : a.length = 2 ^ k) {p : F[X]}
    (degree : p.natDegree < 2 ^ k) (coefficients : ∀ i < 2 ^ k, get a i = p.coeff i) :
    ∃ b, basicRadix2Fft a (P.root k) = some b ∧ b.length = 2 ^ k ∧
      ∀ i < 2 ^ k, get b i = p.eval (P.root k ^ i) := by
  obtain ⟨b, computed, length, transformed⟩ := basicRadix2Fft_eq size hk.1 (primitive_root hk.2)
  refine ⟨b, computed, length, fun i hi => ?_⟩
  rw [transformed i hi, transform_congr coefficients, transform_coeff degree]

end Domains

/-! ## The field of the circuit -/

section Pallas

open Arithmetic GateArgument

/-- `arithmetic_params<pallas_base_field>` -/
def pallasBaseField : ArithmeticParams (ZMod circuitModulus) where
  s := 32
  rootOfUnity := (0x1ea14637cbe1870c65d520c6cd47d259883000713dc3c2a1adf8b071592f247a : Nat)
  primitive := by
    have half : powMod circuitModulus
        0x1ea14637cbe1870c65d520c6cd47d259883000713dc3c2a1adf8b071592f247a (2 ^ 31) + 1 =
          circuitModulus := by decide +kernel
    apply isPrimitiveRoot_two_pow (n := 31)
    · rw [natCast_pow_eq, eq_neg_iff_add_eq_zero, ← Nat.cast_one, ← Nat.cast_add, half,
        ZMod.natCast_self]
    · have : Fact (2 < circuitModulus) := ⟨by decide⟩
      exact ZMod.neg_one_ne_one

end Pallas

end Domain
