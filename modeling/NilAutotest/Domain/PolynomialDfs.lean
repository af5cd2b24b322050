import NilAutotest.Domain.EvaluationDomain
import Mathlib.LinearAlgebra.Lagrange
import Mathlib.Tactic.LinearCombination

/-!
# Polynomials by their values

`polynomial_dfs` holds a polynomial by its values at the powers of a root of unity, with a
bound on its degree. The number of values is a power of two; when an operation needs more
values, the polynomial is interpolated and evaluated again at the powers of a finer root.
`Represents` says which polynomial is held, and every operation is shown to compute the
operation of the same name on polynomials, as long as the domain that it needs exists. The
exception is `operator-=`, which exchanges its operands when the other one is resized.
-/

namespace Domain

open Fourier Polynomial

/-! ## The operations -/

/-- `polynomial_dfs`: a bound on the degree and the values. The bound is kept by hand and may be
larger than the degree; it decides how many values the next product is given. -/
structure PolynomialDfs (F : Type*) where
  d : Nat
  val : List F

namespace PolynomialDfs

section Vector

variable {F : Type*}

/-- `std::vector::resize` -/
def vectorResize (a : List F) (n : Nat) (x : F) : List F :=
  a.take n ++ List.replicate (n - a.length) x

@[simp] theorem length_vectorResize (a : List F) (n : Nat) (x : F) :
    (vectorResize a n x).length = n := by
  rw [vectorResize, List.length_append, List.length_take, List.length_replicate]
  omega

end Vector

variable {F : Type*} [Field F] (P : ArithmeticParams F)

def size (f : PolynomialDfs F) : Nat := f.val.length

/-- A constant, `polynomial_dfs(0, n, x)` -/
def constant (n : Nat) (x : F) : PolynomialDfs F := ⟨0, List.replicate n x⟩

/-- `resize`: interpolation and evaluation at a finer root; one value is repeated. There is no
result where the size has no radix-two domain. -/
def resize (f : PolynomialDfs F) (sz : Nat) : Option (PolynomialDfs F) :=
  if f.size = 1 then some { f with val := vectorResize f.val sz (get f.val 0) }
  else do
    let omega ← makeEvaluationDomain P f.size
    let coefficients ← inverseFft f.val omega
    let omega ← makeEvaluationDomain P sz
    let val ← basicRadix2Fft (vectorResize coefficients sz 0) omega
    pure { f with val := val }

/-- The operand is resized if it has fewer values. -/
def grow (f : PolynomialDfs F) (sz : Nat) : Option (PolynomialDfs F) :=
  if f.size < sz then resize P f sz else some f

/-- The values are combined once both operands have as many as the larger one. -/
def pointwise (op : F → F → F) (f g : PolynomialDfs F) : Option (PolynomialDfs F) := do
  let a ← grow P f g.size
  let b ← grow P g f.size
  pure ⟨max f.d g.d, List.zipWith op a.val b.val⟩

/-- `operator+` and `operator+=` -/
def add (f g : PolynomialDfs F) : Option (PolynomialDfs F) := pointwise P (· + ·) f g

/-- `operator-` -/
def sub (f g : PolynomialDfs F) : Option (PolynomialDfs F) := pointwise P (· - ·) f g

/-- `operator-=`; where the other operand was resized, it is the first one of the difference. The
branch for this calls `std::transform` with the copy first, as `operator+=` and `operator*=` do,
but a difference is not symmetric. -/
def subAssign (f g : PolynomialDfs F) : Option (PolynomialDfs F) :=
  if g.size < f.size then pointwise P (fun x y => y - x) f g else pointwise P (· - ·) f g

/-- The product of the values once there are enough of them for a given degree. -/
def product (degree : Nat) (f g : PolynomialDfs F) : Option (PolynomialDfs F) := do
  let polynomialS := powerOfTwo (max (max f.size g.size) (degree + 1))
  let a ← grow P f polynomialS
  let b ← grow P g polynomialS
  pure ⟨f.d + g.d, List.zipWith (· * ·) a.val b.val⟩

/-- `operator*` -/
def mul (f g : PolynomialDfs F) : Option (PolynomialDfs F) := product P (f.d + g.d) f g

/-- `operator*=`; the degree is that of the product before the other one is added to it, so the
product has room for the degree of the other operand once more than it needs. -/
def mulAssign (f g : PolynomialDfs F) : Option (PolynomialDfs F) :=
  product P (f.d + g.d + g.d) f g

/-- `r *= r`, where the degree of the other operand is that of the product too. -/
def square (f : PolynomialDfs F) : Option (PolynomialDfs F) :=
  product P (f.d + f.d + (f.d + f.d)) f f

/-- `pow`, by squaring; the recursion does not end for a power of zero, so there is no result. -/
def pow (f : PolynomialDfs F) : Nat → Option (PolynomialDfs F)
  | 0 => none
  | 1 => some f
  | power + 2 => do
      let half := (power + 2) / 2
      let r ← pow f half
      let r ← square P r
      if power + 2 ≠ half + half then mulAssign P r f else pure r

/-- `operator*` with a value of the field -/
def scale (f : PolynomialDfs F) (x : F) : PolynomialDfs F := { f with val := f.val.map (· * x) }

/-- `operator+` with a value of the field -/
def addValue (f : PolynomialDfs F) (x : F) : PolynomialDfs F :=
  { f with val := f.val.map (· + x) }

/-- `operator-` of a value of the field -/
def valueSub (x : F) (f : PolynomialDfs F) : PolynomialDfs F :=
  { f with val := f.val.map (x - ·) }

/-- `polynomial_shift`: a rotation by rows of a domain that the values may be a multiple of. The
index is computed with sixty-four bits, where a negative shift wraps around; the sizes are powers
of two, so the remainder is the same. -/
def polynomialShift (f : PolynomialDfs F) (shift : Int) (domainSize : Nat) :
    Option (PolynomialDfs F) :=
  let domainSize := if domainSize = 0 then f.size else domainSize
  if f.size % domainSize = 0 then
    let domainScale := f.size / domainSize
    let position (index : Nat) : Int := (f.size + index + domainScale * shift) % 2 ^ 64 % f.size
    some { f with val := (List.range f.size).map fun index => get f.val (position index).toNat }
  else none

/-- The loop of `coefficients` over the leading zeros. -/
def trimmed [DecidableEq F] (tmp : List F) : Nat → Nat
  | 0 => 0
  | 1 => 1
  | r + 2 => if get tmp (r + 1) = 0 then trimmed tmp (r + 1) else r + 2

/-- `coefficients` -/
def coefficients [DecidableEq F] (f : PolynomialDfs F) : Option (List F) := do
  let omega ← unityRoot P f.size
  let tmp ← inverseFft f.val omega
  pure (vectorResize tmp (trimmed tmp tmp.length) 0)

/-- `evaluate` -/
def evaluate [DecidableEq F] (f : PolynomialDfs F) (value : F) : Option F := do
  let tmp ← coefficients P f
  pure (tmp.foldr (fun coefficient result => result * value + coefficient) 0)

/-! ## What is represented -/

/-- The degree and the number of values, without the values. -/
structure Shape where
  d : Nat
  k : Nat

namespace Shape

def add (s t : Shape) : Shape := ⟨max s.d t.d, max s.k t.k⟩

def product (degree : Nat) (s t : Shape) : Shape :=
  ⟨s.d + t.d, max (max s.k t.k) (Nat.clog 2 (degree + 1))⟩

def mul (s t : Shape) : Shape := product (s.d + t.d) s t

def mulAssign (s t : Shape) : Shape := product (s.d + t.d + t.d) s t

def square (s : Shape) : Shape := product (s.d + s.d + (s.d + s.d)) s s

def pow (s : Shape) : Nat → Shape
  | 0 => s
  | 1 => s
  | power + 2 =>
      let half := (power + 2) / 2
      let r := square (pow s half)
      if power + 2 ≠ half + half then mulAssign r s else r

end Shape

/-- The values are those of a polynomial at the powers of the root, and the bound on its degree
holds. The shape is known, and its number of values has a domain and room for the degree. -/
structure Represents (f : PolynomialDfs F) (s : Shape) (p : F[X]) : Prop where
  admits : P.Admits s.k
  d : f.d = s.d
  length : f.val.length = 2 ^ s.k
  degree : p.natDegree ≤ s.d
  room : s.d < 2 ^ s.k
  values : ∀ i < 2 ^ s.k, get f.val i = p.eval (P.root s.k ^ i)

variable {P} {f g : PolynomialDfs F} {s t : Shape} {p q : F[X]}

theorem get_eq_zero {a : List F} {i : Nat} (outside : a.length ≤ i) : get a i = 0 := by
  rw [get, List.getD_eq_default _ _ outside]

theorem get_vectorResize (a : List F) {n : Nat} (x : F) {i : Nat} (hi : i < n) :
    get (vectorResize a n x) i = if i < a.length then get a i else x := by
  rw [vectorResize, get, List.getD_eq_getElem?_getD, List.getElem?_append, List.length_take]
  by_cases inside : i < a.length
  · rw [if_pos (by omega), if_pos inside, List.getElem?_take_of_lt hi, get,
      List.getD_eq_getElem?_getD]
  · rw [if_neg (by omega), if_neg inside, List.getElem?_replicate_of_lt (by omega),
      Option.getD_some]

theorem get_zipWith (op : F → F → F) {a b : List F} {i : Nat} (ha : i < a.length)
    (hb : i < b.length) : get (List.zipWith op a b) i = op (get a i) (get b i) := by
  simp [get, ha, hb]

theorem get_map_range (value : Nat → F) {n i : Nat} (hi : i < n) :
    get ((List.range n).map value) i = value i := by
  simp [get, hi]

/-- A polynomial with one value is a constant. -/
theorem Represents.eval_of_one (h : Represents P f s p) (one : s.k = 0) (x : F) :
    p.eval x = get f.val 0 := by
  have room := h.room
  have degree := h.degree
  rw [one, pow_zero] at room
  have flat : p.natDegree = 0 := by omega
  rw [h.values 0 (by rw [one]; decide), eq_C_of_natDegree_eq_zero flat, eval_C, eval_C]

theorem Represents.resize (h : Represents P f s p) {l : Nat} (hl : P.Admits l)
    (finer : s.k ≤ l) : ∃ g, resize P f (2 ^ l) = some g ∧ Represents P g ⟨s.d, l⟩ p := by
  have room : s.d < 2 ^ l := h.room.trans_le (Nat.pow_le_pow_right (by decide) finer)
  have degree := h.degree
  rcases Nat.eq_zero_or_pos s.k with one | positive
  · have single : f.size = 1 := by rw [size, h.length, one, pow_zero]
    refine ⟨_, if_pos single, hl, h.d, length_vectorResize _ _ _, degree, room, fun i hi => ?_⟩
    rw [get_vectorResize _ _ hi, h.eval_of_one one]
    split
    · next inside =>
        rw [size] at single
        rw [show i = 0 by omega]
    · rfl
  · have several : f.size ≠ 1 := by
      rw [size, h.length]
      exact (Nat.one_lt_two_pow positive.ne').ne'
    have low : p.natDegree < 2 ^ s.k := h.degree.trans_lt h.room
    obtain ⟨coefficients, interpolated, length, coefficient⟩ :=
      inverseFft_eq h.admits h.length low h.values
    have padded : ∀ i < 2 ^ l, get (vectorResize coefficients (2 ^ l) 0) i = p.coeff i := by
      intro i hi
      rw [get_vectorResize _ _ hi, length]
      split
      · next inside => exact coefficient i inside
      · next outside => rw [coeff_eq_zero_of_natDegree_lt (by omega)]
    obtain ⟨val, evaluated, size', values⟩ :=
      fft_eq hl (length_vectorResize _ _ _) (by omega : p.natDegree < 2 ^ l) padded
    refine ⟨{ f with val := val }, ?_, hl, h.d, size', degree, room, values⟩
    rw [PolynomialDfs.resize, if_neg several, size, h.length,
      makeEvaluationDomain_eq h.admits positive, makeEvaluationDomain_eq hl (by omega)]
    simp only [Option.bind_eq_bind, Option.bind_some, interpolated, evaluated]
    rfl

theorem Represents.grow (h : Represents P f s p) {l : Nat} (hl : P.Admits l) :
    ∃ g, grow P f (2 ^ l) = some g ∧ Represents P g ⟨s.d, max s.k l⟩ p := by
  rw [PolynomialDfs.grow, size, h.length]
  rcases Nat.lt_or_ge s.k l with less | enough
  · rw [if_pos (Nat.pow_lt_pow_right (by decide) less), max_eq_right less.le]
    exact h.resize hl less.le
  · rw [if_neg (Nat.pow_le_pow_right (by decide) enough).not_gt, max_eq_left enough]
    exact ⟨f, rfl, h⟩

/-- Values of two polynomials on one domain, combined. -/
theorem Represents.zipWith {a b d k : Nat} {op : F → F → F} {r : F[X]}
    (h : Represents P f ⟨a, k⟩ p) (h' : Represents P g ⟨b, k⟩ q)
    (eval : ∀ x, r.eval x = op (p.eval x) (q.eval x)) (degree : r.natDegree ≤ d)
    (room : d < 2 ^ k) : Represents P ⟨d, List.zipWith op f.val g.val⟩ ⟨d, k⟩ r := by
  refine ⟨h.admits, rfl, ?_, degree, room, fun i hi => ?_⟩
  · rw [List.length_zipWith, h.length, h'.length, min_self]
  · rw [get_zipWith op (h.length.symm ▸ hi) (h'.length.symm ▸ hi), h.values i hi, h'.values i hi,
      eval]

theorem pow_max (k l : Nat) : 2 ^ max k l = max (2 ^ k) (2 ^ l) :=
  (pow_right_mono₀ (by decide : 1 ≤ 2)).map_max

theorem Represents.pointwise (h : Represents P f s p) (h' : Represents P g t q) {op : F → F → F}
    {r : F[X]} (eval : ∀ x, r.eval x = op (p.eval x) (q.eval x))
    (degree : r.natDegree ≤ max p.natDegree q.natDegree) :
    ∃ e, pointwise P op f g = some e ∧ Represents P e (s.add t) r := by
  obtain ⟨a, resized, ha⟩ := h.grow h'.admits
  obtain ⟨b, resized', hb⟩ := h'.grow h.admits
  rw [max_comm] at hb
  refine ⟨⟨max f.d g.d, List.zipWith op a.val b.val⟩, ?_, ?_⟩
  · rw [PolynomialDfs.pointwise, size, size, h.length, h'.length, resized, resized']
    rfl
  · rw [h.d, h'.d]
    refine ha.zipWith hb eval (degree.trans (max_le_max h.degree h'.degree)) ?_
    rw [pow_max]
    exact max_lt_max h.room h'.room

theorem pointwise_d {op : F → F → F} {r : PolynomialDfs F}
    (h : PolynomialDfs.pointwise P op f g = some r) : r.d = max f.d g.d := by
  simp only [PolynomialDfs.pointwise, Option.bind_eq_bind, Option.bind_eq_some_iff,
    Option.pure_def, Option.some_inj] at h
  obtain ⟨a, -, b, -, rfl⟩ := h
  rfl

theorem mul_d {r : PolynomialDfs F} (h : PolynomialDfs.mul P f g = some r) : r.d = f.d + g.d := by
  simp only [PolynomialDfs.mul, PolynomialDfs.product, Option.bind_eq_bind,
    Option.bind_eq_some_iff, Option.pure_def, Option.some_inj] at h
  obtain ⟨a, -, b, -, rfl⟩ := h
  rfl

theorem Represents.add (h : Represents P f s p) (h' : Represents P g t q) :
    ∃ e, add P f g = some e ∧ Represents P e (s.add t) (p + q) :=
  h.pointwise h' (fun _ => eval_add) (natDegree_add_le p q)

theorem Represents.sub (h : Represents P f s p) (h' : Represents P g t q) :
    ∃ e, sub P f g = some e ∧ Represents P e (s.add t) (p - q) :=
  h.pointwise h' (fun x => eval_sub p q x) (natDegree_sub_le p q)

/-- The difference, the other way round where the first operand has more values. -/
theorem Represents.subAssign (h : Represents P f s p) (h' : Represents P g t q) :
    ∃ e, subAssign P f g = some e ∧
      Represents P e (s.add t) (if t.k < s.k then q - p else p - q) := by
  have sizes : g.size < f.size ↔ t.k < s.k := by
    rw [size, size, h.length, h'.length, Nat.pow_lt_pow_iff_right (by decide)]
  by_cases larger : t.k < s.k
  · rw [PolynomialDfs.subAssign, if_pos (sizes.mpr larger), if_pos larger]
    exact h.pointwise h' (fun x => eval_sub q p x) (max_comm q.natDegree _ ▸ natDegree_sub_le q p)
  · rw [PolynomialDfs.subAssign, if_neg (mt sizes.mp larger), if_neg larger]
    exact h.sub h'

/-- The values determine the polynomial. -/
theorem Represents.unique (h : Represents P f s p) (h' : Represents P f s q) : p = q := by
  have low : p.natDegree < 2 ^ s.k := h.degree.trans_lt h.room
  have low' : q.natDegree < 2 ^ s.k := h'.degree.trans_lt h'.room
  obtain ⟨b, interpolated, -, coefficient⟩ := inverseFft_eq h.admits h.length low h.values
  obtain ⟨b', interpolated', -, coefficient'⟩ := inverseFft_eq h.admits h.length low' h'.values
  obtain rfl : b = b' := Option.some_injective _ (interpolated.symm.trans interpolated')
  ext i
  by_cases hi : i < 2 ^ s.k
  · rw [← coefficient i hi, coefficient' i hi]
  · rw [coeff_eq_zero_of_natDegree_lt (by omega), coeff_eq_zero_of_natDegree_lt (by omega)]

/-- Any values are those of a polynomial. -/
theorem exists_represents {n : Nat} (hn : P.Admits n) (d : f.d = 2 ^ n - 1)
    (size : f.size = 2 ^ n) : ∃ p, Represents P f ⟨2 ^ n - 1, n⟩ p := by
  have positive := Nat.two_pow_pos n
  have nodes : Set.InjOn (fun i => P.root n ^ i) (Finset.range (2 ^ n)) := by
    intro i hi j hj equal
    exact (primitive_root hn.2).pow_inj (Finset.mem_range.mp hi) (Finset.mem_range.mp hj) equal
  let p := Lagrange.interpolate (Finset.range (2 ^ n)) (fun i => P.root n ^ i) (get f.val)
  have degree : p.natDegree ≤ 2 ^ n - 1 := by
    have less := Lagrange.degree_interpolate_lt (get f.val) nodes
    rw [Finset.card_range, degree_lt_iff_coeff_zero] at less
    rw [natDegree_le_iff_coeff_eq_zero]
    intro i hi
    exact less i (Nat.le_of_pred_lt hi)
  refine ⟨p, hn, d, size, degree, by dsimp only; omega, fun i hi => ?_⟩
  exact (Lagrange.eval_interpolate_at_node (get f.val) nodes (Finset.mem_range.mpr hi)).symm

theorem two_ne_zero_of_order (order : 1 ≤ P.s) : (2 : F) ≠ 0 := by
  intro zero
  have apart : P.root 1 ≠ 1 := (primitive_root order).ne_one (by decide)
  apply apart
  rw [root_one order]
  linear_combination -zero

/-- `operator-=` computes the difference unless the operand that is assigned to has more
values than the other one and another value. With more values it computes the difference the
other way round, and a difference is its own negative only if it is zero. -/
theorem subAssign_represents_iff (h : Represents P f s p) (h' : Represents P g t q) :
    (∃ e, PolynomialDfs.subAssign P f g = some e ∧ Represents P e (s.add t) (p - q)) ↔
      f.size ≤ g.size ∨ p = q := by
  have sizes : f.size ≤ g.size ↔ ¬ t.k < s.k := by
    rw [size, size, h.length, h'.length, Nat.pow_le_pow_iff_right (by decide), not_lt]
  obtain ⟨e, computed, he⟩ := h.subAssign h'
  rw [sizes]
  by_cases larger : t.k < s.k
  · rw [if_pos larger] at he
    constructor
    · rintro ⟨e', computed', he'⟩
      obtain rfl : e = e' := Option.some_injective _ (computed.symm.trans computed')
      have both : q - p = p - q := he.unique he'
      have double : C (2 : F) * (p - q) = 0 := by
        rw [C_ofNat]
        linear_combination -both
      have two := two_ne_zero_of_order (Nat.one_le_of_lt (larger.trans_le h.admits.2))
      right
      exact sub_eq_zero.mp ((mul_eq_zero.mp double).resolve_left (C_ne_zero.mpr two))
    · rintro (equal | rfl)
      · exact absurd larger equal
      · exact ⟨e, computed, he⟩
  · rw [if_neg larger] at he
    exact iff_of_true ⟨e, computed, he⟩ (.inl larger)

/-- The polynomial `X` by its values on two rows. -/
theorem linear_represents : Represents pallasBaseField ⟨1, [1, -1]⟩ ⟨1, 1⟩ X := by
  refine ⟨by decide, rfl, rfl, natDegree_X_le, by decide, fun i hi => ?_⟩
  obtain rfl | rfl : i = 0 ∨ i = 1 := by
    have bound : i < 2 := hi
    omega
  · simp [get]
  · rw [eval_X, root_one (by decide), pow_one]
    rfl

/-- The polynomial `X` with two values and the constant five with one. -/
theorem subAssign_represents_iff_linear :
    (∃ e, PolynomialDfs.subAssign pallasBaseField ⟨1, [1, -1]⟩ ⟨0, [5]⟩ = some e ∧
      Represents pallasBaseField e (Shape.add ⟨1, 1⟩ ⟨0, 0⟩) (X - C 5)) ↔
        2 ≤ 1 ∨ (X : (ZMod GateArgument.circuitModulus)[X]) = C 5 := by
  have constant : Represents pallasBaseField ⟨0, [5]⟩ ⟨0, 0⟩ (C 5) := by
    refine ⟨by decide, rfl, rfl, (natDegree_C 5).le, by decide, fun i hi => ?_⟩
    obtain rfl : i = 0 := Nat.lt_one_iff.mp hi
    simp [get]
  exact subAssign_represents_iff linear_represents constant

theorem Represents.product (h : Represents P f s p) (h' : Represents P g t q) {degree : Nat}
    (enough : s.d + t.d ≤ degree) (admits : P.Admits (Shape.product degree s t).k) :
    ∃ e, product P degree f g = some e ∧ Represents P e (Shape.product degree s t) (p * q) := by
  obtain ⟨l, hl⟩ : ∃ l, l = (Shape.product degree s t).k := ⟨_, rfl⟩
  have count : powerOfTwo (max (max f.size g.size) (degree + 1)) = 2 ^ l := by
    have log : Nat.clog 2 (max (max (2 ^ s.k) (2 ^ t.k)) (degree + 1)) = l := by
      rw [(Nat.clog_monotone 2).map_max, (Nat.clog_monotone 2).map_max,
        Nat.clog_pow 2 _ (by decide), Nat.clog_pow 2 _ (by decide), hl, Shape.product]
    rw [size, size, h.length, h'.length, powerOfTwo_eq (by omega) ?_, log]
    calc _ ≤ 2 ^ l := log ▸ Nat.le_pow_clog (by decide) _
      _ ≤ 2 ^ 32 := Nat.pow_le_pow_right (by decide) (hl ▸ admits.1.le)
  have sizes : s.k ≤ l ∧ t.k ≤ l := by
    rw [hl]
    exact ⟨(le_max_left _ _).trans (le_max_left _ _), (le_max_right _ _).trans (le_max_left _ _)⟩
  rw [← hl] at admits
  obtain ⟨a, resized, ha⟩ := h.grow admits
  obtain ⟨b, resized', hb⟩ := h'.grow admits
  rw [max_eq_right sizes.1] at ha
  rw [max_eq_right sizes.2] at hb
  refine ⟨⟨f.d + g.d, List.zipWith (· * ·) a.val b.val⟩, ?_, ?_⟩
  · rw [PolynomialDfs.product, count, resized, resized']
    rfl
  · have room : s.d + t.d < 2 ^ l :=
      calc s.d + t.d < degree + 1 := by omega
        _ ≤ 2 ^ Nat.clog 2 (degree + 1) := Nat.le_pow_clog (by decide) _
        _ ≤ 2 ^ l := Nat.pow_le_pow_right (by decide) (hl ▸ le_max_right _ _)
    have shape : Shape.product degree s t = ⟨s.d + t.d, l⟩ := by rw [hl]; rfl
    rw [h.d, h'.d, shape]
    exact ha.zipWith hb (fun _ => eval_mul)
      (natDegree_mul_le.trans (Nat.add_le_add h.degree h'.degree)) room

theorem Represents.mul (h : Represents P f s p) (h' : Represents P g t q)
    (admits : P.Admits (s.mul t).k) :
    ∃ e, mul P f g = some e ∧ Represents P e (s.mul t) (p * q) := by
  rw [PolynomialDfs.mul, h.d, h'.d]
  exact h.product h' le_rfl admits

theorem Represents.mulAssign (h : Represents P f s p) (h' : Represents P g t q)
    (admits : P.Admits (s.mulAssign t).k) :
    ∃ e, mulAssign P f g = some e ∧ Represents P e (s.mulAssign t) (p * q) := by
  rw [PolynomialDfs.mulAssign, h.d, h'.d]
  exact h.product h' (Nat.le_add_right _ _) admits

theorem Represents.square (h : Represents P f s p) (admits : P.Admits s.square.k) :
    ∃ e, square P f = some e ∧ Represents P e s.square (p * p) := by
  rw [PolynomialDfs.square, h.d]
  exact h.product h (Nat.le_add_right _ _) admits

theorem Shape.le_product (degree : Nat) (s t : Shape) :
    s.k ≤ (product degree s t).k ∧ t.k ≤ (product degree s t).k :=
  ⟨(le_max_left _ _).trans (le_max_left _ _), (le_max_right _ _).trans (le_max_left _ _)⟩

theorem Represents.pow (h : Represents P f s p) {power : Nat} (positive : 0 < power)
    (admits : P.Admits (s.pow power).k) :
    ∃ e, pow P f power = some e ∧ Represents P e (s.pow power) (p ^ power) := by
  induction power using Nat.strong_induction_on with
  | _ power ih =>
    match power with
    | 1 =>
        rw [PolynomialDfs.pow, Shape.pow, pow_one]
        exact ⟨f, rfl, h⟩
    | power + 2 =>
        let half := (power + 2) / 2
        have base : P.Admits (s.pow half).square.k := by
          rw [Shape.pow] at admits
          split at admits
          · exact admits.mono (Shape.le_product _ _ _).1
          · exact admits
        obtain ⟨r, root, hr⟩ :=
          ih half (by omega) (by omega) (base.mono (Shape.le_product _ _ _).1)
        obtain ⟨r', squared, hr'⟩ := hr.square base
        rw [PolynomialDfs.pow, Shape.pow]
        simp only [Option.bind_eq_bind]
        rw [root, Option.bind_some, squared, Option.bind_some]
        by_cases odd : power + 2 ≠ half + half
        · have exponent : p ^ (power + 2) = p ^ half * p ^ half * p := by
            rw [← pow_add, ← pow_succ]
            congr 1
            omega
          rw [Shape.pow, if_pos odd] at admits
          rw [if_pos odd, if_pos odd, exponent]
          exact hr'.mulAssign h admits
        · have exponent : p ^ (power + 2) = p ^ half * p ^ half := by
            rw [← pow_add, ← not_not.mp odd]
          rw [if_neg odd, if_neg odd, exponent]
          exact ⟨r', rfl, hr'⟩

theorem constant_represents {k : Nat} (hk : P.Admits k) (x : F) :
    Represents P (constant (2 ^ k) x) ⟨0, k⟩ (C x) := by
  refine ⟨hk, rfl, List.length_replicate, (natDegree_C x).le, Nat.two_pow_pos k, fun i hi => ?_⟩
  rw [constant, get, List.getD_replicate _ hi, eval_C]

/-- Every value is changed in the same way. -/
theorem Represents.map (h : Represents P f s p) {op : F → F} {r : F[X]}
    (eval : ∀ x, r.eval x = op (p.eval x)) (degree : r.natDegree ≤ s.d) :
    Represents P { f with val := f.val.map op } s r := by
  refine ⟨h.admits, h.d, (List.length_map _).trans h.length, degree, h.room, fun i hi => ?_⟩
  rw [get_map _ (h.length.symm ▸ hi), h.values i hi, eval]

theorem Represents.scale (h : Represents P f s p) (x : F) :
    Represents P (f.scale x) s (p * C x) :=
  h.map (fun _ => by rw [eval_mul, eval_C]) ((natDegree_mul_C_le p x).trans h.degree)

theorem Represents.addValue (h : Represents P f s p) (x : F) :
    Represents P (f.addValue x) s (p + C x) :=
  h.map (fun _ => by rw [eval_add, eval_C]) (natDegree_add_C.trans_le h.degree)

theorem Represents.valueSub (h : Represents P f s p) (x : F) :
    Represents P (valueSub x f) s (C x - p) := by
  refine h.map (fun y => by rw [eval_sub, eval_C]) ((natDegree_sub_le _ _).trans ?_)
  rw [natDegree_C]
  exact max_le (Nat.zero_le _) h.degree

theorem natDegree_comp_linear_le (p : F[X]) (x : F) :
    (p.comp (C x * X)).natDegree ≤ p.natDegree := by
  have linear : (C x * X).natDegree ≤ 1 := (natDegree_C_mul_le _ _).trans natDegree_X_le
  calc (p.comp (C x * X)).natDegree
      ≤ p.natDegree * (C x * X).natDegree := natDegree_comp_le
    _ ≤ p.natDegree * 1 := Nat.mul_le_mul_left _ linear
    _ = p.natDegree := mul_one _

/-- A rotation by rows of a domain that may be coarser than that of the values: the argument of the
polynomial is multiplied by a power of the coarser root. -/
theorem Represents.polynomialShift (h : Represents P f s p) (shift : Int) {n : Nat}
    (coarser : n ≤ s.k) : ∃ e, polynomialShift f shift (2 ^ n) = some e ∧
      Represents P e s (p.comp (C (P.root n ^ shift) * X)) := by
  have divides : 2 ^ n ∣ 2 ^ s.k := pow_dvd_pow 2 coarser
  have scale : 2 ^ s.k / 2 ^ n = 2 ^ (s.k - n) := Nat.pow_div coarser (by decide)
  have root : P.root s.k ^ 2 ^ (s.k - n) = P.root n := by
    obtain ⟨d, finer⟩ := Nat.exists_eq_add_of_le coarser
    have order := h.admits.2
    rw [finer] at order ⊢
    rw [Nat.add_sub_cancel_left, root_pow order]
  have nonzero : P.root s.k ≠ 0 :=
    (primitive_root h.admits.2).ne_zero (Nat.two_pow_pos s.k).ne'
  have one : P.root s.k ^ 2 ^ s.k = 1 := (primitive_root h.admits.2).pow_eq_one
  -- the power of the root at the index that is read
  have power : ∀ index : Nat,
      let position : Int := ((2 ^ s.k : Nat) + index + (2 ^ (s.k - n) : Nat) * shift) % 2 ^ 64 %
        (2 ^ s.k : Nat)
      position.toNat < 2 ^ s.k ∧
        P.root s.k ^ position.toNat = P.root n ^ shift * P.root s.k ^ index := by
    intro index position
    have positive : (0 : Int) < (2 ^ s.k : Nat) := by positivity
    have lower : 0 ≤ position := Int.emod_nonneg _ positive.ne'
    have upper : position < (2 ^ s.k : Nat) := Int.emod_lt_of_pos _ positive
    have wide : 2 ^ s.k ∣ 2 ^ 64 := pow_dvd_pow 2 (h.admits.1.le.trans (by decide))
    have turns : P.root s.k ^ position =
        P.root s.k ^ (((2 ^ s.k : Nat) : Int) + index + (2 ^ (s.k - n) : Nat) * shift) :=
      (root_zpow_emod h.admits dvd_rfl _).trans (root_zpow_emod h.admits wide _)
    refine ⟨by omega, ?_⟩
    rw [← zpow_natCast, Int.toNat_of_nonneg lower, turns, zpow_add₀ nonzero, zpow_add₀ nonzero,
      zpow_mul, zpow_natCast, zpow_natCast, zpow_natCast, one, root, one_mul, mul_comm]
  have whole : (2 ^ n : Nat) ≠ 0 := (Nat.two_pow_pos n).ne'
  rw [PolynomialDfs.polynomialShift, if_neg whole, size, h.length, scale,
    if_pos (Nat.mod_eq_zero_of_dvd divides)]
  refine ⟨_, rfl, h.admits, h.d, ?_, ?_, h.room, fun i hi => ?_⟩
  · rw [List.length_map, List.length_range]
  · exact (natDegree_comp_linear_le p _).trans h.degree
  · obtain ⟨inside, value⟩ := power i
    rw [get_map_range _ hi, h.values _ inside, value, eval_comp, eval_mul, eval_C, eval_X]

theorem foldr_horner (a : List F) (value : F) :
    a.foldr (fun coefficient result => result * value + coefficient) 0 =
      ∑ i ∈ Finset.range a.length, get a i * value ^ i := by
  induction a with
  | nil => simp
  | cons x a ih =>
      rw [List.foldr_cons, ih, List.length_cons, Finset.sum_range_succ', Finset.sum_mul]
      congr 1
      · apply Finset.sum_congr rfl
        intro i _
        rw [pow_succ, mul_assoc]
        rfl
      · simp [get]

section Evaluate

variable [DecidableEq F]

theorem trimmed_le (tmp : List F) (r : Nat) : trimmed tmp r ≤ r := by
  fun_induction trimmed tmp r with
  | case1 => exact le_rfl
  | case2 => exact le_rfl
  | case3 r zero ih => exact ih.trans (Nat.le_succ _)
  | case4 r nonzero => exact le_rfl

theorem get_trimmed (tmp : List F) {r i : Nat} (low : trimmed tmp r ≤ i) (hi : i < r) :
    get tmp i = 0 := by
  fun_induction trimmed tmp r with
  | case1 => omega
  | case2 => omega
  | case3 r zero ih =>
      rcases Nat.lt_succ_iff_lt_or_eq.mp hi with less | rfl
      · exact ih low less
      · exact zero
  | case4 r nonzero => omega

/-- The coefficients that are kept are those of the polynomial. Only zeros at the end are left out,
and at least one coefficient is kept. -/
theorem Represents.coefficients (h : Represents P f s p) :
    ∃ c, coefficients P f = some c ∧ c.length ≤ 2 ^ s.k ∧ ∀ i, get c i = p.coeff i := by
  have low : p.natDegree < 2 ^ s.k := h.degree.trans_lt h.room
  obtain ⟨tmp, interpolated, length, coefficient⟩ := inverseFft_eq h.admits h.length low h.values
  have kept := trimmed_le tmp tmp.length
  refine ⟨vectorResize tmp (trimmed tmp tmp.length) 0, ?_, ?_, fun i => ?_⟩
  · rw [PolynomialDfs.coefficients, size, h.length, unityRoot_eq h.admits]
    simp only [Option.bind_eq_bind, Option.bind_some, interpolated, Option.pure_def]
  · rw [length_vectorResize, ← length]
    exact kept
  · rcases Nat.lt_or_ge i (trimmed tmp tmp.length) with inside | outside
    · rw [get_vectorResize _ _ inside, if_pos (inside.trans_le kept),
        coefficient i (length ▸ inside.trans_le kept)]
    · rw [get_eq_zero (by rwa [length_vectorResize])]
      rcases Nat.lt_or_ge i tmp.length with trailing | high
      · rw [← coefficient i (length ▸ trailing), get_trimmed tmp outside trailing]
      · exact (coeff_eq_zero_of_natDegree_lt (low.trans_le (length ▸ high))).symm

theorem Represents.evaluate (h : Represents P f s p) (value : F) :
    evaluate P f value = some (p.eval value) := by
  have low : p.natDegree < 2 ^ s.k := h.degree.trans_lt h.room
  obtain ⟨c, computed, length, coefficient⟩ := h.coefficients
  rw [PolynomialDfs.evaluate, computed]
  have leading : ∀ i ∈ Finset.range (2 ^ s.k), i ∉ Finset.range c.length →
      p.coeff i * value ^ i = 0 := by
    intro i _ high
    rw [← coefficient i, get_eq_zero (not_lt.mp fun less => high (Finset.mem_range.mpr less)),
      zero_mul]
  simp only [Option.bind_eq_bind, Option.bind_some, Option.pure_def, foldr_horner, coefficient]
  rw [eval_eq_sum_range' low, Finset.sum_subset (Finset.range_subset_range.mpr length) leading]

end Evaluate

end PolynomialDfs

end Domain
