import NilAutotest.Domain.PolynomialDfs

/-!
# Polynomials within bounds

How many values an operation leaves depends on all operations before. The loops over
polynomials need bounds only: on the degree, and on the number of values, which must stay
within the domains that exist.
-/

namespace Domain.PolynomialDfs

open Polynomial

variable {F : Type*} [Field F]

/-- The polynomial that is held, within bounds for the degree and the number of values. The exact
shape is forgotten, so every operation of a loop can keep the same bounds. -/
def Bounded (P : ArithmeticParams F) (d l : Nat) (f : PolynomialDfs F) (p : F[X]) : Prop :=
  ∃ s, Represents P f s p ∧ s.d ≤ d ∧ s.k ≤ l

variable {P : ArithmeticParams F} {d d' e l : Nat} {f g : PolynomialDfs F} {p q : F[X]}

theorem Represents.bounded {s : Shape} (h : Represents P f s p) (less : s.k ≤ l) :
    Bounded P s.d l f p :=
  ⟨s, h, le_rfl, less⟩

namespace Bounded

theorem mono (h : Bounded P d l f p) (more : d ≤ d') : Bounded P d' l f p := by
  obtain ⟨s, represents, degree, size⟩ := h
  exact ⟨s, represents, degree.trans more, size⟩

theorem mono_size (h : Bounded P d l f p) {l' : Nat} (more : l ≤ l') : Bounded P d l' f p := by
  obtain ⟨s, represents, degree, size⟩ := h
  exact ⟨s, represents, degree, size.trans more⟩

/-- The values determine the polynomial, also when it is held with two different bounds. -/
theorem unique {l' : Nat} (h : Bounded P d l f p) (h' : Bounded P d' l' f q) : p = q := by
  obtain ⟨⟨a, k⟩, represents, -, -⟩ := h
  obtain ⟨⟨b, j⟩, represents', -, -⟩ := h'
  obtain rfl : a = b := represents.d.symm.trans represents'.d
  obtain rfl : k = j := Nat.pow_right_injective le_rfl
    (represents.length.symm.trans represents'.length)
  exact represents.unique represents'

theorem constant (he : P.Admits e) (less : e ≤ l) (d : Nat) (x : F) :
    Bounded P d l (constant (2 ^ e) x) (C x) :=
  ⟨⟨0, e⟩, constant_represents he x, Nat.zero_le _, less⟩

theorem scale (h : Bounded P d l f p) (x : F) : Bounded P d l (f.scale x) (p * C x) := by
  obtain ⟨s, represents, degree, size⟩ := h
  exact ⟨s, represents.scale x, degree, size⟩

theorem addValue (h : Bounded P d l f p) (x : F) : Bounded P d l (f.addValue x) (p + C x) := by
  obtain ⟨s, represents, degree, size⟩ := h
  exact ⟨s, represents.addValue x, degree, size⟩

theorem valueSub (h : Bounded P d l f p) (x : F) : Bounded P d l (valueSub x f) (C x - p) := by
  obtain ⟨s, represents, degree, size⟩ := h
  exact ⟨s, represents.valueSub x, degree, size⟩

theorem add (h : Bounded P d l f p) (h' : Bounded P d l g q) :
    ∃ r, add P f g = some r ∧ Bounded P d l r (p + q) := by
  obtain ⟨s, represents, degree, size⟩ := h
  obtain ⟨t, represents', degree', size'⟩ := h'
  obtain ⟨r, sum, result⟩ := represents.add represents'
  exact ⟨r, sum, s.add t, result, max_le degree degree', max_le size size'⟩

theorem sub (h : Bounded P d l f p) (h' : Bounded P d l g q) :
    ∃ r, sub P f g = some r ∧ Bounded P d l r (p - q) := by
  obtain ⟨s, represents, degree, size⟩ := h
  obtain ⟨t, represents', degree', size'⟩ := h'
  obtain ⟨r, difference, result⟩ := represents.sub represents'
  exact ⟨r, difference, s.add t, result, max_le degree degree', max_le size size'⟩

theorem mul (h : Bounded P d l f p) (h' : Bounded P d' l g q) (hl : P.Admits l)
    (room : d + d' + 1 ≤ 2 ^ l) :
    ∃ r, mul P f g = some r ∧ Bounded P (d + d') l r (p * q) := by
  obtain ⟨s, represents, degree, size⟩ := h
  obtain ⟨t, represents', degree', size'⟩ := h'
  have bound : (s.mul t).k ≤ l :=
    max_le (max_le size size') ((Nat.clog_le_iff_le_pow (by decide)).mpr (by omega))
  obtain ⟨r, product, result⟩ := represents.mul represents' (hl.mono bound)
  exact ⟨r, product, s.mul t, result, Nat.add_le_add degree degree', bound⟩

theorem evaluate [DecidableEq F] (h : Bounded P d l f p) (y : F) :
    evaluate P f y = some (p.eval y) := by
  obtain ⟨s, represents, -, -⟩ := h
  exact represents.evaluate y

end Bounded

end Domain.PolynomialDfs
