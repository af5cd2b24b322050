import NilAutotest.Circuit.Expression
import NilAutotest.Domain.PolynomialDfs

/-!
# Expressions over polynomials

The prover evaluates a constraint on whole columns: the template that the verifier
instantiates with values is instantiated with polynomials that are held by their values.
The columns have the same number of values, but a product may need more than that, and from
then on a difference whose first operand has grown is taken the other way round.
`asComputed` is the expression that is evaluated in the end; where no difference has grown
(`Aligned`), it is the one that was given.
-/

namespace Circuit

open Domain Polynomial

section Growth

variable {V F : Type*}

instance : Add PolynomialDfs.Shape := ⟨PolynomialDfs.Shape.add⟩

instance : Sub PolynomialDfs.Shape := ⟨PolynomialDfs.Shape.add⟩

instance : Mul PolynomialDfs.Shape := ⟨PolynomialDfs.Shape.mulAssign⟩

instance : Pow PolynomialDfs.Shape Nat := ⟨PolynomialDfs.Shape.pow⟩

/-- The number of values and the degree that an evaluation arrives at, when the columns have
`2 ^ k` values and the degree `d`. -/
def Expression.shape (d k : Nat) (e : Expression V F) : PolynomialDfs.Shape :=
  e.evaluate (fun _ => ⟨d, k⟩) fun _ => ⟨0, k⟩

/-- The expression that is computed. A difference is formed by `operator-=`, which resizes its
other operand in a copy and then subtracts the wrong way round, so the operands are exchanged
where the first one has more values. -/
def Expression.asComputed (d k : Nat) : Expression V F → Expression V F
  | .term t => .term t
  | .pow expr power => .pow (expr.asComputed d k) power
  | .binary exprLeft exprRight .sub =>
      if (exprRight.shape d k).k < (exprLeft.shape d k).k then
        .binary (exprRight.asComputed d k) (exprLeft.asComputed d k) .sub
      else .binary (exprLeft.asComputed d k) (exprRight.asComputed d k) .sub
  | .binary exprLeft exprRight op =>
      .binary (exprLeft.asComputed d k) (exprRight.asComputed d k) op

/-- No difference has a first operand with more values than the second, at any depth. Then
`operator-=` never resizes its other operand, and the expression is computed as it was given. -/
def Expression.Aligned (d k : Nat) : Expression V F → Prop
  | .term _ => True
  | .pow expr _ => expr.Aligned d k
  | .binary exprLeft exprRight op => exprLeft.Aligned d k ∧ exprRight.Aligned d k ∧
      (op = .sub → (exprLeft.shape d k).k ≤ (exprRight.shape d k).k)

theorem Expression.asComputed_of_aligned {d k : Nat} {e : Expression V F} (h : e.Aligned d k) :
    e.asComputed d k = e := by
  induction e with
  | term t => rfl
  | pow expr power ih => rw [asComputed, ih h]
  | binary exprLeft exprRight op left right =>
      obtain ⟨hleft, hright, sizes⟩ := h
      cases op with
      | add => rw [asComputed, left hleft, right hright]; exact nofun
      | sub => rw [asComputed, if_neg (sizes rfl).not_gt, left hleft, right hright]
      | mult => rw [asComputed, left hleft, right hright]; exact nofun

theorem Expression.mem_vars_asComputed {d k : Nat} {e : Expression V F} {var : V} :
    var ∈ (e.asComputed d k).vars ↔ var ∈ e.vars := by
  induction e with
  | term t => rfl
  | pow expr power ih => exact ih
  | binary exprLeft exprRight op left right =>
      have both : ∀ op,
          var ∈ (binary (exprLeft.asComputed d k) (exprRight.asComputed d k) op).vars ↔
            var ∈ (binary exprLeft exprRight op).vars := by
        intro op
        rw [vars, vars, List.mem_append, List.mem_append, left, right]
      cases op with
      | add => exact both .add
      | sub =>
          rw [asComputed]
          split
          · rw [vars, vars, List.mem_append, List.mem_append, left, right, or_comm]
          · exact both .sub
      | mult => exact both .mult

variable {k n m : Nat} {s t : PolynomialDfs.Shape}

/-- The degree is at most `n`, and there are not many more values than it needs: as many as the
columns, or the least power of two above twice the degree, since `operator*=` adds the degree of
its other operand twice. -/
structure Grown (k n : Nat) (s : PolynomialDfs.Shape) : Prop where
  d : s.d ≤ n
  start : k ≤ s.k
  bound : s.k ≤ max k (Nat.clog 2 (2 * n + 1))

theorem Grown.mono (h : Grown k n s) (more : n ≤ m) : Grown k m s :=
  ⟨h.d.trans more, h.start,
    h.bound.trans (max_le_max le_rfl (Nat.clog_mono_right 2 (by omega)))⟩

theorem Grown.add (h : Grown k n s) (h' : Grown k m t) : Grown k (max n m) (s + t) where
  d := max_le_max h.d h'.d
  start := h.start.trans (le_max_left _ _)
  bound := max_le (h.mono (le_max_left n m)).bound (h'.mono (le_max_right n m)).bound

theorem Grown.product (h : Grown k n s) (h' : Grown k m t) {degree : Nat}
    (enough : degree ≤ 2 * (n + m)) : Grown k (n + m) (PolynomialDfs.Shape.product degree s t) where
  d := Nat.add_le_add h.d h'.d
  start := h.start.trans (PolynomialDfs.Shape.le_product degree s t).1
  bound := by
    have values :=
      max_le (h.mono (Nat.le_add_right n m)).bound (h'.mono (Nat.le_add_left m n)).bound
    exact max_le values ((Nat.clog_mono_right 2 (by omega)).trans (le_max_right _ _))

theorem Grown.mul (h : Grown k n s) (h' : Grown k m t) : Grown k (n + m) (s * t) :=
  h.product h' (by have := h.d; have := h'.d; omega)

theorem Grown.pow (h : Grown k n s) {power : Nat} (positive : 0 < power) :
    Grown k (n * power) (s ^ power) := by
  induction power using Nat.strong_induction_on with
  | _ power ih =>
    match power with
    | 1 =>
        show Grown k (n * 1) (PolynomialDfs.Shape.pow s 1)
        rw [PolynomialDfs.Shape.pow, mul_one]
        exact h
    | power + 2 =>
        let half := (power + 2) / 2
        have root := ih half (by omega) (by omega)
        have square : Grown k (n * half + n * half) (PolynomialDfs.Shape.square (s ^ half)) :=
          root.product root (by have := root.d; omega)
        show Grown k (n * (power + 2)) (PolynomialDfs.Shape.pow s (power + 2))
        rw [PolynomialDfs.Shape.pow]
        by_cases odd : power + 2 ≠ half + half
        · have exponent : n * half + n * half + n = n * (power + 2) := by
            rw [← Nat.mul_add, ← Nat.mul_succ]
            congr 1
            omega
          rw [if_pos odd, ← exponent]
          exact square.mul h
        · have exponent : n * half + n * half = n * (power + 2) := by
            rw [← Nat.mul_add, ← not_not.mp odd]
          rw [if_neg odd, ← exponent]
          exact square

/-- An evaluation grows with the degree of the expression only, not with its size or its depth:
this is why one extended domain, chosen by the degree of the gates, is enough for all of them. -/
theorem Expression.grown (d k : Nat) (e : Expression V F) (positive : e.Positive) :
    Grown k (e.degree * d) (e.shape d k) := by
  have constant : Grown k 0 ⟨0, k⟩ := ⟨le_rfl, le_rfl, le_max_left _ _⟩
  have column : Grown k d ⟨d, k⟩ := ⟨le_rfl, le_rfl, le_max_left _ _⟩
  induction e with
  | term t =>
      have loop : ∀ (vars : List V) (n : Nat) (s : PolynomialDfs.Shape), Grown k n s →
          Grown k (n + vars.length * d) (vars.foldl (fun result _ => result * ⟨d, k⟩) s) := by
        intro vars
        induction vars with
        | nil =>
            intro n s h
            rw [List.length_nil, zero_mul]
            exact h
        | cons var vars ih =>
            intro n s h
            have sum : n + (var :: vars).length * d = n + d + vars.length * d := by
              rw [List.length_cons]
              ring
            rw [sum]
            exact ih _ _ (h.mul column)
      rw [degree, ← Nat.zero_add (t.vars.length * d)]
      exact loop t.vars 0 _ constant
  | pow expr power ih =>
      rw [degree, Nat.mul_right_comm]
      exact (ih positive.2).pow positive.1
  | binary exprLeft exprRight op left right =>
      have hleft := left positive.1
      have hright := right positive.2
      have sum : max exprLeft.degree exprRight.degree * d =
          max (exprLeft.degree * d) (exprRight.degree * d) := (Nat.mul_max_mul_right _ _ _).symm
      cases op with
      | add =>
          show Grown k (max exprLeft.degree exprRight.degree * d) _
          rw [sum]
          exact hleft.add hright
      | sub =>
          show Grown k (max exprLeft.degree exprRight.degree * d) _
          rw [sum]
          exact hleft.add hright
      | mult =>
          rw [degree, Nat.add_mul]
          exact hleft.mul hright

end Growth

section Template

variable {V F : Type*} [Field F]

/-- A polynomial that is computed; there is none where a size has no domain. The instances below
let the evaluator of expressions run on these values as it is. -/
def Computed (_ : ArithmeticParams F) : Type _ := Option (PolynomialDfs F)

variable {P : ArithmeticParams F}

instance : Add (Computed P) :=
  ⟨fun a b => Option.bind a fun f => Option.bind b fun g => PolynomialDfs.add P f g⟩

instance : Sub (Computed P) :=
  ⟨fun a b => Option.bind a fun f => Option.bind b fun g => PolynomialDfs.subAssign P f g⟩

instance : Mul (Computed P) :=
  ⟨fun a b => Option.bind a fun f => Option.bind b fun g => PolynomialDfs.mulAssign P f g⟩

instance : Pow (Computed P) Nat := ⟨fun a n => Option.bind a fun f => PolynomialDfs.pow P f n⟩

/-- The computation succeeds and holds a polynomial. -/
def Computed.Holds (a : Computed P) (s : PolynomialDfs.Shape) (p : F[X]) : Prop :=
  ∃ f, a = some f ∧ PolynomialDfs.Represents P f s p

namespace Computed.Holds

variable {a b : Computed P} {s t : PolynomialDfs.Shape} {p q : F[X]}

theorem add (h : a.Holds s p) (h' : b.Holds t q) : (a + b).Holds (s + t) (p + q) := by
  obtain ⟨f, rfl, hf⟩ := h
  obtain ⟨g, rfl, hg⟩ := h'
  exact hf.add hg

theorem sub (h : a.Holds s p) (h' : b.Holds t q) :
    (a - b).Holds (s - t) (if t.k < s.k then q - p else p - q) := by
  obtain ⟨f, rfl, hf⟩ := h
  obtain ⟨g, rfl, hg⟩ := h'
  exact hf.subAssign hg

theorem mul (h : a.Holds s p) (h' : b.Holds t q) (admits : P.Admits (s * t).k) :
    (a * b).Holds (s * t) (p * q) := by
  obtain ⟨f, rfl, hf⟩ := h
  obtain ⟨g, rfl, hg⟩ := h'
  exact hf.mulAssign hg admits

theorem pow (h : a.Holds s p) {n : Nat} (positive : 0 < n) (admits : P.Admits (s ^ n).k) :
    (a ^ n).Holds (s ^ n) (p ^ n) := by
  obtain ⟨f, rfl, hf⟩ := h
  exact hf.pow positive admits

end Computed.Holds

theorem Grown.admits {k n m : Nat} {s : PolynomialDfs.Shape} (h : Grown k n s)
    (bound : P.Admits (max k (Nat.clog 2 (2 * m + 1)))) (less : n ≤ m) : P.Admits s.k :=
  bound.mono (h.mono less).bound

/-- The evaluator over polynomials. If every variable is held and the degree of the expression
has its domain, no operation fails on the way, and what is held in the end is the value of the
expression as it is computed. -/
theorem Expression.evaluate_holds {d k n : Nat} {value : V → Computed P} {poly : V → F[X]}
    (bound : P.Admits (max k (Nat.clog 2 (2 * n + 1)))) (e : Expression V F)
    (positive : e.Positive) (vars : ∀ var ∈ e.vars, (value var).Holds ⟨d, k⟩ (poly var))
    (less : e.degree * d ≤ n) :
    (e.evaluate value fun x => some (PolynomialDfs.constant (2 ^ k) x)).Holds (e.shape d k)
      ((e.asComputed d k).evaluate poly C) := by
  have hk : P.Admits k := bound.mono (le_max_left _ _)
  have total := e.grown d k positive
  have admits := total.admits bound less
  induction e with
  | term t =>
      have loop : ∀ (vars : List V) (a : Computed P) (s : PolynomialDfs.Shape) (p : F[X]) (m : Nat),
          (∀ var ∈ vars, (value var).Holds ⟨d, k⟩ (poly var)) → a.Holds s p → Grown k m s →
          m + vars.length * d ≤ n →
          Computed.Holds (vars.foldl (fun result var => result * value var) a)
            (vars.foldl (fun result _ => result * ⟨d, k⟩) s)
            (vars.foldl (fun result var => result * poly var) p) := by
        intro vars
        induction vars with
        | nil => exact fun a s p m _ h _ _ => h
        | cons var vars ih =>
            intro a s p m hvars h grown room
            rw [List.forall_mem_cons] at hvars
            rw [List.length_cons, Nat.succ_mul] at room
            have next : Grown k (m + d) (s * ⟨d, k⟩) :=
              grown.mul ⟨le_rfl, le_rfl, le_max_left _ _⟩
            exact ih _ _ _ _ hvars.2 (h.mul hvars.1 (next.admits bound (by omega))) next (by omega)
      exact loop t.vars _ _ _ 0 vars ⟨_, rfl, PolynomialDfs.constant_represents hk t.coeff⟩
        ⟨le_rfl, le_rfl, le_max_left _ _⟩ (by rwa [Nat.zero_add])
  | pow expr power ih =>
      have base : expr.degree * d ≤ n :=
        (Nat.mul_le_mul_right d (Nat.le_mul_of_pos_right _ positive.1)).trans less
      have grown := expr.grown d k positive.2
      exact (ih positive.2 vars base grown (grown.admits bound base)).pow positive.1 admits
  | binary exprLeft exprRight op left right =>
      have degrees : exprLeft.degree ≤ (binary exprLeft exprRight op).degree ∧
          exprRight.degree ≤ (binary exprLeft exprRight op).degree := by
        cases op with
        | add => exact ⟨le_max_left _ _, le_max_right _ _⟩
        | sub => exact ⟨le_max_left _ _, le_max_right _ _⟩
        | mult => exact ⟨Nat.le_add_right _ _, Nat.le_add_left _ _⟩
      have lessLeft := (Nat.mul_le_mul_right d degrees.1).trans less
      have lessRight := (Nat.mul_le_mul_right d degrees.2).trans less
      have grownLeft := exprLeft.grown d k positive.1
      have grownRight := exprRight.grown d k positive.2
      have hvars := List.forall_mem_append.mp vars
      have hleft := left positive.1 hvars.1 lessLeft grownLeft
        (grownLeft.admits bound lessLeft)
      have hright := right positive.2 hvars.2 lessRight grownRight
        (grownRight.admits bound lessRight)
      cases op with
      | add => exact hleft.add hright
      | sub =>
          have difference := hleft.sub hright
          rw [asComputed]
          split at difference
          · rwa [if_pos ‹_›]
          · rwa [if_neg ‹_›]
      | mult => exact hleft.mul hright admits

end Template

end Circuit
