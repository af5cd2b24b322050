import Mathlib.Algebra.BigOperators.Group.List.Basic
import Mathlib.Algebra.BigOperators.Ring.List
import Mathlib.Algebra.Polynomial.BigOperators
import Mathlib.Data.UInt
import Mathlib.Tactic.Ring

/-!
# Expressions over the columns

A constraint is a tree of sums, differences, products and powers over terms; a term is a
coefficient times variables. For the contracts the tree is flattened to a list of terms.
Flattening keeps the value, the degree and the variables of every expression whose powers
are positive; a power of zero is flattened to its base.
-/

namespace Circuit

variable {V F A B : Type*}

/-- `term`: a product of variables and a coefficient. The variables are a vector, so a power of
one variable holds it several times; its length is the degree of the term. -/
structure Term (V F : Type*) where
  vars : List V
  coeff : F
  deriving DecidableEq

/-- `term::operator*` -/
def Term.mul [Mul F] (t u : Term V F) : Term V F := ⟨t.vars ++ u.vars, u.coeff * t.coeff⟩

inductive ArithmeticOperator
  | add
  | sub
  | mult
  deriving DecidableEq

/-- `expression` with the alternatives `term`, `pow_operation` and
`binary_arithmetic_operation` -/
inductive Expression (V F : Type*)
  | term (t : Term V F)
  | pow (expr : Expression V F) (power : Nat)
  | binary (exprLeft exprRight : Expression V F) (op : ArithmeticOperator)

/-- All powers are positive. A power of zero is the one expression whose flattened form has
another value and another degree than the tree, and whose evaluation over polynomials does not
end. -/
def Expression.Positive : Expression V F → Prop
  | .term _ => True
  | .pow expr power => 0 < power ∧ expr.Positive
  | .binary exprLeft exprRight _ => exprLeft.Positive ∧ exprRight.Positive

/-! ## Evaluation -/

section Evaluator

variable [Add A] [Sub A] [Mul A] [Pow A Nat] (getVarValue : V → A) (convertToValueType : F → A)

def Term.evaluate (t : Term V F) : A :=
  t.vars.foldl (fun result var => result * getVarValue var) (convertToValueType t.coeff)

def ArithmeticOperator.apply : ArithmeticOperator → A → A → A
  | .add, left, right => left + right
  | .sub, left, right => left - right
  | .mult, left, right => left * right

/-- `expression_evaluator` -/
def Expression.evaluate : Expression V F → A
  | .term t => t.evaluate getVarValue convertToValueType
  | .pow expr power => expr.evaluate ^ power
  | .binary exprLeft exprRight op => op.apply exprLeft.evaluate exprRight.evaluate

end Evaluator

/-- The variables that `expression_for_each_variable_visitor` calls back for, in order. -/
def Expression.vars : Expression V F → List V
  | .term t => t.vars
  | .pow expr _ => expr.vars
  | .binary exprLeft exprRight _ => exprLeft.vars ++ exprRight.vars

/-- `expression_max_degree_visitor`, with the machine words that it adds and multiplies: a degree
of `2 ^ 32` or more wraps around. -/
def Expression.computeMaxDegree : Expression V F → UInt32
  | .term t => .ofNat t.vars.length
  | .pow expr power => expr.computeMaxDegree * .ofNat power
  | .binary exprLeft exprRight .mult => exprLeft.computeMaxDegree + exprRight.computeMaxDegree
  | .binary exprLeft exprRight _ => max exprLeft.computeMaxDegree exprRight.computeMaxDegree

/-- The degree, without the bounds of the machine word. -/
def Expression.degree : Expression V F → Nat
  | .term t => t.vars.length
  | .pow expr power => expr.degree * power
  | .binary exprLeft exprRight .mult => exprLeft.degree + exprRight.degree
  | .binary exprLeft exprRight _ => max exprLeft.degree exprRight.degree

theorem Expression.toNat_computeMaxDegree (e : Expression V F) (positive : e.Positive)
    (small : e.degree < 2 ^ 32) : e.computeMaxDegree.toNat = e.degree := by
  induction e with
  | term t => exact UInt32.toNat_ofNat_of_lt' small
  | pow expr power ih =>
      have base : expr.degree < 2 ^ 32 := (Nat.le_mul_of_pos_right _ positive.1).trans_lt small
      rw [degree] at small ⊢
      rw [computeMaxDegree, UInt32.toNat_mul, ih positive.2 base, UInt32.toNat_ofNat',
        Nat.mul_mod_mod, Nat.mod_eq_of_lt small]
  | binary exprLeft exprRight op left right =>
      cases op with
      | add =>
          have bounds := max_lt_iff.mp small
          refine (UInt32.toNat_max _ _).trans ?_
          rw [left positive.1 bounds.1, right positive.2 bounds.2]
          rfl
      | sub =>
          have bounds := max_lt_iff.mp small
          refine (UInt32.toNat_max _ _).trans ?_
          rw [left positive.1 bounds.1, right positive.2 bounds.2]
          rfl
      | mult =>
          rw [degree] at small ⊢
          rw [computeMaxDegree, UInt32.toNat_add, left positive.1 (by omega),
            right positive.2 (by omega), Nat.mod_eq_of_lt small]

/-! ## Flattening -/

/-- `non_linear_combination`: the sum of its terms, without any cancellation between equal
ones. -/
abbrev NonLinearCombination (V F : Type*) := List (Term V F)

namespace NonLinearCombination

/-- `operator*` with a coefficient of the field -/
def scale [Mul F] (terms : NonLinearCombination V F) (fieldCoeff : F) :
    NonLinearCombination V F :=
  terms.map fun nlt => nlt.mul ⟨[], fieldCoeff⟩

def add (terms other : NonLinearCombination V F) : NonLinearCombination V F := terms ++ other

def neg [Mul F] [One F] [Neg F] (terms : NonLinearCombination V F) : NonLinearCombination V F :=
  scale terms (-1)

def sub [Mul F] [One F] [Neg F] (terms other : NonLinearCombination V F) :
    NonLinearCombination V F :=
  add terms (neg other)

def mul [Mul F] (terms other : NonLinearCombination V F) : NonLinearCombination V F :=
  terms.flatMap fun thisNlt => other.map fun otherNlt => thisNlt.mul otherNlt

def maxDegree (terms : NonLinearCombination V F) : Nat :=
  terms.foldl (fun maxDegree nlt => max maxDegree nlt.vars.length) 0

/-- The sum of the terms. -/
def value [CommRing A] (getVarValue : V → A) (convertToValueType : F → A)
    (terms : NonLinearCombination V F) : A :=
  (terms.map (Term.evaluate getVarValue convertToValueType)).sum

end NonLinearCombination

/-- `expression_to_non_linear_combination_visitor`. The loop of a power starts at one, with the
base as the result, so the base is what a power of zero is flattened to. -/
def Expression.convert [Mul F] [One F] [Neg F] : Expression V F → NonLinearCombination V F
  | .term t => [t]
  | .pow expr power =>
      (List.range (power - 1)).foldl (fun result _ => .mul result expr.convert) expr.convert
  | .binary exprLeft exprRight .add => .add exprLeft.convert exprRight.convert
  | .binary exprLeft exprRight .sub => .sub exprLeft.convert exprRight.convert
  | .binary exprLeft exprRight .mult => .mul exprLeft.convert exprRight.convert

/-! ## The value of a flattened expression -/

section Map

variable [CommRing A] [CommRing B] (getVarValue : V → A)

theorem Expression.map_evaluate (f : A →+* B) (convert : F → A) (e : Expression V F) :
    f (e.evaluate getVarValue convert) =
      e.evaluate (fun var => f (getVarValue var)) fun x => f (convert x) := by
  induction e with
  | term t =>
      have loop : ∀ (vars : List V) (start : A),
          f (vars.foldl (fun result var => result * getVarValue var) start) =
            vars.foldl (fun result var => result * f (getVarValue var)) (f start) := by
        intro vars
        induction vars with
        | nil => exact fun _ => rfl
        | cons var vars ih =>
            intro start
            rw [List.foldl_cons, ih, map_mul, List.foldl_cons]
      exact loop t.vars _
  | pow expr power ih => rw [evaluate, evaluate, map_pow, ih]
  | binary exprLeft exprRight op left right =>
      rw [evaluate, evaluate, ← left, ← right]
      cases op with
      | add => exact map_add f _ _
      | sub => exact map_sub f _ _
      | mult => exact map_mul f _ _

end Map

section Value

variable [CommRing F] [CommRing A] (getVarValue : V → A) (convertToValueType : F →+* A)

theorem Term.evaluate_eq (t : Term V F) :
    t.evaluate getVarValue convertToValueType =
      convertToValueType t.coeff * (t.vars.map getVarValue).prod := by
  have loop : ∀ (vars : List V) (start : A),
      vars.foldl (fun result var => result * getVarValue var) start =
        start * (vars.map getVarValue).prod := by
    intro vars
    induction vars with
    | nil => simp
    | cons var vars ih =>
        intro start
        rw [List.foldl_cons, ih, List.map_cons, List.prod_cons, mul_assoc]
  exact loop t.vars _

theorem Term.evaluate_mul (t u : Term V F) :
    (t.mul u).evaluate getVarValue convertToValueType =
      t.evaluate getVarValue convertToValueType * u.evaluate getVarValue convertToValueType := by
  simp only [Term.evaluate_eq, Term.mul, map_mul, List.map_append, List.prod_append]
  ring

namespace NonLinearCombination

variable (terms other : NonLinearCombination V F)

theorem value_add : value getVarValue convertToValueType (add terms other) =
    value getVarValue convertToValueType terms + value getVarValue convertToValueType other := by
  simp [value, add]

theorem value_scale (c : F) : value getVarValue convertToValueType (scale terms c) =
    value getVarValue convertToValueType terms * convertToValueType c := by
  have factor : (⟨[], c⟩ : Term V F).evaluate getVarValue convertToValueType =
      convertToValueType c := rfl
  simp only [value, scale, List.map_map, Function.comp_def, Term.evaluate_mul, factor,
    List.sum_map_mul_right]

theorem value_neg : value getVarValue convertToValueType (neg terms) =
    -value getVarValue convertToValueType terms := by
  rw [neg, value_scale, map_neg, map_one, mul_neg_one]

theorem value_sub : value getVarValue convertToValueType (sub terms other) =
    value getVarValue convertToValueType terms - value getVarValue convertToValueType other := by
  rw [sub, value_add, value_neg, sub_eq_add_neg]

theorem value_mul : value getVarValue convertToValueType (mul terms other) =
    value getVarValue convertToValueType terms * value getVarValue convertToValueType other := by
  induction terms with
  | nil => simp [value, mul]
  | cons t terms ih =>
      have first : value getVarValue convertToValueType (other.map t.mul) =
          t.evaluate getVarValue convertToValueType *
            value getVarValue convertToValueType other := by
        simp only [value, List.map_map, Function.comp_def, Term.evaluate_mul,
          List.sum_map_mul_left]
      have split : mul (t :: terms) other = add (other.map t.mul) (mul terms other) := rfl
      have head : value getVarValue convertToValueType (t :: terms) =
          t.evaluate getVarValue convertToValueType +
            value getVarValue convertToValueType terms := List.sum_cons
      rw [split, value_add, first, ih, head, add_mul]

theorem value_pow (n : Nat) : value getVarValue convertToValueType
      ((List.range n).foldl (fun result _ => mul result terms) terms) =
    value getVarValue convertToValueType terms ^ (n + 1) := by
  induction n with
  | zero => simp
  | succ n ih => rw [List.range_succ, List.foldl_append, List.foldl_cons, List.foldl_nil,
      value_mul, ih, ← pow_succ]

end NonLinearCombination

/-- Flattening keeps the value under every assignment. The induction is on the tree: every
operation on lists of terms is the operation of the same name on values. -/
theorem Expression.value_convert (e : Expression V F) (positive : e.Positive) :
    e.convert.value getVarValue convertToValueType =
      e.evaluate getVarValue convertToValueType := by
  induction e with
  | term t => simp [convert, evaluate, NonLinearCombination.value]
  | pow expr power ih =>
      obtain ⟨hpower, hexpr⟩ := positive
      have exponent : power - 1 + 1 = power := Nat.sub_add_cancel hpower
      rw [convert, NonLinearCombination.value_pow, exponent, ih hexpr, evaluate]
  | binary exprLeft exprRight op left right =>
      obtain ⟨hleft, hright⟩ := positive
      cases op with
      | add => rw [convert, NonLinearCombination.value_add, left hleft, right hright]; rfl
      | sub => rw [convert, NonLinearCombination.value_sub, left hleft, right hright]; rfl
      | mult => rw [convert, NonLinearCombination.value_mul, left hleft, right hright]; rfl

end Value

/-! ## The degree and the variables of a flattened expression -/

namespace NonLinearCombination

variable {terms other : NonLinearCombination V F}

theorem maxDegree_le_iff {n : Nat} : maxDegree terms ≤ n ↔ ∀ t ∈ terms, t.vars.length ≤ n := by
  have loop : ∀ (terms : NonLinearCombination V F) (start : Nat),
      terms.foldl (fun maxDegree nlt => max maxDegree nlt.vars.length) start ≤ n ↔
        start ≤ n ∧ ∀ t ∈ terms, t.vars.length ≤ n := by
    intro terms
    induction terms with
    | nil => simp
    | cons t terms ih =>
        intro start
        rw [List.foldl_cons, ih, max_le_iff, List.forall_mem_cons, and_assoc]
  rw [maxDegree, loop]
  simp

theorem exists_length_eq (nonempty : terms ≠ []) :
    ∃ t ∈ terms, t.vars.length = maxDegree terms := by
  by_contra none
  push Not at none
  have below : ∀ t ∈ terms, t.vars.length < maxDegree terms := fun t ht =>
    lt_of_le_of_ne (maxDegree_le_iff.mp le_rfl t ht) (none t ht)
  obtain ⟨t, rest, rfl⟩ := List.exists_cons_of_ne_nil nonempty
  have positive := below t List.mem_cons_self
  have smaller : maxDegree (t :: rest) ≤ maxDegree (t :: rest) - 1 :=
    maxDegree_le_iff.mpr fun u hu => Nat.le_sub_one_of_lt (below u hu)
  omega

theorem maxDegree_add : maxDegree (add terms other) = max (maxDegree terms) (maxDegree other) := by
  apply eq_of_forall_ge_iff
  intro n
  simp only [add, maxDegree_le_iff, List.forall_mem_append, max_le_iff]

theorem maxDegree_scale [Mul F] (c : F) : maxDegree (scale terms c) = maxDegree terms := by
  apply eq_of_forall_ge_iff
  intro n
  simp only [scale, maxDegree_le_iff, List.forall_mem_map, Term.mul, List.append_nil]

theorem mul_ne_nil [Mul F] (h : terms ≠ []) (h' : other ≠ []) : mul terms other ≠ [] := by
  obtain ⟨t, ts, rfl⟩ := List.exists_cons_of_ne_nil h
  obtain ⟨u, us, rfl⟩ := List.exists_cons_of_ne_nil h'
  exact List.cons_ne_nil _ _

/-- No term is lost in a product, so the degrees add up. -/
theorem maxDegree_mul [Mul F] (h : terms ≠ []) (h' : other ≠ []) :
    maxDegree (mul terms other) = maxDegree terms + maxDegree other := by
  apply le_antisymm
  · rw [maxDegree_le_iff]
    intro t ht
    obtain ⟨a, ha, product⟩ := List.mem_flatMap.mp ht
    obtain ⟨b, hb, rfl⟩ := List.mem_map.mp product
    have left := maxDegree_le_iff.mp le_rfl a ha
    have right := maxDegree_le_iff.mp le_rfl b hb
    rw [Term.mul, List.length_append]
    omega
  · obtain ⟨a, ha, left⟩ := exists_length_eq h
    obtain ⟨b, hb, right⟩ := exists_length_eq h'
    have member : a.mul b ∈ mul terms other :=
      List.mem_flatMap.mpr ⟨a, ha, List.mem_map_of_mem hb⟩
    have length := maxDegree_le_iff.mp le_rfl _ member
    rw [Term.mul, List.length_append] at length
    omega

theorem pow_spec [Mul F] (h : terms ≠ []) (n : Nat) :
    let result := (List.range n).foldl (fun result _ => mul result terms) terms
    result ≠ [] ∧ maxDegree result = maxDegree terms * (n + 1) := by
  induction n with
  | zero => simpa using h
  | succ n ih =>
      obtain ⟨nonempty, degree⟩ := ih
      rw [List.range_succ, List.foldl_append, List.foldl_cons, List.foldl_nil]
      refine ⟨mul_ne_nil nonempty h, ?_⟩
      rw [maxDegree_mul nonempty h, degree]
      ring

end NonLinearCombination

section Degree

variable [Mul F] [One F] [Neg F]

theorem Expression.convert_ne_nil (e : Expression V F) : e.convert ≠ [] := by
  induction e with
  | term t => exact List.cons_ne_nil _ _
  | pow expr power ih => exact (NonLinearCombination.pow_spec ih _).1
  | binary exprLeft exprRight op left right =>
      cases op with
      | add => exact List.append_ne_nil_of_left_ne_nil left _
      | sub => exact List.append_ne_nil_of_left_ne_nil left _
      | mult => exact NonLinearCombination.mul_ne_nil left right

/-- The degree of the flattened expression is the one of the tree. No terms are ever cancelled,
so the longest term of a product is one of each factor put together. -/
theorem Expression.maxDegree_convert (e : Expression V F) (positive : e.Positive) :
    e.convert.maxDegree = e.degree := by
  induction e with
  | term t => simp [convert, NonLinearCombination.maxDegree, degree]
  | pow expr power ih =>
      have exponent : power - 1 + 1 = power := Nat.sub_add_cancel positive.1
      rw [convert, (NonLinearCombination.pow_spec expr.convert_ne_nil _).2, exponent,
        ih positive.2, degree]
  | binary exprLeft exprRight op left right =>
      cases op with
      | add =>
          rw [convert, NonLinearCombination.maxDegree_add, left positive.1, right positive.2]
          rfl
      | sub =>
          rw [convert, NonLinearCombination.sub, NonLinearCombination.maxDegree_add,
            NonLinearCombination.neg, NonLinearCombination.maxDegree_scale, left positive.1,
            right positive.2]
          rfl
      | mult =>
          rw [convert, NonLinearCombination.maxDegree_mul exprLeft.convert_ne_nil
            exprRight.convert_ne_nil, left positive.1, right positive.2, degree]

end Degree

namespace NonLinearCombination

/-- A variable occurs in a term. -/
def Mentions (terms : NonLinearCombination V F) (var : V) : Prop := ∃ t ∈ terms, var ∈ t.vars

theorem mentions_add {terms other : NonLinearCombination V F} {var : V} :
    Mentions (add terms other) var ↔ Mentions terms var ∨ Mentions other var := by
  simp only [Mentions, add, List.mem_append, or_and_right, exists_or]

theorem mentions_scale [Mul F] {terms : NonLinearCombination V F} {c : F} {var : V} :
    Mentions (scale terms c) var ↔ Mentions terms var := by
  simp [Mentions, scale, Term.mul]

theorem mentions_mul [Mul F] {terms other : NonLinearCombination V F} {var : V} (h : terms ≠ [])
    (h' : other ≠ []) :
    Mentions (mul terms other) var ↔ Mentions terms var ∨ Mentions other var := by
  obtain ⟨a, ha⟩ := List.exists_mem_of_ne_nil _ h
  obtain ⟨b, hb⟩ := List.exists_mem_of_ne_nil _ h'
  constructor
  · rintro ⟨t, ht, hv⟩
    obtain ⟨x, hx, product⟩ := List.mem_flatMap.mp ht
    obtain ⟨y, hy, rfl⟩ := List.mem_map.mp product
    obtain left | right := List.mem_append.mp hv
    · exact .inl ⟨x, hx, left⟩
    · exact .inr ⟨y, hy, right⟩
  · have product : ∀ x ∈ terms, ∀ y ∈ other, x.mul y ∈ mul terms other := fun x hx y hy =>
      List.mem_flatMap.mpr ⟨x, hx, List.mem_map_of_mem hy⟩
    rintro (⟨t, ht, hv⟩ | ⟨t, ht, hv⟩)
    · exact ⟨_, product t ht b hb, List.mem_append_left _ hv⟩
    · exact ⟨_, product a ha t ht, List.mem_append_right _ hv⟩

theorem mentions_pow [Mul F] {terms : NonLinearCombination V F} {var : V} (h : terms ≠ [])
    (n : Nat) :
    Mentions ((List.range n).foldl (fun result _ => mul result terms) terms) var ↔
      Mentions terms var := by
  induction n with
  | zero => rfl
  | succ n ih =>
      rw [List.range_succ, List.foldl_append, List.foldl_cons, List.foldl_nil,
        mentions_mul (pow_spec h n).1 h, ih, or_self]

end NonLinearCombination

/-- The visitor calls back for exactly the variables of the flattened expression. -/
theorem Expression.mentions_convert [Mul F] [One F] [Neg F] (e : Expression V F) (var : V) :
    e.convert.Mentions var ↔ var ∈ e.vars := by
  induction e with
  | term t => simp [convert, vars, NonLinearCombination.Mentions]
  | pow expr power ih =>
      rw [convert, NonLinearCombination.mentions_pow expr.convert_ne_nil, ih, vars]
  | binary exprLeft exprRight op left right =>
      rw [vars, List.mem_append, ← left, ← right]
      cases op with
      | add => exact NonLinearCombination.mentions_add
      | sub =>
          rw [convert, NonLinearCombination.sub, NonLinearCombination.mentions_add,
            NonLinearCombination.neg, NonLinearCombination.mentions_scale]
      | mult =>
          exact NonLinearCombination.mentions_mul exprLeft.convert_ne_nil exprRight.convert_ne_nil

/-- The flattened expression has the value of the tree under every assignment, the degree that
is computed on the tree, and the variables of the tree. So the contract that is printed from the
flattened form, and the domains whose size is chosen by the degree, are about the tree. -/
theorem Expression.convert_spec [CommRing F] [CommRing A] (e : Expression V F)
    (positive : e.Positive) (small : e.degree < 2 ^ 32) (convertToValueType : F →+* A) :
    (∀ getVarValue : V → A, e.convert.value getVarValue convertToValueType =
      e.evaluate getVarValue convertToValueType) ∧
    e.convert.maxDegree = e.computeMaxDegree.toNat ∧
    ∀ var, e.convert.Mentions var ↔ var ∈ e.vars := by
  refine ⟨fun getVarValue => e.value_convert getVarValue convertToValueType positive, ?_,
    e.mentions_convert⟩
  rw [e.maxDegree_convert positive, e.toNat_computeMaxDegree positive small]

/-- The square of a difference. -/
theorem Expression.convert_spec_square :
    let e : Expression Nat Int := .pow (.binary (.term ⟨[0, 1], 3⟩) (.term ⟨[2], 1⟩) .sub) 2
    (∀ value : Nat → Int, e.convert.value value id = e.evaluate value id) ∧
      e.convert.maxDegree = 4 ∧ ∀ var, e.convert.Mentions var ↔ var ∈ [0, 1, 2] := by
  intro e
  exact e.convert_spec (by simp [e, Positive]) (by decide) (RingHom.id Int)

end Circuit
