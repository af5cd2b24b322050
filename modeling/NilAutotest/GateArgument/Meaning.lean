import NilAutotest.GateArgument.Evaluation
import NilAutotest.Batching.Combination

/-!
# The gates as polynomials

Over any commutative ring a constraint is a polynomial in the cells of a row. A library
adds up the constraints, each multiplied by the selector of its gate and by the next power
of `theta`; modulo the modulus nothing of this is lost to the word size.
-/

namespace GateArgument

open Evm Batching

section Ring

variable {R S : Type*} [CommRing R] [CommRing S] (row : Cell → R)

def Monomial.eval : Monomial → R
  | .scaled coefficient cells => (coefficient.toNat : R) * (cells.map row).prod
  | .plain cell cells => row cell * (cells.map row).prod

def Constraint.eval (c : Constraint) : R := (c.map (Monomial.eval row)).sum

@[simp] theorem Constraint.eval_nil : Constraint.eval row [] = 0 := rfl

@[simp] theorem Constraint.eval_cons (t : Monomial) (c : Constraint) :
    Constraint.eval row (t :: c) = t.eval row + Constraint.eval row c := rfl

/-- What a gate adds to the combination, constraint by constraint. -/
def Gate.values (g : Gate) : List R :=
  g.constraints.map fun c => row (.selector g.selector) * c.eval row

/-- All constraints of a gate vanish. -/
def Gate.Holds (g : Gate) : Prop := ∀ c ∈ g.constraints, c.eval row = 0

/-- A gate with a selector other than zero holds. -/
def Gate.Enforced (g : Gate) : Prop := row (.selector g.selector) ≠ 0 → g.Holds row

/-- A gate is enforced exactly if it adds nothing but zeros. -/
theorem Gate.enforced_iff [IsDomain R] (g : Gate) : g.Enforced row ↔ ∀ v ∈ g.values row, v = 0 := by
  simp only [Enforced, Holds, values, List.forall_mem_map, mul_eq_zero]
  constructor
  · intro enforced c hc
    by_cases zero : row (.selector g.selector) = 0
    · exact .inl zero
    · exact .inr (enforced zero c hc)
  · intro vanish selected c hc
    exact (vanish c hc).resolve_left selected

end Ring

section Residue

variable {modulus : Word} (hm : modulus ≠ 0) (theta : Word) (value : Cell → Word)

/-- The cells modulo the modulus. -/
def residues (n : Nat) (value : Cell → Word) (c : Cell) : ZMod n := residue n (value c)

include hm

theorem residue_foldl_mulmod (cells : List Cell) (start : Word) :
    residue modulus.toNat (cells.foldl (fun t c => mulmod t (value c) modulus) start) =
      residue modulus.toNat start * (cells.map (residues modulus.toNat value)).prod := by
  induction cells generalizing start with
  | nil => simp
  | cons c cells ih =>
      rw [List.foldl_cons, ih, residue_mulmod hm, List.map_cons, List.prod_cons, mul_assoc,
        residues]

theorem residue_monomial (t : Monomial) :
    residue modulus.toNat (t.evaluate modulus value) =
      t.eval (residues modulus.toNat value) := by
  cases t <;> exact residue_foldl_mulmod hm value _ _

theorem residue_constraint (c : Constraint) :
    residue modulus.toNat (c.evaluate modulus value) =
      c.eval (residues modulus.toNat value) := by
  have sums : ∀ start, residue modulus.toNat
      (c.foldl (fun sum t => addmod sum (t.evaluate modulus value) modulus) start) =
      residue modulus.toNat start + c.eval (residues modulus.toNat value) := by
    induction c with
    | nil => simp
    | cons t c ih =>
        intro start
        rw [List.foldl_cons, ih, residue_addmod hm, residue_monomial hm, Constraint.eval_cons,
          add_assoc]
  rw [Constraint.evaluate, sums, residue_zero, zero_add]

theorem residue_addConstraints (cs : List Constraint) (acc : Word × Word) :
    let acc' := cs.foldl (addConstraint modulus theta value) acc
    residue modulus.toNat acc'.1 = residue modulus.toNat acc.1 +
        residue modulus.toNat acc.2 * combine (residue modulus.toNat theta)
          (cs.map fun c => c.eval (residues modulus.toNat value)) ∧
      residue modulus.toNat acc'.2 =
        residue modulus.toNat acc.2 * residue modulus.toNat theta ^ cs.length := by
  induction cs generalizing acc with
  | nil => simp
  | cons c cs ih =>
      obtain ⟨sum, power⟩ := ih (addConstraint modulus theta value acc c)
      simp only [addConstraint, residue_addmod hm, residue_mulmod hm,
        residue_constraint hm] at sum power
      refine ⟨sum.trans ?_, power.trans ?_⟩
      · rw [List.map_cons, combine_cons]
        ring
      · rw [List.length_cons]
        ring

theorem residue_evaluateGate (g : Gate) (acc : Word × Word) :
    let acc' := evaluateGate modulus theta value acc g
    residue modulus.toNat acc'.1 = residue modulus.toNat acc.1 +
        residue modulus.toNat acc.2 * combine (residue modulus.toNat theta)
          (g.values (residues modulus.toNat value)) ∧
      residue modulus.toNat acc'.2 =
        residue modulus.toNat acc.2 * residue modulus.toNat theta ^ g.constraints.length := by
  obtain ⟨sum, power⟩ := residue_addConstraints hm theta value g.constraints (0, acc.2)
  refine ⟨?_, power⟩
  have values : g.values (residues modulus.toNat value) =
      (g.constraints.map fun c => c.eval (residues modulus.toNat value)).map
        (residues modulus.toNat value (.selector g.selector) * ·) := by
    rw [List.map_map]
    rfl
  rw [evaluateGate, residue_addmod hm, residue_mulmod hm, sum, values, combine_map_mul,
    residue_zero, residues]
  ring

/-- The evaluation of gates is the combination of what they add. -/
theorem residue_evaluateGates (gates : List Gate) (acc : Word × Word) :
    let acc' := gates.foldl (evaluateGate modulus theta value) acc
    residue modulus.toNat acc'.1 = residue modulus.toNat acc.1 +
        residue modulus.toNat acc.2 * combine (residue modulus.toNat theta)
          (gates.flatMap (Gate.values (residues modulus.toNat value))) ∧
      residue modulus.toNat acc'.2 = residue modulus.toNat acc.2 *
        residue modulus.toNat theta ^ (gates.flatMap Gate.constraints).length := by
  induction gates generalizing acc with
  | nil => simp
  | cons g gates ih =>
      obtain ⟨first, firstPower⟩ := residue_evaluateGate hm theta value g acc
      obtain ⟨sum, power⟩ := ih (evaluateGate modulus theta value acc g)
      have length : (g.values (residues modulus.toNat value)).length = g.constraints.length :=
        List.length_map _
      refine ⟨sum.trans ?_, power.trans ?_⟩
      · rw [List.flatMap_cons, combine_append, first, firstPower, length]
        ring
      · rw [List.flatMap_cons, List.length_append, firstPower]
        ring

/-- At least one gate leaves a reduced word. -/
theorem evaluateGates_lt {gates : List Gate} (nonempty : gates ≠ []) (acc : Word × Word) :
    (gates.foldl (evaluateGate modulus theta value) acc).1.toNat < modulus.toNat := by
  obtain ⟨gates, g, rfl⟩ := (List.eq_nil_or_concat' gates).resolve_left nonempty
  have positive : 0 < modulus.toNat := Nat.pos_of_ne_zero fun h => hm (BitVec.eq_of_toNat_eq h)
  rw [List.foldl_append, List.foldl_cons, List.foldl_nil, evaluateGate, addmod_toNat hm]
  exact Nat.mod_lt _ positive

end Residue

end GateArgument
