import NilAutotest.GateArgument.Argument
import NilAutotest.GateArgument.Modulus

/-!
# What the gate argument decides

The word that the contract returns is the combination of all gates on the evaluations in
the proof, reduced modulo the modulus. Modulo the prime of the circuit this is a test of
the gates: it returns zero for every `theta` if all of them are enforced, and for at most
fifty-six values of `theta` if one is not.
-/

namespace GateArgument

open Evm Batching

/-- All gates, in the order of their powers of `theta`. -/
abbrev templateGates : List Gate := templateGate0 ++ templateGate15

/-! ## The circuit -/

/-- The modulus of the circuit as a word. -/
def circuitWord : Word := BitVec.ofNat 256 circuitModulus

theorem toNat_circuitWord : circuitWord.toNat = circuitModulus := by
  decide +kernel

/-- `arithmetization_params` in `circuit_params.json`; the permutation argument covers all
columns but the selectors. -/
def circuitColumns : ArithmetizationParams := ⟨15, 25, 5, 30⟩

/-- `columns_rotations` in `circuit_params.json` -/
def circuitRotations : List (List Word) :=
  List.replicate 9 [-1, 0, 1] ++ List.replicate 46 [0]

theorem covers_circuit : Covers circuitColumns circuitRotations where
  witness := by decide
  rotations := by
    intro i hi rotations found
    rw [circuitRotations, List.getElem?_append_left (by simpa using hi),
      List.getElem?_replicate_of_lt hi] at found
    rw [← Option.some.inj found]
    rfl
  constant := by decide
  selector := by decide

/-- A proof in which all evaluations are zero. -/
def zeroReader : ProofReader := ⟨fun _ _ => .ok 0, fun _ _ => .ok 0⟩

theorem reads_zeroReader :
    Reads zeroReader circuitColumns circuitRotations (zeroReader.cell circuitColumns) where
  witnessSize := by decide
  constantSize := by decide
  selectorSize := by decide
  witness := by
    intro i hi
    have short : ∀ k < 15, ∃ rotations, circuitRotations[k]? = some rotations ∧
        rotations.length < 2 ^ 64 := by decide
    obtain ⟨rotations, found, size⟩ := short i hi
    exact ⟨rotations, found, size, fun _ _ => rfl⟩
  constant := by
    intro i hi
    have small : i < 5 := hi
    exact ⟨show 25 + 25 + i < 2 ^ 256 by omega, rfl⟩
  selector := by
    intro i hi
    have small : i < 30 := hi
    exact ⟨show 25 + 25 + 5 + i < 2 ^ 256 by omega, rfl⟩

/-! ## The word that is returned -/

section Result

variable {reader : ProofReader} {ar : ArithmetizationParams} {columnsRotations : List (List Word)}

/-- The gates one after the other add up to their combination. -/
theorem evaluate_templateGates {modulus : Word} (hm : modulus ≠ 0) (theta : Word)
    (value : Cell → Word) :
    let v := (templateGates.foldl (evaluateGate modulus theta value) (0, 1)).1
    v.toNat < modulus.toNat ∧ residue modulus.toNat v =
      combine (residue modulus.toNat theta)
        (templateGates.flatMap (Gate.values (residues modulus.toNat value))) := by
  have nonempty : templateGates ≠ [] := List.cons_ne_nil _ _
  have sum := (residue_evaluateGates hm theta value templateGates (0, 1)).1
  have one : residue modulus.toNat 1 = 1 := by simp [residue]
  rw [residue_zero, one, zero_add, one_mul] at sum
  exact ⟨evaluateGates_lt hm theta value nonempty (0, 1), sum⟩

theorem evaluateGatesBe_eq_ok_zero_iff {modulus : Word} (theta : Word) (hm : modulus ≠ 0)
    (covers : Covers ar columnsRotations)
    (reads : Reads reader ar columnsRotations (reader.cell ar)) :
    evaluateGatesBe reader ⟨modulus, theta⟩ ar columnsRotations = .ok 0 ↔
      combine (residue modulus.toNat theta)
        (templateGates.flatMap (Gate.values (residues modulus.toNat (reader.cell ar)))) = 0 := by
  obtain ⟨reduced, sum⟩ := evaluate_templateGates hm theta (reader.cell ar)
  rw [evaluateGatesBe_eq_ok reads covers, ← sum, residue, ZMod.natCast_eq_zero_iff,
    Nat.dvd_iff_mod_eq_zero, Nat.mod_eq_of_lt reduced, Except.ok.injEq, ← BitVec.toNat_inj]
  rfl

end Result

/-! ## The challenges that accept -/

section Challenges

variable {reader : ProofReader} {ar : ArithmetizationParams} {columnsRotations : List (List Word)}

theorem length_flatMap_values {R : Type*} [CommRing R] (row : Cell → R) (gates : List Gate) :
    (gates.flatMap (Gate.values row)).length = (gates.flatMap Gate.constraints).length := by
  simp [List.length_flatMap, Gate.values]

theorem enforced_template_iff {R : Type*} [CommRing R] [IsDomain R] (row : Cell → R) :
    (∀ g ∈ templateGates, g.Enforced row) ↔
      ∀ v ∈ templateGates.flatMap (Gate.values row), v = 0 := by
  simp only [Gate.enforced_iff, List.forall_mem_flatMap]

/-- Over a prime modulus the contract returns zero for all challenges or for fewer than
there are constraints. -/
theorem soundness_of_prime {modulus : Word} {n : Nat} (hn : modulus.toNat = n) [Fact n.Prime]
    (covers : Covers ar columnsRotations)
    (reads : Reads reader ar columnsRotations (reader.cell ar)) :
    let row := residues n (reader.cell ar)
    let accepted := {theta : Word | theta.toNat < n ∧
      evaluateGatesBe reader ⟨modulus, theta⟩ ar columnsRotations = .ok 0}
    ((∀ g ∈ templateGates, g.Enforced row) →
        ∀ theta, evaluateGatesBe reader ⟨modulus, theta⟩ ar columnsRotations = .ok 0) ∧
      ((∃ g ∈ templateGates, ¬ g.Enforced row) → accepted.ncard ≤ 56) := by
  subst hn
  intro row accepted
  have hm : modulus ≠ 0 := by
    intro zero
    have prime : modulus.toNat.Prime := Fact.out
    rw [zero] at prime
    exact Nat.not_prime_zero prime
  have zero_iff : ∀ theta, _ := fun theta =>
    evaluateGatesBe_eq_ok_zero_iff theta hm covers reads
  constructor
  · intro enforced theta
    rw [zero_iff]
    exact combine_eq_zero ((enforced_template_iff row).mp enforced) _
  · intro violated
    have nonzero : ∃ v ∈ templateGates.flatMap (Gate.values row), v ≠ 0 := by
      by_contra none
      push Not at none
      obtain ⟨g, hg, violated⟩ := violated
      exact violated ((enforced_template_iff row).mpr none g hg)
    obtain ⟨finite, few⟩ := ncard_combine_lt nonzero
    rw [length_flatMap_values, length_template_constraints] at few
    have roots : accepted.ncard ≤
        {θ | combine θ (templateGates.flatMap (Gate.values row)) = 0}.ncard := by
      apply Set.ncard_le_ncard_of_injOn (residue modulus.toNat) _ _ finite
      · rintro theta ⟨-, h⟩
        exact (zero_iff theta).mp h
      · rintro a ⟨ha, -⟩ b ⟨hb, -⟩ same
        apply BitVec.eq_of_toNat_eq
        rw [toNat_eq_val ha, toNat_eq_val hb, same]
    omega

end Challenges

end GateArgument
