import Mathlib.Data.Fintype.Pigeonhole
import Mathlib.Dynamics.PeriodicPts.Lemmas
import Mathlib.GroupTheory.Perm.Cycle.Basic
import Mathlib.Logic.Relation
import Mathlib.Algebra.BigOperators.GroupWithZero.Finset

/-!
# Joining cycles

A permutation that is followed by a swap of two elements of different cycles has these two
cycles joined and all others as they were. A function is constant on the cycles exactly when
the permutation leaves it as it is, so a join adds one equation to the functions that are
left as they are.
-/

namespace Permutation

open Equiv Equiv.Perm Function

variable {α β : Type*} {p : Perm α} {a b x y : α}

theorem eq_of_sameCycle {v : α → β} (fixed : ∀ z, v (p z) = v z) (h : p.SameCycle x y) :
    v x = v y := by
  have powers : ∀ n : Nat, ∀ z, v ((p ^ n) z) = v z := by
    intro n
    induction n with
    | zero => exact fun z => rfl
    | succ n ih =>
        intro z
        rw [pow_succ', mul_apply, fixed, ih]
  obtain ⟨n, rfl⟩ := h
  obtain ⟨n, rfl | rfl⟩ := n.eq_nat_or_neg
  · rw [zpow_natCast, powers]
  · have back := powers n ((p ^ (-n : Int)) x)
    rwa [← zpow_natCast, ← mul_apply, ← zpow_add, add_neg_cancel, zpow_zero, one_apply] at back

section Classes

variable {r : α → α → Prop}

/-- The functions that a permutation leaves as they are determine its cycles. -/
theorem sameCycle_iff_eqvGen
    (fixed : ∀ v : α → Prop, (∀ z, v (p z) = v z) ↔ ∀ x y, r x y → v x = v y) :
    p.SameCycle x y ↔ Relation.EqvGen r x y := by
  constructor
  · intro h
    have classes := (fixed fun z => Relation.EqvGen r x z).mpr fun y z related =>
      propext ⟨fun h => h.trans _ _ _ (.rel _ _ related),
        fun h => h.trans _ _ _ (.symm _ _ (.rel _ _ related))⟩
    exact (eq_of_sameCycle classes h).mp (.refl x)
  · intro h
    induction h with
    | rel x y related =>
        have cycles := (fixed fun z => p.SameCycle x z).mp fun z => propext sameCycle_apply_right
        exact (cycles x y related).mp (SameCycle.refl p x)
    | refl x => exact SameCycle.refl p x
    | symm x y _ ih => exact ih.symm
    | trans x y z _ _ first second => exact first.trans second

theorem fixed_iff_eqvGen (classes : ∀ x y, p.SameCycle x y ↔ Relation.EqvGen r x y) {v : α → β} :
    (∀ z, v (p z) = v z) ↔ ∀ x y, r x y → v x = v y := by
  constructor
  · exact fun fixed x y related => eq_of_sameCycle fixed ((classes x y).mpr (.rel x y related))
  · intro h z
    have same := (classes (p z) z).mp (sameCycle_apply_left.mpr (SameCycle.refl p z))
    generalize p z = w at same ⊢
    induction same with
    | rel x y related => exact h x y related
    | refl x => rfl
    | symm x y _ ih => exact ih.symm
    | trans x y z _ _ first second => exact first.trans second

end Classes

section Orbit

variable {s : Finset α} (closed : Set.MapsTo p s s)
include closed

theorem mem_periodicPts_of_closed (hx : x ∈ s) : x ∈ periodicPts p := by
  obtain ⟨i, j, apart, same⟩ := Finite.exists_ne_map_eq_of_infinite
    fun n : Nat => (⟨p^[n] x, closed.iterate n hx⟩ : s)
  have same : p^[i] x = p^[j] x := congrArg Subtype.val same
  rcases lt_or_gt_of_ne apart with less | less
  · refine mem_periodicPts.mpr ⟨j - i, by omega, p.injective.iterate i ?_⟩
    rw [← iterate_add_apply, Nat.add_sub_cancel' less.le, same]
  · refine mem_periodicPts.mpr ⟨i - j, by omega, p.injective.iterate j ?_⟩
    rw [← iterate_add_apply, Nat.add_sub_cancel' less.le, same]

/-- The elements of an orbit before it closes are different elements of the set. -/
theorem minimalPeriod_le_card (hx : x ∈ s) : minimalPeriod p x ≤ s.card := by
  have inside : Set.MapsTo (fun n => p^[n] x) (Finset.range (minimalPeriod p x)) s :=
    fun n _ => closed.iterate n hx
  have distinct : Set.InjOn (fun n => p^[n] x) (Finset.range (minimalPeriod p x)) := by
    intro m hm n hn same
    exact iterate_injOn_Iio_minimalPeriod (Finset.mem_range.mp hm) (Finset.mem_range.mp hn) same
  have count := Finset.card_le_card_of_injOn _ inside distinct
  rwa [Finset.card_range] at count

end Orbit

/-- The cycle of a periodic point is its orbit. -/
theorem sameCycle_iff_iterate (periodic : x ∈ periodicPts p) :
    p.SameCycle x y ↔ ∃ n < minimalPeriod p x, p^[n] x = y := by
  have positive := minimalPeriod_pos_of_mem_periodicPts periodic
  constructor
  · intro h
    have fixed : ∀ z, (∃ n, p^[n] x = p z) = ∃ n, p^[n] x = z := by
      intro z
      apply propext
      constructor
      · rintro ⟨n, hn⟩
        refine ⟨n + (minimalPeriod p x - 1), p.injective ?_⟩
        have index : n + (minimalPeriod p x - 1) + 1 = n + minimalPeriod p x := by omega
        rw [← iterate_succ_apply' p, Nat.succ_eq_add_one, index, iterate_add_apply,
          iterate_minimalPeriod, hn]
      · rintro ⟨n, rfl⟩
        exact ⟨n + 1, iterate_succ_apply' p n x⟩
    have reached := eq_of_sameCycle (v := fun z => ∃ n, p^[n] x = z) fixed h
    obtain ⟨n, rfl⟩ := reached.mp ⟨0, rfl⟩
    exact ⟨n % minimalPeriod p x, Nat.mod_lt n positive, iterate_mod_minimalPeriod_eq⟩
  · rintro ⟨n, -, rfl⟩
    rw [← coe_pow]
    exact ⟨n, by rw [zpow_natCast]⟩

section Join

variable [DecidableEq α] (apart : ¬ p.SameCycle a b) (periodic : b ∈ periodicPts p)
include apart periodic

/-- From `a` the joined permutation goes through the cycle of `b`. -/
theorem sameCycle_mul_swap : (p * swap a b).SameCycle a b := by
  have orbit : ∀ n, n < minimalPeriod p b → (p * swap a b)^[n + 1] a = p^[n + 1] b := by
    intro n
    induction n with
    | zero => simp
    | succ n ih =>
        intro less
        have notB : p^[n + 1] b ≠ b :=
          not_isPeriodicPt_of_pos_of_lt_minimalPeriod n.succ_ne_zero less
        have notA : p^[n + 1] b ≠ a := by
          intro same
          apply apart
          rw [← same, ← coe_pow]
          exact (SameCycle.refl p b).symm.trans ⟨(n + 1 : Nat), by rw [zpow_natCast]⟩ |>.symm
        rw [iterate_succ_apply', ih (by omega), mul_apply, swap_apply_of_ne_of_ne notA notB,
          ← iterate_succ_apply' p]
  have positive := minimalPeriod_pos_of_mem_periodicPts periodic
  have index : minimalPeriod p b - 1 + 1 = minimalPeriod p b := Nat.sub_add_cancel positive
  have last := orbit (minimalPeriod p b - 1) (by omega)
  rw [index, iterate_minimalPeriod, ← coe_pow] at last
  exact ⟨minimalPeriod p b, by rw [zpow_natCast, last]⟩

/-- A join adds one equation: a function is left as it is by the joined permutation if it is by the
one before, and takes the same value at the two elements. -/
theorem fixed_mul_swap_iff (v : α → β) :
    (∀ z, v ((p * swap a b) z) = v z) ↔ (∀ z, v (p z) = v z) ∧ v a = v b := by
  constructor
  · intro fixed
    have same := eq_of_sameCycle fixed (sameCycle_mul_swap apart periodic)
    refine ⟨fun z => ?_, same⟩
    have back := fixed (swap a b z)
    rw [mul_apply, swap_apply_self] at back
    rw [back]
    rcases eq_or_ne z a with rfl | notA
    · rw [swap_apply_left, same]
    rcases eq_or_ne z b with rfl | notB
    · rw [swap_apply_right, same]
    rw [swap_apply_of_ne_of_ne notA notB]
  · rintro ⟨fixed, same⟩ z
    rw [mul_apply, fixed]
    rcases eq_or_ne z a with rfl | notA
    · rw [swap_apply_left, same]
    rcases eq_or_ne z b with rfl | notB
    · rw [swap_apply_right, same]
    rw [swap_apply_of_ne_of_ne notA notB]

/-- The two cycles are joined, and all others are as they were. -/
theorem sameCycle_mul_swap_iff : (p * swap a b).SameCycle x y ↔
    p.SameCycle x y ∨ (p.SameCycle x a ∧ p.SameCycle b y) ∨
      (p.SameCycle x b ∧ p.SameCycle a y) := by
  constructor
  · intro h
    let v (z : α) : Prop :=
      p.SameCycle x z ∨ (p.SameCycle x a ∧ p.SameCycle b z) ∨ (p.SameCycle x b ∧ p.SameCycle a z)
    have ends : v a = v b := by
      have ra := SameCycle.refl p a
      have rb := SameCycle.refl p b
      exact propext (by tauto)
    have fixed := (fixed_mul_swap_iff apart periodic v).mpr
      ⟨fun z => by simp only [v, sameCycle_apply_right], ends⟩
    exact (eq_of_sameCycle fixed h).mp (.inl (SameCycle.refl p x))
  · intro h
    obtain ⟨fixed, ends⟩ := (fixed_mul_swap_iff apart periodic
      fun z => (p * swap a b).SameCycle x z).mp fun z => propext sameCycle_apply_right
    have start := SameCycle.refl (p * swap a b) x
    rcases h with h | ⟨first, second⟩ | ⟨first, second⟩
    · exact (eq_of_sameCycle fixed h).mp start
    · exact (eq_of_sameCycle fixed second).mp (ends.mp ((eq_of_sameCycle fixed first).mp start))
    · exact (eq_of_sameCycle fixed second).mp (ends.mpr ((eq_of_sameCycle fixed first).mp start))

end Join

/-- The quotients of the values at the elements of a set and at their images cancel. -/
theorem prod_div_image {M : Type*} [CommGroupWithZero M] {s : Finset α}
    (inside : ∀ z, z ∈ s ↔ p z ∈ s) {b : α → M} (nonzero : ∀ x ∈ s, b x ≠ 0) :
    ∏ x ∈ s, b x / b (p x) = 1 := by
  have same : ∏ x ∈ s, b (p x) = ∏ x ∈ s, b x := Finset.prod_equiv p inside fun _ _ => rfl
  rw [Finset.prod_div_distrib, same, div_self (Finset.prod_ne_zero_iff.mpr nonzero)]

end Permutation
