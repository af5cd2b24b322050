import NilAutotest.Circuit.Verifier
import NilAutotest.Permutation.Cycles
import Mathlib.Data.Set.Card
import Mathlib.Logic.Relation

/-!
# Copy constraints

The preprocessor turns the copy constraints into one permutation of the cells. A constraint
between two cycles joins them: the cycle with fewer cells takes the label of the other one,
in a loop that follows the mapping until it is back, and the images of the two cells are
exchanged. In the end the cycles are the classes of cells that the constraints connect.
-/

namespace Circuit

open Equiv Function Permutation

/-- `key_type`: a column and a row. -/
abbrev KeyType := Nat × Nat

/-- `cycle_representation`: the three maps have the same keys at all times, so they are total
functions here, with the keys in a set of their own. `_aux` is the label of a cycle and `_sizes`,
at a label, the number of its cells. -/
structure CycleRepresentation where
  keys : Finset KeyType
  mapping : KeyType → KeyType
  aux : KeyType → KeyType
  sizes : KeyType → Nat

namespace CycleRepresentation

/-- The keys of the table, each with itself. -/
def initial (table : TableDescription) (rowsAmount : Nat) : CycleRepresentation where
  keys := Finset.range (table.witnessColumns + table.publicInputColumns + table.constantColumns) ×ˢ
    Finset.range rowsAmount
  mapping := id
  aux := id
  sizes := fun _ => 1

/-- A key that is new is mapped to itself. -/
def insertNew (c : CycleRepresentation) (x : KeyType) : CycleRepresentation :=
  if x ∈ c.keys then c
  else ⟨insert x c.keys, update c.mapping x x, update c.aux x x, update c.sizes x 1⟩

/-- The loop over the cycle of `exitCondition`, which it does not relabel before it is back there.
There is no result when it takes more steps than `fuel`. -/
def relabel (mapping : KeyType → KeyType) (left exitCondition : KeyType) :
    Nat → (KeyType → KeyType) → KeyType → Option (KeyType → KeyType)
  | 0, _, _ => none
  | fuel + 1, aux, z =>
      let aux := update aux z (aux left)
      let z := mapping z
      if z ≠ exitCondition then relabel mapping left exitCondition fuel aux z else some aux

/-- The cycle of `right` is joined to the one of `left`. The fuel of the loop is the number of
keys: no cycle has more cells (`relabel_eq`). -/
def join (c : CycleRepresentation) (left right : KeyType) : Option CycleRepresentation := do
  let sizes := update c.sizes (c.aux left) (c.sizes (c.aux left) + c.sizes (c.aux right))
  let aux ← relabel c.mapping left (c.aux right) c.keys.card c.aux (c.aux right)
  let tmp := c.mapping left
  let mapping := update c.mapping left (c.mapping right)
  pure ⟨c.keys, update mapping right tmp, aux, sizes⟩

/-- `apply_copy_constraint` -/
def applyCopyConstraint (c : CycleRepresentation) (x y : KeyType) : Option CycleRepresentation :=
  let c := (c.insertNew x).insertNew y
  if c.aux x ≠ c.aux y then
    if c.sizes (c.aux x) < c.sizes (c.aux y) then c.join y x else c.join x y
  else some c

end CycleRepresentation

/-- The key of a variable of a copy constraint; the row is converted to sixty-four bits. -/
def copyKey (table : TableDescription) (var : PlonkVariable) : KeyType :=
  (table.globalIndex var, (var.rotation % 2 ^ 64).toNat)

/-- The constructor of `cycle_representation` -/
def cycleRepresentation (table : TableDescription) (rowsAmount : Nat)
    (copyConstraints : List (PlonkVariable × PlonkVariable)) : Option CycleRepresentation :=
  copyConstraints.foldlM (fun c constraint =>
    c.applyCopyConstraint (copyKey table constraint.1) (copyKey table constraint.2))
      (.initial table rowsAmount)

/-! ## The cycles -/

/-- The mapping is a permutation of the keys, and the labels and sizes are those of its
cycles. Every operation keeps this, with another permutation. -/
structure CycleRepresentation.Cycles (c : CycleRepresentation) (p : Perm KeyType) : Prop where
  mapping : c.mapping = p
  closed : ∀ x ∈ c.keys, p x ∈ c.keys
  outside : ∀ x ∉ c.keys, p x = x
  labels : ∀ x y, c.aux x = c.aux y ↔ p.SameCycle x y
  label : ∀ x, p.SameCycle x (c.aux x)
  sizes : ∀ x, c.sizes (c.aux x) = {y | p.SameCycle x y}.ncard

namespace CycleRepresentation.Cycles

variable {c : CycleRepresentation} {p : Perm KeyType} {x y left right : KeyType}

theorem periodic (h : c.Cycles p) (x : KeyType) : x ∈ periodicPts p := by
  by_cases inside : x ∈ c.keys
  · exact mem_periodicPts_of_closed h.closed inside
  · exact mk_mem_periodicPts one_pos (h.outside x inside)

theorem eq_of_outside (h : c.Cycles p) (outside : x ∉ c.keys) (same : p.SameCycle x y) :
    y = x := by
  obtain ⟨n, rfl⟩ := same
  exact Perm.zpow_apply_eq_self_of_apply_eq_self (h.outside x outside) n

theorem finite (h : c.Cycles p) (x : KeyType) : {y | p.SameCycle x y}.Finite := by
  by_cases inside : x ∈ c.keys
  · refine c.keys.finite_toSet.subset fun y same => ?_
    obtain ⟨n, -, rfl⟩ := (sameCycle_iff_iterate (h.periodic x)).mp same
    exact Set.MapsTo.iterate h.closed n inside
  · exact (Set.finite_singleton x).subset fun y same => h.eq_of_outside inside same

theorem insertNew (h : c.Cycles p) (x : KeyType) : (c.insertNew x).Cycles p ∧
    x ∈ (c.insertNew x).keys ∧ c.keys ⊆ (c.insertNew x).keys := by
  rw [CycleRepresentation.insertNew]
  split
  · next inside => exact ⟨h, inside, subset_rfl⟩
  · next outside =>
      have mapping : update c.mapping x x = c.mapping := by
        rw [update_eq_self_iff, h.mapping, h.outside x outside]
      have aux : update c.aux x x = c.aux := by
        rw [update_eq_self_iff]
        exact (h.eq_of_outside outside (h.label x)).symm
      have alone : {y | p.SameCycle x y} = {x} := by
        ext y
        exact ⟨fun same => h.eq_of_outside outside same, fun same => same ▸ Perm.SameCycle.refl p x⟩
      have sizes : update c.sizes x 1 = c.sizes := by
        rw [update_eq_self_iff]
        have size := h.sizes x
        rw [h.eq_of_outside outside (h.label x), alone, Set.ncard_singleton] at size
        exact size.symm
      rw [mapping, aux, sizes]
      refine ⟨⟨h.mapping, ?_, ?_, h.labels, h.label, h.sizes⟩, Finset.mem_insert_self _ _,
        Finset.subset_insert _ _⟩
      · intro y hy
        rcases Finset.mem_insert.mp hy with rfl | inside
        · rw [h.outside y outside]
          exact hy
        · exact Finset.mem_insert_of_mem (h.closed y inside)
      · intro y hy
        exact h.outside y fun inside => hy (Finset.mem_insert_of_mem inside)

end CycleRepresentation.Cycles

namespace CycleRepresentation

section Relabel

variable {p : Perm KeyType} {left e : KeyType} (apart : ¬ p.SameCycle left e)
include apart

theorem ne_iterate (i : Nat) : left ≠ p^[i] e := by
  rintro rfl
  apply apart
  rw [← Perm.coe_pow]
  exact Perm.sameCycle_pow_left.mpr (Perm.SameCycle.refl p e)

/-- The first `i` cells of the cycle have the new label, and all others the old one. This is what
the loop keeps from one turn to the next. -/
structure Relabelled (p : Perm KeyType) (left e : KeyType) (i : Nat)
    (aux aux' : KeyType → KeyType) : Prop where
  done : ∀ j < i, aux' (p^[j] e) = aux left
  rest : ∀ w, (∀ j < i, w ≠ p^[j] e) → aux' w = aux w

theorem Relabelled.step {i : Nat} {aux aux' : KeyType → KeyType}
    (h : Relabelled p left e i aux aux') :
    Relabelled p left e (i + 1) aux (update aux' (p^[i] e) (aux' left)) := by
  have label : aux' left = aux left := h.rest left fun j _ => ne_iterate apart j
  refine ⟨fun j hj => ?_, fun w outside => ?_⟩
  · rcases eq_or_ne (p^[j] e) (p^[i] e) with same | other
    · rw [same, update_self, label]
    · have earlier : j < i := by
        rcases Nat.lt_succ_iff_lt_or_eq.mp hj with less | rfl
        · exact less
        · exact absurd rfl other
      rw [update_of_ne other, h.done j earlier]
  · rw [update_of_ne (outside i (Nat.lt_succ_self i)),
      h.rest w fun j hj => outside j (Nat.lt_succ_of_lt hj)]

variable (periodic : e ∈ periodicPts p)
include periodic

/-- The loop ends when the orbit closes, and then the whole cycle has the new label. -/
theorem relabel_eq (steps i : Nat) (last : i + steps + 1 = minimalPeriod p e) {fuel : Nat}
    (enough : steps < fuel) {aux aux' : KeyType → KeyType} (h : Relabelled p left e i aux aux') :
    ∃ result, relabel p left e fuel aux' (p^[i] e) = some result ∧
      (∀ w, p.SameCycle e w → result w = aux left) ∧
        ∀ w, ¬ p.SameCycle e w → result w = aux w := by
  obtain ⟨fuel, rfl⟩ := Nat.exists_eq_succ_of_ne_zero (Nat.ne_zero_of_lt enough)
  have next := h.step apart
  have turn : p (p^[i] e) = p^[i + 1] e := (iterate_succ_apply' p i e).symm
  rw [relabel, turn]
  induction steps generalizing i fuel aux' with
  | zero =>
      have closes : p^[i + 1] e = e := by
        rw [← Nat.add_zero i, last, iterate_minimalPeriod]
      refine ⟨_, if_neg (not_not.mpr closes), fun w same => ?_, fun w other => ?_⟩
      · obtain ⟨j, hj, rfl⟩ := (sameCycle_iff_iterate periodic).mp same
        exact next.done j (by omega)
      · refine next.rest w fun j _ equal => other ?_
        rw [equal, ← Perm.coe_pow]
        exact Perm.sameCycle_pow_right.mpr (Perm.SameCycle.refl p e)
  | succ steps ih =>
      have goes : p^[i + 1] e ≠ e :=
        not_isPeriodicPt_of_pos_of_lt_minimalPeriod i.succ_ne_zero (by omega)
      obtain ⟨fuel, rfl⟩ := Nat.exists_eq_succ_of_ne_zero (show fuel ≠ 0 by omega)
      have turn' : p (p^[i + 1] e) = p^[i + 1 + 1] e := (iterate_succ_apply' p (i + 1) e).symm
      rw [if_pos goes, relabel, turn']
      exact ih (i + 1) (by omega) next fuel (by omega) (next.step apart) turn'

end Relabel

/-! ## The operations -/

namespace Cycles

variable {c : CycleRepresentation} {p : Perm KeyType} {x y left right : KeyType}

theorem inside_of_sameCycle (h : c.Cycles p) (hx : x ∈ c.keys) (same : p.SameCycle x y) :
    y ∈ c.keys := by
  obtain ⟨n, -, rfl⟩ := (sameCycle_iff_iterate (h.periodic x)).mp same
  exact Set.MapsTo.iterate h.closed n hx

/-- The cells of two cycles that are joined. -/
theorem ncard_union (h : c.Cycles p) (apart : ¬ p.SameCycle left right) :
    {y | p.SameCycle left y ∨ p.SameCycle right y}.ncard =
      c.sizes (c.aux left) + c.sizes (c.aux right) := by
  have disjoint : Disjoint {y | p.SameCycle left y} {y | p.SameCycle right y} := by
    refine Set.disjoint_left.mpr fun y first second => apart ?_
    exact Perm.SameCycle.trans first (Perm.SameCycle.symm second)
  rw [h.sizes, h.sizes, ← Set.ncard_union_eq disjoint (h.finite left) (h.finite right)]
  rfl

section Join

variable {aux : KeyType → KeyType} (h : c.Cycles p) (apart : ¬ p.SameCycle left right)
  (relabelled : ∀ w, p.SameCycle right w → aux w = c.aux left)
  (kept : ∀ w, ¬ p.SameCycle right w → aux w = c.aux w)
include h apart

theorem sameCycle_joined : (p * swap left right).SameCycle x y ↔ p.SameCycle x y ∨
    (p.SameCycle left x ∧ p.SameCycle right y) ∨ (p.SameCycle right x ∧ p.SameCycle left y) := by
  rw [sameCycle_mul_swap_iff apart (h.periodic right), p.sameCycle_comm (x := x) (y := left),
    p.sameCycle_comm (x := x) (y := right)]

include relabelled kept

theorem joined_labels : aux x = aux y ↔ (p * swap left right).SameCycle x y := by
  rw [h.sameCycle_joined apart]
  by_cases hx : p.SameCycle right x <;> by_cases hy : p.SameCycle right y
  · simp only [relabelled x hx, relabelled y hy, true_iff]
    exact .inl (hx.symm.trans hy)
  · have other : ¬ p.SameCycle x y := fun same => hy (hx.trans same)
    simp only [relabelled x hx, kept y hy, h.labels, hx, hy, other, and_false, false_or, true_and]
  · have other : ¬ p.SameCycle x y := fun same => hx (hy.trans same.symm)
    simp only [kept x hx, relabelled y hy, h.labels, hx, hy, other, and_true, false_and, or_false,
      false_or]
    exact p.sameCycle_comm
  · simp only [kept x hx, kept y hy, h.labels, hx, hy, and_false, false_and, or_false]

theorem joined_label : (p * swap left right).SameCycle x (aux x) := by
  rw [h.sameCycle_joined apart]
  by_cases hx : p.SameCycle right x
  · rw [relabelled x hx]
    exact .inr (.inr ⟨hx, h.label left⟩)
  · rw [kept x hx]
    exact .inl (h.label x)

theorem joined_sizes :
    update c.sizes (c.aux left) (c.sizes (c.aux left) + c.sizes (c.aux right)) (aux x) =
      {y | (p * swap left right).SameCycle x y}.ncard := by
  by_cases joined : p.SameCycle left x ∨ p.SameCycle right x
  · have label : aux x = c.aux left := by
      by_cases hx : p.SameCycle right x
      · exact relabelled x hx
      · rw [kept x hx, h.labels]
        exact (joined.resolve_right hx).symm
    have cells : {y | (p * swap left right).SameCycle x y} =
        {y | p.SameCycle left y ∨ p.SameCycle right y} := by
      ext y
      rw [Set.mem_ofPred_eq, Set.mem_ofPred_eq, h.sameCycle_joined apart]
      have through : ∀ z, p.SameCycle z x → (p.SameCycle x y ↔ p.SameCycle z y) := fun z same =>
        ⟨same.trans, same.symm.trans⟩
      have := through left
      have := through right
      tauto
    rw [label, update_self, cells, h.ncard_union apart]
  · obtain ⟨notLeft, notRight⟩ := not_or.mp joined
    have label : c.aux x ≠ c.aux left := fun same => notLeft ((h.labels x left).mp same).symm
    have cells : {y | (p * swap left right).SameCycle x y} = {y | p.SameCycle x y} := by
      ext y
      simp only [Set.mem_ofPred_eq, h.sameCycle_joined apart, notLeft, notRight, false_and,
        or_false]
    rw [kept x notRight, update_of_ne label, h.sizes, cells]

end Join

/-- Two cycles are joined, and the loop over one of them ends. -/
theorem join (h : c.Cycles p) (hleft : left ∈ c.keys) (hright : right ∈ c.keys)
    (apart : ¬ p.SameCycle left right) :
    ∃ c', c.join left right = some c' ∧ c'.keys = c.keys ∧ c'.Cycles (p * swap left right) := by
  have apart' : ¬ p.SameCycle left (c.aux right) := fun same =>
    apart (same.trans (h.label right).symm)
  have periodic := h.periodic (c.aux right)
  have positive := minimalPeriod_pos_of_mem_periodicPts periodic
  have bound := minimalPeriod_le_card h.closed (h.inside_of_sameCycle hright (h.label right))
  obtain ⟨aux, computed, relabelled, kept⟩ :=
    relabel_eq apart' periodic (minimalPeriod p (c.aux right) - 1) 0 (by omega)
      (show _ < c.keys.card by omega) (⟨fun _ less => absurd less (Nat.not_lt_zero _),
        fun _ _ => rfl⟩ : Relabelled p left (c.aux right) 0 c.aux c.aux)
  rw [iterate_zero_apply, ← h.mapping] at computed
  have relabelled : ∀ w, p.SameCycle right w → aux w = c.aux left := fun w same =>
    relabelled w ((h.label right).symm.trans same)
  have kept : ∀ w, ¬ p.SameCycle right w → aux w = c.aux w := fun w other =>
    kept w fun same => other ((h.label right).trans same)
  refine ⟨⟨c.keys, update (update c.mapping left (c.mapping right)) right (c.mapping left), aux,
    update c.sizes (c.aux left) (c.sizes (c.aux left) + c.sizes (c.aux right))⟩, ?_, rfl, ?_⟩
  · simp only [CycleRepresentation.join, computed, Option.bind_eq_bind, Option.bind_some]
    rfl
  · refine ⟨?_, ?_, ?_, fun x y => h.joined_labels apart relabelled kept,
      fun x => h.joined_label apart relabelled kept, fun x => h.joined_sizes apart relabelled kept⟩
    · rw [Perm.coe_mul, swap_comm, comp_swap_eq_update, h.mapping]
    · intro x hx
      rw [Perm.mul_apply]
      refine h.closed _ ?_
      rw [swap_apply_def]
      split_ifs
      · exact hright
      · exact hleft
      · exact hx
    · intro x hx
      have notLeft : x ≠ left := fun same => hx (same ▸ hleft)
      have notRight : x ≠ right := fun same => hx (same ▸ hright)
      rw [Perm.mul_apply, swap_apply_of_ne_of_ne notLeft notRight, h.outside x hx]

theorem initial (table : TableDescription) (rowsAmount : Nat) :
    (CycleRepresentation.initial table rowsAmount).Cycles 1 where
  mapping := rfl
  closed := fun _ hx => hx
  outside := fun _ _ => rfl
  labels := fun _ _ => Perm.sameCycle_one.symm
  label := fun x => Perm.SameCycle.refl 1 x
  sizes := by
    intro x
    have alone : {y | (1 : Perm KeyType).SameCycle x y} = {x} := by
      ext y
      exact Perm.sameCycle_one.trans eq_comm
    rw [alone, Set.ncard_singleton]
    rfl

/-- A copy constraint adds its equation. Within one cycle it changes nothing; between two cycles
the smaller one is relabelled and both are joined by a swap of two images. -/
theorem applyCopyConstraint (h : c.Cycles p) (x y : KeyType) :
    ∃ c' p', c.applyCopyConstraint x y = some c' ∧ c'.Cycles p' ∧ c.keys ⊆ c'.keys ∧
      ∀ v : KeyType → Prop, (∀ z, v (p' z) = v z) ↔ (∀ z, v (p z) = v z) ∧ v x = v y := by
  obtain ⟨hc, hx, subset⟩ := h.insertNew x
  obtain ⟨hc, hy, subset'⟩ := hc.insertNew y
  have hx := subset' hx
  have subset := subset.trans subset'
  rw [CycleRepresentation.applyCopyConstraint]
  generalize (c.insertNew x).insertNew y = c at hc hx hy subset
  by_cases same : p.SameCycle x y
  · refine ⟨c, p, if_neg (not_not.mpr ((hc.labels x y).mpr same)), hc, subset, fun v => ?_⟩
    exact ⟨fun fixed => ⟨fixed, eq_of_sameCycle fixed same⟩, And.left⟩
  · have labels : c.aux x ≠ c.aux y := fun equal => same ((hc.labels x y).mp equal)
    rw [if_pos labels]
    split
    · have apart : ¬ p.SameCycle y x := fun back => same back.symm
      obtain ⟨c', joined, keys, cycles⟩ := hc.join hy hx apart
      refine ⟨c', _, joined, cycles, keys ▸ subset, fun v => ?_⟩
      rw [fixed_mul_swap_iff apart (hc.periodic x), eq_comm (a := v y)]
    · obtain ⟨c', joined, keys, cycles⟩ := hc.join hx hy same
      exact ⟨c', _, joined, cycles, keys ▸ subset, fixed_mul_swap_iff same (hc.periodic y)⟩

end Cycles

end CycleRepresentation

/-! ## The classes of cells -/

/-- The cells that one copy constraint connects. -/
def Copied (table : TableDescription) (copyConstraints : List (PlonkVariable × PlonkVariable))
    (x y : KeyType) : Prop :=
  ∃ constraint ∈ copyConstraints, copyKey table constraint.1 = x ∧ copyKey table constraint.2 = y

variable (table : TableDescription) (rowsAmount : Nat)
  (copyConstraints : List (PlonkVariable × PlonkVariable))

/-- The constructor returns, and its cycles are the classes of the cells. The induction is on the
copy constraints; each adds one pair to the relation that generates the classes. -/
theorem exists_cycleRepresentation :
    ∃ c p, cycleRepresentation table rowsAmount copyConstraints = some c ∧ c.Cycles p ∧
      (CycleRepresentation.initial table rowsAmount).keys ⊆ c.keys ∧
        ∀ x y, p.SameCycle x y ↔ Relation.EqvGen (Copied table copyConstraints) x y := by
  have loop : ∀ (constraints : List (PlonkVariable × PlonkVariable)) (c : CycleRepresentation)
      (p : Perm KeyType), c.Cycles p →
      ∃ c' p', constraints.foldlM (fun c constraint =>
          c.applyCopyConstraint (copyKey table constraint.1) (copyKey table constraint.2)) c =
            some c' ∧ c'.Cycles p' ∧ c.keys ⊆ c'.keys ∧
        ∀ v : KeyType → Prop, (∀ z, v (p' z) = v z) ↔ (∀ z, v (p z) = v z) ∧
          ∀ k ∈ constraints, v (copyKey table k.1) = v (copyKey table k.2) := by
    intro constraints
    induction constraints with
    | nil => exact fun c p h => ⟨c, p, rfl, h, subset_rfl, fun v => by simp⟩
    | cons constraint constraints ih =>
        intro c p h
        obtain ⟨c₁, p₁, first, h₁, subset₁, fixed₁⟩ :=
          h.applyCopyConstraint (copyKey table constraint.1) (copyKey table constraint.2)
        obtain ⟨c₂, p₂, rest, h₂, subset₂, fixed₂⟩ := ih c₁ p₁ h₁
        refine ⟨c₂, p₂, ?_, h₂, subset₁.trans subset₂, fun v => ?_⟩
        · rw [List.foldlM_cons, first]
          exact rest
        · rw [fixed₂, fixed₁, and_assoc, List.forall_mem_cons]
  obtain ⟨c, p, computed, cycles, subset, fixed⟩ :=
    loop copyConstraints _ _ (CycleRepresentation.Cycles.initial table rowsAmount)
  refine ⟨c, p, computed, cycles, subset, fun x y => sameCycle_iff_eqvGen (fun v => ?_)⟩
  have unchanged : ∀ z, v ((1 : Perm KeyType) z) = v z := fun _ => rfl
  rw [fixed, and_iff_right unchanged]
  constructor
  · rintro h x y ⟨k, hk, rfl, rfl⟩
    exact h k hk
  · exact fun h k hk => h _ _ ⟨k, hk, rfl, rfl⟩

/-- The mapping of the preprocessor permutes the cells, with the classes of the copy
constraints as its cycles, which `_aux` labels and `_sizes` counts. The values in the cells
are left as they are by the mapping exactly when they meet all copy constraints. -/
theorem cycleRepresentation_spec {F : Type*} :
    ∃ c, cycleRepresentation table rowsAmount copyConstraints = some c ∧
      ∃ p : Perm KeyType, c.mapping = p ∧ (∀ x ∉ c.keys, p x = x) ∧
        (∀ x y, p.SameCycle x y ↔ Relation.EqvGen (Copied table copyConstraints) x y) ∧
        (∀ x y, c.aux x = c.aux y ↔ Relation.EqvGen (Copied table copyConstraints) x y) ∧
        (∀ x, c.sizes (c.aux x) =
          {y | Relation.EqvGen (Copied table copyConstraints) x y}.ncard) ∧
        ∀ v : KeyType → F, (∀ z, v (c.mapping z) = v z) ↔
          ∀ k ∈ copyConstraints, v (copyKey table k.1) = v (copyKey table k.2) := by
  obtain ⟨c, p, computed, cycles, -, classes⟩ :=
    exists_cycleRepresentation table rowsAmount copyConstraints
  refine ⟨c, computed, p, cycles.mapping, cycles.outside, classes,
    fun x y => (cycles.labels x y).trans (classes x y), fun x => ?_, fun v => ?_⟩
  · simp only [cycles.sizes, classes]
  · rw [cycles.mapping, fixed_iff_eqvGen classes]
    constructor
    · exact fun h k hk => h _ _ ⟨k, hk, rfl, rfl⟩
    · rintro h x y ⟨k, hk, rfl, rfl⟩
      exact h k hk

end Circuit
