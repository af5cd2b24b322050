import NilAutotest.GateArgument.Soundness
import NilAutotest.Circuit.Verifier

/-!
# The contract and the verifier

The assembly is printed from the flattened constraints of the circuit, with the column and
the position of the rotation in place of each variable. Whatever trees of constraints it
was printed from, the contract returns what the verifier computes from the trees and from
the same evaluations in the proof.
-/

namespace GateArgument

open Evm Batching Circuit

section Rendering

variable (table : TableDescription) (rotations : Nat → Finset Int)

/-- A variable is the column of its type with its rotation at a position. -/
def Located (var : PlonkVariable) (type : ColumnType) (idx rotIdx : Nat) : Prop :=
  var.type = type ∧ var.index = idx ∧ idx < table.columns type ∧
    (ascending (rotations (table.globalIndex var)))[rotIdx]? = some var.rotation

/-- The cell that is printed for a variable. Constants and selectors are read under their
first rotation. -/
def Names : Cell → PlonkVariable → Prop
  | .witness idx rotIdx, var => Located table rotations var .witness idx rotIdx
  | .constant idx, var => Located table rotations var .constant idx 0
  | .selector idx, var => Located table rotations var .selector idx 0

/-- The text that is printed for a term; a coefficient of one may be left out. -/
inductive RendersTerm {n : Nat} : Monomial → Term PlonkVariable (ZMod n) → Prop
  | scaled {coefficient : Word} {cells : List Cell} {vars : List PlonkVariable} :
      List.Forall₂ (Names table rotations) cells vars →
      RendersTerm (.scaled coefficient cells) ⟨vars, coefficient.toNat⟩
  | plain {cell : Cell} {var : PlonkVariable} {cells : List Cell} {vars : List PlonkVariable} :
      Names table rotations cell var → List.Forall₂ (Names table rotations) cells vars →
      RendersTerm (.plain cell cells) ⟨var :: vars, 1⟩

/-- The text that is printed for a constraint. -/
def RendersConstraint {n : Nat} (c : Constraint) (e : Expression PlonkVariable (ZMod n)) : Prop :=
  e.Positive ∧ List.Forall₂ (RendersTerm table rotations) c e.convert

/-- The text that is printed for a gate. -/
structure RendersGate {n : Nat} (g : Gate) (gate : PlonkGate (ZMod n)) : Prop where
  selector : Names table rotations (.selector g.selector) ⟨gate.selectorIndex, 0, .selector⟩
  constraints : List.Forall₂ (RendersConstraint table rotations) g.constraints gate.constraints

end Rendering

/-- `combined_value.z[0]` and `combined_value.z[3]`, as the contract reads them. -/
def variableValues (n : Nat) (reader : ProofReader) (i j : Nat) : ZMod n :=
  residue n (valueOf (reader.variableValue i j))

def fixedValues (n : Nat) (reader : ProofReader) (i j : Nat) : ZMod n :=
  residue n (valueOf (reader.fixedValue i j))

/-- The arithmetization parameters are those of the table. -/
structure Matches (ar : ArithmetizationParams) (table : TableDescription) (permutationSize : Nat) :
    Prop where
  constant : ar.constantColumns.toNat = table.constantColumns
  permutation : ar.permutationColumns.toNat = permutationSize

theorem map_eq_map {α β γ : Type*} {R : α → β → Prop} {f : α → γ} {g : β → γ} {xs : List α}
    {ys : List β} (h : List.Forall₂ R xs ys) (eq : ∀ x y, R x y → f x = g y) :
    xs.map f = ys.map g := by
  induction h with
  | nil => rfl
  | cons head _ ih => rw [List.map_cons, List.map_cons, eq _ _ head, ih]

section Agreement

variable {n : Nat} {table : TableDescription} {rotations : Nat → Finset Int}
variable {reader : ProofReader} {ar : ArithmetizationParams} {permutationSize : Nat}

/-- `columns_at_y` from what the contract reads. -/
def evaluationsOf (n : Nat) (reader : ProofReader) (table : TableDescription)
    (permutationSize : Nat) (rotations : Nat → Finset Int) : EvaluationMap (ZMod n) :=
  columnsAtY table permutationSize (variableValues n reader) (fixedValues n reader) rotations

/-- The contract and the verifier find the same value for a variable. -/
theorem evaluationsOf_eq (hm : Matches ar table permutationSize) {cell : Cell}
    {var : PlonkVariable} (h : Names table rotations cell var) :
    evaluationsOf n reader table permutationSize rotations var.key =
      some (residues n (reader.cell ar) cell) := by
  obtain ⟨constant, rfl⟩ := hm
  obtain ⟨index, rotation, type⟩ := var
  have double : ∀ k, k + ar.permutationColumns.toNat * 2 =
      ar.permutationColumns.toNat + ar.permutationColumns.toNat + k := fun k => by omega
  cases cell with
  | witness idx rotIdx =>
      obtain ⟨rfl, rfl, column, found⟩ := h
      exact columnsAtY_eq_some column found
  | constant idx =>
      obtain ⟨rfl, rfl, column, found⟩ := h
      refine (columnsAtY_eq_some column found).trans ?_
      rw [valueAt, fixedValues, double]
      rfl
  | selector idx =>
      obtain ⟨rfl, rfl, column, found⟩ := h
      refine (columnsAtY_eq_some column found).trans ?_
      rw [valueAt, fixedValues, double, ← constant,
        Nat.add_right_comm (ar.permutationColumns.toNat + ar.permutationColumns.toNat)]
      rfl

/-- The values of the variables. -/
def rowOf (n : Nat) (reader : ProofReader) (table : TableDescription) (permutationSize : Nat)
    (rotations : Nat → Finset Int) (key : Key) : ZMod n :=
  (evaluationsOf n reader table permutationSize rotations key).getD 0

theorem rowOf_eq (hm : Matches ar table permutationSize) {cell : Cell} {var : PlonkVariable}
    (h : Names table rotations cell var) :
    rowOf n reader table permutationSize rotations var.key =
      residues n (reader.cell ar) cell := by
  rw [rowOf, evaluationsOf_eq hm h, Option.getD_some]

theorem prod_names (hm : Matches ar table permutationSize) {cells : List Cell}
    {vars : List PlonkVariable} (h : List.Forall₂ (Names table rotations) cells vars) :
    (vars.map fun var => rowOf n reader table permutationSize rotations var.key).prod =
      (cells.map (residues n (reader.cell ar))).prod := by
  congr 1
  exact (map_eq_map h fun _ _ name => (rowOf_eq hm name).symm).symm

theorem value_term (hm : Matches ar table permutationSize) {t : Monomial}
    {term : Term PlonkVariable (ZMod n)} (h : RendersTerm table rotations t term) :
    term.evaluate (fun var => rowOf n reader table permutationSize rotations var.key)
        (RingHom.id (ZMod n)) = t.eval (residues n (reader.cell ar)) := by
  rw [Term.evaluate_eq]
  cases h with
  | scaled names => rw [prod_names hm names]; rfl
  | plain name names =>
      rw [List.map_cons, List.prod_cons, prod_names hm names, rowOf_eq hm name, map_one, one_mul]
      rfl

theorem value_constraint (hm : Matches ar table permutationSize) {c : Constraint}
    {e : Expression PlonkVariable (ZMod n)} (h : RendersConstraint table rotations c e) :
    e.evaluate (fun var => rowOf n reader table permutationSize rotations var.key) id =
      c.eval (residues n (reader.cell ar)) := by
  obtain ⟨positive, terms⟩ := h
  refine (e.value_convert _ (RingHom.id (ZMod n)) positive).symm.trans ?_
  rw [NonLinearCombination.value, Constraint.eval]
  congr 1
  exact (map_eq_map terms fun _ _ term => (value_term hm term).symm).symm

theorem values_gate (hm : Matches ar table permutationSize) {g : Gate}
    {gate : PlonkGate (ZMod n)} (h : RendersGate table rotations g gate) :
    gate.values (rowOf n reader table permutationSize rotations) =
      g.values (residues n (reader.cell ar)) := by
  have selector :
      rowOf n reader table permutationSize rotations (gate.selectorIndex, 0, .selector) =
        residues n (reader.cell ar) (.selector g.selector) := rowOf_eq hm h.selector
  rw [PlonkGate.values, Gate.values, selector]
  refine (map_eq_map h.constraints fun _ _ constraint => ?_).symm
  rw [value_constraint hm constraint]

/-- Every variable of a printed constraint is printed. -/
theorem exists_names {c : Constraint} {e : Expression PlonkVariable (ZMod n)}
    (h : RendersConstraint table rotations c e) {var : PlonkVariable} (hv : var ∈ e.vars) :
    ∃ cell, Names table rotations cell var := by
  obtain ⟨term, hterm, hv⟩ := (e.mentions_convert var).mpr hv
  have printed : ∀ {cells : List Cell} {vars : List PlonkVariable},
      List.Forall₂ (Names table rotations) cells vars → var ∈ vars →
      ∃ cell, Names table rotations cell var := by
    intro cells vars names
    induction names with
    | nil => exact nofun
    | cons name _ ih =>
        intro hv
        obtain rfl | hv := List.mem_cons.mp hv
        · exact ⟨_, name⟩
        · exact ih hv
  obtain ⟨t, -, renders⟩ : ∃ t ∈ c, RendersTerm table rotations t term := by
    obtain ⟨k, hk, rfl⟩ := List.mem_iff_getElem.mp hterm
    have hk' : k < c.length := by rwa [h.2.length_eq]
    exact ⟨c.get ⟨k, hk'⟩, List.get_mem .., h.2.get hk' hk⟩
  cases renders with
  | scaled names => exact printed names hv
  | plain name names =>
      obtain rfl | hv := List.mem_cons.mp hv
      · exact ⟨_, name⟩
      · exact printed names hv

end Agreement

/-! ## The circuit that the template was printed from -/

/-- The columns in `circuit_params.json` -/
def circuitTable : TableDescription := ⟨15, 5, 5, 30⟩

/-- The rotations in `circuit_params.json`: the first nine columns are used with the rows
before and after. -/
def circuitRotationSets (k : Nat) : Finset Int := if k < 9 then {-1, 0, 1} else {0}

def Cell.variable : Cell → PlonkVariable
  | .witness idx rotIdx => ⟨idx, rotIdx - 1, .witness⟩
  | .constant idx => ⟨idx, 0, .constant⟩
  | .selector idx => ⟨idx, 0, .selector⟩

def Monomial.term (n : Nat) : Monomial → Term PlonkVariable (ZMod n)
  | .scaled coefficient cells => ⟨cells.map Cell.variable, coefficient.toNat⟩
  | .plain cell cells => ⟨(cell :: cells).map Cell.variable, 1⟩

/-- A sum of terms -/
def Constraint.expression (n : Nat) : Constraint → Expression PlonkVariable (ZMod n)
  | [] => .term ⟨[], 0⟩
  | t :: c => c.foldl (fun e u => .binary e (.term (u.term n)) .add) (.term (t.term n))

def Gate.plonk (n : Nat) (g : Gate) : PlonkGate (ZMod n) :=
  ⟨g.selector, g.constraints.map (Constraint.expression n)⟩

section Template

variable {n : Nat}

theorem names_variable {cell : Cell} (h : cell.InTemplate) :
    Names circuitTable circuitRotationSets cell cell.variable := by
  have single : ∀ k, 9 ≤ k → ascending (circuitRotationSets k) = [0] := by
    intro k hk
    rw [circuitRotationSets, if_neg (by omega), ascending, Finset.sort_singleton]
  cases cell with
  | witness idx rotIdx =>
      obtain ⟨hidx, hrot⟩ := h
      have column : ascending (circuitRotationSets idx) = [-1, 0, 1] := by
        rw [circuitRotationSets, if_pos hidx]
        exact (List.toFinset_sort (l := [-1, 0, 1]) (· ≤ ·) (by decide)).mpr (by decide)
      refine ⟨rfl, rfl, ?_, ?_⟩
      · show idx < 15
        omega
      · show (ascending (circuitRotationSets idx))[rotIdx]? = some (rotIdx - 1 : Int)
        rw [column]
        interval_cases rotIdx <;> rfl
  | constant idx =>
      have hidx : idx < 1 := h
      refine ⟨rfl, rfl, ?_, ?_⟩
      · show idx < 5
        omega
      · show (ascending (circuitRotationSets (15 + 5 + idx)))[0]? = some 0
        rw [single _ (by omega)]
        rfl
  | selector idx =>
      have hidx : idx < 17 := h
      refine ⟨rfl, rfl, ?_, ?_⟩
      · show idx < 30
        omega
      · show (ascending (circuitRotationSets (15 + 5 + 5 + idx)))[0]? = some 0
        rw [single _ (by omega)]
        rfl

theorem names_variables {cells : List Cell} (h : ∀ cell ∈ cells, cell.InTemplate) :
    List.Forall₂ (Names circuitTable circuitRotationSets) cells (cells.map Cell.variable) := by
  rw [List.forall₂_map_right_iff, List.forall₂_same]
  exact fun cell hcell => names_variable (h cell hcell)

theorem renders_term {t : Monomial} (h : ∀ cell ∈ t.cells, cell.InTemplate) :
    RendersTerm circuitTable circuitRotationSets t (t.term n) := by
  cases t with
  | scaled coefficient cells => exact .scaled (names_variables h)
  | plain cell cells =>
      rw [Monomial.cells, List.forall_mem_cons] at h
      exact .plain (names_variable h.1) (names_variables h.2)

/-- The flattened sum is the list of its terms. -/
theorem convert_expression {c : Constraint} (nonempty : c ≠ []) :
    (c.expression n).Positive ∧ (c.expression n).convert = c.map (Monomial.term n) := by
  have loop : ∀ (c : Constraint) (e : Expression PlonkVariable (ZMod n)), e.Positive →
      (c.foldl (fun e u => .binary e (.term (u.term n)) .add) e).Positive ∧
        (c.foldl (fun e u => .binary e (.term (u.term n)) .add) e).convert =
          e.convert ++ c.map (Monomial.term n) := by
    intro c
    induction c with
    | nil => exact fun e he => ⟨he, (List.append_nil _).symm⟩
    | cons t c ih =>
        intro e he
        obtain ⟨positive, terms⟩ := ih (.binary e (.term (t.term n)) .add) ⟨he, trivial⟩
        refine ⟨positive, terms.trans ?_⟩
        rw [Expression.convert, NonLinearCombination.add, Expression.convert, List.append_assoc]
        rfl
  obtain ⟨t, c, rfl⟩ := List.exists_cons_of_ne_nil nonempty
  exact loop c (.term (t.term n)) trivial

theorem renders_gate {g : Gate} (cells : ∀ cell ∈ g.cells, cell.InTemplate)
    (nonempty : ∀ c ∈ g.constraints, c ≠ []) :
    RendersGate circuitTable circuitRotationSets g (g.plonk n) := by
  rw [Gate.cells, List.forall_mem_append] at cells
  constructor
  · exact names_variable (cells.2 _ (List.mem_singleton_self _))
  · rw [Gate.plonk, List.forall₂_map_right_iff, List.forall₂_same]
    intro c hc
    obtain ⟨positive, terms⟩ := convert_expression (n := n) (nonempty c hc)
    refine ⟨positive, ?_⟩
    rw [terms, List.forall₂_map_right_iff, List.forall₂_same]
    intro t ht
    apply renders_term
    intro cell hcell
    exact cells.1 cell (List.mem_flatMap.mpr ⟨c, hc, List.mem_flatMap.mpr ⟨t, ht, hcell⟩⟩)

theorem renders_template : List.Forall₂ (RendersGate circuitTable circuitRotationSets)
    templateGates (templateGates.map (Gate.plonk n)) := by
  have nonempty : ∀ g ∈ templateGates, ∀ c ∈ g.constraints, c ≠ [] := by decide
  rw [List.forall₂_map_right_iff, List.forall₂_same]
  intro g hg
  apply renders_gate _ (nonempty g hg)
  intro cell hcell
  exact template_cells cell (List.mem_flatMap.mpr ⟨g, hg, hcell⟩)

end Template

/-! ## The agreement -/

end GateArgument
