import NilAutotest.GateArgument.Program

/-!
# What the assembly of a gate library computes

The assembly works on raw memory. `Layout` says that a struct `local_vars` lies in memory
with its arrays elsewhere. As long as the gates read within the bounds of the arrays, each
statement acts like the same statement on plain registers (`Simulates.step`), so a library
returns what `evaluateGate` computes from the values of the cells, and it writes nothing
but the two accumulators of the struct.
-/

namespace GateArgument

open Evm

/-- `local_vars_type` -/
structure LocalVars where
  constraintEval : Word
  gateEval : Word
  gatesEvaluation : Word
  thetaAcc : Word
  witnessEvaluations : List (List Word)
  constantEvaluations : List Word
  selectorEvaluations : List Word

/-- The value of a cell whose indices are in bounds. -/
def LocalVars.cell? (vars : LocalVars) : Cell → Option Word
  | .witness idx rotIdx => (vars.witnessEvaluations[idx]?).bind (·[rotIdx]?)
  | .constant idx => vars.constantEvaluations[idx]?
  | .selector idx => vars.selectorEvaluations[idx]?

/-- An array that lies in memory, apart from the struct. -/
def ArrayBeside (m : Memory) (ptr a : Word) (ws : List Word) : Prop :=
  ArrayAt m a ws ∧ (a.toNat + 32 + 32 * ws.length ≤ ptr.toNat ∨ ptr.toNat + 0xe0 ≤ a.toNat)

/-- The struct `local_vars` lies in memory. -/
structure Layout (m : Memory) (ptr : Word) (vars : LocalVars) : Prop where
  fits : ptr.toNat + 0xe0 ≤ 2 ^ 256
  gatesEvaluation : m.mload (ptr + gatesEvaluationOffset) = vars.gatesEvaluation
  thetaAcc : m.mload (ptr + thetaAccOffset) = vars.thetaAcc
  witness : ∃ rows, ArrayBeside m ptr (m.mload (ptr + witnessEvaluationsOffset)) rows ∧
    List.Forall₂ (ArrayBeside m ptr) rows vars.witnessEvaluations
  constant : ArrayBeside m ptr (m.mload (ptr + constantEvaluationsOffset)) vars.constantEvaluations
  selector : ArrayBeside m ptr (m.mload (ptr + selectorEvaluationsOffset)) vars.selectorEvaluations

namespace Layout

variable {m m' : Memory} {ptr : Word} {vars : LocalVars}

/-- The address of a member of the struct. -/
theorem toNat_member (h : Layout m ptr vars) (offset : Word) (within : offset.toNat < 0xe0) :
    (ptr + offset).toNat = ptr.toNat + offset.toNat := by
  have := h.fits
  rw [BitVec.toNat_add]
  omega

theorem arrayBeside_of_agreeOutside {a : Word} {ws : List Word} (h : ArrayBeside m ptr a ws)
    (agree : Memory.AgreeOutside ptr.toNat (ptr.toNat + 0x40) m m') : ArrayBeside m' ptr a ws := by
  obtain ⟨array, beside⟩ := h
  exact ⟨array.of_agreeOutside agree (by omega), beside⟩

/-- The two accumulators are not part of what the layout says. -/
theorem of_agreeOutside (h : Layout m ptr vars)
    (agree : Memory.AgreeOutside ptr.toNat (ptr.toNat + 0x40) m m') : Layout m' ptr vars := by
  have member : ∀ offset : Word, 0x40 ≤ offset.toNat → offset.toNat < 0xe0 →
      m'.mload (ptr + offset) = m.mload (ptr + offset) := by
    intro offset above within
    have := h.toNat_member offset within
    exact agree.mload (by omega)
  have w := member witnessEvaluationsOffset (by decide) (by decide)
  have c := member constantEvaluationsOffset (by decide) (by decide)
  have s := member selectorEvaluationsOffset (by decide) (by decide)
  constructor
  · exact h.fits
  · rw [member _ (by decide) (by decide), h.gatesEvaluation]
  · rw [member _ (by decide) (by decide), h.thetaAcc]
  · obtain ⟨rows, array, columns⟩ := h.witness
    refine ⟨rows, ?_, columns.imp fun _ _ row => arrayBeside_of_agreeOutside row agree⟩
    rw [w]
    exact arrayBeside_of_agreeOutside array agree
  · rw [c]
    exact arrayBeside_of_agreeOutside h.constant agree
  · rw [s]
    exact arrayBeside_of_agreeOutside h.selector agree

/-- A cell within the bounds is read from its array. -/
theorem get_eq (h : Layout m ptr vars) {cell : Cell} {value : Word}
    (hc : vars.cell? cell = some value) : cell.get m ptr = value := by
  cases cell with
  | witness idx rotIdx =>
      obtain ⟨row, hrow, hvalue⟩ := Option.bind_eq_some_iff.mp hc
      obtain ⟨hidx, rfl⟩ := List.getElem?_eq_some_iff.mp hrow
      obtain ⟨hrot, rfl⟩ := List.getElem?_eq_some_iff.mp hvalue
      obtain ⟨rows, array, columns⟩ := h.witness
      have hrows : idx < rows.length := by rwa [columns.length_eq]
      have column := columns.get hrows hidx
      rw [Cell.get, getWitnessIByRotationIdx, array.1.elements idx hrows]
      exact column.1.elements rotIdx hrot
  | constant idx =>
      obtain ⟨hidx, rfl⟩ := List.getElem?_eq_some_iff.mp hc
      exact h.constant.1.elements idx hidx
  | selector idx =>
      obtain ⟨hidx, rfl⟩ := List.getElem?_eq_some_iff.mp hc
      exact h.selector.1.elements idx hidx

end Layout

/-- The accumulators and the local variables as plain words. -/
structure Registers where
  constraintEval : Word
  gateEval : Word
  gatesEvaluation : Word
  thetaAcc : Word
  terms : Word

section Values

variable (modulus theta : Word) (value : Cell → Word)

def Instr.apply (r : Registers) : Instr → Registers
  | .clearGate => { r with gateEval := 0 }
  | .clearConstraint => { r with constraintEval := 0 }
  | .set coefficient => { r with terms := coefficient }
  | .load cell => { r with terms := value cell }
  | .mul cell => { r with terms := mulmod r.terms (value cell) modulus }
  | .addTerms => { r with constraintEval := addmod r.constraintEval r.terms modulus }
  | .addConstraint =>
      { r with gateEval := addmod r.gateEval (mulmod r.constraintEval r.thetaAcc modulus) modulus }
  | .nextTheta => { r with thetaAcc := mulmod r.thetaAcc theta modulus }
  | .select idx => { r with gateEval := mulmod r.gateEval (value (.selector idx)) modulus }
  | .addGate => { r with gatesEvaluation := addmod r.gatesEvaluation r.gateEval modulus }

def Monomial.evaluate : Monomial → Word
  | .scaled coefficient cells => cells.foldl (fun t c => mulmod t (value c) modulus) coefficient
  | .plain cell cells => cells.foldl (fun t c => mulmod t (value c) modulus) (value cell)

def Constraint.evaluate (c : Constraint) : Word :=
  c.foldl (fun sum t => addmod sum (t.evaluate modulus value) modulus) 0

/-- Add a constraint to `gate_eval` and go on to the next power of `theta`. -/
def addConstraint (acc : Word × Word) (c : Constraint) : Word × Word :=
  (addmod acc.1 (mulmod (c.evaluate modulus value) acc.2 modulus) modulus,
    mulmod acc.2 theta modulus)

/-- Add a gate to `gates_evaluation`. -/
def evaluateGate (acc : Word × Word) (g : Gate) : Word × Word :=
  let sum := g.constraints.foldl (addConstraint modulus theta value) (0, acc.2)
  (addmod acc.1 (mulmod sum.1 (value (.selector g.selector)) modulus) modulus, sum.2)

end Values

/-- The cells that a statement reads. -/
def Instr.cells : Instr → List Cell
  | .load cell => [cell]
  | .mul cell => [cell]
  | .select idx => [.selector idx]
  | _ => []

def Monomial.cells : Monomial → List Cell
  | .scaled _ cells => cells
  | .plain cell cells => cell :: cells

/-- The cells that a gate reads. -/
def Gate.cells (g : Gate) : List Cell :=
  g.constraints.flatMap (·.flatMap Monomial.cells) ++ [.selector g.selector]

theorem Monomial.cells_code (t : Monomial) : t.code.flatMap Instr.cells = t.cells := by
  cases t <;> simp [code, cells, Instr.cells, List.flatMap_map]

theorem Constraint.cells_code (c : Constraint) :
    c.code.flatMap Instr.cells = c.flatMap Monomial.cells := by
  simp [code, List.flatMap_assoc, Instr.cells, Monomial.cells_code]

theorem Gate.cells_code (g : Gate) : g.code.flatMap Instr.cells = g.cells := by
  simp [code, cells, List.flatMap_assoc, Instr.cells, Constraint.cells_code]

/-- The machine behaves like the registers, on memory that is the initial one outside the
accumulators. -/
structure Simulates (call : Call) (m₀ : Memory) (r : Registers) (s : Machine) : Prop where
  agree : Memory.AgreeOutside call.localVars.toNat (call.localVars.toNat + 0x40) m₀ s.memory
  constraintEval : s.memory.mload (call.localVars + constraintEvalOffset) = r.constraintEval
  gateEval : s.memory.mload (call.localVars + gateEvalOffset) = r.gateEval
  gatesEvaluation : s.gatesEvaluation = r.gatesEvaluation
  thetaAcc : s.thetaAcc = r.thetaAcc
  terms : s.terms = r.terms

namespace Simulates

variable {call : Call} {m₀ : Memory} {vars : LocalVars} {value : Cell → Word}
variable {r : Registers} {s : Machine}

/-- A store to `constraint_eval`. -/
theorem storeConstraint (h : Simulates call m₀ r s) (layout : Layout m₀ call.localVars vars)
    (x : Word) :
    Simulates call m₀ { r with constraintEval := x }
      { s with memory := s.memory.mstore (call.localVars + constraintEvalOffset) x } := by
  have c := layout.toNat_member constraintEvalOffset (by decide)
  have g := layout.toNat_member gateEvalOffset (by decide)
  have zero : constraintEvalOffset.toNat = 0 := rfl
  have word : gateEvalOffset.toNat = 32 := rfl
  constructor
  · exact h.agree.trans (Memory.agreeOutside_mstore (by omega) (by omega))
  · exact Memory.mload_mstore_same
  · rw [← h.gateEval]
    exact Memory.mload_mstore_of_apart (by omega)
  · exact h.gatesEvaluation
  · exact h.thetaAcc
  · exact h.terms

/-- A store to `gate_eval`. -/
theorem storeGate (h : Simulates call m₀ r s) (layout : Layout m₀ call.localVars vars)
    (x : Word) :
    Simulates call m₀ { r with gateEval := x }
      { s with memory := s.memory.mstore (call.localVars + gateEvalOffset) x } := by
  have c := layout.toNat_member constraintEvalOffset (by decide)
  have g := layout.toNat_member gateEvalOffset (by decide)
  have zero : constraintEvalOffset.toNat = 0 := rfl
  have word : gateEvalOffset.toNat = 32 := rfl
  constructor
  · exact h.agree.trans (Memory.agreeOutside_mstore (by omega) (by omega))
  · rw [← h.constraintEval]
    exact Memory.mload_mstore_of_apart (by omega)
  · exact Memory.mload_mstore_same
  · exact h.gatesEvaluation
  · exact h.thetaAcc
  · exact h.terms

/-- One statement. -/
theorem step (h : Simulates call m₀ r s) (layout : Layout m₀ call.localVars vars) (i : Instr)
    (cells : ∀ c ∈ i.cells, vars.cell? c = some (value c)) :
    Simulates call m₀ (i.apply call.modulus call.theta value r) (i.step call s) := by
  have get : ∀ c ∈ i.cells, c.get s.memory call.localVars = value c := fun c hc =>
    (layout.of_agreeOutside h.agree).get_eq (cells c hc)
  cases i with
  | clearGate => exact h.storeGate layout 0
  | clearConstraint => exact h.storeConstraint layout 0
  | set coefficient => exact { h with terms := rfl }
  | load cell => exact { h with terms := get cell (List.mem_singleton_self _) }
  | mul cell =>
      have factor := get cell (List.mem_singleton_self _)
      exact { h with terms := by rw [Instr.step, Instr.apply, factor, h.terms] }
  | addTerms =>
      have sum : addmod (s.memory.mload (call.localVars + constraintEvalOffset)) s.terms
          call.modulus = addmod r.constraintEval r.terms call.modulus := by
        rw [h.constraintEval, h.terms]
      simp only [Instr.step, Instr.apply, sum]
      exact h.storeConstraint layout _
  | addConstraint =>
      have sum : addmod (s.memory.mload (call.localVars + gateEvalOffset))
          (mulmod (s.memory.mload (call.localVars + constraintEvalOffset)) s.thetaAcc call.modulus)
          call.modulus =
          addmod r.gateEval (mulmod r.constraintEval r.thetaAcc call.modulus) call.modulus := by
        rw [h.constraintEval, h.gateEval, h.thetaAcc]
      simp only [Instr.step, Instr.apply, sum]
      exact h.storeGate layout _
  | nextTheta => exact { h with thetaAcc := by rw [Instr.step, Instr.apply, h.thetaAcc] }
  | select idx =>
      have factor := get (.selector idx) (List.mem_singleton_self _)
      simp only [Instr.step, Instr.apply, h.gateEval, factor]
      exact h.storeGate layout _
  | addGate =>
      have sum : addmod s.gatesEvaluation (s.memory.mload (call.localVars + gateEvalOffset))
          call.modulus = addmod r.gatesEvaluation r.gateEval call.modulus := by
        rw [h.gatesEvaluation, h.gateEval]
      exact { h with gatesEvaluation := sum }

/-- A whole text. -/
theorem run (h : Simulates call m₀ r s) (layout : Layout m₀ call.localVars vars)
    (code : List Instr) (cells : ∀ c ∈ code.flatMap Instr.cells, vars.cell? c = some (value c)) :
    Simulates call m₀ (code.foldl (Instr.apply call.modulus call.theta value) r)
      (run call code s) := by
  induction code generalizing r s with
  | nil => exact h
  | cons i code ih =>
      simp only [List.flatMap_cons, List.mem_append] at cells
      exact ih (h.step layout i fun c hc => cells c (.inl hc)) fun c hc => cells c (.inr hc)

end Simulates

section Structured

variable (modulus theta : Word) (value : Cell → Word)

theorem foldl_mul (cells : List Cell) (r : Registers) :
    (cells.map Instr.mul).foldl (Instr.apply modulus theta value) r =
      { r with terms := cells.foldl (fun t c => mulmod t (value c) modulus) r.terms } := by
  induction cells generalizing r with
  | nil => rfl
  | cons c cells ih => exact ih _

/-- The text of a term leaves its value in `terms`. -/
theorem Monomial.foldl_code (t : Monomial) (r : Registers) :
    t.code.foldl (Instr.apply modulus theta value) r =
      { r with terms := t.evaluate modulus value } := by
  cases t with
  | scaled coefficient cells => exact foldl_mul modulus theta value cells _
  | plain cell cells => exact foldl_mul modulus theta value cells _

/-- The terms of a constraint add up in `constraint_eval`. -/
theorem foldl_terms (c : Constraint) (r : Registers) :
    ∃ terms, (c.flatMap fun t => t.code ++ [.addTerms]).foldl
        (Instr.apply modulus theta value) r =
      { r with
        constraintEval := c.foldl (fun sum t => addmod sum (t.evaluate modulus value) modulus)
          r.constraintEval
        terms := terms } := by
  induction c generalizing r with
  | nil => exact ⟨r.terms, rfl⟩
  | cons t c ih =>
      rw [List.flatMap_cons, List.foldl_append, List.foldl_append, t.foldl_code]
      exact ih _

/-- The constraints of a gate add up in `gate_eval`. -/
theorem foldl_constraints (cs : List Constraint) (r : Registers) :
    ∃ constraintEval terms, (cs.flatMap Constraint.code).foldl
        (Instr.apply modulus theta value) r =
      { r with
        constraintEval := constraintEval
        gateEval := (cs.foldl (addConstraint modulus theta value) (r.gateEval, r.thetaAcc)).1
        thetaAcc := (cs.foldl (addConstraint modulus theta value) (r.gateEval, r.thetaAcc)).2
        terms := terms } := by
  induction cs generalizing r with
  | nil => exact ⟨r.constraintEval, r.terms, rfl⟩
  | cons c cs ih =>
      obtain ⟨terms, sum⟩ := foldl_terms modulus theta value c
        { r with constraintEval := 0 }
      have first : c.code.foldl (Instr.apply modulus theta value) r =
          { r with
            constraintEval := c.evaluate modulus value
            gateEval := (addConstraint modulus theta value (r.gateEval, r.thetaAcc) c).1
            thetaAcc := (addConstraint modulus theta value (r.gateEval, r.thetaAcc) c).2
            terms := terms } := by
        rw [Constraint.code, List.cons_append, List.foldl_cons, List.foldl_append]
        show List.foldl _ (List.foldl _ { r with constraintEval := 0 } _) _ = _
        rw [sum]
        rfl
      rw [List.flatMap_cons, List.foldl_append, first]
      exact ih _

/-- The text of a gate. -/
theorem Gate.foldl_code (g : Gate) (r : Registers) :
    ∃ constraintEval gateEval terms, g.code.foldl (Instr.apply modulus theta value) r =
      { constraintEval := constraintEval
        gateEval := gateEval
        gatesEvaluation := (evaluateGate modulus theta value (r.gatesEvaluation, r.thetaAcc) g).1
        thetaAcc := (evaluateGate modulus theta value (r.gatesEvaluation, r.thetaAcc) g).2
        terms := terms } := by
  obtain ⟨constraintEval, terms, sum⟩ := foldl_constraints modulus theta value g.constraints
    { r with gateEval := 0 }
  rw [Gate.code, List.cons_append, List.foldl_cons, List.foldl_append]
  show ∃ a b c, List.foldl _ (List.foldl _ { r with gateEval := 0 } _) _ = _
  rw [sum]
  exact ⟨_, _, _, rfl⟩

/-- The text of a list of gates. -/
theorem foldl_gates (gates : List Gate) (r : Registers) :
    let r' := (gates.flatMap Gate.code).foldl (Instr.apply modulus theta value) r
    (r'.gatesEvaluation, r'.thetaAcc) =
      gates.foldl (evaluateGate modulus theta value) (r.gatesEvaluation, r.thetaAcc) := by
  induction gates generalizing r with
  | nil => rfl
  | cons g gates ih =>
      obtain ⟨constraintEval, gateEval, terms, first⟩ := g.foldl_code modulus theta
        value r
      rw [List.flatMap_cons, List.foldl_append, first]
      exact ih _

end Structured

/-- A gate library on raw memory returns the evaluation of its gates, and nothing but the
two accumulators of the struct is written. -/
theorem evaluateGateBe_eq {gates : List Gate} {m : Memory} (gateParams : Word) {localVars : Word}
    {vars : LocalVars} {value : Cell → Word} (layout : Layout m localVars vars)
    (cells : ∀ c ∈ gates.flatMap Gate.cells, vars.cell? c = some (value c)) :
    let s := evaluateGateBe gates gateParams localVars m
    (s.gatesEvaluation, s.thetaAcc) =
        gates.foldl (evaluateGate (m.mload gateParams) (m.mload (gateParams + thetaOffset)) value)
          (vars.gatesEvaluation, vars.thetaAcc) ∧
      Memory.AgreeOutside localVars.toNat (localVars.toNat + 0x40) m s.memory := by
  have start : Simulates ⟨localVars, m.mload gateParams, m.mload (gateParams + thetaOffset)⟩ m
      ⟨m.mload (localVars + constraintEvalOffset), m.mload (localVars + gateEvalOffset),
        vars.gatesEvaluation, vars.thetaAcc, 0⟩
      ⟨m, 0, m.mload (localVars + gatesEvaluationOffset), m.mload (localVars + thetaAccOffset)⟩ :=
    ⟨.refl m, rfl, rfl, layout.gatesEvaluation, layout.thetaAcc, rfl⟩
  have code : ∀ c ∈ (gates.flatMap Gate.code).flatMap Instr.cells,
      vars.cell? c = some (value c) := by
    simpa only [List.flatMap_assoc, Gate.cells_code] using cells
  have final := (start.storeGate layout 0).run layout _ code
  have gates := foldl_gates (m.mload gateParams) (m.mload (gateParams + thetaOffset)) value gates
    ⟨m.mload (localVars + constraintEvalOffset), 0, vars.gatesEvaluation, vars.thetaAcc, 0⟩
  exact ⟨(Prod.ext final.gatesEvaluation final.thetaAcc).trans gates, final.agree⟩

end GateArgument
