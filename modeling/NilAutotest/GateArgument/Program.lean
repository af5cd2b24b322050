import NilAutotest.Evm.Memory

/-!
# The gate libraries

A gate library is straight-line assembly over the struct `local_vars`. For each gate it
sums the terms of every constraint, combines the constraints with the powers of `theta`,
multiplies by the selector and adds the result to `gates_evaluation`. The power of `theta`
goes on from gate to gate and from library to library.

The two accumulators `constraint_eval` and `gate_eval` live in the struct, `terms`,
`theta_acc` and `gates_evaluation` in local variables. The evaluations of the columns are
read through the pointers of the struct; no index is checked.
-/

namespace GateArgument

open Evm

/-- What a gate reads: a witness column at the index of one of its rotations, a constant
or a selector. -/
inductive Cell
  | witness (idx rotIdx : Nat)
  | constant (idx : Nat)
  | selector (idx : Nat)
  deriving DecidableEq

/-- One value of `terms`: it starts as a coefficient or as a cell and is multiplied by
cells. -/
inductive Monomial
  | scaled (coefficient : Word) (cells : List Cell)
  | plain (cell : Cell) (cells : List Cell)

abbrev Constraint := List Monomial

structure Gate where
  selector : Nat
  constraints : List Constraint

/-- The statements of the assembly. -/
inductive Instr
  /-- `mstore(add(local_vars, GATE_EVAL_OFFSET), 0)` -/
  | clearGate
  /-- `mstore(add(local_vars, CONSTRAINT_EVAL_OFFSET), 0)` -/
  | clearConstraint
  /-- `terms := coefficient` -/
  | set (coefficient : Word)
  /-- `terms := get_..._i(...)` -/
  | load (cell : Cell)
  /-- `terms := mulmod(terms, get_..._i(...), modulus)` -/
  | mul (cell : Cell)
  /-- Add `terms` to `constraint_eval`. -/
  | addTerms
  /-- Add `mulmod(constraint_eval, theta_acc, modulus)` to `gate_eval`. -/
  | addConstraint
  /-- `theta_acc := mulmod(theta_acc, theta, modulus)` -/
  | nextTheta
  /-- Multiply `gate_eval` by a selector. -/
  | select (idx : Nat)
  /-- Add `gate_eval` to `gates_evaluation`. -/
  | addGate

def Monomial.code : Monomial → List Instr
  | .scaled coefficient cells => .set coefficient :: cells.map .mul
  | .plain cell cells => .load cell :: cells.map .mul

def Constraint.code (c : Constraint) : List Instr :=
  .clearConstraint :: (c.flatMap fun t => t.code ++ [.addTerms]) ++ [.addConstraint, .nextTheta]

/-- The text of a gate in the assembly. -/
def Gate.code (g : Gate) : List Instr :=
  .clearGate :: g.constraints.flatMap Constraint.code ++ [.select g.selector, .addGate]

def thetaOffset : Word := 0x20

def constraintEvalOffset : Word := 0x00
def gateEvalOffset : Word := 0x20
def gatesEvaluationOffset : Word := 0x40
def thetaAccOffset : Word := 0x60
def witnessEvaluationsOffset : Word := 0x80
def constantEvaluationsOffset : Word := 0xa0
def selectorEvaluationsOffset : Word := 0xc0

def getWitnessIByRotationIdx (m : Memory) (idx rotIdx ptr : Word) : Word :=
  m.mload (m.mload (m.mload (ptr + witnessEvaluationsOffset) + 0x20 + 0x20 * idx) + 0x20 +
    0x20 * rotIdx)

def getConstantI (m : Memory) (idx ptr : Word) : Word :=
  m.mload (m.mload (ptr + constantEvaluationsOffset) + 0x20 + 0x20 * idx)

def getSelectorI (m : Memory) (idx ptr : Word) : Word :=
  m.mload (m.mload (ptr + selectorEvaluationsOffset) + 0x20 + 0x20 * idx)

/-- Read a cell from memory. -/
def Cell.get (m : Memory) (ptr : Word) : Cell → Word
  | .witness idx rotIdx =>
      getWitnessIByRotationIdx m (BitVec.ofNat 256 idx) (BitVec.ofNat 256 rotIdx) ptr
  | .constant idx => getConstantI m (BitVec.ofNat 256 idx) ptr
  | .selector idx => getSelectorI m (BitVec.ofNat 256 idx) ptr

/-- What the assembly reads once, before the first gate. -/
structure Call where
  localVars : Word
  modulus : Word
  theta : Word

/-- Memory and local variables while the assembly runs. -/
structure Machine where
  memory : Memory
  terms : Word
  gatesEvaluation : Word
  thetaAcc : Word

def Instr.step (call : Call) (s : Machine) : Instr → Machine
  | .clearGate => { s with memory := s.memory.mstore (call.localVars + gateEvalOffset) 0 }
  | .clearConstraint =>
      { s with memory := s.memory.mstore (call.localVars + constraintEvalOffset) 0 }
  | .set coefficient => { s with terms := coefficient }
  | .load cell => { s with terms := cell.get s.memory call.localVars }
  | .mul cell => { s with terms := mulmod s.terms (cell.get s.memory call.localVars) call.modulus }
  | .addTerms =>
      let constraintEval := s.memory.mload (call.localVars + constraintEvalOffset)
      { s with memory := s.memory.mstore (call.localVars + constraintEvalOffset)
                (addmod constraintEval s.terms call.modulus) }
  | .addConstraint =>
      let constraintEval := s.memory.mload (call.localVars + constraintEvalOffset)
      let gateEval := s.memory.mload (call.localVars + gateEvalOffset)
      { s with memory := s.memory.mstore (call.localVars + gateEvalOffset)
                (addmod gateEval (mulmod constraintEval s.thetaAcc call.modulus) call.modulus) }
  | .nextTheta => { s with thetaAcc := mulmod s.thetaAcc call.theta call.modulus }
  | .select idx =>
      let gateEval := s.memory.mload (call.localVars + gateEvalOffset)
      let selector := (Cell.selector idx).get s.memory call.localVars
      { s with memory := s.memory.mstore (call.localVars + gateEvalOffset)
                (mulmod gateEval selector call.modulus) }
  | .addGate =>
      let gateEval := s.memory.mload (call.localVars + gateEvalOffset)
      { s with gatesEvaluation := addmod s.gatesEvaluation gateEval call.modulus }

def run (call : Call) (code : List Instr) (s : Machine) : Machine :=
  code.foldl (fun s i => i.step call s) s

/-- `evaluate_gate_be` of a gate library. -/
def evaluateGateBe (gates : List Gate) (gateParams localVars : Word) (m : Memory) : Machine :=
  let call : Call := ⟨localVars, m.mload gateParams,
    m.mload (gateParams + thetaOffset)⟩
  let start : Machine := ⟨m.mstore (localVars + gateEvalOffset) 0, 0,
    m.mload (localVars + gatesEvaluationOffset), m.mload (localVars + thetaAccOffset)⟩
  run call (gates.flatMap Gate.code) start

end GateArgument
