import NilAutotest.Rollback.Trace

/-!
# The storage proof verifier contract

`verifyStorageProof` hands control to external code before it returns, and that code may
call the contract back. External code is a tree of what it does: it answers, reverts,
calls one of the three functions, or runs a part of itself whose effects are undone when
that part reverts. What it does next may depend on every outcome it has seen.

A call from external code has the callee's own address as its sender, or that of another
contract that the callee has called in turn.
-/

namespace Contract

open Rollback

abbrev Address := BitVec 160

/-- The storage of the contract. -/
structure State where
  verifier : Address
  owner : Address
  gateArgument : Address
  deriving DecidableEq, Repr

/-- Why a call reverted: the contract's own message, or what external code reverted with. -/
inductive Revert
  | message (text : String)
  | external (data : List (BitVec 8))
  deriving DecidableEq, Repr

/-- A call of one of the three functions. -/
inductive Invocation
  | setVerifierAddress (verifier : Address)
  | setGateAddress (gateArgument : Address)
  | verifyStorageProof (blob : List (BitVec 8)) (initParams : List (BitVec 256))
      (columnsRotations : List (List (BitVec 256))) (root leaf : BitVec 256)
  deriving DecidableEq, Repr

/-- The call of `IVerifier.verify` at an address. -/
structure ExternalCall where
  callee : Address
  blob : List (BitVec 8)
  initParams : List (BitVec 256)
  columnsRotations : List (List (BitVec 256))
  gateArgument : Address
  deriving DecidableEq, Repr

/-- How external code ends: a boolean answer or a revert. -/
abbrev Reply := Except Revert Bool

inductive Event
  | verificationStatusPositive (result : Bool)
  deriving DecidableEq, Repr

/-- How a call ends. -/
inductive Outcome
  | done
  | returned (result : Bool)
  | reverted (why : Revert)
  deriving DecidableEq, Repr

/-- External code. -/
inductive Behaviour
  | answer (result : Bool)
  | revert (why : Revert)
  /-- Call the contract. The external code that runs inside this call, if any, depends on
  what the contract asks it. -/
  | reenter (sender : Address) (invocation : Invocation) (inner : ExternalCall → Behaviour)
      (next : Outcome → Behaviour)
  /-- Run a part and go on with how it ended. -/
  | attempt (body : Behaviour) (next : Reply → Behaviour)

/-- What is known about a call of the contract after it ended. -/
structure Record where
  sender : Address
  invocation : Invocation
  /-- What the contract asked, and the reply. -/
  asked : Option (ExternalCall × Reply)
  outcome : Outcome
  emitted : List Event
  deriving DecidableEq

/-- The frames of a run: calls of the contract, and parts of external code. -/
inductive Frame
  | call (record : Record)
  | part (reply : Reply)

abbrev Run := Trace State Frame

/-- External code after it ended, before anything is undone. -/
structure Interaction where
  reply : Reply
  state : State
  trace : Run

/-- A call of the contract after it ended. -/
structure Ended where
  record : Record
  state : State
  trace : Run

/-- External code as the contract meets it. -/
abbrev External := ExternalCall → State → Interaction

/-! ## The functions of the contract -/

/-- The constructor. -/
def deploy (msgSender verifier gateArgument : Address) : State where
  owner := msgSender
  verifier := verifier
  gateArgument := gateArgument

def setVerifierAddress (msgSender verifier : Address) (s : State) : Except Revert State :=
  if msgSender = s.owner then .ok { s with verifier }
  else .error (.message "Not owner!")

def setGateAddress (msgSender gateArgument : Address) (s : State) : Except Revert State :=
  if msgSender = s.owner then .ok { s with gateArgument }
  else .error (.message "Not owner!")

/-- What `verifyStorageProof` asks. -/
def question (blob : List (BitVec 8)) (initParams : List (BitVec 256))
    (columnsRotations : List (List (BitVec 256))) (s : State) : ExternalCall :=
  ⟨s.verifier, blob, initParams, columnsRotations, s.gateArgument⟩

/-- A verification: what was asked, how the external code ended, and the result with the events. -/
structure Verification where
  asked : ExternalCall
  interaction : Interaction
  result : Except Revert (Bool × List Event)

/-- A revert of the external call is passed on. -/
def verifyStorageProof (external : External) (blob : List (BitVec 8))
    (initParams : List (BitVec 256)) (columnsRotations : List (List (BitVec 256)))
    (_root _leaf : BitVec 256) (s : State) : Verification :=
  let asked := question blob initParams columnsRotations s
  let interaction := external asked s
  match interaction.reply with
  | .ok result => ⟨asked, interaction, .ok (result, [.verificationStatusPositive result])⟩
  | .error why => ⟨asked, interaction, .error why⟩

/-- The end of a call that writes and asks nothing. -/
def Ended.ofSetter (msgSender : Address) (invocation : Invocation) (s : State) :
    Except Revert State → Ended
  | .ok s' => ⟨⟨msgSender, invocation, none, .done, []⟩, s', .done⟩
  | .error why => ⟨⟨msgSender, invocation, none, .reverted why, []⟩, s, .done⟩

/-- The end of a verification that was entered in a state. -/
def Ended.ofVerification (msgSender : Address) (invocation : Invocation) (s : State)
    (v : Verification) : Ended :=
  let asked := some (v.asked, v.interaction.reply)
  match v.result with
  | .ok (result, events) =>
      ⟨⟨msgSender, invocation, asked, .returned result, events⟩, v.interaction.state,
        v.interaction.trace⟩
  | .error why => ⟨⟨msgSender, invocation, asked, .reverted why, []⟩, s, v.interaction.trace⟩

/-- A call of the contract. A revert undoes everything since its entry. -/
def execute (external : External) (msgSender : Address) (invocation : Invocation) (s : State) :
    Ended :=
  match invocation with
  | .setVerifierAddress verifier =>
      .ofSetter msgSender invocation s (setVerifierAddress msgSender verifier s)
  | .setGateAddress gateArgument =>
      .ofSetter msgSender invocation s (setGateAddress msgSender gateArgument s)
  | .verifyStorageProof blob initParams columnsRotations root leaf =>
      .ofVerification msgSender invocation s
        (verifyStorageProof external blob initParams columnsRotations root leaf s)

section Verifications

variable {external : External} (sender : Address) {blob : List (BitVec 8)}
variable {initParams : List (BitVec 256)} {columnsRotations : List (List (BitVec 256))}
variable (root leaf : BitVec 256) {s : State}

/-- Whatever the external code is: what it answers to the question is returned and emitted, and
the state is the one that it leaves. -/
theorem execute_of_answer {result : Bool}
    (replied : (external (question blob initParams columnsRotations s) s).reply = .ok result) :
    let asked := question blob initParams columnsRotations s
    let invocation := .verifyStorageProof blob initParams columnsRotations root leaf
    execute external sender invocation s =
      ⟨⟨sender, invocation, some (asked, (external asked s).reply), .returned result,
        [.verificationStatusPositive result]⟩, (external asked s).state,
        (external asked s).trace⟩ := by
  simp only [execute, verifyStorageProof, replied, Ended.ofVerification]

/-- Where it reverts, the call reverts with the same data and in the state of its entry. -/
theorem execute_of_revert {why : Revert}
    (replied : (external (question blob initParams columnsRotations s) s).reply = .error why) :
    let asked := question blob initParams columnsRotations s
    let invocation := .verifyStorageProof blob initParams columnsRotations root leaf
    execute external sender invocation s =
      ⟨⟨sender, invocation, some (asked, (external asked s).reply), .reverted why, []⟩, s,
        (external asked s).trace⟩ := by
  simp only [execute, verifyStorageProof, replied, Ended.ofVerification]

end Verifications

/-! ## External code and sessions -/

/-- Whether a frame keeps what happened in it. -/
def Frame.commits : Frame → Bool
  | .call record =>
      match record.outcome with
      | .reverted _ => false
      | _ => true
  | .part reply =>
      match reply with
      | .ok _ => true
      | .error _ => false

def Behaviour.run : Behaviour → State → Interaction
  | .answer result, s => ⟨.ok result, s, .done⟩
  | .revert why, s => ⟨.error why, s, .done⟩
  | .reenter sender invocation inner next, s =>
      let ended := execute (fun asked => (inner asked).run) sender invocation s
      let after := (next ended.record.outcome).run ended.state
      ⟨after.reply, after.state, .call ⟨.call ended.record, s, ended.state⟩ ended.trace after.trace⟩
  | .attempt body next, s =>
      let part := body.run s
      let exit := if (Frame.part part.reply).commits then part.state else s
      let after := (next part.reply).run exit
      ⟨after.reply, after.state, .call ⟨.part part.reply, s, exit⟩ part.trace after.trace⟩

/-- A transaction, with the external code that runs when the contract asks a verifier. -/
structure Transaction where
  sender : Address
  invocation : Invocation
  inner : ExternalCall → Behaviour

def Transaction.execute (tx : Transaction) (s : State) : Ended :=
  Contract.execute (fun asked => (tx.inner asked).run) tx.sender tx.invocation s

/-- Transactions one after another. -/
def session : List Transaction → State → State × Run
  | [], s => (s, .done)
  | tx :: txs, s =>
      let ended := tx.execute s
      let after := session txs ended.state
      (after.1, .call ⟨.call ended.record, s, ended.state⟩ ended.trace after.2)

end Contract
