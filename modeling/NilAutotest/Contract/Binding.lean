import NilAutotest.Contract.Authority

/-!
# Whether an accepted proof is bound to its root and leaf

The external verifier is a function of what it is asked, and the question has neither the
root nor the leaf in it. So a call accepts exactly when the verifier stored in the
contract answers true on the other three arguments and the stored gate argument, and a
proof accepted for one root and leaf is accepted for all of them.
-/

namespace Contract

/-- External code that answers by a function of the question. -/
def answering (external : ExternalCall → Reply) (asked : ExternalCall) : Behaviour :=
  match external asked with
  | .ok result => .answer result
  | .error why => .revert why

/-- A transaction against such a verifier. -/
def transact (external : ExternalCall → Reply) (sender : Address) (invocation : Invocation) :
    Transaction :=
  ⟨sender, invocation, answering external⟩

/-- The state of the contract after some transactions. -/
def reached (external : ExternalCall → Reply) (deployer verifier gateArgument : Address)
    (txs : List (Address × Invocation)) : State :=
  (session (txs.map fun (sender, invocation) => transact external sender invocation)
    (deploy deployer verifier gateArgument)).1

/-- A call of `verifyStorageProof` in a state returns true and emits it. -/
def Accepts (external : ExternalCall → Reply) (s : State) (sender : Address)
    (blob : List (BitVec 8)) (initParams : List (BitVec 256))
    (columnsRotations : List (List (BitVec 256))) (root leaf : BitVec 256) : Prop :=
  let record := ((transact external sender
    (.verifyStorageProof blob initParams columnsRotations root leaf)).execute s).record
  record.outcome = .returned true ∧ record.emitted = [.verificationStatusPositive true]

/-- Calls that accept the same proof name the same root and leaf. -/
def Binding (external : ExternalCall → Reply) (s : State) (blob : List (BitVec 8))
    (initParams : List (BitVec 256)) (columnsRotations : List (List (BitVec 256))) : Prop :=
  ∀ sender root leaf sender' root' leaf',
    Accepts external s sender blob initParams columnsRotations root leaf →
    Accepts external s sender' blob initParams columnsRotations root' leaf' →
    root = root' ∧ leaf = leaf'

variable {external : ExternalCall → Reply} {s : State} {sender : Address}
variable {blob : List (BitVec 8)} {initParams : List (BitVec 256)}
variable {columnsRotations : List (List (BitVec 256))} {root leaf : BitVec 256}

/-- The root and the leaf have no influence on a call, whatever the external code does. -/
theorem execute_root_leaf (code : External) (root' leaf' : BitVec 256) :
    let call := execute code sender
      (.verifyStorageProof blob initParams columnsRotations root leaf) s
    let call' := execute code sender
      (.verifyStorageProof blob initParams columnsRotations root' leaf') s
    call'.record.asked = call.record.asked ∧ call'.record.outcome = call.record.outcome ∧
      call'.record.emitted = call.record.emitted ∧ call'.state = call.state ∧
      call'.trace = call.trace := by
  cases replied : (code (question blob initParams columnsRotations s) s).reply with
  | ok result =>
      rw [execute_of_answer sender root leaf replied, execute_of_answer sender root' leaf' replied]
      exact ⟨rfl, rfl, rfl, rfl, rfl⟩
  | error why =>
      rw [execute_of_revert sender root leaf replied, execute_of_revert sender root' leaf' replied]
      exact ⟨rfl, rfl, rfl, rfl, rfl⟩

@[simp] theorem run_answering (asked : ExternalCall) :
    (answering external asked).run s = ⟨external asked, s, .done⟩ := by
  unfold answering
  split
  · rename_i result answered
    rw [answered]
    rfl
  · rename_i why reverted
    rw [reverted]
    rfl

/-- The call has the verifier's answer, whatever the root and the leaf are. -/
theorem accepts_iff :
    Accepts external s sender blob initParams columnsRotations root leaf ↔
      external (question blob initParams columnsRotations s) = .ok true := by
  simp only [Accepts, transact, Transaction.execute]
  cases answered : external (question blob initParams columnsRotations s) with
  | ok result =>
      rw [execute_of_answer sender root leaf (by rw [run_answering, answered])]
      simp
  | error why =>
      rw [execute_of_revert sender root leaf (by rw [run_answering, answered])]
      simp

/-- In every reachable state, a proof is bound to a root and a leaf exactly when the stored
verifier does not accept it. -/
theorem binding_iff (external : ExternalCall → Reply) (deployer verifier gateArgument : Address)
    (txs : List (Address × Invocation)) (blob : List (BitVec 8)) (initParams : List (BitVec 256))
    (columnsRotations : List (List (BitVec 256))) :
    let s := reached external deployer verifier gateArgument txs
    Binding external s blob initParams columnsRotations ↔
      external (question blob initParams columnsRotations s) ≠ .ok true := by
  intro s
  constructor
  · intro bound accepted
    have forged := bound 0 0 0 0 1 0 (accepts_iff.mpr accepted) (accepts_iff.mpr accepted)
    exact absurd forged.1 (by decide)
  · intro rejected _ root leaf _ root' leaf' accepted
    exact absurd (accepts_iff.mp accepted) rejected

/-- One proof, accepted for two roots. -/
theorem accepted_for_two_roots :
    let external : ExternalCall → Reply := fun _ => .ok true
    let s := reached external 1 2 3 []
    Accepts external s 1 [0xab] [] [] 0 0 ∧ Accepts external s 1 [0xab] [] [] 1 0 ∧
      ¬Binding external s [0xab] [] [] := by
  intro external s
  have accepted : ∀ root, Accepts external s 1 [0xab] [] [] root 0 :=
    fun _ => accepts_iff.mpr rfl
  refine ⟨accepted 0, accepted 1, ?_⟩
  intro bound
  exact absurd (bound 1 0 0 1 1 0 (accepted 0) (accepted 1)).1 (by decide)

end Contract
