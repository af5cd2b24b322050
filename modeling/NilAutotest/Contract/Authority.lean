import NilAutotest.Contract.StorageProofVerifier

/-!
# Who decides what the contract stores

Every run of the contract obeys one discipline of nested calls with rollback. External
code is disciplined by induction on what it does, for any external code that runs inside
the calls it makes; transactions are then disciplined one after another.

From the discipline the storage is known at every entry and exit of a call, at any depth:
the owner never changes, and each of the other two fields holds the argument of the latest
call of its setter by the owner that has not been undone.
-/

namespace Contract

open Rollback

/-- What a kept call adds to the state. -/
def Frame.effect : Frame → State → State
  | .call record, s =>
      match record.invocation with
      | .setVerifierAddress verifier => if record.sender = s.owner then { s with verifier } else s
      | .setGateAddress gateArgument =>
          if record.sender = s.owner then { s with gateArgument } else s
      | .verifyStorageProof .. => s
  | .part _, s => s

def Record.Reverted (record : Record) : Prop := ∃ why, record.outcome = .reverted why

/-- The calls of the two functions that write. -/
def Invocation.IsSetter : Invocation → Prop
  | .setVerifierAddress _ => True
  | .setGateAddress _ => True
  | .verifyStorageProof .. => False

/-- A setter ends without asking anything: silently for the owner, else with its message. -/
def Record.SetterEnds (record : Record) (entry : State) : Prop :=
  record.asked = none ∧ record.emitted = [] ∧
    record.outcome =
      if record.sender = entry.owner then .done else .reverted (.message "Not owner!")

/-- A verification asks its question about the state at its entry and passes the reply on. -/
def Record.VerificationEnds (record : Record) (asked : ExternalCall) : Prop :=
  (∃ result, record.asked = some (asked, .ok result) ∧ record.outcome = .returned result ∧
    record.emitted = [.verificationStatusPositive result]) ∨
  ∃ why, record.asked = some (asked, .error why) ∧ record.outcome = .reverted why ∧
    record.emitted = []

/-- What the record of a call owes to the state at its entry. -/
def Record.Lawful (record : Record) (entry : State) : Prop :=
  match record.invocation with
  | .setVerifierAddress _ | .setGateAddress _ => record.SetterEnds entry
  | .verifyStorageProof blob initParams columnsRotations _ _ =>
      record.VerificationEnds (question blob initParams columnsRotations entry)

/-- The discipline of the contract's calls. -/
def discipline : Discipline State Frame where
  commits := Frame.commits
  effect := Frame.effect
  lawful frame entry :=
    match frame with
    | .call record => record.Lawful entry
    | .part _ => True

/-- External code all of whose runs obey the discipline. -/
def Disciplined (external : External) : Prop :=
  ∀ asked s, Runs discipline s (external asked s).trace (external asked s).state

/-- A setter writes for the owner and reverts for everyone else, whichever field it is about. -/
theorem runs_setter {sender : Address} {invocation : Invocation} {s written t : State} {rest : Run}
    (law : ∀ outcome, Record.SetterEnds ⟨sender, invocation, none, outcome, []⟩ s →
      Record.Lawful ⟨sender, invocation, none, outcome, []⟩ s)
    (effect : Frame.effect (.call ⟨sender, invocation, none, .done, []⟩) s =
      if sender = s.owner then written else s)
    (hrest : Runs discipline (Ended.ofSetter sender invocation s
      (if sender = s.owner then .ok written else .error (.message "Not owner!"))).state rest t) :
    let ended := Ended.ofSetter sender invocation s
      (if sender = s.owner then .ok written else .error (.message "Not owner!"))
    Runs discipline s (.call ⟨.call ended.record, s, ended.state⟩ ended.trace rest) t := by
  by_cases owner : sender = s.owner
  · simp only [if_pos owner] at effect hrest ⊢
    exact .kept rfl (law _ ⟨rfl, rfl, (if_pos owner).symm⟩) (.done s) effect.symm hrest
  · simp only [if_neg owner] at hrest ⊢
    exact .rollback rfl (law _ ⟨rfl, rfl, (if_neg owner).symm⟩) (.done s) hrest

/-- A call of the contract obeys the discipline if the external code inside it does. -/
theorem runs_call {external : External} (h : Disciplined external) {sender : Address}
    {invocation : Invocation} {s t : State} {rest : Run}
    (hrest : Runs discipline (execute external sender invocation s).state rest t) :
    Runs discipline s
      (.call ⟨.call (execute external sender invocation s).record, s,
        (execute external sender invocation s).state⟩
        (execute external sender invocation s).trace rest) t := by
  cases invocation with
  | setVerifierAddress verifier => exact runs_setter (fun _ ends => ends) rfl hrest
  | setGateAddress gateArgument => exact runs_setter (fun _ ends => ends) rfl hrest
  | verifyStorageProof blob initParams columnsRotations root leaf =>
      have inside := h (question blob initParams columnsRotations s) s
      cases replied : (external (question blob initParams columnsRotations s) s).reply with
      | ok result =>
          rw [execute_of_answer sender root leaf replied] at hrest ⊢
          exact .kept rfl (.inl ⟨result, congrArg _ (congrArg _ replied), rfl, rfl⟩) inside rfl
            hrest
      | error why =>
          rw [execute_of_revert sender root leaf replied] at hrest ⊢
          exact .rollback rfl (.inr ⟨why, congrArg _ (congrArg _ replied), rfl, rfl⟩) inside
            hrest

/-- A part of external code that is kept or undone as a whole. -/
theorem runs_part {reply : Reply} {s m t : State} {inner rest : Run}
    (hinner : Runs discipline s inner m)
    (hrest : Runs discipline (if (Frame.part reply).commits then m else s) rest t) :
    Runs discipline s
      (.call ⟨.part reply, s, if (Frame.part reply).commits then m else s⟩ inner rest) t := by
  cases reply with
  | ok result => exact .kept rfl trivial hinner rfl hrest
  | error why => exact .rollback rfl trivial hinner hrest

/-- All external code is disciplined, whatever it does. -/
theorem Behaviour.runs (code : Behaviour) (s : State) :
    Runs discipline s (code.run s).trace (code.run s).state := by
  induction code generalizing s with
  | answer result => exact .done s
  | revert why => exact .done s
  | reenter sender invocation inner next ihinner ihnext =>
      exact runs_call (fun asked s => ihinner asked s) (ihnext _ _)
  | attempt body next ihbody ihnext => exact runs_part (ihbody s) (ihnext _ _)

theorem session_runs (txs : List Transaction) (s : State) :
    Runs discipline s (session txs s).2 (session txs s).1 := by
  induction txs generalizing s with
  | nil => exact .done s
  | cons tx txs ih => exact runs_call (fun asked s => (tx.inner asked).runs s) (ih _)

/-! ## The storage -/

/-- The argument of a call of `setVerifierAddress` by the owner. -/
def Frame.verifierSet? (owner : Address) : Frame → Option Address
  | .call ⟨sender, .setVerifierAddress verifier, _, _, _⟩ =>
      if sender = owner then some verifier else none
  | _ => none

/-- The argument of a call of `setGateAddress` by the owner. -/
def Frame.gateSet? (owner : Address) : Frame → Option Address
  | .call ⟨sender, .setGateAddress gateArgument, _, _, _⟩ =>
      if sender = owner then some gateArgument else none
  | _ => none

/-- The last argument that the owner has set, in a log of calls that were kept. -/
def latest (set? : Frame → Option Address) (log : List Frame) (initial : Address) : Address :=
  ((log.filterMap set?).getLast?).getD initial

@[simp] theorem effect_owner (frame : Frame) (s : State) : (frame.effect s).owner = s.owner := by
  unfold Frame.effect
  repeat' split
  all_goals rfl

/-- A kept call writes what the owner asks for to the field that it is about, and nothing to the
other one. -/
theorem effect_written (frame : Frame) {owner : Address} {s : State} (h : s.owner = owner) :
    (frame.effect s).verifier = (frame.verifierSet? owner).getD s.verifier ∧
      (frame.effect s).gateArgument = (frame.gateSet? owner).getD s.gateArgument := by
  subst h
  cases frame with
  | part reply => exact ⟨rfl, rfl⟩
  | call record =>
      obtain ⟨sender, invocation, asked, outcome, emitted⟩ := record
      cases invocation with
      | verifyStorageProof => exact ⟨rfl, rfl⟩
      | _ =>
          simp only [Frame.effect, Frame.verifierSet?, Frame.gateSet?]
          split <;> exact ⟨rfl, rfl⟩

/-- The storage after a log of kept calls. -/
structure Stored (deployer verifier gateArgument : Address) (log : List Frame) (s : State) :
    Prop where
  owner : s.owner = deployer
  verifier : s.verifier = latest (Frame.verifierSet? deployer) log verifier
  gateArgument : s.gateArgument = latest (Frame.gateSet? deployer) log gateArgument

theorem stored_replay (deployer verifier gateArgument : Address) (log : List Frame) :
    Stored deployer verifier gateArgument log
      (discipline.replay (deploy deployer verifier gateArgument) log) where
  owner := discipline.replay_fixed State.owner effect_owner _ log
  verifier :=
    discipline.replay_register (fun s => s.owner = deployer) State.verifier _
      (fun l s hs => (effect_owner l s).trans hs) (fun l _ hs => (effect_written l hs).1) rfl log
  gateArgument :=
    discipline.replay_register (fun s => s.owner = deployer) State.gateArgument _
      (fun l s hs => (effect_owner l s).trans hs) (fun l _ hs => (effect_written l hs).2) rfl log

/-- The storage at the start of a session, at every entry and exit of a call, and at the
end, each with the calls kept until then. -/
def visited (txs : List Transaction) (s : State) : List (List Frame × State) :=
  ([], s) :: (session txs s).2.points discipline [] ++
    [((session txs s).2.survivors discipline, (session txs s).1)]

theorem stored_of_mem_visited {deployer verifier gateArgument : Address}
    {txs : List Transaction} :
    ∀ p ∈ visited txs (deploy deployer verifier gateArgument),
      Stored deployer verifier gateArgument p.1 p.2 := by
  have hruns := session_runs txs (deploy deployer verifier gateArgument)
  have replayed : ∀ p ∈ visited txs (deploy deployer verifier gateArgument),
      p.2 = discipline.replay (deploy deployer verifier gateArgument) p.1 := by
    simp only [visited, List.forall_mem_append, List.forall_mem_cons, List.cons_append]
    exact ⟨rfl, hruns.state_of_mem_points rfl, hruns.eq_replay, by simp⟩
  intro p hp
  rw [replayed p hp]
  exact stored_replay deployer verifier gateArgument p.1

/-! ## Single calls -/

theorem Record.Reverted.not_commits {record : Record} (h : record.Reverted) :
    (Frame.call record).commits = false := by
  obtain ⟨why, reverted⟩ := h
  simp [Frame.commits, reverted]

theorem Record.Lawful.setter {record : Record} {entry : State} (h : record.Lawful entry)
    (setter : record.invocation.IsSetter) : record.SetterEnds entry := by
  obtain ⟨sender, invocation, asked, outcome, emitted⟩ := record
  cases invocation with
  | setVerifierAddress verifier => exact h
  | setGateAddress gateArgument => exact h
  | verifyStorageProof => exact setter.elim

theorem Record.Lawful.verification {record : Record} {entry : State} (h : record.Lawful entry)
    {blob : List (BitVec 8)} {initParams : List (BitVec 256)}
    {columnsRotations : List (List (BitVec 256))} {root leaf : BitVec 256}
    (called : record.invocation =
      .verifyStorageProof blob initParams columnsRotations root leaf) :
    record.VerificationEnds (question blob initParams columnsRotations entry) := by
  simpa only [Record.Lawful, called] using h

/-- In every session, whatever external code does inside it: at every entry and exit of a
call the storage is what the owner set last and was not undone; a call that reverts leaves
the storage of its entry, as every setter called by another sender does; and a
verification that completes returns and emits the answer of the verifier stored at its
entry, asked with the gate argument stored there. -/
theorem authority (deployer verifier gateArgument : Address) (txs : List Transaction) :
    (∀ p ∈ visited txs (deploy deployer verifier gateArgument),
      p.2.owner = deployer ∧
      p.2.verifier = latest (Frame.verifierSet? deployer) p.1 verifier ∧
      p.2.gateArgument = latest (Frame.gateSet? deployer) p.1 gateArgument) ∧
    (∀ c ∈ (session txs (deploy deployer verifier gateArgument)).2.calls, ∀ record,
      c.label = .call record → record.Reverted → c.exit = c.entry) ∧
    (∀ c ∈ (session txs (deploy deployer verifier gateArgument)).2.calls, ∀ record,
      c.label = .call record → record.invocation.IsSetter → record.sender ≠ c.entry.owner →
      record.outcome = .reverted (.message "Not owner!") ∧ c.exit = c.entry) ∧
    (∀ c ∈ (session txs (deploy deployer verifier gateArgument)).2.calls, ∀ record,
      c.label = .call record → ∀ blob initParams columnsRotations root leaf,
      record.invocation = .verifyStorageProof blob initParams columnsRotations root leaf →
      ¬record.Reverted →
      ∃ result, record.outcome = .returned result ∧
        record.emitted = [.verificationStatusPositive result] ∧
        record.asked = some (⟨c.entry.verifier, blob, initParams, columnsRotations,
          c.entry.gateArgument⟩, .ok result)) := by
  have hruns := session_runs txs (deploy deployer verifier gateArgument)
  have undone : ∀ c ∈ (session txs (deploy deployer verifier gateArgument)).2.calls,
      ∀ record, c.label = .call record → record.Reverted → c.exit = c.entry := by
    intro c hc record label reverted
    apply hruns.exit_of_undone c hc
    rw [label]
    exact reverted.not_commits
  have lawful : ∀ c ∈ (session txs (deploy deployer verifier gateArgument)).2.calls,
      ∀ record, c.label = .call record → record.Lawful c.entry := by
    intro c hc record label
    have law := hruns.lawful_of_mem_calls c hc
    rw [label] at law
    exact law
  refine ⟨?_, undone, ?_, ?_⟩
  · intro p hp
    have stored := stored_of_mem_visited p hp
    exact ⟨stored.owner, stored.verifier, stored.gateArgument⟩
  · intro c hc record label setter other
    have ends := ((lawful c hc record label).setter setter).2.2
    rw [if_neg other] at ends
    exact ⟨ends, undone c hc record label ⟨_, ends⟩⟩
  · intro c hc record label blob initParams columnsRotations root leaf called completed
    cases (lawful c hc record label).verification called with
    | inl replied =>
        obtain ⟨result, asked, outcome, emitted⟩ := replied
        exact ⟨result, outcome, emitted, asked⟩
    | inr failed =>
        obtain ⟨why, _, outcome, _⟩ := failed
        exact absurd ⟨why, outcome⟩ completed

/-- A verifier that is the owner changes the gate argument twice during a verification and
undoes the second change; its setting of the verifier outlives a call that another sender
makes. -/
example :
    let code : Behaviour :=
      .reenter 1 (.setGateAddress 7) (fun _ => .answer true) fun _ =>
        .attempt (.reenter 1 (.setGateAddress 8) (fun _ => .answer true) fun _ =>
          .revert (.external [])) fun _ =>
          .reenter 2 (.setVerifierAddress 9) (fun _ => .answer true) fun _ => .answer true
    (session [⟨5, .verifyStorageProof [] [] [] 0 0, fun _ => code⟩] (deploy 1 1 3)).1 =
      ⟨1, 1, 7⟩ := by
  decide

end Contract
