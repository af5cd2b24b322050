import Mathlib.Data.List.Basic

/-!
# Nested calls with rollback

A trace is the sequence of the calls made in one frame, each with the trace of the calls
made inside it. A call that does not commit undoes everything that happened inside it,
however deep and however successful.

What a run leaves behind is determined by the calls that survive: `survivors` lists them
in the order in which they ended, and `replay` applies them one after another. The main
result, `Runs.state_of_mem_points`, holds at every entry and exit of a call and not only
at the end, so it also speaks about the states seen by code that runs inside a call.
-/

namespace Rollback

variable {σ κ : Type}

/-- One call: what happened, as a label, and the states at its entry and its exit. -/
structure Call (σ κ : Type) where
  label : κ
  entry : σ
  exit : σ

/-- The calls of one frame in order, each with the calls inside it. -/
inductive Trace (σ κ : Type)
  | done
  | call (c : Call σ κ) (inner rest : Trace σ κ)

/-- How calls act on the state. -/
structure Discipline (σ κ : Type) where
  /-- Whether what happened in the call is kept. -/
  commits : κ → Bool
  /-- What a kept call adds to the state that its inner calls leave. -/
  effect : κ → σ → σ
  /-- What the label of a call owes to the state at its entry. -/
  lawful : κ → σ → Prop

/-- Apply calls one after another. -/
def Discipline.replay (D : Discipline σ κ) (s : σ) (log : List κ) : σ :=
  log.foldl (fun s l => D.effect l s) s

namespace Trace

/-- The calls that are kept, in the order in which they end. -/
def survivors (D : Discipline σ κ) : Trace σ κ → List κ
  | .done => []
  | .call c inner rest =>
      (if D.commits c.label then survivors D inner ++ [c.label] else []) ++ survivors D rest

/-- Every call at any depth, the outer ones first. -/
def calls : Trace σ κ → List (Call σ κ)
  | .done => []
  | .call c inner rest => c :: (calls inner ++ calls rest)

/-- Every entry and exit of a call at any depth, with the calls kept until then. -/
def points (D : Discipline σ κ) (log : List κ) : Trace σ κ → List (List κ × σ)
  | .done => []
  | .call c inner rest =>
      let log' := log ++ if D.commits c.label then survivors D inner ++ [c.label] else []
      (log, c.entry) :: points D log inner ++ (log', c.exit) :: points D log' rest

end Trace

/-- The runs of a discipline from one state to another. -/
inductive Runs (D : Discipline σ κ) : σ → Trace σ κ → σ → Prop
  | done (s : σ) : Runs D s .done s
  | commit {s m t : σ} {l : κ} {inner rest : Trace σ κ} (kept : D.commits l = true)
      (law : D.lawful l s) (hinner : Runs D s inner m) (hrest : Runs D (D.effect l m) rest t) :
      Runs D s (.call ⟨l, s, D.effect l m⟩ inner rest) t
  | rollback {s m t : σ} {l : κ} {inner rest : Trace σ κ} (undone : D.commits l = false)
      (law : D.lawful l s) (hinner : Runs D s inner m) (hrest : Runs D s rest t) :
      Runs D s (.call ⟨l, s, s⟩ inner rest) t

namespace Discipline

variable {D : Discipline σ κ}

@[simp] theorem replay_nil (s : σ) : D.replay s [] = s := rfl

@[simp] theorem replay_singleton (s : σ) (l : κ) : D.replay s [l] = D.effect l s := rfl

theorem replay_append (s : σ) (log log' : List κ) :
    D.replay s (log ++ log') = D.replay (D.replay s log) log' :=
  List.foldl_append

/-- A part of the state that no call writes is never changed. -/
theorem replay_fixed {α : Type} (part : σ → α) (h : ∀ l s, part (D.effect l s) = part s)
    (s : σ) (log : List κ) : part (D.replay s log) = part s := by
  induction log generalizing s with
  | nil => rfl
  | cons l log ih =>
      show part (D.replay (D.effect l s) log) = part s
      rw [ih, h]

/-- A part of the state that calls overwrite holds what was written last. What a call
writes may depend on the state only through an invariant. -/
theorem replay_register {α : Type} (Inv : σ → Prop) (part : σ → α) (written : κ → Option α)
    (preserved : ∀ l s, Inv s → Inv (D.effect l s))
    (h : ∀ l s, Inv s → part (D.effect l s) = (written l).getD (part s))
    {s : σ} (hs : Inv s) (log : List κ) :
    part (D.replay s log) = ((log.filterMap written).getLast?).getD (part s) := by
  induction log generalizing s with
  | nil => rfl
  | cons l log ih =>
      show part (D.replay (D.effect l s) log) = _
      rw [ih (preserved l s hs), h l s hs]
      cases hw : written l with
      | none => rw [List.filterMap_cons_none hw, Option.getD_none]
      | some a =>
          rw [List.filterMap_cons_some hw, List.getLast?_cons, Option.getD_some, Option.getD_some]

end Discipline

namespace Runs

variable {D : Discipline σ κ} {s t : σ} {trace : Trace σ κ}

/-- A kept call, with its exit named. -/
theorem kept {m exit : σ} {l : κ} {inner rest : Trace σ κ} (commits : D.commits l = true)
    (law : D.lawful l s) (hinner : Runs D s inner m) (hexit : exit = D.effect l m)
    (hrest : Runs D exit rest t) : Runs D s (.call ⟨l, s, exit⟩ inner rest) t := by
  subst hexit
  exact .commit commits law hinner hrest

/-- The final state is that of the surviving calls alone. -/
theorem eq_replay (h : Runs D s trace t) : t = D.replay s (trace.survivors D) := by
  induction h with
  | done => rfl
  | commit kept law hinner hrest ihinner ihrest =>
      rw [Trace.survivors, if_pos kept, D.replay_append, D.replay_append, ← ihinner]
      exact ihrest
  | rollback undone law hinner hrest ihinner ihrest =>
      rw [Trace.survivors, undone]
      exact ihrest

/-- At every entry and exit of a call, the state is that of the calls kept until then. -/
theorem state_of_mem_points (h : Runs D s trace t) {initial : σ} {log : List κ}
    (hs : s = D.replay initial log) :
    ∀ p ∈ trace.points D log, p.2 = D.replay initial p.1 := by
  induction h generalizing log with
  | done => simp [Trace.points]
  | @commit s m t l inner rest kept law hinner hrest ihinner ihrest =>
      have hexit : D.effect l m = D.replay initial (log ++ (inner.survivors D ++ [l])) := by
        rw [D.replay_append, D.replay_append, ← hs, ← hinner.eq_replay]
        rfl
      simp only [Trace.points, kept, if_true, List.cons_append, List.forall_mem_cons,
        List.forall_mem_append]
      exact ⟨hs, ihinner hs, hexit, ihrest hexit⟩
  | rollback undone law hinner hrest ihinner ihrest =>
      simp only [Trace.points, undone, Bool.false_eq_true, if_false, List.append_nil,
        List.cons_append, List.forall_mem_cons, List.forall_mem_append]
      exact ⟨hs, ihinner hs, hs, ihrest hs⟩

/-- A call that does not commit ends in the state in which it was entered. -/
theorem exit_of_undone (h : Runs D s trace t) :
    ∀ c ∈ trace.calls, D.commits c.label = false → c.exit = c.entry := by
  induction h with
  | done => simp [Trace.calls]
  | commit kept law hinner hrest ihinner ihrest =>
      simp only [Trace.calls, List.forall_mem_cons, List.forall_mem_append]
      refine ⟨?_, ihinner, ihrest⟩
      intro undone
      rw [kept] at undone
      contradiction
  | rollback undone law hinner hrest ihinner ihrest =>
      simp only [Trace.calls, List.forall_mem_cons, List.forall_mem_append]
      exact ⟨fun _ => trivial, ihinner, ihrest⟩

/-- Every call of a run obeys the discipline. -/
theorem lawful_of_mem_calls (h : Runs D s trace t) :
    ∀ c ∈ trace.calls, D.lawful c.label c.entry := by
  induction h with
  | done => simp [Trace.calls]
  | commit kept law hinner hrest ihinner ihrest =>
      simp only [Trace.calls, List.forall_mem_cons, List.forall_mem_append]
      exact ⟨law, ihinner, ihrest⟩
  | rollback undone law hinner hrest ihinner ihrest =>
      simp only [Trace.calls, List.forall_mem_cons, List.forall_mem_append]
      exact ⟨law, ihinner, ihrest⟩

end Runs

end Rollback
