import NilAutotest.Python.Number

/-!
# Actions that may raise

An action reads and writes a state and ends with a value or an exception; the state
survives an exception. `tryFinally` is the statement `try: ... finally: ...`: the cleanup
always runs, and an exception it raises replaces the outcome of the body.
-/

namespace Python

/-- A computation over a state that may raise an exception. -/
def Action (σ α : Type) := σ → Except Exception α × σ

namespace Action

variable {σ α β : Type}

instance : Monad (Action σ) where
  pure a := fun s => (.ok a, s)
  bind x f := fun s =>
    match x s with
    | (.ok a, s') => f a s'
    | (.error e, s') => (.error e, s')

/-- An outcome that does not depend on the state. -/
def ofExcept (outcome : Except Exception α) : Action σ α := fun s => (outcome, s)

/-- `try: body finally: cleanup`. -/
def tryFinally (body : Action σ α) (cleanup : Action σ Unit) : Action σ α := fun s =>
  match body s with
  | (outcome, s') =>
      match cleanup s' with
      | (.ok (), s'') => (outcome, s'')
      | (.error e, s'') => (.error e, s'')

@[simp] theorem ofExcept_apply (outcome : Except Exception α) (s : σ) :
    ofExcept outcome s = (outcome, s) := rfl

theorem bind_apply_ok {x : Action σ α} {f : α → Action σ β} {s s' : σ} {a : α}
    (h : x s = (.ok a, s')) : (x >>= f) s = f a s' := by
  show (match x s with | (.ok a, s') => f a s' | (.error e, s') => (.error e, s')) = _
  rw [h]

theorem bind_apply_error {x : Action σ α} {f : α → Action σ β} {s s' : σ} {e : Exception}
    (h : x s = (.error e, s')) : (x >>= f) s = (.error e, s') := by
  show (match x s with | (.ok a, s') => f a s' | (.error e, s') => (.error e, s')) = _
  rw [h]

/-- A pure check after an action: the state is that of the action. -/
theorem bind_ofExcept (x : Action σ α) (f : α → Except Exception β) (s : σ) :
    (x >>= fun a => ofExcept (f a)) s = ((x s).1 >>= f, (x s).2) := by
  cases outcome : x s with
  | mk result s' =>
      cases result with
      | ok a => exact bind_apply_ok outcome
      | error e => exact bind_apply_error outcome

/-- A cleanup that succeeds keeps the outcome of the body. -/
theorem tryFinally_ok {body : Action σ α} {cleanup : Action σ Unit} {s s' s'' : σ}
    {outcome : Except Exception α} (h : body s = (outcome, s'))
    (clean : cleanup s' = (.ok (), s'')) : tryFinally body cleanup s = (outcome, s'') := by
  rw [tryFinally, h]
  simp only [clean]

/-- A cleanup that fails replaces it. -/
theorem tryFinally_error {body : Action σ α} {cleanup : Action σ Unit} {s s' s'' : σ}
    {outcome : Except Exception α} {e : Exception} (h : body s = (outcome, s'))
    (failed : cleanup s' = (.error e, s'')) :
    tryFinally body cleanup s = (.error e, s'') := by
  rw [tryFinally, h]
  simp only [failed]

end Action

end Python
