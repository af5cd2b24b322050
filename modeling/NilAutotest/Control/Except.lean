import Mathlib.Data.List.Forall2

/-!
# Computations that may fail

A computation succeeds with a value exactly when each of its steps does. A loop is followed step
by step: where every step succeeds and keeps a relation, to the state of another loop or to the
element it was computed from, the whole loop succeeds and ends in that relation.
-/

namespace Control

section Except

variable {ε α β : Type}

theorem bind_eq_ok {x : Except ε α} {f : α → Except ε β} {b : β} :
    (x >>= f) = .ok b ↔ ∃ a, x = .ok a ∧ f a = .ok b := by
  cases x with
  | error e => simp [bind, Except.bind]
  | ok a => simp [bind, Except.bind]

theorem mapM_eq_ok {f : α → Except ε β} {xs : List α} {ys : List β} :
    xs.mapM f = .ok ys ↔ List.Forall₂ (fun x y => f x = .ok y) xs ys := by
  induction xs generalizing ys with
  | nil =>
      rw [List.mapM_nil, List.forall₂_nil_left_iff]
      constructor
      · intro h
        exact (Except.ok.inj h).symm
      · rintro rfl
        rfl
  | cons x xs ih =>
      simp only [List.mapM_cons, bind_eq_ok, ih, List.forall₂_cons_left_iff]
      constructor
      · rintro ⟨y, hy, zs, hzs, eq⟩
        exact ⟨y, zs, hy, hzs, (Except.ok.inj eq).symm⟩
      · rintro ⟨y, zs, hy, hzs, rfl⟩
        exact ⟨y, hy, zs, hzs, rfl⟩

/-- A loop ends normally exactly when each of its steps does. -/
theorem exists_mapM_eq_ok {f : α → Except ε β} {xs : List α} :
    (∃ ys, xs.mapM f = .ok ys) ↔ ∀ x ∈ xs, ∃ y, f x = .ok y := by
  simp only [mapM_eq_ok]
  induction xs with
  | nil => simp
  | cons x xs ih =>
      rw [List.forall_mem_cons, ← ih]
      constructor
      · rintro ⟨ys, h⟩
        obtain ⟨y, zs, hy, hzs, _⟩ := List.forall₂_cons_left_iff.mp h
        exact ⟨⟨y, hy⟩, zs, hzs⟩
      · rintro ⟨⟨y, hy⟩, zs, hzs⟩
        exact ⟨y :: zs, .cons hy hzs⟩

/-- A loop whose steps are known to end normally. -/
theorem mapM_eq_ok_map {f : α → Except ε β} {g : α → β} {xs : List α}
    (h : ∀ x ∈ xs, f x = .ok (g x)) : xs.mapM f = .ok (xs.map g) := by
  rw [mapM_eq_ok, List.forall₂_map_right_iff, List.forall₂_same]
  exact h

end Except

section Option

variable {σ τ α β : Type*}

theorem foldlM_related {R : σ → τ → Prop} {f : σ → α → Option σ} {g : τ → α → Option τ}
    {xs : List α} (step : ∀ x ∈ xs, ∀ s t, R s t →
      ∃ s' t', f s x = some s' ∧ g t x = some t' ∧ R s' t') {s : σ} {t : τ} (h : R s t) :
    ∃ s' t', xs.foldlM f s = some s' ∧ xs.foldlM g t = some t' ∧ R s' t' := by
  induction xs generalizing s t with
  | nil => exact ⟨s, t, rfl, rfl, h⟩
  | cons x xs ih =>
      obtain ⟨s', t', first, second, related⟩ := step x List.mem_cons_self s t h
      rw [List.foldlM_cons, List.foldlM_cons, first, second]
      exact ih (fun y hy => step y (List.mem_cons_of_mem x hy)) related

/-- A loop whose steps succeed with related values. -/
theorem mapM_related {R : α → β → Prop} {f : α → Option β} {xs : List α}
    (step : ∀ x ∈ xs, ∃ y, f x = some y ∧ R x y) :
    ∃ ys, xs.mapM f = some ys ∧ List.Forall₂ R xs ys := by
  induction xs with
  | nil => exact ⟨[], rfl, .nil⟩
  | cons x xs ih =>
      obtain ⟨y, value, related⟩ := step x List.mem_cons_self
      obtain ⟨ys, values, rest⟩ := ih fun z hz => step z (List.mem_cons_of_mem x hz)
      refine ⟨y :: ys, ?_, .cons related rest⟩
      rw [List.mapM_cons, value, values]
      rfl

end Option

end Control
