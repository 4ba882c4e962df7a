/-!
Programs that change a state and may fail on the way.

A program that fails leaves the state it had come to, so an error is a result with a
state of its own. The lemmas here take a sequence of programs apart at its first
failure. `Keeps view x` says that `x` leaves a view of the state alone, whether it
fails or not.
-/

namespace Kit.Prog

variable {ε σ α β γ : Type} {x : EStateM ε σ α} {f : α → EStateM ε σ β} {s t : σ} {a : α} {b : β}
  {e : ε}

theorem bind_ok (h : x s = .ok a t) : (x >>= f) s = f a t := by
  simp [bind, EStateM.bind, h]

theorem bind_error (h : x s = .error e t) : (x >>= f) s = .error e t := by
  simp [bind, EStateM.bind, h]

/-- To look at the state and not use it does nothing. -/
theorem get_bind (x : EStateM ε σ α) : (do let _ ← get; x) = x := rfl

section TryCatch

variable {handle : ε → EStateM ε σ α}

/-- The handler starts from the state the program had come to. -/
theorem tryCatch_eq (x : EStateM ε σ α) (handle : ε → EStateM ε σ α) (s : σ) :
    tryCatch x handle s =
      match x s with
      | .ok a t => .ok a t
      | .error e t => handle e t := by
  change EStateM.tryCatch x handle s = _
  delta EStateM.tryCatch
  cases x s <;> rfl

theorem tryCatch_ok (h : x s = .ok a t) : tryCatch x handle s = .ok a t := by
  rw [tryCatch_eq, h]

theorem tryCatch_error (h : x s = .error e t) : tryCatch x handle s = handle e t := by
  rw [tryCatch_eq, h]

end TryCatch

/-- A sequence succeeds where both parts do. -/
theorem bind_eq_ok : (x >>= f) s = .ok b t ↔ ∃ a r, x s = .ok a r ∧ f a r = .ok b t := by
  constructor
  · intro h
    cases first : x s with
    | ok a r => exact ⟨a, r, rfl, (bind_ok first).symm.trans h⟩
    | error e r => cases (bind_error first).symm.trans h
  · rintro ⟨a, r, first, second⟩
    exact (bind_ok first).trans second

/-- A sequence fails in its first part or in its second. -/
theorem bind_eq_error : (x >>= f) s = .error e t ↔
    x s = .error e t ∨ ∃ a r, x s = .ok a r ∧ f a r = .error e t := by
  constructor
  · intro h
    cases first : x s with
    | ok a r => exact .inr ⟨a, r, rfl, (bind_ok first).symm.trans h⟩
    | error e' r =>
      cases (bind_error first).symm.trans h
      exact .inl rfl
  · rintro (first | ⟨a, r, first, second⟩)
    · exact bind_error first
    · exact (bind_ok first).trans second

/-- What a program gives, unless it fails. -/
def value : EStateM.Result ε σ α → Option α
  | .ok a _ => some a
  | .error _ _ => none

theorem value_eq_some {r : EStateM.Result ε σ α} : value r = some a ↔ ∃ t, r = .ok a t := by
  cases r with
  | ok a' t =>
    constructor
    · rintro ⟨⟩
      exact ⟨t, rfl⟩
    · rintro ⟨_, ⟨⟩⟩
      rfl
  | error e t =>
    constructor
    · rintro ⟨⟩
    · rintro ⟨_, ⟨⟩⟩

/-! ### What a program leaves alone -/

/-- The state a program ends in. -/
def final : EStateM.Result ε σ α → σ
  | .ok _ s => s
  | .error _ s => s

/-- The view of the state is the same afterwards. -/
def Keeps (view : σ → γ) (x : EStateM ε σ α) : Prop := ∀ s, view (final (x s)) = view s

namespace Keeps

variable {view : σ → γ}

theorem of_ok (h : Keeps view x) (run : x s = .ok a t) : view t = view s := by
  have kept := h s
  rwa [run] at kept

theorem of_error (h : Keeps view x) (run : x s = .error e t) : view t = view s := by
  have kept := h s
  rwa [run] at kept

theorem pure (a : α) : Keeps view (Pure.pure a : EStateM ε σ α) := fun _ => rfl

theorem throw (e : ε) : Keeps view (throw e : EStateM ε σ α) := fun _ => rfl

theorem bind (first : Keeps view x) (second : ∀ a, Keeps view (f a)) : Keeps view (x >>= f) := by
  intro s
  cases run : x s with
  | ok a t =>
    rw [bind_ok run]
    exact (second a t).trans (first.of_ok run)
  | error e t =>
    rw [bind_error run]
    exact first.of_error run

theorem tryCatch {handle : ε → EStateM ε σ α} (first : Keeps view x)
    (caught : ∀ e, Keeps view (handle e)) : Keeps view (tryCatch x handle) := by
  intro s
  cases run : x s with
  | ok a t =>
    rw [tryCatch_ok run]
    exact first.of_ok run
  | error e t =>
    rw [tryCatch_error run]
    exact (caught e t).trans (first.of_error run)

end Keeps

end Kit.Prog
