/-!
# Steps of a machine

Reading and writing here are machines: a step may give a result or fail, and in both cases it says
what state it leaves behind, because the state after a failure is part of the behaviour.
-/

namespace Wireform

/-- A step over states `σ` that gives an `α` or fails with an `ε`. -/
abbrev Step (ε σ α : Type) := EStateM ε σ α

namespace Step

variable {ε σ α : Type}

/-- The state a step leaves, whether it failed or not. -/
def after (r : EStateM.Result ε σ α) : σ :=
  match r with
  | .ok _ s => s
  | .error _ s => s

@[simp] theorem after_ok (a : α) (s : σ) : after (.ok a s : EStateM.Result ε σ α) = s := rfl

@[simp] theorem after_error (e : ε) (s : σ) : after (.error e s : EStateM.Result ε σ α) = s := rfl

theorem bind_apply {β : Type} (x : Step ε σ α) (f : α → Step ε σ β) (s : σ) :
    (x >>= f) s = match x s with
      | .ok a s => f a s
      | .error e s => .error e s := rfl

theorem map_apply {β : Type} (f : α → β) (x : Step ε σ α) (s : σ) :
    (f <$> x) s = match x s with
      | .ok a s => .ok (f a) s
      | .error e s => .error e s := rfl

/-- A sequence succeeds exactly when its first part does and its second part does from the state the
first one leaves. -/
theorem bind_eq_ok {β : Type} {x : Step ε σ α} {f : α → Step ε σ β} {s s' : σ} {b : β} :
    (x >>= f) s = .ok b s' ↔ ∃ a s₁, x s = .ok a s₁ ∧ f a s₁ = .ok b s' := by
  rw [bind_apply]
  cases x s <;> simp [and_assoc]

/-- A sequence fails in its first part, or in its second part after the first succeeded. -/
theorem bind_eq_error {β : Type} {x : Step ε σ α} {f : α → Step ε σ β} {s s' : σ} {e : ε} :
    (x >>= f) s = .error e s' ↔
      x s = .error e s' ∨ ∃ a s₁, x s = .ok a s₁ ∧ f a s₁ = .error e s' := by
  rw [bind_apply]
  cases x s <;> simp [and_assoc]

/-- A mapped step succeeds where the step does, in the same state. -/
theorem map_eq_ok {β : Type} {f : α → β} {x : Step ε σ α} {s s' : σ} {b : β} :
    (f <$> x) s = .ok b s' ↔ ∃ a, x s = .ok a s' ∧ f a = b := by
  rw [map_apply]
  cases x s with
  | error => simp
  | ok a s₁ =>
    simp only [EStateM.Result.ok.injEq]
    exact ⟨fun ⟨h, hs⟩ => ⟨a, ⟨rfl, hs⟩, h⟩, fun ⟨_, ⟨ha, hs⟩, h⟩ => ⟨ha ▸ h, hs⟩⟩

/-- A mapped step fails where the step does, in the same state. -/
theorem map_eq_error {β : Type} {f : α → β} {x : Step ε σ α} {s s' : σ} {e : ε} :
    (f <$> x) s = .error e s' ↔ x s = .error e s' := by
  rw [map_apply]
  cases x s <;> simp

/-- Mapping the result does not change the state that is left. -/
theorem after_map {β : Type} (f : α → β) (x : Step ε σ α) (s : σ) :
    after ((f <$> x) s) = after (x s) := by
  rw [map_apply]
  cases x s <;> rfl

theorem pure_apply (a : α) (s : σ) : (pure a : Step ε σ α) s = .ok a s := rfl

theorem pure_eq_ok {a b : α} {s s' : σ} :
    (pure a : Step ε σ α) s = .ok b s' ↔ a = b ∧ s = s' := by
  rw [pure_apply, EStateM.Result.ok.injEq]

theorem get_apply (s : σ) : (get : Step ε σ σ) s = .ok s s := rfl

theorem modify_apply (f : σ → σ) (s : σ) : (modify f : Step ε σ Unit) s = .ok () (f s) := rfl

theorem adaptExcept_apply {ε' : Type} (f : ε → ε') (x : Step ε σ α) (s : σ) :
    EStateM.adaptExcept f x s = match x s with
      | .ok a s => .ok a s
      | .error e s => .error (f e) s := by
  rw [EStateM.adaptExcept]
  cases x s <;> rfl

/-- What a step gives, without the state it leaves. -/
def outcome (r : EStateM.Result ε σ α) : Except ε α :=
  match r with
  | .ok a _ => .ok a
  | .error e _ => .error e

/-- A result as a step that leaves the state alone. -/
def ofExcept : Except ε α → Step ε σ α
  | .ok a => pure a
  | .error e => throw e

theorem ofExcept_eq_ok {x : Except ε α} {a : α} {s s' : σ} :
    (ofExcept x : Step ε σ α) s = .ok a s' ↔ x = .ok a ∧ s = s' := by
  cases x with
  | ok b => rw [ofExcept, pure_eq_ok, Except.ok.injEq]
  | error e => exact ⟨nofun, nofun⟩

/-- Lets a step on a part of a state act on the whole state. -/
def onPart {τ : Type} (get : τ → σ) (put : σ → τ → τ) (x : Step ε σ α) : Step ε τ α := fun t =>
  match x (get t) with
  | .ok a s => .ok a (put s t)
  | .error e s => .error e (put s t)

/-- Takes the same step `n` times; `found` holds the earlier results, the latest first. -/
def repeatOnto (x : Step ε σ α) : Nat → List α → Step ε σ (List α)
  | 0, found => pure found.reverse
  | n + 1, found => do
    let a ← x
    repeatOnto x n (a :: found)

/-- The same step so many times, one after the other. -/
def times (n : Nat) (x : Step ε σ α) : Step ε σ (List α) := repeatOnto x n []

/-- The loop with an accumulator is the repetition, behind what was found before. -/
theorem repeatOnto_eq (x : Step ε σ α) (n : Nat) (found : List α) :
    repeatOnto x n found = (fun more => found.reverse ++ more) <$> times n x := by
  induction n generalizing found with
  | zero => funext s; simp [times, repeatOnto, pure, EStateM.pure, Functor.map, EStateM.map]
  | succ n ih =>
    funext s
    simp only [times, repeatOnto, ih (_ :: found), ih [_]]
    simp only [bind, EStateM.bind, Functor.map, EStateM.map]
    cases x s with
    | error => rfl
    | ok a s' => cases h : repeatOnto x n [] s' <;> simp [h]

/-- Repetition by one more time puts one more result in front. -/
theorem times_succ (n : Nat) (x : Step ε σ α) :
    times (n + 1) x = do
      let a ← x
      let more ← times n x
      return a :: more := by
  funext s
  simp only [times, repeatOnto, repeatOnto_eq x n [_]]
  simp only [bind, EStateM.bind, Functor.map, EStateM.map, pure, EStateM.pure]
  cases x s with
  | error => rfl
  | ok a s' => cases h : repeatOnto x n [] s' <;> simp [h]

end Step

end Wireform
