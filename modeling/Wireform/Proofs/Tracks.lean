import Wireform.Step

/-!
# Steps of two machines

`Tracks P E Q x y` compares a step of one machine with a step of another. Taken in states that `P`
relates, both give results, and then `Q` relates the results and the states that are left, or both
fail, and then `E` does. This goes over to what is made of smaller steps, so that two machines that
are built in the same way are compared part by part.
-/

namespace Wireform.Step

variable {ε ε' σ τ α α' β β' : Type}

/-- The same thing on both sides, and related states. -/
def Same (R : σ → τ → Prop) (a b : α) (s : σ) (t : τ) : Prop := a = b ∧ R s t

/-- Both are results or both are failures, and they are related. -/
inductive Meets (E : ε → ε' → σ → τ → Prop) (Q : α → β → σ → τ → Prop) :
    EStateM.Result ε σ α → EStateM.Result ε' τ β → Prop
  | ok {a : α} {b : β} {s : σ} {t : τ} : Q a b s t → Meets E Q (.ok a s) (.ok b t)
  | error {e : ε} {f : ε'} {s : σ} {t : τ} : E e f s t → Meets E Q (.error e s) (.error f t)

variable {P R : σ → τ → Prop} {E : ε → ε' → σ → τ → Prop} {Q : α → β → σ → τ → Prop}
  {Q' : α' → β' → σ → τ → Prop}

namespace Meets

/-- Results that meet leave related states if errors and answers do. -/
theorem after {r : EStateM.Result ε σ α} {r' : EStateM.Result ε' τ β} (h : Meets E Q r r')
    (hE : ∀ e f s t, E e f s t → R s t) (hQ : ∀ a b s t, Q a b s t → R s t) :
    R (after r) (after r') := by
  cases h with
  | ok h => exact hQ _ _ _ _ h
  | error h => exact hE _ _ _ _ h

/-- Where the second side gives a result, so does the first. -/
theorem exists_ok {r : EStateM.Result ε σ α} {b : β} {t : τ}
    (h : Meets E Q r (.ok b t : EStateM.Result ε' τ β)) : ∃ a s, r = .ok a s ∧ Q a b s t := by
  cases h with
  | ok h => exact ⟨_, _, rfl, h⟩

theorem exists_error {r : EStateM.Result ε σ α} {f : ε'} {t : τ}
    (h : Meets E Q r (.error f t : EStateM.Result ε' τ β)) : ∃ e s, r = .error e s ∧ E e f s t := by
  cases h with
  | error h => exact ⟨_, _, rfl, h⟩

/-- Results that meet with equal answers and equal errors have the same outcome. -/
theorem outcome_eq {r : EStateM.Result ε σ α} {r' : EStateM.Result ε τ α}
    (h : Meets (Same R) (Same R) r r') : outcome r = outcome r' := by
  cases h with
  | ok h => exact congrArg Except.ok h.1
  | error h => exact congrArg Except.error h.1

/-- Two sequences from given states meet if their first parts meet and their second parts do from
whatever states are then related. -/
theorem bind {x : Step ε σ α} {y : Step ε' τ β} {f : α → Step ε σ α'} {g : β → Step ε' τ β'}
    {s : σ} {t : τ} (h : Meets E Q (x s) (y t))
    (hf : ∀ a b s t, Q a b s t → Meets E Q' (f a s) (g b t)) :
    Meets E Q' ((x >>= f) s) ((y >>= g) t) := by
  rw [bind_apply, bind_apply]
  revert h
  generalize x s = r, y t = r'
  intro h
  cases h with
  | ok h => exact hf _ _ _ _ h
  | error h => exact .error h

theorem map {f : α → α'} {g : β → β'} {x : Step ε σ α} {y : Step ε' τ β} {s : σ} {t : τ}
    (h : Meets E Q (x s) (y t)) (hf : ∀ a b s t, Q a b s t → Q' (f a) (g b) s t) :
    Meets E Q' ((f <$> x) s) ((g <$> y) t) := h.bind fun a b s t hab => .ok (hf a b s t hab)

/-- What is related is the result of the second step. -/
theorem remember {r : EStateM.Result ε σ α} {r' : EStateM.Result ε' τ β} (h : Meets E Q r r') :
    Meets E (fun a b s t => Q a b s t ∧ r' = .ok b t) r r' := by
  cases h with
  | ok h => exact .ok ⟨h, rfl⟩
  | error h => exact .error h

end Meets

/-- Taken in related states, the two steps come to related results or failures. -/
def Tracks (P : σ → τ → Prop) (E : ε → ε' → σ → τ → Prop) (Q : α → β → σ → τ → Prop)
    (x : Step ε σ α) (y : Step ε' τ β) : Prop :=
  ∀ ⦃s : σ⦄ ⦃t : τ⦄, P s t → Meets E Q (x s) (y t)

namespace Tracks

variable {x x' : Step ε σ α} {y y' : Step ε' τ β}

theorem pure {a : α} {b : β} (h : ∀ s t, P s t → Q a b s t) :
    Tracks P E Q (pure a : Step ε σ α) (pure b : Step ε' τ β) :=
  fun s t hs => .ok (h s t hs)

theorem bind {f : α → Step ε σ α'} {g : β → Step ε' τ β'} (h : Tracks P E Q x y)
    (hf : ∀ a b, Tracks (Q a b) E Q' (f a) (g b)) : Tracks P E Q' (x >>= f) (y >>= g) :=
  fun _ _ hs => (h hs).bind fun a b _ _ hab => hf a b hab

theorem map {f : α → α'} {g : β → β'} (h : Tracks P E Q x y)
    (hf : ∀ a b s t, Q a b s t → Q' (f a) (g b) s t) : Tracks P E Q' (f <$> x) (g <$> y) :=
  fun _ _ hs => (h hs).map hf

/-- Both sides take the same branch. -/
theorem ite {p q : Prop} [Decidable p] [Decidable q] (hpq : ∀ s t, P s t → (p ↔ q))
    (ht : p → q → Tracks P E Q x y) (he : ¬ p → ¬ q → Tracks P E Q x' y') :
    Tracks P E Q (if p then x else x') (if q then y else y') := by
  intro s t hs
  by_cases hp : p
  · have hq := (hpq s t hs).1 hp
    rw [if_pos hp, if_pos hq]
    exact ht hp hq hs
  · have hq := mt (hpq s t hs).2 hp
    rw [if_neg hp, if_neg hq]
    exact he hp hq hs

end Tracks

end Wireform.Step
