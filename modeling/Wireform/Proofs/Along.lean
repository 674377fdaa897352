import Wireform.Step

/-!
# What steps lead along

Many properties of a step relate the state that it leaves to the one it was taken in, whether it
fails or not (`Along`), or only if it fails (`Safe`). If the relation is transitive, steps one after
the other have the property when each of them has it. After the last step that can fail, a safe step
may do what it likes.
-/

namespace Wireform.Step

variable {ε σ α β : Type} {R R' : σ → σ → Prop} {x : Step ε σ α} {s s' : σ}

/-- Whatever state the step is taken in, it leaves a related one, also when it fails. -/
def Along (R : σ → σ → Prop) (x : Step ε σ α) : Prop := ∀ s, R s (after (x s))

/-- Where the step fails, it leaves a related state. -/
def Safe (R : σ → σ → Prop) (x : Step ε σ α) : Prop :=
  ∀ ⦃s : σ⦄ ⦃e : ε⦄ ⦃s' : σ⦄, x s = .error e s' → R s s'

namespace Along

theorem ok (h : Along R x) {a : α} (hx : x s = .ok a s') : R s s' := by
  have hs := h s
  rwa [hx] at hs

theorem error (h : Along R x) {e : ε} (hx : x s = .error e s') : R s s' := by
  have hs := h s
  rwa [hx] at hs

/-- A sequence moves along a transitive relation if both of its parts do. -/
theorem bind (hx : Along R x) (htrans : ∀ ⦃s t u⦄, R s t → R t u → R s u) {f : α → Step ε σ β}
    (hf : ∀ a, Along R (f a)) : Along R (x >>= f) := by
  intro s
  rw [bind_apply]
  cases hxs : x s with
  | error e t => exact hx.error hxs
  | ok a t => exact htrans (hx.ok hxs) (hf a t)

theorem map (hx : Along R x) (f : α → β) : Along R (f <$> x) := by
  intro s
  rw [after_map]
  exact hx s

theorem ofExcept (hrefl : ∀ s, R s s) (x : Except ε α) :
    Along R (Step.ofExcept x : Step ε σ α) := by
  cases x with
  | ok a | error e => exact hrefl

/-- A traversal moves along a reflexive and transitive relation if each of its steps does. -/
theorem mapM (hrefl : ∀ s, R s s) (htrans : ∀ ⦃s t u⦄, R s t → R t u → R s u)
    {f : α → Step ε σ β} (hf : ∀ a, Along R (f a)) (as : List α) : Along R (as.mapM f) := by
  induction as with
  | nil => exact hrefl
  | cons a as ih =>
    rw [List.mapM_cons]
    exact (hf a).bind htrans fun b => ih.bind htrans fun bs => hrefl

theorem mono (h : Along R x) (hR : ∀ s t, R s t → R' s t) : Along R' x := fun s => hR s _ (h s)

/-- What always moves along the relation does so when it fails. -/
theorem safe (h : Along R x) : Safe R x := fun _ _ _ hx => h.error hx

/-- A step that leads along may stand in front of a safe one. -/
theorem bind_safe (hx : Along R x) (htrans : ∀ ⦃s t u⦄, R s t → R t u → R s u)
    {f : α → Step ε σ β} (hf : ∀ a, Safe R (f a)) : Safe R (x >>= f) := by
  intro s e s' h
  obtain hxs | ⟨a, t, hxs, hft⟩ := bind_eq_error.1 h
  · exact hx.error hxs
  · exact htrans (hx.ok hxs) (hf a hft)

end Along

namespace Safe

theorem mono (h : Safe R x) (hR : ∀ s t, R s t → R' s t) : Safe R' x :=
  fun _ _ _ hx => hR _ _ (h hx)

/-- Behind a safe step everything may change that cannot fail. -/
theorem bind_total (hx : Safe R x) {f : α → Step ε σ β} (hf : ∀ a s, ∃ b s', f a s = .ok b s') :
    Safe R (x >>= f) := by
  intro s e s' h
  obtain hxs | ⟨a, t, -, herror⟩ := bind_eq_error.1 h
  · exact hx hxs
  · obtain ⟨b, t', hok⟩ := hf a t
    cases hok.symm.trans herror

theorem map (hx : Safe R x) (f : α → β) : Safe R (f <$> x) :=
  hx.bind_total fun a s => ⟨f a, s, rfl⟩

end Safe

end Wireform.Step
