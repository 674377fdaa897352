import Wireform.Step

/-!
# Relations between computations

Two computations that differ in one place are compared by a relation that everything is in to itself
and that goes over to what is made of related parts (`Congruence`). Then it goes over to traversals
and repetitions of related parts as well.
-/

namespace Wireform

/-- A relation that sequencing respects. -/
structure Congruence (m : Type → Type) [Monad m] (R : ∀ {α : Type}, m α → m α → Prop) : Prop where
  refl : ∀ {α : Type} (x : m α), R x x
  bind : ∀ {α β : Type} {x y : m α} {f g : α → m β}, R x y → (∀ a, R (f a) (g a)) →
    R (x >>= f) (y >>= g)

namespace Congruence

section

variable {m : Type → Type} [Monad m] [LawfulMonad m] {R : ∀ {α : Type}, m α → m α → Prop}
  {α β γ : Type}

theorem map (hR : Congruence m R) (f : α → β) {x y : m α} (h : R x y) : R (f <$> x) (f <$> y) := by
  rw [map_eq_pure_bind, map_eq_pure_bind]
  exact hR.bind h fun a => hR.refl _

/-- Traversals by congruent steps are congruent. -/
theorem mapM (hR : Congruence m R) {f g : γ → m α} (h : ∀ c, R (f c) (g c)) (cs : List γ) :
    R (cs.mapM f) (cs.mapM g) := by
  induction cs with
  | nil =>
    rw [List.mapM_nil, List.mapM_nil]
    exact hR.refl _
  | cons c cs ih =>
    rw [List.mapM_cons, List.mapM_cons]
    exact hR.bind (h c) fun a => hR.bind ih fun as => hR.refl _

omit [LawfulMonad m] in
theorem forM (hR : Congruence m R) {f g : γ → m Unit} (h : ∀ c, R (f c) (g c)) (cs : List γ) :
    R (cs.forM f) (cs.forM g) := by
  induction cs with
  | nil => exact hR.refl _
  | cons c cs ih => exact hR.bind (h c) fun _ => ih

end

/-- Repetitions of congruent steps are congruent. -/
theorem times {ε σ α : Type} {R : ∀ {α : Type}, Step ε σ α → Step ε σ α → Prop}
    (hR : Congruence (Step ε σ) R) {x y : Step ε σ α} (h : R x y) (n : Nat) :
    R (Step.times n x) (Step.times n y) := by
  induction n with
  | zero => exact hR.refl _
  | succ n ih =>
    rw [Step.times_succ, Step.times_succ]
    exact hR.bind h fun a => hR.bind ih fun as => hR.refl _

end Congruence

end Wireform
