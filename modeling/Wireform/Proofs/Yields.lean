import Wireform.Proofs.Traversal
import Wireform.Step

/-!
# What steps yield

What holds of everything that a step may give, and of every failure it may end in, whatever state it
is taken in. A step that is made of smaller ones yields what follows from what these yield.
-/

namespace Wireform

variable {ε ε' σ α β : Type} {P : α → Prop} {P' : β → Prop} {Q : ε → Prop}

/-- The result has `P` if there is one, and otherwise the failure has `Q`. -/
def Yields (P : α → Prop) (Q : ε → Prop) : Except ε α → Prop
  | .ok a => P a
  | .error e => Q e

namespace Yields

theorem ok {x : Except ε α} {a : α} (h : Yields P Q x) (hx : x = .ok a) : P a := by
  rwa [hx] at h

theorem error {x : Except ε α} {e : ε} (h : Yields P Q x) (hx : x = .error e) : Q e := by
  rwa [hx] at h

theorem mono {x : Except ε α} {R : α → Prop} (h : Yields P Q x) (hP : ∀ a, P a → R a) :
    Yields R Q x := by
  cases x with
  | ok a => exact hP a h
  | error e => exact h

/-- A sequence is specified by its parts: the second one is asked only about what the first may
give. -/
theorem bind {x : Except ε α} {f : α → Except ε β} (h : Yields P Q x)
    (hf : ∀ a, P a → Yields P' Q (f a)) : Yields P' Q (x >>= f) := by
  cases x with
  | ok a => exact hf a h
  | error e => exact h

theorem map {x : Except ε α} {f : α → β} (h : Yields P Q x) (hf : ∀ a, P a → P' (f a)) :
    Yields P' Q (f <$> x) := by
  cases x with
  | ok a => exact hf a h
  | error e => exact h

/-- A traversal answers each element by its own specification. -/
theorem mapM {R : β → α → Prop} {f : β → Except ε α} {xs : List β}
    (h : ∀ x ∈ xs, Yields (R x) Q (f x)) : Yields (List.Forall₂ R xs) Q (xs.mapM f) := by
  induction xs with
  | nil => exact List.Forall₂.nil
  | cons x xs ih =>
    obtain ⟨hx, hxs⟩ := List.forall_mem_cons.1 h
    rw [List.mapM_cons]
    exact hx.bind fun a ha => (ih hxs).bind fun as has => List.Forall₂.cons ha has

/-- Under one specification for all elements all answers satisfy it. -/
theorem mapM_all {f : β → Except ε α} (h : ∀ x, Yields P Q (f x)) (xs : List β) :
    Yields (fun as => ∀ a ∈ as, P a) Q (xs.mapM f) := by
  refine (mapM (R := fun _ => P) fun x _ => h x).mono fun as has a ha => ?_
  obtain ⟨x, -, hx⟩ := exists_of_forall₂ has.flip ha
  exact hx

end Yields

namespace Step

/-- Whatever state the step is taken in, a result of it has `P` and a failure of it has `Q`. -/
def Yields (P : α → Prop) (Q : ε → Prop) (x : Step ε σ α) : Prop :=
  ∀ s, Wireform.Yields P Q (outcome (x s))

namespace Yields

variable {x : Step ε σ α}

theorem ok (h : Yields P Q x) {s s' : σ} {a : α} (hx : x s = .ok a s') : P a := by
  have hs := h s
  rwa [hx] at hs

theorem error (h : Yields P Q x) {s s' : σ} {e : ε} (hx : x s = .error e s') : Q e := by
  have hs := h s
  rwa [hx] at hs

theorem pure {a : α} (h : P a) : Yields P Q (pure a : Step ε σ α) := fun _ => h

theorem throw {e : ε} (h : Q e) : Yields P Q (throw e : Step ε σ α) := fun _ => h

theorem get : Yields (fun _ => True) Q (get : Step ε σ σ) := fun _ => trivial

theorem mono {R : α → Prop} (h : Yields P Q x) (hP : ∀ a, P a → R a) : Yields R Q x :=
  fun s => (h s).mono hP

theorem bind {f : α → Step ε σ β} (h : Yields P Q x) (hf : ∀ a, P a → Yields P' Q (f a)) :
    Yields P' Q (x >>= f) := by
  intro s
  have hs := h s
  rw [bind_apply]
  revert hs
  cases x s with
  | ok a s' => exact fun ha => hf a ha s'
  | error e s' => exact id

theorem map {f : α → β} (h : Yields P Q x) (hf : ∀ a, P a → P' (f a)) : Yields P' Q (f <$> x) := by
  intro s
  have hs := h s
  rw [map_apply]
  revert hs
  cases x s with
  | ok a s' => exact hf a
  | error e s' => exact id

theorem ofExcept {x : Except ε α} (h : Wireform.Yields P Q x) :
    Yields P Q (ofExcept x : Step ε σ α) := by
  cases x with
  | ok a => exact pure h
  | error e => exact throw h

/-- A step that reports its failures in other words. -/
theorem adaptExcept {f : ε' → ε} (x : Step ε' σ α) (h : ∀ e, Q (f e)) :
    Yields (fun _ => True) Q (EStateM.adaptExcept f x) := by
  intro s
  rw [adaptExcept_apply]
  cases x s with
  | ok a s' => trivial
  | error e s' => exact h e

theorem mapM {R : β → α → Prop} {f : β → Step ε σ α} {xs : List β}
    (h : ∀ x ∈ xs, Yields (R x) Q (f x)) : Yields (List.Forall₂ R xs) Q (xs.mapM f) := by
  induction xs with
  | nil => exact pure .nil
  | cons x xs ih =>
    obtain ⟨hx, hxs⟩ := List.forall_mem_cons.1 h
    rw [List.mapM_cons]
    exact hx.bind fun a ha => (ih hxs).bind fun as has => pure (.cons ha has)

theorem forM {f : β → Step ε σ Unit} {xs : List β} (h : ∀ x ∈ xs, Yields (fun _ => True) Q (f x)) :
    Yields (fun _ => True) Q (xs.forM f) := by
  induction xs with
  | nil => exact pure trivial
  | cons x xs ih =>
    obtain ⟨hx, hxs⟩ := List.forall_mem_cons.1 h
    exact hx.bind fun _ _ => ih hxs

/-- All results of a repetition satisfy the specification of the step. -/
theorem times (h : Yields P Q x) (n : Nat) : Yields (fun as => ∀ a ∈ as, P a) Q (times n x) := by
  induction n with
  | zero => exact pure (List.forall_mem_nil _)
  | succ n ih =>
    rw [times_succ]
    exact h.bind fun a ha => ih.bind fun as has => pure (List.forall_mem_cons.2 ⟨ha, has⟩)

end Yields

end Step

end Wireform
