import Wireform.Error
import Wireform.Proofs.Congruence

/-!
# Steps that mirror each other

`Mirrors E x y` says that `x` and `y` come to the same, except that they may fail differently, as `E`
allows. Steps that are made of smaller ones mirror each other if these do. This is how what is done
for one model stands to what is done for another that exposes the same fields: `Renamed` leaves them
nothing to differ in but the name of the model that a failure is reported for.
-/

namespace Wireform

variable {ε ε' σ α β γ : Type} {E : ε → ε → Prop}

/-- A failure that is reported for the model `a`, and the same one for the model `b`. -/
inductive Renamed (a b : String) : ModelError → ModelError → Prop
  | unsupportedField (field shape : String) :
    Renamed a b (.unsupportedField ⟨a, field⟩ shape) (.unsupportedField ⟨b, field⟩ shape)
  | orderMismatch (field found : String) :
    Renamed a b (.orderMismatch ⟨a, field⟩ found) (.orderMismatch ⟨b, field⟩ found)
  | typeMismatch (field expected found : String) :
    Renamed a b (.typeMismatch ⟨a, field⟩ expected found) (.typeMismatch ⟨b, field⟩ expected found)
  | notAnObject (found : String) : Renamed a b (.notAnObject a found) (.notAnObject b found)
  | invalidValue (field : String) (reason : Reason) :
    Renamed a b (.invalidValue ⟨a, field⟩ reason) (.invalidValue ⟨b, field⟩ reason)
  | unknownField (field : String) : Renamed a b (.unknownField ⟨a, field⟩) (.unknownField ⟨b, field⟩)
  | depthExceeded (limit : Nat) : Renamed a b (.depthExceeded a limit) (.depthExceeded b limit)
  | lengthExceeded (field : String) (length limit : Nat) :
    Renamed a b (.lengthExceeded ⟨a, field⟩ length limit) (.lengthExceeded ⟨b, field⟩ length limit)

/-- Both come to the same, or both fail. -/
def Mirrors (E : ε → ε → Prop) (x y : Except ε α) : Prop :=
  x = y ∨ ∃ e f, x = .error e ∧ y = .error f ∧ E e f

namespace Mirrors

theorem refl (x : Except ε α) : Mirrors E x x := .inl rfl

theorem error {e f : ε} (h : E e f) : Mirrors E (.error e : Except ε α) (.error f) :=
  .inr ⟨e, f, rfl, rfl, h⟩

variable {x y : Except ε α}

/-- Sequences mirror each other if their parts do. -/
theorem bind {f g : α → Except ε β} (h : Mirrors E x y) (hf : ∀ a, Mirrors E (f a) (g a)) :
    Mirrors E (x >>= f) (y >>= g) := by
  obtain rfl | ⟨e, f, rfl, rfl, he⟩ := h
  · cases x with
    | ok a => exact hf a
    | error e => exact refl _
  · exact error he

theorem congruence (E : ε → ε → Prop) : Congruence (Except ε) fun {_} => Mirrors E := ⟨refl, bind⟩

theorem map (f : α → β) (h : Mirrors E x y) : Mirrors E (f <$> x) (f <$> y) :=
  (congruence E).map f h

theorem mapM {f g : γ → Except ε α} (h : ∀ c, Mirrors E (f c) (g c)) (cs : List γ) :
    Mirrors E (cs.mapM f) (cs.mapM g) :=
  (congruence E).mapM h cs

end Mirrors

namespace Step

/-- In every state both come to the same, or both fail; in either case they leave the same state. -/
def Mirrors (E : ε → ε → Prop) (x y : Step ε σ α) : Prop :=
  ∀ s, x s = y s ∨ ∃ e f s', x s = .error e s' ∧ y s = .error f s' ∧ E e f

namespace Mirrors

variable {x y : Step ε σ α}

theorem refl (x : Step ε σ α) : Mirrors E x x := fun _ => .inl rfl

theorem throw {e f : ε} (h : E e f) : Mirrors E (throw e : Step ε σ α) (throw f) :=
  fun s => .inr ⟨e, f, s, rfl, rfl, h⟩

theorem ofExcept {x y : Except ε α} (h : Wireform.Mirrors E x y) :
    Mirrors E (ofExcept x : Step ε σ α) (ofExcept y) := by
  obtain rfl | ⟨e, f, rfl, rfl, he⟩ := h
  · exact refl _
  · exact throw he

/-- The same failure may be reported in two ways. -/
theorem adaptExcept {f g : ε' → ε} (h : ∀ e, f e = g e ∨ E (f e) (g e)) (x : Step ε' σ α) :
    Mirrors E (EStateM.adaptExcept f x) (EStateM.adaptExcept g x) := by
  intro s
  rw [adaptExcept_apply, adaptExcept_apply]
  cases x s with
  | ok a s' => exact .inl rfl
  | error e s' =>
    refine (h e).imp (fun heq => ?_) fun he => ⟨_, _, s', rfl, rfl, he⟩
    dsimp only
    rw [heq]

theorem bind {f g : α → Step ε σ β} (h : Mirrors E x y) (hf : ∀ a, Mirrors E (f a) (g a)) :
    Mirrors E (x >>= f) (y >>= g) := by
  intro s
  rw [bind_apply, bind_apply]
  obtain heq | ⟨e, f, s', hx, hy, he⟩ := h s
  · rw [heq]
    cases y s with
    | ok a s' => exact hf a s'
    | error e s' => exact .inl rfl
  · rw [hx, hy]
    exact .inr ⟨e, f, s', rfl, rfl, he⟩

theorem congruence (E : ε → ε → Prop) : Congruence (Step ε σ) fun {_} => Mirrors E := ⟨refl, bind⟩

theorem map (f : α → β) (h : Mirrors E x y) : Mirrors E (f <$> x) (f <$> y) :=
  (congruence E).map f h

theorem mapM {f g : γ → Step ε σ α} (h : ∀ c, Mirrors E (f c) (g c)) (cs : List γ) :
    Mirrors E (cs.mapM f) (cs.mapM g) :=
  (congruence E).mapM h cs

theorem forM {f g : γ → Step ε σ Unit} (h : ∀ c, Mirrors E (f c) (g c)) (cs : List γ) :
    Mirrors E (cs.forM f) (cs.forM g) :=
  (congruence E).forM h cs

theorem times (h : Mirrors E x y) (n : Nat) : Mirrors E (times n x) (times n y) :=
  (congruence E).times h n

end Mirrors

end Step

end Wireform
