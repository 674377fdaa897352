import Wireform.Error
import Wireform.Proofs.Congruence

/-!
# Steps that may be refused

`Curtails Q x y` says that `x` comes to the same as `y` unless it is refused, with a failure of the
kind `Q`. A step that is made of smaller ones is curtailed if these are. This is how a read under
narrow limits stands to the same read under wider ones: `TooDeep` and `TooLong` are what it may be
refused with.
-/

namespace Wireform

variable {ε σ α β γ : Type} {Q : ε → Prop}

/-- Models nest too deep for a limit, where a wider one would allow more. -/
inductive TooDeep (depth wider : Nat) : ModelError → Prop
  | intro (model : String) : depth < wider → TooDeep depth wider (.depthExceeded model depth)

/-- A length exceeds a limit, where a wider one would allow more. -/
inductive TooLong (length wider : Nat) : ModelError → Prop
  | intro (site : Site) {n : Nat} : length < n → length < wider →
    TooLong length wider (.lengthExceeded site n length)

/-- `x` comes to the same as `y`, or it is refused. -/
def Curtails (Q : ε → Prop) (x y : Except ε α) : Prop := x = y ∨ ∃ e, x = .error e ∧ Q e

namespace Curtails

theorem refl (x : Except ε α) : Curtails Q x x := .inl rfl

theorem refuse {e : ε} (h : Q e) (y : Except ε α) : Curtails Q (.error e) y := .inr ⟨e, rfl, h⟩

variable {x y : Except ε α}

/-- What a curtailed reader accepts, the full one accepts with the same result. -/
theorem ok {a : α} (h : Curtails Q x y) (hx : x = .ok a) : y = .ok a := by
  obtain rfl | ⟨e, he, -⟩ := h
  · exact hx
  · cases he.symm.trans hx

/-- What only the other gives has been refused. -/
theorem refused {a : α} (h : Curtails Q x y) (hy : y = .ok a) (hx : x ≠ .ok a) :
    ∃ e, x = .error e ∧ Q e := by
  obtain rfl | hrefused := h
  · exact absurd hy hx
  · exact hrefused

/-- A sequence is curtailed if its parts are. -/
theorem bind {f g : α → Except ε β} (h : Curtails Q x y) (hf : ∀ a, Curtails Q (f a) (g a)) :
    Curtails Q (x >>= f) (y >>= g) := by
  obtain rfl | ⟨e, rfl, he⟩ := h
  · cases x with
    | ok a => exact hf a
    | error e => exact refl _
  · exact refuse he _

theorem congruence (Q : ε → Prop) : Congruence (Except ε) fun {_} => Curtails Q := ⟨refl, bind⟩

theorem map (f : α → β) (h : Curtails Q x y) : Curtails Q (f <$> x) (f <$> y) :=
  (congruence Q).map f h

theorem mapM {f g : γ → Except ε α} (h : ∀ c, Curtails Q (f c) (g c)) (cs : List γ) :
    Curtails Q (cs.mapM f) (cs.mapM g) :=
  (congruence Q).mapM h cs

end Curtails

namespace Step

/-- In every state, `x` comes to the same as `y` and leaves the same state, or it is refused. -/
def Curtails (Q : ε → Prop) (x y : Step ε σ α) : Prop :=
  ∀ s, x s = y s ∨ ∃ e s', x s = .error e s' ∧ Q e

namespace Curtails

variable {x y : Step ε σ α}

theorem refl (x : Step ε σ α) : Curtails Q x x := fun _ => .inl rfl

theorem refuse {e : ε} (h : Q e) (y : Step ε σ α) : Curtails Q (throw e) y :=
  fun s => .inr ⟨e, s, rfl, h⟩

theorem ok {s s' : σ} {a : α} (h : Curtails Q x y) (hx : x s = .ok a s') : y s = .ok a s' := by
  obtain heq | ⟨e, s₁, he, -⟩ := h s
  · exact heq.symm.trans hx
  · cases he.symm.trans hx

/-- Where only the full reader succeeds, the curtailed one gives one of the refusals. -/
theorem refused {s s' : σ} {a : α} (h : Curtails Q x y) (hy : y s = .ok a s')
    (hx : x s ≠ .ok a s') : ∃ e s₁, x s = .error e s₁ ∧ Q e := by
  obtain heq | hrefused := h s
  · exact absurd (heq.trans hy) hx
  · exact hrefused

theorem bind {f g : α → Step ε σ β} (h : Curtails Q x y) (hf : ∀ a, Curtails Q (f a) (g a)) :
    Curtails Q (x >>= f) (y >>= g) := by
  intro s
  rw [bind_apply, bind_apply]
  obtain heq | ⟨e, s', hx, he⟩ := h s
  · rw [heq]
    cases y s with
    | ok a s' => exact hf a s'
    | error e s' => exact .inl rfl
  · rw [hx]
    exact .inr ⟨e, s', rfl, he⟩

theorem congruence (Q : ε → Prop) : Congruence (Step ε σ) fun {_} => Curtails Q := ⟨refl, bind⟩

theorem map (f : α → β) (h : Curtails Q x y) : Curtails Q (f <$> x) (f <$> y) :=
  (congruence Q).map f h

theorem mapM {f g : γ → Step ε σ α} (h : ∀ c, Curtails Q (f c) (g c)) (cs : List γ) :
    Curtails Q (cs.mapM f) (cs.mapM g) :=
  (congruence Q).mapM h cs

theorem times (h : Curtails Q x y) (n : Nat) : Curtails Q (times n x) (times n y) :=
  (congruence Q).times h n

end Curtails

end Step

end Wireform
