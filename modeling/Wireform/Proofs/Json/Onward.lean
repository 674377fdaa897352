import Wireform.Json.Lexeme
import Wireform.Proofs.Along

/-!
# Lexers go onward

What a lexer leaves is its input without some characters off the front, and the position has moved
by the bytes of these characters, also when the lexer fails (`Lex.Onward`). So no lexer moves the
position backwards.
-/

namespace Wireform.Json

namespace Input

/-- The second input is what is left of the first after some of its characters. -/
def Onward (i j : Input) : Prop :=
  ∃ taken, i.rest = taken ++ j.rest ∧ j.position = i.position + byteCount taken

variable {i j k : Input}

theorem byteCount_append (cs ds : List Char) :
    byteCount (cs ++ ds) = byteCount cs + byteCount ds := by
  induction cs with
  | nil => exact (Nat.zero_add _).symm
  | cons c cs ih =>
    simp only [byteCount, List.cons_append, List.foldr_cons] at ih ⊢
    rw [ih, Nat.add_assoc]

namespace Onward

theorem refl (i : Input) : i.Onward i := ⟨[], rfl, rfl⟩

theorem trans (h : i.Onward j) (h' : j.Onward k) : i.Onward k := by
  obtain ⟨cs, hrest, hposition⟩ := h
  obtain ⟨ds, hrest', hposition'⟩ := h'
  refine ⟨cs ++ ds, ?_, ?_⟩
  · rw [hrest, hrest', List.append_assoc]
  · rw [hposition', hposition, byteCount_append, Nat.add_assoc]

/-- The position never goes back. -/
theorem position_le (h : i.Onward j) : i.position ≤ j.position := by
  obtain ⟨taken, -, hposition⟩ := h
  rw [hposition]
  exact Nat.le_add_right _ _

end Onward

theorem onward_tail (i : Input) : i.Onward i.tail := by
  obtain ⟨position, _ | ⟨c, rest⟩⟩ := i
  · exact .refl _
  · exact ⟨[c], rfl, rfl⟩

theorem onward_drop (n : Nat) (i : Input) : i.Onward (i.drop n) := by
  induction n generalizing i with
  | zero => exact .refl i
  | succ n ih => exact i.onward_tail.trans (ih i.tail)

end Input

namespace Lex

variable {α β : Type} {x : Lex α}

/-- The lexer takes characters off the front, and nothing else, also when it fails. -/
def Onward (x : Lex α) : Prop := Step.Along Input.Onward x

namespace Onward

theorem pure (a : α) : Onward (pure a) := fun i => .refl i

theorem throw (e : DocumentError) : Onward (throw e : Lex α) := fun i => .refl i

theorem get : Onward get := fun i => .refl i

/-- A sequence moves onward if its parts do. -/
theorem bind {f : α → Lex β} (hx : Onward x) (hf : ∀ a, Onward (f a)) : Onward (x >>= f) :=
  Step.Along.bind hx (fun _ _ _ => Input.Onward.trans) hf

end Onward

/-! ## Characters -/

theorem onward_peek : Onward peek := by
  intro i
  unfold peek
  split <;> exact .refl i

theorem onward_skip (n : Nat) : Onward (skip n) := fun i => i.onward_drop n

theorem onward_run (kind : Char → Bool) : Onward (run kind) := fun _ =>
  ⟨_, (List.takeWhile_append_dropWhile).symm, rfl⟩

theorem onward_oneOf (cs : List Char) : Onward (oneOf cs) := by
  intro i
  unfold oneOf
  split
  · exact .refl i
  · split
    · exact i.onward_tail
    · exact .refl i

theorem onward_invalid : Onward (invalid : Lex α) := fun i => .refl i

theorem onward_expect (c : Char) : Onward (expect c) := by
  refine onward_peek.bind fun d => ?_
  split
  · exact onward_skip 1
  · exact onward_invalid

theorem onward_blanks : Onward blanks := (onward_run isBlank).bind fun _ => .pure ()

theorem onward_literal (word : List Char) : Onward (literal word) := by
  intro i
  unfold literal
  split
  · exact i.onward_drop _
  · exact .refl i

/-! ## Numbers -/

theorem onward_someDigits : Onward someDigits := by
  refine (onward_run Char.isDigit).bind fun ds => ?_
  split
  · exact onward_invalid
  · exact .pure ds

theorem onward_whole : Onward whole := by
  refine Onward.get.bind fun i => onward_someDigits.bind fun ds => ?_
  split
  · exact .throw _
  · exact .pure ds

theorem onward_fraction : Onward fraction := by
  refine (onward_oneOf _).bind fun point => ?_
  split
  · exact .pure []
  · exact onward_someDigits.bind fun ds => .pure _

theorem onward_exponent : Onward exponent := by
  refine (onward_oneOf _).bind fun mark => ?_
  split
  · exact .pure []
  · exact (onward_oneOf _).bind fun sign => onward_someDigits.bind fun ds => .pure _

/-- The reader of numbers moves onward. -/
theorem onward_number : Onward number :=
  (onward_oneOf _).bind fun _ => onward_whole.bind fun _ => onward_fraction.bind fun _ =>
    onward_exponent.bind fun _ => .pure _

/-! ## Quoted texts -/

theorem onward_codeUnit : Onward codeUnit := by
  intro i
  unfold codeUnit
  split
  · exact .refl i
  · split
    · exact i.onward_drop 4
    · exact .refl i

theorem onward_pairing (start high : Nat) : Onward (pairing start high) := by
  refine Onward.get.bind fun i => ?_
  split
  · refine (onward_skip 2).bind fun _ => onward_codeUnit.bind fun low => ?_
    split
    · exact .pure _
    · exact .throw _
  · exact .throw _

theorem onward_codePoint (start : Nat) : Onward (codePoint start) := by
  refine onward_codeUnit.bind fun unit => ?_
  split
  · exact onward_pairing start unit
  · exact .pure unit

theorem onward_escape : Onward escape := by
  refine Onward.get.bind fun i => onward_peek.bind fun c => ?_
  split
  · refine (onward_skip 1).bind fun _ => (onward_codePoint _).bind fun n => ?_
    split
    · exact .pure _
    · exact .throw _
  · split
    · exact (onward_skip 1).bind fun _ => .pure _
    · exact .throw _

/-- The reader of strings moves onward. -/
theorem onward_quotedOnto (found : List Char) : Onward (quotedOnto found) := by
  intro i
  fun_induction quotedOnto found i with
  | case1 found i => exact .refl i
  | case2 found i => exact i.onward_tail
  | case3 found i rest d j hescape _ _ _ _ ih =>
    exact (i.onward_tail.trans (onward_escape.ok hescape)).trans ih
  | case4 found i rest e j hescape => exact i.onward_tail.trans (onward_escape.error hescape)
  | case5 found i => exact .refl i
  | case6 found i c rest _ _ _ _ _ ih => exact i.onward_tail.trans ih

theorem onward_quoted : Onward quoted := onward_quotedOnto []

end Lex

end Wireform.Json
