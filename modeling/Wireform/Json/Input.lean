import Wireform.Json.Error
import Wireform.Step

/-!
# The text in front of a reader

An input is what is left of a text together with the number of bytes read so far. A lexer takes
characters off its front; main statement: it never gives any back, so that reading ends.
-/

namespace Wireform.Json

/-- What is left of a text, and how many bytes came before. -/
structure Input where
  position : Nat
  rest : List Char
  deriving DecidableEq, Repr

/-- A step that takes characters off an input. -/
abbrev Lex := Step DocumentError Input

namespace Input

/-- A whole text. -/
def ofText (s : String) : Input := ⟨0, s.toList⟩

/-- How many bytes characters take in UTF-8. -/
def byteCount (cs : List Char) : Nat := cs.foldr (fun c n => c.utf8Size + n) 0

/-- The input without its first character. -/
def tail : Input → Input
  | ⟨position, c :: rest⟩ => ⟨position + c.utf8Size, rest⟩
  | ⟨position, []⟩ => ⟨position, []⟩

/-- What is left after some characters, or nothing if there are fewer. -/
def drop : Nat → Input → Input
  | 0, i => i
  | n + 1, i => drop n i.tail

theorem length_tail_le (i : Input) : i.tail.rest.length ≤ i.rest.length := by
  rcases i with ⟨_, _ | _⟩ <;> simp [tail]

theorem length_drop_le (n : Nat) (i : Input) : (i.drop n).rest.length ≤ i.rest.length := by
  induction n generalizing i with
  | zero => exact Nat.le_refl _
  | succ n ih => exact Nat.le_trans (ih i.tail) i.length_tail_le

end Input

namespace Lex

open Input

/-- The next character, which stays there to be taken. -/
def peek : Lex Char := fun i =>
  match i.rest with
  | [] => .error (.unexpectedEnd i.position) i
  | c :: _ => .ok c i

/-- Takes `n` characters. -/
def skip (n : Nat) : Lex Unit := fun i => .ok () (i.drop n)

/-- Takes the longest run of characters of a kind. -/
def run (kind : Char → Bool) : Lex (List Char) := fun i =>
  .ok (i.rest.takeWhile kind)
    ⟨i.position + byteCount (i.rest.takeWhile kind), i.rest.dropWhile kind⟩

/-- Takes the next character if it is one of those given. -/
def oneOf (cs : List Char) : Lex (List Char) := fun i =>
  match i.rest with
  | [] => .ok [] i
  | c :: _ => if cs.contains c then .ok [c] i.tail else .ok [] i

/-- Fails where the input stands. -/
def invalid {α : Type} : Lex α := fun i => .error (.invalid i.position) i

/-- Takes a character that has to stand here. -/
def expect (c : Char) : Lex Unit := do
  if (← peek) = c then skip 1 else invalid

/-- The four characters that may stand between tokens. -/
def isBlank (c : Char) : Bool := c = ' ' || c = '\t' || c = '\n' || c = '\r'

/-- Takes what stands between tokens. -/
def blanks : Lex Unit := do
  let _ ← run isBlank

/-- Takes a word that has to stand here in full. -/
def literal (word : List Char) : Lex Unit := fun i =>
  if word.isPrefixOf i.rest then .ok () (i.drop word.length) else .error (.invalid i.position) i

/-- A lexer leaves no more characters than it was given, also when it fails. -/
def Forward {α : Type} (x : Lex α) : Prop :=
  ∀ i, (Step.after (x i)).rest.length ≤ i.rest.length

section

variable {α β : Type} {x : Lex α}

theorem Forward.pure (a : α) : Forward (pure a) := fun _ => Nat.le_refl _

theorem Forward.throw (e : DocumentError) : Forward (throw e : Lex α) := fun _ => Nat.le_refl _

theorem Forward.get : Forward get := fun _ => Nat.le_refl _

/-- Reading in sequence does not step back if neither part does. -/
theorem Forward.bind (hx : Forward x) {f : α → Lex β} (hf : ∀ a, Forward (f a)) :
    Forward (x >>= f) := by
  intro i
  have h := hx i
  simp only [Bind.bind, EStateM.bind]
  cases hxi : x i with
  | error e j => simpa [hxi] using h
  | ok a j => exact Nat.le_trans (hf a j) (by simpa [hxi] using h)

/-- A successful reader that does not step back leaves no more text than it was given. -/
theorem Forward.ok (hx : Forward x) {i j : Input} {a : α} (h : x i = .ok a j) :
    j.rest.length ≤ i.rest.length := by
  simpa [h] using hx i

end

theorem forward_peek : Forward peek := by
  intro i
  unfold peek
  split <;> exact Nat.le_refl _

theorem forward_skip (n : Nat) : Forward (skip n) := fun i => i.length_drop_le n

end Lex

end Wireform.Json
