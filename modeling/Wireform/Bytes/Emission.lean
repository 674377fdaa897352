import Wireform.Bytes.Queue
import Wireform.Step

/-!
# Emissions

What a write sends out: bytes, and the failure that cut them short if there was one. The bytes in
front of a failure have been written and stay written.
-/

namespace Wireform

/-- What a write sends out, and the failure that it ends with, if any. -/
structure Emission (ε : Type) where
  bytes : List UInt8
  failure : Option ε
  deriving DecidableEq, Repr

namespace Emission

variable {ε ε' : Type}

/-- Sends out bytes. -/
def of (bytes : List UInt8) : Emission ε := ⟨bytes, none⟩

/-- Fails without sending out anything. -/
def fail (e : ε) : Emission ε := ⟨[], some e⟩

/-- Nothing is sent out after a failure. -/
def append (a b : Emission ε) : Emission ε :=
  match a.failure with
  | some _ => a
  | none => ⟨a.bytes ++ b.bytes, b.failure⟩

instance : Append (Emission ε) := ⟨append⟩

/-- Emissions one after the other. -/
def concat : List (Emission ε) → Emission ε
  | [] => of []
  | a :: rest => a ++ concat rest

/-- Reports a failure in other words. -/
def mapFailure (f : ε → ε') (a : Emission ε) : Emission ε' := ⟨a.bytes, a.failure.map f⟩

/-- Puts the bytes into a queue, those before a failure too. -/
def into (a : Emission ε) : Step ε Queue Unit := fun q =>
  match a.failure with
  | none => .ok () (q.put a.bytes)
  | some e => .error e (q.put a.bytes)

theorem append_def (a b : Emission ε) : a ++ b = append a b := rfl

@[simp] theorem append_of_nil (a : Emission ε) : a ++ of [] = a := by
  rcases a with ⟨bytes, _ | e⟩ <;> simp [append_def, append, of]

/-- Emission in three parts does not depend on where it is cut. -/
theorem append_assoc (a b c : Emission ε) : a ++ b ++ c = a ++ (b ++ c) := by
  rcases a with ⟨_, _ | e⟩ <;> rcases b with ⟨_, _ | e'⟩ <;> simp [append_def, append]

end Emission

end Wireform
