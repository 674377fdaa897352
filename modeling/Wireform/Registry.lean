import Wireform.Binary.Codec
import Wireform.Document.Read
import Wireform.Document.Tree

/-!
# Registries

A registry finds model types by their names, for reads where the type is known only by its name. A
model is checked when it is registered, so what is found can always be read.
-/

namespace Wireform

/-- The registered models with their names, in the order of their registration. -/
structure Registry where
  models : List (String × ModelId)
  deriving DecidableEq, Repr

namespace Registry

/-- A registry without any model. -/
def empty : Registry := ⟨[]⟩

/-- The model that is registered under a name. -/
def get? (r : Registry) (name : String) : Option ModelId := r.models.lookup name

/-- Whether a model is registered under the name. -/
def contains (r : Registry) (name : String) : Bool := (r.get? name).isSome

/-- How many models are registered. -/
def size (r : Registry) : Nat := r.models.length

def isEmpty (r : Registry) : Bool := r.models.isEmpty

/-- The names under which models are registered. -/
def names (r : Registry) : List String := r.models.map Prod.fst

variable (s : Schema)

/-- Adds a model whose whole schema can be encoded and whose name is not taken. -/
def register (m : ModelId) : Step ModelError Registry Unit := do
  Step.ofExcept (s.validate m)
  let r ← get
  if r.contains (s.name m) then
    throw (.duplicateModel (s.name m))
  else
    set (Registry.mk (r.models ++ [(s.name m, m)]))

/-- The model under a name that has to be there. -/
def find (r : Registry) (name : String) : Except ModelError ModelId :=
  match r.get? name with
  | some m => .ok m
  | none => .error (.unknownModel name)

/-- Reads a record of the model under a name from a document. -/
def readDocument (r : Registry) (name : String) (options : Document.Options) :
    Document.Read Record := do
  Document.readRecord s options (← Step.ofExcept (r.find name))

/-- Reads a record of the model under a name from bytes, within the standard limits. -/
def readBinary (r : Registry) (name : String) : Binary.Read Record := do
  Binary.readRecord s .standard (← Step.ofExcept (r.find name))

/-- Reads a record of the model under a name from a tree. -/
def readTree (r : Registry) (name : String) (t : Json.Tree) : Except ModelError Record := do
  Document.ofTree s Document.standardDepth (← r.find name) t

end Registry

end Wireform
