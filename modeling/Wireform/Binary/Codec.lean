import Wireform.Binary.Decode
import Wireform.Binary.Encode
import Wireform.Instance.Assign
import Wireform.Schema.Reach

/-!
# Instances in binary

A codec is bound to a model type whose whole schema has been checked, so that neither writing nor
reading through it meets a field without an encoding.
-/

namespace Wireform.Binary

variable (s : Schema) (limits : Limits)

/-- Reads a record and sets its values on a new instance of the model. -/
def readInstance (m : ModelId) : Read Instance := do
  Step.ofExcept (InstanceOf.ofRecord s m (← readRecord s limits m))

/-- Reads an instance that has to be all that is left. -/
def readAll (m : ModelId) : Read Instance := do
  let i ← readInstance s limits m
  let c ← get
  if c.atEnd then return i else invalid ⟨s.name m, ""⟩ (.trailingBytes c.size)

/-- The instance that bytes are all of. -/
def decode (m : ModelId) (bytes : List UInt8) : Except ModelError Instance :=
  Step.outcome (readAll s limits m (.ofBytes bytes))

/-- A model of a schema, with the limits for reading it. -/
structure Codec where
  schema : Schema
  model : ModelId
  limits : Limits

namespace Codec

/-- A codec for a model, unless something the model reaches cannot be encoded. -/
def make (m : ModelId) : Except ModelError Codec := do
  s.validate m
  return ⟨s, m, limits⟩

/-- The bytes of an instance. -/
def toBytes (codec : Codec) (i : Instance) : Except ModelError (List UInt8) :=
  bytes codec.schema (i.record codec.schema)

/-- The instance that bytes are all of. -/
def ofBytes (codec : Codec) (bytes : List UInt8) : Except ModelError Instance :=
  decode codec.schema codec.limits codec.model bytes

/-- Appends an instance to what is pending. -/
def write (codec : Codec) (i : Instance) : Step ModelError Queue Unit :=
  Binary.write codec.schema (i.record codec.schema)

/-- Reads an instance, behind which other bytes may follow. -/
def read (codec : Codec) : Read Instance := readInstance codec.schema codec.limits codec.model

end Codec

end Wireform.Binary
