import Wireform.Bytes.Varint
import Wireform.Json.Error

/-!
# Failures of encoding, decoding and assigning models
-/

namespace Wireform

open Json (DocumentError Token)

/-- The field that a value is read for or written from, by the names a message gives. -/
structure Site where
  model : String
  field : String
  deriving DecidableEq, Repr

/-- Why a value that was found cannot be taken. -/
inductive Reason where
  | trailingBytes (count : Nat)
  | booleanByte (byte : UInt8)
  | varintOverflow (w : Varint.Width)
  | varintTooLong (w : Varint.Width)
  | negativeLength (length : Int)
  | durationOrdinal (ordinal : Nat)
  | calendarOrdinal (ordinal : Nat)
  | durationName (name : String)
  | calendarName (name : String)
  | zone (id : String)
  | number (why : DocumentError)
  | duplicate
  | durationMember (key : String) (found : Option Token)
  | durationIncomplete
  | durationMagnitude
  | durationUnit
  | intRange (n : Int)
  deriving DecidableEq, Repr

namespace Reason

/-- How an id that is not one of a time zone is reported. -/
def invalidZone (id : String) : String := s!"invalid time zone id `{id}`"

/-- How the reason is put at the end of a message. -/
def message : Reason → String
  | trailingBytes count => s!"{count} trailing bytes"
  | booleanByte byte =>
    "unexpected boolean byte 0x" ++
      String.ofList [Nat.digitChar (byte.toNat / 16), Nat.digitChar (byte.toNat % 16)]
  | varintOverflow w => s!"{w.name} overflows {w.bits} bits"
  | varintTooLong w => s!"{w.name} longer than {w.groups} bytes"
  | negativeLength length => s!"negative list length {length}"
  | durationOrdinal ordinal => s!"unknown duration unit {ordinal}"
  | calendarOrdinal ordinal => s!"unknown calendar unit {ordinal}"
  | durationName name => s!"unknown duration unit `{name}`"
  | calendarName name => s!"unknown calendar unit `{name}`"
  | zone id => invalidZone id
  | number why => why.message
  | duplicate => "duplicate field"
  | durationMember key found => s!"unexpected {Token.foundText found} for duration key `{key}`"
  | durationIncomplete => "duration needs both `magnitude` and `unit`"
  | durationMagnitude => "duration needs an integer `magnitude`"
  | durationUnit => "duration needs a string `unit`"
  | intRange n => s!"{n} out of int range"

end Reason

/-- Why a record could not be written, read or set on an instance. -/
inductive ModelError where
  /-- The shape of an exposed field has no encoding. -/
  | unsupportedField (site : Site) (shape : String)
  /-- An object read in canonical order goes on with something other than the next field. -/
  | orderMismatch (site : Site) (found : String)
  | typeMismatch (site : Site) (expected found : String)
  | notAnObject (model found : String)
  | invalidValue (site : Site) (reason : Reason)
  | unknownField (site : Site)
  | wrongModel (expected found : String)
  | unknownModel (name : String)
  | duplicateModel (name : String)
  | depthExceeded (model : String) (limit : Nat)
  | lengthExceeded (site : Site) (length limit : Nat)
  | buffer (why : BufferError)
  | document (why : DocumentError)
  deriving DecidableEq, Repr

namespace ModelError

/-- How a failure is reported, with the model and the field that it names. -/
def message : ModelError → String
  | unsupportedField site shape =>
    s!"unsupported field type {shape} for field `{site.field}` in model {site.model}"
  | orderMismatch site found =>
    s!"field order mismatch in model {site.model}: expected `{site.field}`, found `{found}`"
  | typeMismatch site expected found =>
    s!"type mismatch for field `{site.field}` in model {site.model}: " ++
      s!"expected {expected}, found {found}"
  | notAnObject model found => s!"model {model} must be read from an object, found {found}"
  | invalidValue site reason =>
    s!"invalid value for field `{site.field}` in model {site.model}: {reason.message}"
  | unknownField site => s!"unknown field `{site.field}` in model {site.model}"
  | wrongModel expected found => s!"expected a {expected} record, found {found}"
  | unknownModel name => s!"unknown model `{name}`"
  | duplicateModel name => s!"model `{name}` is already registered"
  | depthExceeded model limit => s!"nesting deeper than {limit} levels while reading model {model}"
  | lengthExceeded site length limit =>
    s!"length {length} of field `{site.field}` in model {site.model} exceeds the limit of {limit}"
  | buffer why => s!"binary stream error: {why.message}"
  | document why => s!"document error: {why.message}"

/-- How a number of varying length that could not be read is reported for a field. -/
def ofVarint (site : Site) : Varint.Failure → ModelError
  | .buffer e => .buffer e
  | .overflow w => .invalidValue site (.varintOverflow w)
  | .tooLong w => .invalidValue site (.varintTooLong w)

end ModelError

end Wireform
