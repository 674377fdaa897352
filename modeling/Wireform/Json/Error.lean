/-!
# Tokens, and failures of reading and writing JSON texts
-/

namespace Wireform.Json

/-- What a text is made of; the name of a member is a token of its own, in front of its value. -/
inductive Token where
  | startObject | endObject | startArray | endArray | fieldName | string | number | boolean | null
  deriving DecidableEq, Repr

namespace Token

/-- How a token is named in a message. -/
def text : Token → String
  | startObject => "start of object"
  | endObject => "end of object"
  | startArray => "start of array"
  | endArray => "end of array"
  | fieldName => "field name"
  | string => "string"
  | number => "number"
  | boolean => "boolean"
  | null => "null"

/-- Whether an object or array begins with the token. -/
def opens (t : Token) : Bool := t = startObject || t = startArray

/-- Whether an object or array ends with the token. -/
def closes (t : Token) : Bool := t = endObject || t = endArray

/-- A token that was found where another was expected, or the end of the text instead of one. -/
def foundText : Option Token → String
  | some t => t.text
  | none => "end of input"

end Token

/-- Why a token may not be written where a draft stands. -/
inductive Misuse where
  | alreadyComplete
  | valueWithoutName
  | nameWithoutValue
  | noOpenObject
  | noOpenArray
  | nameOutsideObject
  | incomplete
  deriving DecidableEq, Repr

/-- How the refusal of a token is reported. -/
def Misuse.message : Misuse → String
  | alreadyComplete => "document already complete"
  | valueWithoutName => "value without a field name"
  | nameWithoutValue => "field name without a value"
  | noOpenObject => "no object to close"
  | noOpenArray => "no array to close"
  | nameOutsideObject => "field name outside of an object"
  | incomplete => "document is incomplete"

/-- Why a text could not be read or written; positions count bytes. -/
inductive DocumentError where
  | invalid (position : Nat)
  | unexpectedEnd (position : Nat)
  | invalidUtf8
  | invalidEscape (position : Nat)
  | trailingData (position : Nat)
  /-- The content of a kind of token is asked for while another token is current, or none. -/
  | notCurrent (needed : Token) (current : Option Token)
  /-- The text goes on with another token than the model asks for, or ends. -/
  | unexpectedToken (expected : Token) (found : Option Token)
  /-- A number is spelled in a way that the type asked for does not hold. -/
  | numberRange (spelling : String)
  | misuse (why : Misuse)
  deriving DecidableEq, Repr

namespace DocumentError

/-- How a failure is reported. -/
def message : DocumentError → String
  | invalid position => s!"invalid JSON at byte {position}"
  | unexpectedEnd position => s!"unexpected end of input at byte {position}"
  | invalidUtf8 => "invalid UTF-8"
  | invalidEscape position => s!"invalid escape sequence at byte {position}"
  | trailingData position => s!"trailing data at byte {position}"
  | notCurrent needed none => s!"expected {needed.text}, current token is no token"
  | notCurrent needed (some t) => s!"expected {needed.text}, current token is {t.text}"
  | unexpectedToken expected found =>
    s!"expected {expected.text}, current token is {Token.foundText found}"
  | numberRange spelling => s!"number `{spelling}` does not fit the requested type"
  | misuse why => s!"builder misuse: {why.message}"

end DocumentError

end Wireform.Json
