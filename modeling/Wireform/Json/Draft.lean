import Wireform.Bytes.Word
import Wireform.Json.Error
import Wireform.Json.Lexeme
import Wireform.Text.Decimal

/-!
# Drafting a text token by token

A draft takes the tokens of a JSON text one after the other and refuses those that are not allowed
where it stands, so that a draft that is complete holds a well-formed text. Refusing a token leaves
the draft as it was.
-/

namespace Wireform.Json

/-- An object or array that is still open. -/
inductive Scope where
  | object (first afterName : Bool)
  | array (first : Bool)
  deriving DecidableEq, Repr

/-- A text in the making, with what is open in it, the innermost first. -/
structure Draft where
  /-- The bytes written so far. -/
  out : Array UInt8
  scopes : List Scope
  /-- Whether the outermost value has been written. -/
  done : Bool
  deriving DecidableEq, Repr

namespace Draft

/-- A step of a draft, which fails when a token is not allowed where the draft stands. -/
abbrev Move := Step DocumentError Draft

/-- A draft without any token. -/
def empty : Draft := ⟨#[], [], false⟩

/-- How many objects and arrays are open. -/
def depth (d : Draft) : Nat := d.scopes.length

/-- Whether a whole value has been written and nothing is open. -/
def isComplete (d : Draft) : Bool := d.done && d.scopes.isEmpty

/-- Adds bytes as they are. -/
def put (d : Draft) (bytes : List UInt8) : Draft := { d with out := d.out ++ bytes }

/-- Adds characters as they are, in UTF-8. -/
def write (cs : List Char) : Move Unit := modify fun d => d.put (Utf8.encode (String.ofList cs))

/-- Refuses a token. -/
def refuse {α : Type} (why : Misuse) : Move α := throw (.misuse why)

/-- Changes what is open. -/
def setScopes (scopes : List Scope) : Move Unit := modify fun d => { d with scopes := scopes }

/-- Separates what follows from what came before. -/
def separate (first : Bool) : Move Unit := if first then pure () else write [',']

/-- Makes room for a value, if one may stand here. -/
def beforeValue : Move Unit := do
  let d ← get
  match d.scopes with
  | [] => if d.done then refuse .alreadyComplete else pure ()
  | .object first true :: outer => setScopes (.object first false :: outer)
  | .object _ false :: _ => refuse .valueWithoutName
  | .array first :: outer =>
    separate first
    setScopes (.array false :: outer)

/-- The outermost value is complete once nothing is open. -/
def afterValue : Move Unit := modify fun d => { d with done := d.done || d.scopes.isEmpty }

/-- A value without any parts, by its spelling. -/
def scalar (cs : List Char) : Move Unit := do
  beforeValue
  write cs
  afterValue

def null : Move Unit := scalar ['n', 'u', 'l', 'l']

def bool (b : Bool) : Move Unit :=
  scalar (if b then ['t', 'r', 'u', 'e'] else ['f', 'a', 'l', 's', 'e'])

/-- An integer, in decimals. -/
def long (n : Int64) : Move Unit := scalar (Decimal.ofInt n.toInt)

/-- A text within quotes. -/
def string (s : String) : Move Unit := scalar (Quoted.encode s)

/-- Opens an object, in the place of a value. -/
def startObject : Move Unit := do
  beforeValue
  write ['\x7b']
  setScopes (.object true false :: (← get).scopes)

/-- Opens an array, in the place of a value. -/
def startArray : Move Unit := do
  beforeValue
  write ['[']
  setScopes (.array true :: (← get).scopes)

/-- Closes the innermost object, unless the value of a member is missing. -/
def endObject : Move Unit := do
  match (← get).scopes with
  | .object _ false :: outer =>
    setScopes outer
    write ['\x7d']
    afterValue
  | .object _ true :: _ => refuse .nameWithoutValue
  | _ => refuse .noOpenObject

/-- Closes the innermost array. -/
def endArray : Move Unit := do
  match (← get).scopes with
  | .array _ :: outer =>
    setScopes outer
    write [']']
    afterValue
  | _ => refuse .noOpenArray

/-- The name of a member, with the comma in front of it and the colon behind it. -/
def fieldName (name : String) : Move Unit := do
  match (← get).scopes with
  | .object first false :: outer =>
    separate first
    setScopes (.object false true :: outer)
    write (Quoted.encode name ++ [':'])
  | _ => refuse .nameOutsideObject

/-- The bytes of a complete draft. -/
def bytes (d : Draft) : Except DocumentError (List UInt8) :=
  if d.isComplete then .ok d.out.toList else .error (.misuse .incomplete)

/-- The text of a complete draft. Bytes that were added as they are need not be a text. -/
def text (d : Draft) : Except DocumentError String := do
  match Utf8.decode? (← d.bytes) with
  | some s => return s
  | none => throw .invalidUtf8

end Draft

end Wireform.Json
