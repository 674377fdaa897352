import Wireform.Json.Pull

/-!
# JSON values as trees

A tree keeps a number as it is spelled and the members of an object in the order of the text, also
those whose names are repeated. Trees are built from events, which are tokens with their contents.
-/

namespace Wireform.Json

/-- What a text spells. Members keep their order, and a name may come twice. -/
inductive Tree where
  | null
  | bool (b : Bool)
  | number (spelling : String)
  | string (s : String)
  | array (items : List Tree)
  | object (members : List (String × Tree))

/-- A token together with what it holds. -/
inductive Event where
  | startObject | endObject | startArray | endArray
  | name (s : String)
  | string (s : String)
  | number (spelling : String)
  | boolean (b : Bool)
  | null
  deriving DecidableEq, Repr

/-- The token of an event. -/
def Event.token : Event → Token
  | startObject => .startObject
  | endObject => .endObject
  | startArray => .startArray
  | endArray => .endArray
  | name _ => .fieldName
  | string _ => .string
  | number _ => .number
  | boolean _ => .boolean
  | null => .null

namespace Pull

/-- The current token with its contents. -/
def event (p : Pull) : Token → Event
  | .startObject => .startObject
  | .endObject => .endObject
  | .startArray => .startArray
  | .endArray => .endArray
  | .fieldName => .name (p.name.getD "")
  | .string => .string p.text
  | .number => .number p.text
  | .boolean => .boolean p.boolean
  | .null => .null

/-- The events up to the end of the text, within `budget` tokens; `found` holds those before, the
latest first. -/
def eventsOnto : (budget : Nat) → List Event → Move (List Event)
  | 0, found => return found.reverse
  | budget + 1, found => do
    match ← next with
    | none => return found.reverse
    | some t => eventsOnto budget ((← get).event t :: found)

/-- All events that are left, up to the end of the text. -/
def events : Move (List Event) := do eventsOnto (← get).budget []

end Pull

namespace Tree

/-- How a tree is named in a message. -/
def kind : Tree → String
  | null => "null"
  | bool _ => "boolean"
  | number _ => "number"
  | string _ => "string"
  | array _ => "array"
  | object _ => "object"

mutual

/-- The events that spell a tree. -/
def events : Tree → List Event
  | null => [.null]
  | bool b => [.boolean b]
  | number spelling => [.number spelling]
  | string s => [.string s]
  | array items => .startArray :: itemEvents items ++ [.endArray]
  | object members => .startObject :: memberEvents members ++ [.endObject]

def itemEvents : List Tree → List Event
  | [] => []
  | t :: rest => events t ++ itemEvents rest

def memberEvents : List (String × Tree) → List Event
  | [] => []
  | (name, t) :: rest => .name name :: events t ++ memberEvents rest

end

/-- An array or object that is not closed yet, with what it holds so far, the latest first. -/
inductive Open where
  | array (items : List Tree)
  | object (members : List (String × Tree)) (name : Option String)

/-- Builds the tree that events spell; `outer` is what is open around them, the innermost first.
A value goes into what is open, and ends the tree if nothing is. -/
def build : List Event → List Open → Option Tree
  | [], _ => none
  | e :: rest, outer =>
    let place (t : Tree) (outer : List Open) : Option Tree :=
      match outer with
      | [] => if rest.isEmpty then some t else none
      | .array items :: outer => build rest (.array (t :: items) :: outer)
      | .object members (some name) :: outer =>
        build rest (.object ((name, t) :: members) none :: outer)
      | .object _ none :: _ => none
    match e, outer with
    | .startObject, outer => build rest (.object [] none :: outer)
    | .startArray, outer => build rest (.array [] :: outer)
    | .endObject, .object members none :: outer => place (.object members.reverse) outer
    | .endArray, .array items :: outer => place (.array items.reverse) outer
    | .name s, .object members none :: outer => build rest (.object members (some s) :: outer)
    | .string s, outer => place (.string s) outer
    | .number spelling, outer => place (.number spelling) outer
    | .boolean b, outer => place (.bool b) outer
    | .null, outer => place .null outer
    | _, _ => none

/-- The tree with these events, if they are those of a tree. -/
def ofEvents? (es : List Event) : Option Tree := build es []

/-- The tree that a text spells; nothing unless the whole text is one value. -/
def ofText? (s : String) : Option Tree :=
  match Pull.events (.ofText s) with
  | .ok es _ => ofEvents? es
  | .error _ _ => none

/-- The member of that name; of several the last one. -/
def member? (members : List (String × Tree)) (name : String) : Option Tree :=
  members.reverse.lookup name

/-- The number that a spelling without fraction and exponent stands for, if it fits in 64 bits. A
zero with a sign is not a whole number. -/
def integer? (spelling : String) : Option Int64 :=
  if spelling = "-0" then none else (Decimal.int? spelling.toList).bind Decimal.int64?

/-- The integer that a number spells, if it spells one. -/
def int? : Tree → Option Int64
  | number spelling => integer? spelling
  | _ => none

/-- The content of a text. -/
def str? : Tree → Option String
  | string s => some s
  | _ => none

end Tree

end Wireform.Json
