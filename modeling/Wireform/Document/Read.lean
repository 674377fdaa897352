import Wireform.Instance.Assign
import Wireform.Json.Pull

/-!
# Reading records from documents

An object is read as a record of the model asked for, either with its members exactly in the order
of the catalog or by their names alone. The levels of nesting that are left bound the recursion, and
the text that is left bounds the loops.
-/

namespace Wireform.Document

open Json (DocumentError Pull Token)

/-- How the members of an object are matched with the columns of a model. -/
inductive Order where
  /-- One member for each column, in the order of the catalog. -/
  | canonical
  /-- Members in any order; unknown names are passed over and missing ones are absent. -/
  | byName
  deriving DecidableEq, Repr

/-- How a document is read. -/
structure Options where
  order : Order
  /-- How deep models may nest; the outermost one is at depth zero. -/
  depth : Nat
  deriving DecidableEq, Repr

/-- The options where none are given. -/
def Options.standard : Options := ⟨.canonical, 64⟩

/-- A read of something that belongs to a model. -/
abbrev Read := Step ModelError Pull

variable (s : Schema) (options : Options)

/-- A move of the pull on behalf of a model. -/
def pull {α : Type} (x : Pull.Move α) : Read α := EStateM.adaptExcept .document x

/-- The content of the current token; the failure to have it is reported as told. -/
def content {α : Type} (get : Pull → Except DocumentError α) (report : DocumentError → ModelError) :
    Read α := fun p =>
  match get p with
  | .ok a => .ok a p
  | .error e => .error (report e) p

/-- The text that is current; there has to be one. -/
def currentText : Read String := content Pull.stringText .document

/-- The latest name, which is the name of the member that is being read. -/
def currentName : Read String := do return (← get).name.getD ""

/-- The failure for a value that was read but cannot be taken. -/
def invalid {α : Type} (site : Site) (reason : Reason) : Read α := throw (.invalidValue site reason)

/-- The failure for another token than the one that has to stand here. -/
def unexpected {α : Type} (expected : Token) (found : Option Token) : Read α :=
  throw (.document (.unexpectedToken expected found))

/-- The failure for a text that ends within a record. -/
def unexpectedEnd {α : Type} : Read α := do
  throw (.document (.unexpectedEnd (← get).position))

/-- The failure for a value of another type than the column asks for. -/
def wrongToken {α : Type} (site : Site) (tag : Tag) (t : Token) : Read α :=
  throw (.typeMismatch site (tag.text s) t.text)

/-- Reads up to the token `last` within `budget` tokens, handing each of the others to `step`
together with what has been gathered before. -/
def gatherWithin {σ : Type} (last : Token) (atEnd : Read σ) (step : Token → σ → Read σ) :
    (budget : Nat) → σ → Read σ
  | 0, _ => atEnd
  | budget + 1, found => do
    match ← pull Pull.next with
    | none => atEnd
    | some t =>
      if t = last then
        return found
      else
        gatherWithin last atEnd step budget (← step t found)

/-- Reads up to the token `last`. Every token takes a character, so what is left of the text is
budget enough. -/
def gather {σ : Type} (last : Token) (atEnd : Read σ) (step : Token → σ → Read σ) (found : σ) :
    Read σ := do
  gatherWithin last atEnd step (← get).budget found

/-- Reads a member of a duration, whose name is current. A later member of the same name wins. -/
def readDurationMember (site : Site) (found : Option Int64 × Option DurationUnit) :
    Read (Option Int64 × Option DurationUnit) := do
  let key ← currentName
  let t ← pull Pull.next
  if key = "magnitude" ∧ t = some .number then
    let n ← content Pull.long fun e => .invalidValue site (.number e)
    return (some n, found.2)
  else if key = "unit" ∧ t = some .string then
    let name ← currentText
    match DurationUnit.ofName? name with
    | some unit => return (found.1, some unit)
    | none => invalid site (.durationName name)
  else
    invalid site (.durationMember key t)

/-- Reads an object with a magnitude and a unit, whose beginning is current. -/
def readDuration (site : Site) : Read Duration := do
  let atEnd := unexpected .fieldName none
  let found ← gather .endObject atEnd (fun t found =>
    if t = .fieldName then readDurationMember site found else unexpected .fieldName (some t))
    (none, none)
  match found with
  | (some magnitude, some unit) => return ⟨magnitude, unit⟩
  | _ => invalid site .durationIncomplete

/-- A calendar unit by its name. -/
def readCalendar (site : Site) : Read CalendarUnit := do
  let name ← currentText
  match CalendarUnit.ofName? name with
  | some unit => return unit
  | none => invalid site (.calendarName name)

/-- A time zone by its id, which has to be spelled as one. -/
def readZone (site : Site) : Read ZoneId := do
  let id ← currentText
  match ZoneId.ofText? id with
  | some z => return z
  | none => invalid site (.zone id)

/-- Reads the elements of an array whose beginning is current, each from its first token. -/
def readElements (read : Token → Read Value) : Read (List Value) := do
  let found ← gather .endArray unexpectedEnd (fun t found => do return (← read t) :: found) []
  return found.reverse

/-- A value whose first token is current, given how the records within it are read. -/
def readValueFrom (nested : ModelId → Read Record) (site : Site) (tag : Tag) (t : Token) :
    Read Value :=
  match tag, t with
  | .bool, .boolean => .bool <$> content Pull.booleanValue .document
  | .str, .string => .str <$> currentText
  | .int, .number => .int <$> content Pull.int fun e => .invalidValue site (.number e)
  | .long, .number => .long <$> content Pull.long fun e => .invalidValue site (.number e)
  | .duration, .startObject => .duration <$> readDuration site
  | .calendar, .string => .calendar <$> readCalendar site
  | .zone, .string => .zone <$> readZone site
  | .strList, .startArray => .list <$> readElements fun t =>
      if t = .string then .str <$> currentText else wrongToken s site .strList t
  | .modelList m, .startArray => .list <$> readElements fun t =>
      if t = .startObject then .model <$> nested m else wrongToken s site (.modelList m) t
  | .model m, .startObject => .model <$> nested m
  | tag, t => wrongToken s site tag t

/-- Reads what follows a name; `null` stands for an absent value. -/
def readValue (nested : ModelId → Read Record) (site : Site) (tag : Tag) : Read (Option Value) := do
  match ← pull Pull.next with
  | none => unexpectedEnd
  | some .null => return none
  | some t => some <$> readValueFrom s nested site tag t

/-- Reads the member that has to stand next. -/
def readNext (nested : ModelId → Read Record) (m : ModelId) (c : Column) :
    Read (String × Option Value) := do
  let site := ⟨s.name m, c.name⟩
  match ← pull Pull.next with
  | some .fieldName =>
    let name ← currentName
    if name = c.name then
      return (c.name, ← readValue s nested site c.tag)
    else
      throw (.orderMismatch site name)
  | t => throw (.orderMismatch site (Token.foundText t))

/-- The members of an object, which have to be those of the columns and in their order. -/
def readCanonical (nested : ModelId → Read Record) (m : ModelId) (columns : List Column) :
    Read (List (String × Option Value)) := do
  let entries ← columns.mapM (readNext s nested m)
  match ← pull Pull.next with
  | some .endObject => return entries
  | some .fieldName => throw (.unknownField ⟨s.name m, ← currentName⟩)
  | t => unexpected .endObject t

/-- A column and what has been read for it, if its member was met already. -/
structure Slot where
  column : Column
  content : Option (Option Value)
  deriving DecidableEq

namespace Slot

/-- Fills the first slot of that name. -/
def fill (name : String) (v : Option Value) : List Slot → List Slot
  | [] => []
  | slot :: rest =>
    if slot.column.name = name then { slot with content := some v } :: rest
    else slot :: fill name v rest

/-- What the record has for the column; nothing where the member is missing or `null`. -/
def entry (slot : Slot) : String × Option Value := (slot.column.name, slot.content.join)

end Slot

/-- Reads a member whose name is current. A member that belongs to no column is passed over, and no
column may be met twice. -/
def readNamed (nested : ModelId → Read Record) (m : ModelId) (slots : List Slot) :
    Read (List Slot) := do
  let name ← currentName
  match slots.find? fun slot => slot.column.name = name with
  | none =>
    let _ ← pull Pull.next
    pull Pull.skipChildren
    return slots
  | some ⟨column, found⟩ =>
    let site := ⟨s.name m, column.name⟩
    if found.isSome then
      invalid site .duplicate
    else
      return Slot.fill name (← readValue s nested site column.tag) slots

/-- The members of an object in any order, put in the order of the columns. -/
def readByName (nested : ModelId → Read Record) (m : ModelId) (columns : List Column) :
    Read (List (String × Option Value)) := do
  let atEnd := unexpected .fieldName none
  let slots ← gather .endObject atEnd (fun t slots =>
    if t = .fieldName then readNamed s nested m slots else unexpected .fieldName (some t))
    (columns.map fun c => ⟨c, none⟩)
  return slots.map Slot.entry

/-- A record whose beginning is current and which may open `levels` levels of models, its own
included. -/
def readLevels : (levels : Nat) → ModelId → Read Record
  | 0, m => throw (.depthExceeded (s.name m) options.depth)
  | levels + 1, m => do
    let columns ← Step.ofExcept (s.columns m)
    let entries ← match options.order with
      | .canonical => readCanonical s (readLevels levels) m columns
      | .byName => readByName s (readLevels levels) m columns
    return ⟨m, entries⟩

/-- Reads the object that is current or, before the first token, the one that follows. -/
def readRecord (m : ModelId) : Read Record := do
  let t ← match (← get).current with
    | some t => pure (some t)
    | none => pull Pull.next
  if t = some .startObject then
    readLevels s options (options.depth + 1) m
  else
    throw (.notAnObject (s.name m) (Token.foundText t))

/-- Reads a record and sets its values on a new instance of the model. -/
def readInstance (m : ModelId) : Read Instance := do
  Step.ofExcept (InstanceOf.ofRecord s m (← readRecord s options m))

/-- Reads an instance that has to be the whole text. -/
def readAll (m : ModelId) : Read Instance := do
  let i ← readInstance s options m
  match ← pull Pull.next with
  | none => return i
  | some _ => throw (.document (.trailingData (← get).position))

/-- The instance that a whole text spells. -/
def decode (m : ModelId) (text : String) : Except ModelError Instance :=
  Step.outcome (readAll s options m (.ofText text))

end Wireform.Document
