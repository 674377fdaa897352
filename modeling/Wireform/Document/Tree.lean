import Wireform.Instance.Assign
import Wireform.Json.Tree

/-!
# Reading records from trees

A tree that has been read already is matched with a model by name: missing members and `null` leave
a field absent, and members that belong to no column are passed over.
-/

namespace Wireform.Document

open Json (Tree)

/-- The depth to which models may nest where nothing else is asked for. -/
def standardDepth : Nat := 64

/-- How the record of a nested model is read from the members of an object. -/
abbrev ObjectReading := ModelId → List (String × Tree) → Except ModelError Record

variable (s : Schema) (depth : Nat)

/-- The failure for a tree of another kind than the column asks for. -/
def wrongTree {α : Type} (site : Site) (tag : Tag) (t : Tree) : Except ModelError α :=
  .error (.typeMismatch site (tag.text s) t.kind)

/-- What was looked for, or the reason why the value is refused without it. -/
def required {α : Type} (site : Site) (reason : Reason) : Option α → Except ModelError α
  | some a => .ok a
  | none => .error (.invalidValue site reason)

/-- An integer that has to fit in 32 bits. -/
def treeInt (site : Site) (n : Int64) : Except ModelError Int32 :=
  required site (.intRange n.toInt) (Decimal.int32? n.toInt)

/-- A duration from the members of an object, of which only the magnitude and the unit matter. -/
def treeDuration (site : Site) (members : List (String × Tree)) : Except ModelError Duration := do
  let magnitude := (Tree.member? members "magnitude").bind Tree.int?
  let magnitude ← required site .durationMagnitude magnitude
  let name := (Tree.member? members "unit").bind Tree.str?
  let name ← required site .durationUnit name
  let unit ← required site (.durationName name) (DurationUnit.ofName? name)
  return ⟨magnitude, unit⟩

/-- An element of a list of texts. -/
def treeText (site : Site) : Tree → Except ModelError Value
  | .string t => .ok (.str t)
  | t => wrongTree s site .strList t

/-- An element of a list of models. -/
def treeModel (nested : ObjectReading) (site : Site) (m : ModelId) :
    Tree → Except ModelError Value
  | .object members => .model <$> nested m members
  | t => wrongTree s site (.modelList m) t

/-- A value, given how the records within it are read. -/
def treeValue (nested : ObjectReading) (site : Site) (tag : Tag) (t : Tree) :
    Except ModelError Value :=
  match tag, t with
  | .bool, .bool b => .ok (.bool b)
  | .str, .string t => .ok (.str t)
  | .int, .number spelling =>
    match Tree.integer? spelling with
    | some n => .int <$> treeInt site n
    | none => wrongTree s site .int (.number spelling)
  | .long, .number spelling =>
    match Tree.integer? spelling with
    | some n => .ok (.long n)
    | none => wrongTree s site .long (.number spelling)
  | .duration, .object members => .duration <$> treeDuration site members
  | .calendar, .string name =>
    .calendar <$> required site (.calendarName name) (CalendarUnit.ofName? name)
  | .zone, .string id => .zone <$> required site (.zone id) (ZoneId.ofText? id)
  | .strList, .array items => .list <$> items.mapM (treeText s site)
  | .modelList m, .array items => .list <$> items.mapM (treeModel s nested site m)
  | .model m, .object members => .model <$> nested m members
  | tag, t => wrongTree s site tag t

/-- What there is for a column: nothing where the member is missing or `null`. -/
def treeEntry (nested : ObjectReading) (m : ModelId) (members : List (String × Tree)) (c : Column) :
    Except ModelError (String × Option Value) :=
  match Tree.member? members c.name with
  | none | some .null => .ok (c.name, none)
  | some t => do return (c.name, some (← treeValue s nested ⟨s.name m, c.name⟩ c.tag t))

/-- A record that may open `levels` levels of models, its own included. -/
def ofMembers : (levels : Nat) → ObjectReading
  | 0, m, _ => .error (.depthExceeded (s.name m) depth)
  | levels + 1, m, members => do
    let columns ← s.columns m
    return ⟨m, ← columns.mapM (treeEntry s (ofMembers levels) m members)⟩

/-- The record that a tree spells, which has to be an object. -/
def ofTree (m : ModelId) : Tree → Except ModelError Record
  | .object members => ofMembers s depth (depth + 1) m members
  | t => .error (.notAnObject (s.name m) t.kind)

/-- The instance that a tree spells. -/
def instanceOfTree (m : ModelId) (t : Tree) : Except ModelError Instance := do
  InstanceOf.ofRecord s m (← ofTree s depth m t)

end Wireform.Document
