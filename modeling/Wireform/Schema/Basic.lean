import Wireform.Units.Calendar
import Wireform.Units.Duration
import Wireform.Units.Zone

/-!
# Schemas

A schema lists model types; a model declares its fields in some order of its own. Models refer to
each other by index, so a model may reach itself. A field has a shape, which says what it may hold,
and an instance has a cell for each declared field of its model, exposed or not.

Some shapes have no encoding: whether a shape has one is decided by its tag
(`Wireform.Schema.Catalog`), not here.
-/

namespace Wireform

/-! ## Shapes -/

/-- Which model type of a schema is meant; two types may share a name, but not an index. -/
structure ModelId where
  index : Nat
  deriving DecidableEq, Repr

/-- What a field is declared to hold. -/
inductive Shape where
  | bool | str | int | long | duration | calendar | zone
  | list (item : Shape)
  /-- A field that may be absent. -/
  | optional (item : Shape)
  | model (id : ModelId)
  /-- A type of the host program that no encoding knows. -/
  | foreign (name : String)
  deriving DecidableEq, Repr

namespace Shape

/-- What an optional field holds when it is present; only one layer is looked through. -/
def present : Shape → Shape
  | .optional item => item
  | shape => shape

/-- The shape of the elements of a list. -/
def item? : Shape → Option Shape
  | .list item => some item
  | _ => none

end Shape

/-! ## Instances -/

/-- A model type and the contents of its fields. -/
structure InstanceOf (Contents : Type) where
  model : ModelId
  fields : List (String × Contents)

/-- What a field of an instance holds. -/
inductive Cell where
  | bool (b : Bool)
  | str (s : String)
  | int (n : Int32)
  | long (n : Int64)
  | duration (d : Duration)
  | calendar (u : CalendarUnit)
  | zone (z : ZoneId)
  /-- A value of a type that no encoding knows, by the text that shows it. -/
  | foreign (text : String)
  | list (items : List Cell)
  | absent
  | present (c : Cell)
  | model (i : InstanceOf Cell)

/-- An instance of a model, with a cell for each field. -/
abbrev Instance := InstanceOf Cell

/-! ## Declarations -/

/-- A declared field of a model. -/
structure FieldDecl where
  name : String
  shape : Shape
  /-- Whether the field belongs to what is shown, compared and encoded. -/
  exposed : Bool
  /-- What the field holds in a new instance. -/
  initial : Cell

/-- A model, with its fields in the order of their declaration. -/
structure ModelDecl where
  name : String
  fields : List FieldDecl

/-- The models that there are; a model is meant by its place among them. -/
structure Schema where
  models : List ModelDecl

namespace Schema

/-- A model outside of the schema has neither a name nor fields. -/
def decl (s : Schema) (m : ModelId) : ModelDecl := s.models[m.index]?.getD ⟨"", []⟩

/-- The name of a model, which another model may have as well. -/
def name (s : Schema) (m : ModelId) : String := (s.decl m).name

/-- The fields of a model in the order of their declaration, exposed or not. -/
def fields (s : Schema) (m : ModelId) : List FieldDecl := (s.decl m).fields

/-- The first field of that name, exposed or not. -/
def field? (s : Schema) (m : ModelId) (name : String) : Option FieldDecl :=
  (s.fields m).find? fun d => d.name = name

/-- An instance as it is before anything is assigned. -/
def initial (s : Schema) (m : ModelId) : Instance :=
  ⟨m, (s.fields m).map fun d => (d.name, d.initial)⟩

/-- A model the schema does not declare has no fields. -/
theorem fields_eq_nil {s : Schema} {m : ModelId} (h : s.models.length ≤ m.index) :
    s.fields m = [] := by
  simp [fields, decl, List.getElem?_eq_none h]

end Schema

namespace Shape

/-- How a shape is named in a message. -/
def text (s : Schema) : Shape → String
  | .bool => "bool"
  | .str => "String"
  | .int => "i32"
  | .long => "i64"
  | .duration => "DurationValue"
  | .calendar => "CalendarUnit"
  | .zone => "TimeZoneId"
  | .list item => "Vec<" ++ item.text s ++ ">"
  | .optional item => "Option<" ++ item.text s ++ ">"
  | .model m => s.name m
  | .foreign name => name

end Shape

end Wireform
