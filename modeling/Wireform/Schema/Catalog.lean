import Wireform.Error
import Wireform.Schema.Basic

/-!
# Catalogs

The catalog of a model lists its exposed fields by name. It fixes the order in which fields are
encoded, so it must not depend on the order of declaration. A column is a field of the catalog
together with the tag that says how its values are encoded.
-/

namespace Wireform

/-- How the values of a field are encoded. -/
inductive Tag where
  | bool | str | int | long | duration | calendar | zone
  | strList
  | modelList (m : ModelId)
  | model (m : ModelId)
  deriving DecidableEq, Repr

namespace Tag

/-- How a tag is named in a message. -/
def text (s : Schema) : Tag → String
  | .bool => "bool"
  | .str => "string"
  | .int => "int"
  | .long => "long"
  | .duration => "duration"
  | .calendar => "calendar unit"
  | .zone => "time zone"
  | .strList => "list of strings"
  | .modelList m => "list of " ++ s.name m
  | .model m => s.name m

/-- The model type that values of the tag hold, if they hold any. -/
def nested? : Tag → Option ModelId
  | .modelList m | .model m => some m
  | _ => none

end Tag

/-- Lists hold texts or models, and nothing may be absent within them. -/
def Shape.tag? : Shape → Option Tag
  | .bool => some .bool
  | .str => some .str
  | .int => some .int
  | .long => some .long
  | .duration => some .duration
  | .calendar => some .calendar
  | .zone => some .zone
  | .list .str => some .strList
  | .list (.model m) => some (.modelList m)
  | .model m => some (.model m)
  | _ => none

/-- A field of the catalog, by its name and its tag. -/
structure Column where
  name : String
  tag : Tag
  deriving DecidableEq, Repr

namespace FieldDecl

/-- Puts a field before the first whose name does not come earlier. -/
def insert (d : FieldDecl) : List FieldDecl → List FieldDecl
  | [] => [d]
  | e :: rest => if d.name ≤ e.name then d :: e :: rest else e :: insert d rest

/-- Names are compared by their code points, which is also the order of their UTF-8 bytes, and fields
of one name keep their order. The recursion is on the list, so that the catalogs of given schemas
compute; `sortByName_eq` has it as the library's insertion sort. -/
def sortByName (ds : List FieldDecl) : List FieldDecl := ds.foldr insert []

/-- The shape of the elements of a list field, absent or not. -/
def element? (d : FieldDecl) : Option Shape := d.shape.present.item?

end FieldDecl

namespace Schema

/-- The exposed fields of a model by name. -/
def catalog (s : Schema) (m : ModelId) : List FieldDecl :=
  FieldDecl.sortByName ((s.fields m).filter FieldDecl.exposed)

/-- The tag of a field of `m`. That a field is optional leaves its tag as it is. -/
def tag (s : Schema) (m : ModelId) (d : FieldDecl) : Except ModelError Tag :=
  match d.shape.present.tag? with
  | some t => .ok t
  | none => .error (.unsupportedField ⟨s.name m, d.name⟩ (d.shape.text s))

/-- The column of a field of `m`. -/
def column (s : Schema) (m : ModelId) (d : FieldDecl) : Except ModelError Column :=
  (s.tag m d).map fun t => ⟨d.name, t⟩

/-- The catalog with its tags, unless a field has none. -/
def columns (s : Schema) (m : ModelId) : Except ModelError (List Column) :=
  (s.catalog m).mapM (s.column m)

/-- A model the schema does not declare has an empty catalog. -/
theorem catalog_eq_nil {s : Schema} {m : ModelId} (h : s.models.length ≤ m.index) :
    s.catalog m = [] := by
  rw [catalog, fields_eq_nil h]
  rfl

end Schema

end Wireform
