import Wireform.Schema.Catalog
import Wireform.Value.Basic

/-!
# Instances as records

The record of an instance lists the columns of its model in the order of the catalog. It is what is
encoded and shown; fields that are not exposed do not occur in it.

Two instances are equal when they are of the same model and agree on every exposed field. What an
instance is hashed by is read off the same fields, so equal instances hash alike.
-/

namespace Wireform

/-- The columns of a model, each with what `entries` has for it. -/
def RecordOf.ofEntries (s : Schema) (m : ModelId) (entries : List (String × Option Value)) :
    Record :=
  ⟨m, (s.catalog m).map fun d => (d.name, (entries.lookup d.name).join)⟩

namespace Cell

mutual

/-- The value that a cell holds. A list leaves out the elements that are absent. -/
def value (s : Schema) : Cell → Option Value
  | bool b => some (.bool b)
  | str t => some (.str t)
  | int n => some (.int n)
  | long n => some (.long n)
  | duration d => some (.duration d)
  | calendar u => some (.calendar u)
  | zone z => some (.zone z)
  | foreign text => some (.foreign text)
  | list items => some (.list (itemValues s items))
  | absent => none
  | present c => value s c
  | model ⟨m, fields⟩ => some (.model (.ofEntries s m (fieldValues s fields)))

def itemValues (s : Schema) : List Cell → List Value
  | [] => []
  | c :: rest => (value s c).toList ++ itemValues s rest

def fieldValues (s : Schema) : List (String × Cell) → List (String × Option Value)
  | [] => []
  | (name, c) :: rest => (name, value s c) :: fieldValues s rest

end

end Cell

namespace InstanceOf

variable (s : Schema)

/-- The value of a field, exposed or not. -/
def get (i : Instance) (name : String) : Option Value :=
  (i.fields.lookup name).bind (Cell.value s)

/-- The record of an instance. -/
def record (i : Instance) : Record :=
  ⟨i.model, (s.catalog i.model).map fun d => (d.name, get s i d.name)⟩

/-- The text that shows an instance is that of its record. -/
def text (i : Instance) : String := (record s i).text s

/-- Capture of the cells keeps their names. -/
theorem lookup_fieldValues (fields : List (String × Cell)) (name : String) :
    (Cell.fieldValues s fields).lookup name = (fields.lookup name).map (Cell.value s) :=
  lookup_of_map _ rfl (fun _ _ _ => rfl) _ _

/-- A cell that holds an instance holds the record of that instance. -/
theorem value_model (i : Instance) : Cell.value s (.model i) = some (.model (record s i)) := by
  obtain ⟨m, fields⟩ := i
  have hjoin (o : Option Cell) : (o.map (Cell.value s)).join = o.bind (Cell.value s) := by
    cases o <;> rfl
  simp only [Cell.value, RecordOf.ofEntries, record, get, lookup_fieldValues, hjoin]

/-! ## Equality -/

/-- Whether two instances are of one model and show the same values. -/
def equal (i j : Instance) : Bool :=
  i.model = j.model && (s.catalog i.model).all fun d => get s i d.name = get s j d.name

/-- Each exposed field with its value. -/
def contents (i : Instance) : List (String × Option Value) :=
  (s.catalog i.model).map fun d => (d.name, get s i d.name)

/-- The exclusive or of the hashes of all fields, which does not depend on their order. -/
def hash (field : String → Option Value → UInt64) (i : Instance) : UInt64 :=
  (contents s i).foldl (fun h f => h ^^^ field f.1 f.2) 0

end InstanceOf

end Wireform
