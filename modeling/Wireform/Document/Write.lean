import Wireform.Json.Draft
import Wireform.Value.Format

/-!
# Records as documents

A record is written as an object with a member for each column, in the order of the catalog; the
member of an absent field is `null`.
-/

namespace Wireform.Document

open Json (Draft)

/-- A move of a draft on behalf of a model. -/
abbrev Move := Step ModelError Draft

variable (s : Schema)

/-- A move of the draft on behalf of a model. -/
def draft {α : Type} (x : Draft.Move α) : Move α := EStateM.adaptExcept .document x

/-- The failure for a value of another type than the column asks for. -/
def mismatch (v : Value) (site : Site) (tag : Tag) : Move Unit :=
  throw (.typeMismatch site (tag.text s) v.kind)

/-- A duration is an object of its own. -/
def duration (d : Duration) : Move Unit := do
  draft Draft.startObject
  draft (Draft.fieldName "magnitude")
  draft (Draft.long d.magnitude)
  draft (Draft.fieldName "unit")
  draft (Draft.string d.unit.name)
  draft Draft.endObject

/-- The member of a column, given how the value found for each name is written. -/
def column (m : ModelId) (entries : List (String × Option (Site → Tag → Move Unit))) (c : Column) :
    Move Unit := do
  draft (Draft.fieldName c.name)
  match (entries.lookup c.name).join with
  | none => draft Draft.null
  | some write => write ⟨s.name m, c.name⟩ c.tag

/-- The columns of a model, given how the value found for each name is written. -/
def columns (m : ModelId) (entries : List (String × Option (Site → Tag → Move Unit))) :
    Move Unit := do
  let columns ← Step.ofExcept (s.columns m)
  draft Draft.startObject
  columns.forM (column s m entries)
  draft Draft.endObject

/-- Brackets around the elements of a list. -/
def array (items : Move Unit) : Move Unit := do
  draft Draft.startArray
  items
  draft Draft.endArray

/-- Numbers, names and texts are JSON literals, and the separators are left to the draft. -/
def format : Format (Move Unit) where
  bool b := draft (Draft.bool b)
  str t := draft (Draft.string t)
  int n := draft (Draft.long n.toInt64)
  long n := draft (Draft.long n)
  duration d := duration d
  calendar u := draft (Draft.string u.name)
  zone z := draft (Draft.string z.text)
  strList _ items := array items
  modelList _ items := array items
  model := columns s
  nothing := pure ()
  append x y := do x; y
  mismatch := mismatch s

/-- Drafts a record. -/
def write (r : Record) : Move Unit := (format s).record r

/-- A member is written as what the record has for its column. -/
theorem column_writings (r : Record) (c : Column) :
    column s r.model ((format s).writings r.entries) c = (do
      draft (Draft.fieldName c.name)
      match r.get c.name with
      | none => draft Draft.null
      | some v => (format s).value v ⟨s.name r.model, c.name⟩ c.tag) := by
  unfold column
  congr 1
  funext _
  rw [Format.lookup_writings]
  cases r.get c.name <;> rfl

/-- A record of an unsupported model is refused before anything is drafted. -/
theorem write_eq_of_error {r : Record} {e : ModelError} (h : s.columns r.model = .error e) :
    write s r = throw e := by
  change columns s r.model ((format s).writings r.entries) = _
  rw [columns, h]
  rfl

/-- A record of a supported model is written as one object, column by column in catalog order. -/
theorem write_eq_object {r : Record} {cs : List Column} (h : s.columns r.model = .ok cs) :
    write s r = (do
      draft Draft.startObject
      cs.forM (column s r.model ((format s).writings r.entries))
      draft Draft.endObject) := by
  change columns s r.model ((format s).writings r.entries) = _
  rw [columns, h]
  rfl

/-- The text of a record. -/
def ofRecord (r : Record) : Except ModelError String :=
  match write s r .empty with
  | .ok () d => d.text.mapError .document
  | .error e _ => .error e

end Wireform.Document
