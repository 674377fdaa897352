import Mathlib.Data.List.Zip
import Wireform.Proofs.Schema.Reachable
import Wireform.Value.Basic

/-!
# Regular records

A record is regular when it is what a reader makes of its input: it lists the columns of its model
one by one and nothing else, each value has the constructor that the tag of its column asks for, and
the records within it are of the models that the tags name and are regular themselves.
-/

namespace Wireform

namespace Value

/-- Values of the type that a tag asks for, with all records within in the form that a reader gives
them. -/
inductive Regular (s : Schema) : Tag → Value → Prop
  | bool (b : Bool) : Regular s .bool (.bool b)
  | str (t : String) : Regular s .str (.str t)
  | int (n : Int32) : Regular s .int (.int n)
  | long (n : Int64) : Regular s .long (.long n)
  | duration (d : Duration) : Regular s .duration (.duration d)
  | calendar (u : CalendarUnit) : Regular s .calendar (.calendar u)
  | zone (z : ZoneId) : Regular s .zone (.zone z)
  | strList {items : List Value} : (∀ v ∈ items, Regular s .str v) →
    Regular s .strList (.list items)
  | modelList {m : ModelId} {items : List Value} : (∀ v ∈ items, Regular s (.model m) v) →
    Regular s (.modelList m) (.list items)
  | model {r : Record} {cs : List Column} : s.columns r.model = .ok cs →
    r.entries.map Prod.fst = cs.map Column.name →
    (∀ c name v, (c, name, some v) ∈ cs.zip r.entries → Regular s c.tag v) →
    Regular s (.model r.model) (.model r)

/-- The entry has the name of the column, and `P` holds of the column's tag and what it has. -/
def Answers (P : Tag → Value → Prop) (c : Column) (e : String × Option Value) : Prop :=
  e.1 = c.name ∧ ∀ v, e.2 = some v → P c.tag v

variable {s : Schema} {m : ModelId} {cs : List Column} {entries : List (String × Option Value)}

/-- Entries answer the columns if they have their names in order and every present value is of its
tag. -/
theorem forall₂_answers {P : Tag → Value → Prop} : List.Forall₂ (Answers P) cs entries ↔
    entries.map Prod.fst = cs.map Column.name ∧
      ∀ c name v, (c, name, some v) ∈ cs.zip entries → P c.tag v := by
  rw [map_eq_map_iff]
  constructor
  · intro h
    exact ⟨h.imp fun _ _ he => he.1, fun c name v hmem =>
      ((List.forall₂_iff_zip.1 h).2 hmem).2 v rfl⟩
  · rintro ⟨hfst, hzip⟩
    obtain ⟨hlength, hfst⟩ := List.forall₂_iff_zip.1 hfst
    refine List.forall₂_iff_zip.2 ⟨hlength, fun {c e} hmem => ⟨hfst hmem, ?_⟩⟩
    obtain ⟨name, o⟩ := e
    rintro v rfl
    exact hzip c name v hmem

/-- A record whose entries answer the columns is regular. -/
theorem Regular.of_answers (hcs : s.columns m = .ok cs)
    (h : List.Forall₂ (Answers (Regular s)) cs entries) :
    Regular s (.model m) (.model ⟨m, entries⟩) :=
  .model (r := ⟨m, entries⟩) hcs (forall₂_answers.1 h).1 (forall₂_answers.1 h).2

end Value

/-- The record is regular, and so is all that it holds. -/
def RecordOf.Regular (s : Schema) (m : ModelId) (r : Record) : Prop :=
  Value.Regular s (.model m) (.model r)

end Wireform
