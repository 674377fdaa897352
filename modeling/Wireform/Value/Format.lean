import Wireform.Schema.Catalog
import Wireform.Value.Basic

/-!
# Formats

All formats go through a record in the same way: what it has for each column is written under the
tag of the column, and a value of another type than the tag asks for ends the write. `Format.value`
is this way through a value. A format only says what it makes of each part.
-/

namespace Wireform

namespace Value

/-- The value is of the type that the tag asks for, whatever it holds in turn. -/
def suits : Value → Tag → Bool
  | bool _, .bool | str _, .str | int _, .int | long _, .long | duration _, .duration
  | calendar _, .calendar | zone _, .zone | list _, .strList | list _, .modelList _ => true
  | model r, .model m => r.model = m
  | _, _ => false

end Value

/-- What a format makes of the parts of a record; `W` are its writes. -/
structure Format (W : Type) where
  bool : Bool → W
  str : String → W
  int : Int32 → W
  long : Int64 → W
  duration : Duration → W
  calendar : CalendarUnit → W
  zone : ZoneId → W
  /-- A list of so many texts, given the write of them all. -/
  strList : Nat → W → W
  /-- A list of so many models, given the write of them all. -/
  modelList : Nat → W → W
  /-- A model, given how what is found under each name is written. -/
  model : ModelId → List (String × Option (Site → Tag → W)) → W
  nothing : W
  append : W → W → W
  /-- The failure for a value of another type than the tag asks for. -/
  mismatch : Value → Site → Tag → W

namespace Format

variable {W : Type} (f : Format W)

mutual

/-- How a value is written once it is known for which field and under which tag. -/
def value : Value → Site → Tag → W
  | .bool b, _, .bool => f.bool b
  | .str t, _, .str => f.str t
  | .int n, _, .int => f.int n
  | .long n, _, .long => f.long n
  | .duration d, _, .duration => f.duration d
  | .calendar u, _, .calendar => f.calendar u
  | .zone z, _, .zone => f.zone z
  | .list items, site, .strList => f.strList items.length (elements items site .str .strList)
  | .list items, site, .modelList m =>
    f.modelList items.length (elements items site (.model m) (.modelList m))
  | .model ⟨n, entries⟩, site, .model m =>
    if n = m then f.model m (writings entries) else f.mismatch (.model ⟨n, entries⟩) site (.model m)
  | v, site, tag => f.mismatch v site tag

/-- The elements of a list, each under the tag `one`. One of another type is reported under the tag
of the list. -/
def elements : List Value → Site → Tag → Tag → W
  | [], _, _, _ => f.nothing
  | v :: rest, site, one, list =>
    if v.suits one then f.append (value v site one) (elements rest site one list)
    else f.mismatch v site list

/-- How what is found under each name is written. -/
def writings : List (String × Option Value) → List (String × Option (Site → Tag → W))
  | [] => []
  | (name, none) :: rest => (name, none) :: writings rest
  | (name, some v) :: rest => (name, some (value v)) :: writings rest

end

/-- The write of a record. -/
def record (r : Record) : W := f.model r.model (f.writings r.entries)

/-- What is found under a name is written as the record has it. -/
theorem lookup_writings (r : Record) (name : String) :
    ((f.writings r.entries).lookup name).join = (r.get name).map f.value := by
  have hlookup : (f.writings r.entries).lookup name =
      (r.entries.lookup name).map (Option.map f.value) :=
    lookup_of_map _ rfl (fun _ v _ => by cases v <;> rfl) _ _
  rw [hlookup, RecordOf.get]
  rcases r.entries.lookup name with _ | _ | v <;> rfl

/-- A record within another is written as on its own. -/
theorem value_model (r : Record) (site : Site) :
    f.value (.model r) site (.model r.model) = f.record r := by
  obtain ⟨m, entries⟩ := r
  rw [value, if_pos rfl]
  rfl

/-- A value of another type than the tag asks for is not written at all. -/
theorem value_of_not_suits {v : Value} {tag : Tag} (h : v.suits tag = false) (site : Site) :
    f.value v site tag = f.mismatch v site tag := by
  cases v with
  | model r =>
    obtain ⟨n, entries⟩ := r
    cases tag with
    | model m => rw [value, if_neg (of_decide_eq_false h)]
    | _ => rfl
  | _ => cases tag <;> first | rfl | cases h

end Format

end Wireform
