import Wireform.Text.Decimal

/-!
# Durations

A duration is a whole number of one of seven units. The unit is kept as it was given, so sixty
seconds and one minute are different durations.
-/

namespace Wireform

/-- What a duration is counted in, the shortest unit first. -/
inductive DurationUnit where
  | nanoseconds | microseconds | milliseconds | seconds | minutes | hours | days
  deriving DecidableEq, Repr

namespace DurationUnit

/-- The units in their order. -/
def all : List DurationUnit :=
  [nanoseconds, microseconds, milliseconds, seconds, minutes, hours, days]

/-- The position of a unit in `all`, which is how it is written in binary. -/
def ordinal : DurationUnit → Nat
  | nanoseconds => 0
  | microseconds => 1
  | milliseconds => 2
  | seconds => 3
  | minutes => 4
  | hours => 5
  | days => 6

/-- The unit at a position. -/
def ofOrdinal? (n : Nat) : Option DurationUnit := all[n]?

/-- How a unit is written in a document. -/
def name : DurationUnit → String
  | nanoseconds => "NANOSECONDS"
  | microseconds => "MICROSECONDS"
  | milliseconds => "MILLISECONDS"
  | seconds => "SECONDS"
  | minutes => "MINUTES"
  | hours => "HOURS"
  | days => "DAYS"

/-- The unit of that name. -/
def ofName? (s : String) : Option DurationUnit := all.find? fun u => u.name = s

/-- What follows the magnitude when a duration is shown. -/
def suffix : DurationUnit → String
  | nanoseconds => "nanos"
  | microseconds => "micros"
  | milliseconds => "ms"
  | seconds => "s"
  | minutes => "m"
  | hours => "h"
  | days => "d"

theorem mem_all (u : DurationUnit) : u ∈ all := by cases u <;> decide

/-- A unit is found at its position. -/
theorem ofOrdinal?_ordinal (u : DurationUnit) : ofOrdinal? u.ordinal = some u := by
  cases u <;> rfl

/-- An ordinal is read as the unit that has it. -/
theorem ordinal_of_ofOrdinal? {n : Nat} {u : DurationUnit} (h : ofOrdinal? n = some u) :
    u.ordinal = n := by
  have hmap : (all.map ordinal)[n]? = some u.ordinal := by
    rw [List.getElem?_map, ← ofOrdinal?, h]
    rfl
  obtain ⟨hn, hget⟩ := List.getElem?_eq_some_iff.1 hmap
  have hrange : all.map ordinal = List.range 7 := rfl
  simpa [hrange] using hget.symm

/-- Ordinals count the seven units of a duration. -/
theorem ordinal_lt (u : DurationUnit) : u.ordinal < 7 := by cases u <;> decide

/-- A unit is found by its name. -/
theorem ofName?_name (u : DurationUnit) : ofName? u.name = some u := by cases u <;> decide

/-- A name is read as the unit that has it. -/
theorem name_of_ofName? {s : String} {u : DurationUnit} (h : ofName? s = some u) : u.name = s := by
  simpa using List.find?_some h

end DurationUnit

/-- So many of a unit; the magnitude may be negative. -/
structure Duration where
  magnitude : Int64
  unit : DurationUnit
  deriving DecidableEq, Repr

namespace Duration

def ofMillis (magnitude : Int64) : Duration := ⟨magnitude, .milliseconds⟩
def ofSeconds (magnitude : Int64) : Duration := ⟨magnitude, .seconds⟩
def ofMinutes (magnitude : Int64) : Duration := ⟨magnitude, .minutes⟩

/-- The text that shows a duration. -/
def text (d : Duration) : String := Decimal.text d.magnitude.toInt ++ d.unit.suffix

end Duration

end Wireform
