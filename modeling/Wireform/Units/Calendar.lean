/-!
# Calendar units

The sixteen units of a calendar, from the nanosecond to forever.
-/

namespace Wireform

/-- A unit of the calendar, the shortest first. -/
inductive CalendarUnit where
  | nanos | micros | millis | seconds | minutes | hours | halfDays | days | weeks | months | years
  | decades | centuries | millennia | eras | forever
  deriving DecidableEq, Repr

namespace CalendarUnit

/-- The units in their order. -/
def all : List CalendarUnit :=
  [nanos, micros, millis, seconds, minutes, hours, halfDays, days, weeks, months, years,
    decades, centuries, millennia, eras, forever]

/-- The position of a unit in `all`, which is how it is written in binary. -/
def ordinal : CalendarUnit → Nat
  | nanos => 0
  | micros => 1
  | millis => 2
  | seconds => 3
  | minutes => 4
  | hours => 5
  | halfDays => 6
  | days => 7
  | weeks => 8
  | months => 9
  | years => 10
  | decades => 11
  | centuries => 12
  | millennia => 13
  | eras => 14
  | forever => 15

/-- The unit at a position. -/
def ofOrdinal? (n : Nat) : Option CalendarUnit := all[n]?

/-- How a unit is written in a document and shown. -/
def name : CalendarUnit → String
  | nanos => "NANOS"
  | micros => "MICROS"
  | millis => "MILLIS"
  | seconds => "SECONDS"
  | minutes => "MINUTES"
  | hours => "HOURS"
  | halfDays => "HALF_DAYS"
  | days => "DAYS"
  | weeks => "WEEKS"
  | months => "MONTHS"
  | years => "YEARS"
  | decades => "DECADES"
  | centuries => "CENTURIES"
  | millennia => "MILLENNIA"
  | eras => "ERAS"
  | forever => "FOREVER"

/-- The unit of that name. -/
def ofName? (s : String) : Option CalendarUnit := all.find? fun u => u.name = s

theorem mem_all (u : CalendarUnit) : u ∈ all := by cases u <;> decide

/-- A unit is found at its position. -/
theorem ofOrdinal?_ordinal (u : CalendarUnit) : ofOrdinal? u.ordinal = some u := by
  cases u <;> rfl

/-- An ordinal is read as the unit that has it. -/
theorem ordinal_of_ofOrdinal? {n : Nat} {u : CalendarUnit} (h : ofOrdinal? n = some u) :
    u.ordinal = n := by
  have hmap : (all.map ordinal)[n]? = some u.ordinal := by
    rw [List.getElem?_map, ← ofOrdinal?, h]
    rfl
  obtain ⟨hn, hget⟩ := List.getElem?_eq_some_iff.1 hmap
  have hrange : all.map ordinal = List.range 16 := rfl
  simpa [hrange] using hget.symm

/-- Ordinals count the 16 calendar units. -/
theorem ordinal_lt (u : CalendarUnit) : u.ordinal < 16 := by cases u <;> decide

/-- A unit is found by its name. -/
theorem ofName?_name (u : CalendarUnit) : ofName? u.name = some u := by cases u <;> decide

/-- A name is read as the unit that has it. -/
theorem name_of_ofName? {s : String} {u : CalendarUnit} (h : ofName? s = some u) : u.name = s := by
  simpa using List.find?_some h

end CalendarUnit

end Wireform
