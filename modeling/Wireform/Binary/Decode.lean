import Wireform.Schema.Catalog
import Wireform.Value.Basic

/-!
# Reading records from binary

Reading follows the columns of the model asked for. Limits on the nesting of models and on lengths
guard against bytes that were not written by `Wireform.Binary.write`; the levels of nesting that
are left also bound the recursion.
-/

namespace Wireform.Binary

/-- What a reader of bytes goes along with. -/
structure Limits where
  /-- How deep models may nest; the outermost one is at depth zero. -/
  depth : Nat
  /-- How many elements a list and how many bytes a text may have. -/
  length : Nat
  deriving DecidableEq, Repr

/-- The limits where none are given. -/
def Limits.standard : Limits := ⟨64, 1 <<< 20⟩

/-- A read of something that belongs to a model. -/
abbrev Read := Step ModelError Cursor

variable (s : Schema) (limits : Limits)

/-- A read of bytes on behalf of a model. -/
def take {α : Type} (x : Take α) : Read α := EStateM.adaptExcept .buffer x

/-- A number in groups of seven bits. Too many groups or too large a number are blamed on the value.
-/
def varint (w : Varint.Width) (site : Site) : Read Nat :=
  EStateM.adaptExcept (.ofVarint site) (Varint.read w)

/-- The failure for a value that was read but cannot be taken. -/
def invalid {α : Type} (site : Site) (reason : Reason) : Read α := throw (.invalidValue site reason)

/-- A byte that says whether something holds; only zero and one are taken. -/
def readFlag (site : Site) : Read Bool := do
  let b ← take Cursor.uint8
  if b = 0 then return false
  else if b = 1 then return true
  else invalid site (.booleanByte b)

/-- Fails where a length exceeds the limit, before anything of that length is read. -/
def checkLength (site : Site) (n : Nat) : Read Unit :=
  if limits.length < n then throw (.lengthExceeded site n limits.length) else pure ()

/-- A text behind the number of its bytes. -/
def readText (site : Site) : Read String := do
  let n ← varint Varint.short site
  checkLength limits site n
  take (Cursor.text n)

/-- A signed number, folded onto the natural numbers. -/
def readLong (site : Site) : Read Int64 := do
  return Int64.ofInt (Varint.unzigzag (← varint Varint.long site))

/-- A magnitude, and a unit by its position. -/
def readDuration (site : Site) : Read Duration := do
  let magnitude ← readLong site
  let ordinal ← take Cursor.uint8
  match DurationUnit.ofOrdinal? ordinal.toNat with
  | some unit => return ⟨magnitude, unit⟩
  | none => invalid site (.durationOrdinal ordinal.toNat)

/-- A calendar unit by its position. -/
def readCalendar (site : Site) : Read CalendarUnit := do
  let ordinal ← varint Varint.short site
  match CalendarUnit.ofOrdinal? ordinal with
  | some unit => return unit
  | none => invalid site (.calendarOrdinal ordinal)

/-- A time zone by its id, which has to be spelled as one. -/
def readZone (site : Site) : Read ZoneId := do
  let id ← readText limits site
  match ZoneId.ofText? id with
  | some z => return z
  | none => invalid site (.zone id)

/-- The length of a list of models, which may not be negative. -/
def readCount (site : Site) : Read Nat := do
  let n ← take Cursor.int32
  if n.toInt < 0 then
    invalid site (.negativeLength n.toInt)
  checkLength limits site n.toInt.toNat
  return n.toInt.toNat

/-- A value, given how the records within it are read. -/
def readValue (nested : ModelId → Read Record) (site : Site) : Tag → Read Value
  | .bool => .bool <$> readFlag site
  | .str => .str <$> readText limits site
  | .int => .int <$> take Cursor.int32
  | .long => .long <$> take Cursor.int64
  | .duration => .duration <$> readDuration site
  | .calendar => .calendar <$> readCalendar site
  | .zone => .zone <$> readZone limits site
  | .strList => do
    let n ← varint Varint.short site
    checkLength limits site n
    .list <$> Step.times n (.str <$> readText limits site)
  | .modelList m => do
    let n ← readCount limits site
    .list <$> Step.times n (.model <$> nested m)
  | .model m => .model <$> nested m

/-- What there is for a column: a flag, and the value if it is set. -/
def readEntry (nested : ModelId → Read Record) (m : ModelId) (c : Column) :
    Read (String × Option Value) := do
  let site := ⟨s.name m, c.name⟩
  if ← readFlag site then
    return (c.name, some (← readValue limits nested site c.tag))
  else
    return (c.name, none)

/-- A record that may open `levels` levels of models, its own included. -/
def readLevels : (levels : Nat) → ModelId → Read Record
  | 0, m => throw (.depthExceeded (s.name m) limits.depth)
  | levels + 1, m => do
    let columns ← Step.ofExcept (s.columns m)
    return ⟨m, ← columns.mapM (readEntry s limits (readLevels levels) m)⟩

/-- A record of the model, which is itself at depth zero. -/
def readRecord (m : ModelId) : Read Record := readLevels s limits (limits.depth + 1) m

end Wireform.Binary
