/-!
# Time-zone identifiers

An identifier is `Z`, an offset such as `+05:30`, one of `UTC`, `GMT` and `UT` alone or in front of
an offset, or a region such as `Europe/Paris`. Only the spelling is checked: whether a region
exists is not asked.
-/

namespace Wireform

namespace ZoneId

/-- The value of a digit of ASCII. -/
def digit? (c : Char) : Option Nat :=
  if c.isDigit then some (c.toNat - '0'.toNat) else none

/-- The number that two digits spell. -/
def twoDigits? (a b : Char) : Option Nat := do return 10 * (← digit? a) + (← digit? b)

/-- Hours, minutes and seconds written as `h`, `hh`, `hh:mm`, `hh:mm:ss`, `hhmm` or `hhmmss`. -/
def clock? : List Char → Option (Nat × Nat × Nat)
  | [a] => do return (← digit? a, 0, 0)
  | [a, b] => do return (← twoDigits? a b, 0, 0)
  | [a, b, c, d] => do return (← twoDigits? a b, ← twoDigits? c d, 0)
  | [a, b, ':', c, d] => do return (← twoDigits? a b, ← twoDigits? c d, 0)
  | [a, b, c, d, e, f] => do return (← twoDigits? a b, ← twoDigits? c d, ← twoDigits? e f)
  | [a, b, ':', c, d, ':', e, f] => do
    return (← twoDigits? a b, ← twoDigits? c d, ← twoDigits? e f)
  | _ => none

/-- No zone lies more than eighteen hours away. -/
def inRange : Nat × Nat × Nat → Bool
  | (h, m, s) => h ≤ 18 ∧ m < 60 ∧ s < 60 ∧ (h < 18 ∨ m + s = 0)

/-- The sign of an offset, which it cannot do without. -/
def isSign (c : Char) : Bool := c = '+' || c = '-'

/-- A sign and a clock time within its range. -/
def isOffset : List Char → Bool
  | sign :: rest => isSign sign && (clock? rest).any inRange
  | [] => false

/-- The names that may stand alone or in front of an offset. -/
def bases : List (List Char) := [['U', 'T', 'C'], ['G', 'M', 'T'], ['U', 'T']]

/-- What follows `base`, provided that is nothing or begins with a sign. -/
def afterBase? (cs base : List Char) : Option (List Char) :=
  if base.isPrefixOf cs && ((cs.drop base.length).head?.all isSign) then
    some (cs.drop base.length)
  else
    none

/-- What the name of a region may go on with. -/
def isRegionChar (c : Char) : Bool := c.isAlphanum || "~/._+-".toList.contains c

/-- A letter, then one or more letters, digits or separators. -/
def isRegion : List Char → Bool
  | c :: rest => c.isAlpha && !rest.isEmpty && rest.all isRegionChar
  | [] => false

/-- A name of `bases` with a sign behind it has to be followed by an offset and is no region. -/
def accepts (cs : List Char) : Bool :=
  cs == ['Z'] || isOffset cs ||
    match bases.findSome? (afterBase? cs) with
    | some rest => rest.isEmpty || isOffset rest
    | none => isRegion cs

end ZoneId

/-- A time-zone identifier, spelled as it was given. -/
structure ZoneId where
  text : String
  accepted : ZoneId.accepts text.toList = true
  deriving DecidableEq

namespace ZoneId

/-- The zone of that id, if it is spelled as one. -/
def ofText? (s : String) : Option ZoneId :=
  if h : accepts s.toList = true then some ⟨s, h⟩ else none

/-- Universal time. -/
def utc : ZoneId := ⟨"UTC", by decide⟩

/-- The text of a zone is read as that zone. -/
theorem ofText?_text (z : ZoneId) : ofText? z.text = some z := by
  simp [ofText?, z.accepted]

/-- A zone keeps the text it was read from. -/
theorem text_of_ofText? {s : String} {z : ZoneId} (h : ofText? s = some z) : z.text = s := by
  unfold ofText? at h
  split at h
  · cases h; rfl
  · simp at h

end ZoneId

end Wireform
