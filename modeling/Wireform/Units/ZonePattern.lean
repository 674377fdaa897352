import Wireform.Text.Decimal
import Wireform.Text.Pattern
import Wireform.Units.Zone

/-!
# Time-zone identifiers by patterns

Identifiers are told by three patterns, which are tried in a fixed order: that of an offset, that of a
name such as `UTC` that may have something with a sign behind it, and that of a region. The groups of
the first capture the parts of the offset, which are then read as numbers. What a pattern takes for a
digit need not be one to whoever reads numbers: outside of ASCII there are more of them.
-/

namespace Wireform.ZonePattern

open Pattern ZoneId

variable (foreign : Char → Bool)

/-- Which characters outside of ASCII are decimal digits is left open. -/
def digit (c : Char) : Bool := if c.toNat < 128 then c.isDigit else foreign c

/-- Two digits. -/
def twoDigits : Pattern := seq (one (digit foreign)) (one (digit foreign))

/-- What an offset has behind its sign,
`(\d{1,2})|(\d{2}):(\d{2})(?::(\d{2}))?|(\d{2})(\d{2})(\d{2})?`. -/
def clock : Pattern :=
  alt (group 1 (seq (one (digit foreign)) (opt (one (digit foreign))))) <|
  alt
    (seq (group 2 (twoDigits foreign)) <| seq (literal [':']) <| seq (group 3 (twoDigits foreign)) <|
      opt (seq (literal [':']) (group 4 (twoDigits foreign))))
    (seq (group 5 (twoDigits foreign)) <| seq (group 6 (twoDigits foreign)) <|
      opt (group 7 (twoDigits foreign)))

/-- A sign and a clock time. -/
def offset : Pattern := seq (one isSign) (clock foreign)

/-- The names that offsets are relative to, `(?:UTC|GMT|UT)([+-].*)?`. -/
def based : Pattern :=
  seq (alt (literal ['U', 'T', 'C']) (alt (literal ['G', 'M', 'T']) (literal ['U', 'T']))) <|
    opt (group 1 (seq (one isSign) (many fun c => c ≠ '\n')))

/-- The regions `[A-Za-z][A-Za-z0-9~/._+-]+`. -/
def region : Pattern := seq (one Char.isAlpha) (seq (one isRegionChar) (many isRegionChar))

/-- The number in the first of the groups that took part; zero if none of them did. -/
def part (u : Captures) (groups : List Nat) : Option Nat :=
  match groups.findSome? fun i => u.lookup i with
  | none => some 0
  | some cs => Decimal.uint32? cs

/-- Hours, minutes and seconds, each from the first group that took part. -/
def clock? (u : Captures) : Option (Nat × Nat × Nat) := do
  return (← part u [1, 2, 5], ← part u [3, 6], ← part u [4, 7])

/-- An offset matches the pattern and lies within the range. -/
def isOffset (cs : List Char) : Bool :=
  match captures? (offset foreign) cs with
  | none => false
  | some u => (clock? u).any inRange

/-- What a name has behind it has to be an offset, and is not looked at as part of a region. -/
def accepts (cs : List Char) : Bool :=
  cs == ['Z'] || isOffset foreign cs ||
    match captures? based cs with
    | some u => (u.lookup 1).all (isOffset foreign)
    | none => isMatch region cs

end Wireform.ZonePattern
