import Wireform.Json.Input

/-!
# Numbers and quoted texts

A number is kept as it is spelled: a sign, digits without a superfluous zero in front, a fraction
and an exponent, the last two of which may be missing.

A text stands between quotes. When it is written, quotes, backslashes and control characters below
the space are escaped and nothing else is; when it is read, every escape of JSON is understood, and
characters beyond the basic plane may be spelled as a pair of surrogates.
-/

namespace Wireform.Json

/-! ## Numbers -/

namespace Lex

/-- Takes digits, as many as there are. -/
def digits : Lex (List Char) := run Char.isDigit

/-- Takes at least one digit. -/
def someDigits : Lex (List Char) := do
  let ds ← digits
  if ds.isEmpty then invalid else return ds

/-- The digits in front of the point. A zero that another digit follows is refused by its place. -/
def whole : Lex (List Char) := do
  let start := (← get).position
  let ds ← someDigits
  if ds.head? = some '0' ∧ 1 < ds.length then
    throw (.invalid start)
  return ds

/-- Takes a point with digits behind it, if there is a point. -/
def fraction : Lex (List Char) := do
  let point ← oneOf ['.']
  if point.isEmpty then
    return []
  return point ++ (← someDigits)

/-- Takes the mark of an exponent with a sign and digits behind it, if there is a mark. -/
def exponent : Lex (List Char) := do
  let mark ← oneOf ['e', 'E']
  if mark.isEmpty then
    return []
  let sign ← oneOf ['+', '-']
  return mark ++ sign ++ (← someDigits)

/-- Takes a number and keeps its spelling. -/
def number : Lex String := do
  let sign ← oneOf ['-']
  let whole ← whole
  let fraction ← fraction
  let exponent ← exponent
  return String.ofList (sign ++ whole ++ fraction ++ exponent)

end Lex

/-! ## Texts -/

namespace Quoted

/-- How a character is written within quotes. -/
def escaped (c : Char) : List Char :=
  if c = '"' then ['\\', '"']
  else if c = '\\' then ['\\', '\\']
  else if c = '\x08' then ['\\', 'b']
  else if c = '\x0c' then ['\\', 'f']
  else if c = '\n' then ['\\', 'n']
  else if c = '\r' then ['\\', 'r']
  else if c = '\t' then ['\\', 't']
  else if c.toNat < 0x20 then
    ['\\', 'u', '0', '0', Nat.digitChar (c.toNat / 16), Nat.digitChar (c.toNat % 16)]
  else [c]

/-- A text as it is written, with its quotes. -/
def encode (s : String) : List Char := '"' :: s.toList.flatMap escaped ++ ['"']

/-- The character that a backslash and one letter stand for. -/
def short? : Char → Option Char
  | '"' => some '"'
  | '\\' => some '\\'
  | '/' => some '/'
  | 'b' => some '\x08'
  | 'f' => some '\x0c'
  | 'n' => some '\n'
  | 'r' => some '\r'
  | 't' => some '\t'
  | _ => none

/-- The value of a hexadecimal digit, in either case. -/
def hexDigit? (c : Char) : Option Nat :=
  if '0' ≤ c ∧ c ≤ '9' then some (c.toNat - '0'.toNat)
  else if 'a' ≤ c ∧ c ≤ 'f' then some (c.toNat - 'a'.toNat + 10)
  else if 'A' ≤ c ∧ c ≤ 'F' then some (c.toNat - 'A'.toNat + 10)
  else none

/-- The number that hexadecimal digits spell. -/
def hexNumber? (cs : List Char) : Option Nat :=
  cs.foldlM (fun n c => (hexDigit? c).map (16 * n + ·)) 0

/-- The code unit that four characters spell: hexadecimal digits, the first of which may be a plus
sign instead. -/
def codeUnit? : List Char → Option Nat
  | '+' :: cs => hexNumber? cs
  | cs => hexNumber? cs

/-- The character of a code point; surrogates have none. -/
def scalar? (n : Nat) : Option Char := if n.isValidChar then some (Char.ofNat n) else none

/-- The first half of a pair of surrogates. -/
def isHighSurrogate (n : Nat) : Bool := 0xd800 ≤ n && n < 0xdc00

/-- The second half of a pair of surrogates. -/
def isLowSurrogate (n : Nat) : Bool := 0xdc00 ≤ n && n < 0xe000

/-- The code point of a high surrogate followed by a low one. -/
def paired (high low : Nat) : Nat := 0x10000 + (high - 0xd800) * 0x400 + (low - 0xdc00)

end Quoted

namespace Lex

open Quoted

/-- Takes the four characters that spell a code unit. -/
def codeUnit : Lex Nat := fun i =>
  if Input.byteCount (i.rest.take 4) < 4 then .error (.unexpectedEnd i.position) i
  else match codeUnit? (i.rest.take 4) with
    | some n => .ok n (i.drop 4)
    | none => .error (.invalidEscape i.position) i

/-- The rest of a code point whose first code unit is `high`. An escape that is no character is
refused by the place where it begins. -/
def pairing (start high : Nat) : Lex Nat := do
  if ['\\', 'u'].isPrefixOf (← get).rest then
    skip 2
    let low ← codeUnit
    if isLowSurrogate low then return paired high low else throw (.invalidEscape start)
  else
    throw (.invalidEscape start)

/-- Takes the code point of an escape, which one code unit or a pair of them spells. -/
def codePoint (start : Nat) : Lex Nat := do
  let unit ← codeUnit
  if isHighSurrogate unit then pairing start unit else return unit

/-- Takes what follows a backslash. -/
def escape : Lex Char := do
  let start := (← get).position
  let c ← peek
  if c = 'u' then
    skip 1
    match scalar? (← codePoint start) with
    | some c => return c
    | none => throw (.invalidEscape start)
  else
    match short? c with
    | some c =>
      skip 1
      return c
    | none => throw (.invalidEscape start)

/-- The four digits of an escape are consumed, not put back. -/
theorem forward_codeUnit : Forward codeUnit := by
  intro i
  unfold codeUnit
  split
  · exact Nat.le_refl _
  · split
    · exact i.length_drop_le 4
    · exact Nat.le_refl _

theorem forward_pairing (start high : Nat) : Forward (pairing start high) := by
  refine .bind .get fun i => ?_
  split
  · refine .bind (forward_skip 2) fun _ => .bind forward_codeUnit fun low => ?_
    split
    · exact .pure _
    · exact .throw _
  · exact .throw _

theorem forward_codePoint (start : Nat) : Forward (codePoint start) := by
  refine .bind forward_codeUnit fun unit => ?_
  split
  · exact forward_pairing start unit
  · exact .pure _

/-- Reading of an escape does not step back. -/
theorem forward_escape : Forward escape := by
  refine .bind .get fun i => .bind forward_peek fun c => ?_
  split
  · refine .bind (forward_skip 1) fun _ => .bind (forward_codePoint _) fun n => ?_
    split
    · exact .pure _
    · exact .throw _
  · split
    · exact .bind (forward_skip 1) fun _ => .pure _
    · exact .throw _

/-- Takes characters up to the closing quote; `found` holds those read before, the latest first. -/
def quotedOnto (found : List Char) : Lex String := fun i =>
  match h : i.rest with
  | [] => .error (.unexpectedEnd i.position) i
  | c :: rest =>
    have hlt : i.tail.rest.length < i.rest.length := by
      obtain ⟨_, _⟩ := i; subst h; simp [Input.tail]
    if c = '"' then .ok (String.ofList found.reverse) i.tail
    else if c = '\\' then
      match he : escape i.tail with
      | .ok d j =>
        have := Nat.lt_of_le_of_lt (forward_escape.ok he) hlt
        quotedOnto (d :: found) j
      | .error e j => .error e j
    else if c.toNat < 0x20 then .error (.invalid i.position) i
    else quotedOnto (c :: found) i.tail
termination_by i => i.rest.length

/-- Takes a text whose opening quote has been taken. -/
def quoted : Lex String := quotedOnto []

end Lex

end Wireform.Json
