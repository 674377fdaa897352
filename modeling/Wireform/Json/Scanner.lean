import Wireform.Json.Pull
import Wireform.Json.Scan

/-!
# Pulling tokens out of bytes

A scanner is a pull that works on the bytes of a text. It hands out the same tokens in the same way,
by lexers that look at single bytes.
-/

namespace Wireform.Json

/-- The bytes of a text and an offset into them, what is open, and the latest token with its
contents. -/
structure Scanner where
  data : Array UInt8
  position : Nat
  frames : List Frame
  current : Option Token
  /-- The latest name read. -/
  name : Option String
  /-- The latest text or the spelling of the latest number. -/
  text : String
  boolean : Bool
  /-- Whether the outermost value is complete. -/
  done : Bool
  deriving DecidableEq, Repr

namespace Scanner

/-- A step of a scanner. -/
abbrev Move := Step Stop Scanner

/-- A scanner at the beginning of a text, before its first token. -/
def ofText (s : String) : Scanner :=
  ⟨(Utf8.encode s).toArray, 0, [], none, none, "", false, false⟩

/-- A lexer moves the offset and touches nothing else. -/
def lex {α : Type} (x : Array UInt8 → Scan α) : Move α := fun p =>
  Step.onPart Scanner.position (fun position p => { p with position }) (x p.data) p

/-- Opens an object or array. -/
def push (f : Frame) : Move Unit := modify fun p => { p with frames := f :: p.frames }

/-- Changes what the innermost open object or array expects. -/
def setTop (f : Frame) : Move Unit := modify fun p =>
  { p with frames := match p.frames with
      | [] => []
      | _ :: outer => f :: outer }

/-- The outermost value is complete once nothing is open. -/
def finish : Move Unit := modify fun p => { p with done := p.done || p.frames.isEmpty }

/-- Closes the innermost object or array. -/
def close : Move Unit := do
  modify fun p => { p with frames := p.frames.tail }
  finish

/-- Reads a value, or the opening of one. -/
def value : Move Token := do
  let b ← lex Scan.peek
  if b = '\x7b'.toUInt8 then
    lex fun _ => Scan.skip 1
    push (.member true)
    return .startObject
  else if b = '['.toUInt8 then
    lex fun _ => Scan.skip 1
    push (.element true)
    return .startArray
  else if b = '"'.toUInt8 then
    lex fun _ => Scan.skip 1
    let s ← lex Scan.quoted
    modify fun p => { p with text := s }
    finish
    return .string
  else if b = 't'.toUInt8 then
    lex fun data => Scan.literal data ['t', 'r', 'u', 'e']
    modify fun p => { p with boolean := true }
    finish
    return .boolean
  else if b = 'f'.toUInt8 then
    lex fun data => Scan.literal data ['f', 'a', 'l', 's', 'e']
    modify fun p => { p with boolean := false }
    finish
    return .boolean
  else if b = 'n'.toUInt8 then
    lex fun data => Scan.literal data ['n', 'u', 'l', 'l']
    finish
    return .null
  else if b = '-'.toUInt8 ∨ Scan.isDigit b then
    let s ← lex Scan.number
    modify fun p => { p with text := s }
    finish
    return .number
  else
    lex fun _ => Scan.invalid

/-- Takes the comma that separates what follows from what came before. -/
def separator (first : Bool) : Move Unit :=
  if first then
    pure ()
  else do
    lex fun data => Scan.expect data ','
    lex Scan.blanks

/-- Reads the name of a member or the end of its object. -/
def member (first : Bool) : Move Token := do
  if (← lex Scan.peek) = '\x7d'.toUInt8 then
    lex fun _ => Scan.skip 1
    close
    return .endObject
  else
    separator first
    lex fun data => Scan.expect data '"'
    let s ← lex Scan.quoted
    modify fun p => { p with name := some s }
    setTop .value
    return .fieldName

/-- Reads the value of a member. -/
def memberValue : Move Token := do
  lex fun data => Scan.expect data ':'
  lex Scan.blanks
  setTop (.member false)
  value

/-- Reads an element or the end of its array. -/
def element (first : Bool) : Move Token := do
  if (← lex Scan.peek) = ']'.toUInt8 then
    lex fun _ => Scan.skip 1
    close
    return .endArray
  else
    separator first
    setTop (.element false)
    value

/-- Reads the outermost value, or makes sure that nothing follows it. -/
def outermost : Move (Option Token) := do
  let p ← get
  if p.done then
    if p.position < p.data.size then throw (.document (.trailingData p.position)) else return none
  else
    some <$> value

/-- Reads what the innermost frame expects. -/
def advance : Move (Option Token) := do
  match (← get).frames with
  | [] => outermost
  | .member first :: _ => some <$> member first
  | .value :: _ => some <$> memberValue
  | .element first :: _ => some <$> element first

/-- Moves on to the next token; nothing once the text is exhausted. -/
def next : Move (Option Token) := do
  lex Scan.blanks
  let t ← advance
  modify fun p => { p with current := t }
  return t

/-- Moves on until what is open has been closed `opened` times and once more, within `budget`
tokens. -/
def skipOpen : (budget opened : Nat) → Move Unit
  | 0, _ => do throw (.document (.unexpectedEnd (← get).position))
  | budget + 1, opened => do
    match ← next with
    | none => throw (.document (.unexpectedEnd (← get).position))
    | some t =>
      if t.opens then
        skipOpen budget (opened + 1)
      else if t.closes then
        match opened with
        | 0 => return ()
        | opened + 1 => skipOpen budget opened
      else
        skipOpen budget opened

/-- More tokens than a scanner can still give, since each of them takes a byte. -/
def budget (p : Scanner) : Nat := p.data.size - p.position + 1

/-- Moves from the beginning of an object or array to its end, and otherwise not at all. -/
def skipChildren : Move Unit := do
  let p ← get
  if p.current.any Token.opens then skipOpen p.budget 0

/-- A pull with the same contents, of which a caller asks the same questions. It has nothing left to
read. -/
def contents (p : Scanner) : Pull :=
  ⟨⟨p.position, []⟩, p.frames, p.current, p.name, p.text, p.boolean, p.done⟩

end Scanner

end Wireform.Json
