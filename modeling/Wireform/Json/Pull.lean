import Wireform.Bytes.Word
import Wireform.Json.Lexeme
import Wireform.Text.Decimal

/-!
# Pulling tokens out of a text

A pull hands out one token at a time and remembers the contents of the latest one. What it expects
next is kept in a stack of frames, one for each object or array that is open. A move that fails
forgets nothing of what has been read: the latest token and its contents stay as they were.
-/

namespace Wireform.Json

/-- What an open object or array expects next. -/
inductive Frame where
  /-- A name or the closing brace. -/
  | member (first : Bool)
  /-- A colon and the value of a member. -/
  | value
  /-- An element or the closing bracket. -/
  | element (first : Bool)
  deriving DecidableEq, Repr

/-- What is left of a text, what is open in it, and the latest token with its contents. -/
structure Pull where
  input : Input
  frames : List Frame
  current : Option Token
  /-- The latest name read. -/
  name : Option String
  /-- The latest text or the spelling of the latest number. -/
  text : String
  boolean : Bool
  /-- Whether the outermost value is complete. -/
  done : Bool
  deriving DecidableEq, Repr

namespace Pull

/-- A step of a pull. -/
abbrev Move := Step DocumentError Pull

/-- A pull at the beginning of a text, before its first token. -/
def ofText (s : String) : Pull := ⟨.ofText s, [], none, none, "", false, false⟩

/-- A pull at the beginning of bytes, which have to be a text. -/
def ofBytes? (bytes : List UInt8) : Except DocumentError Pull :=
  match Utf8.decode? bytes with
  | some s => .ok (ofText s)
  | none => .error .invalidUtf8

/-- How many bytes have been taken. -/
def position (p : Pull) : Nat := p.input.position

/-- A lexer moves the rest of the text and touches nothing else. -/
def lex {α : Type} (x : Lex α) : Move α :=
  Step.onPart Pull.input (fun i p => { p with input := i }) x

/-- Opens an object or array. -/
def push (f : Frame) : Move Unit := modify fun p => { p with frames := f :: p.frames }

/-- Changes what the innermost open object or array expects. -/
def setTop (f : Frame) : Move Unit := modify fun p =>
  { p with frames := match p.frames with
      | [] => []
      | _ :: outer => f :: outer }

/-- The outermost value is complete once nothing is open. -/
def finish : Move Unit := modify fun p => { p with done := p.done || p.frames.isEmpty }

/-- Closes the innermost object or array. -/
def close : Move Unit := do
  modify fun p => { p with frames := p.frames.tail }
  finish

/-- Reads a value, or the opening of one. -/
def value : Move Token := do
  let c ← lex Lex.peek
  if c = '\x7b' then
    lex (Lex.skip 1)
    push (.member true)
    return .startObject
  else if c = '[' then
    lex (Lex.skip 1)
    push (.element true)
    return .startArray
  else if c = '"' then
    lex (Lex.skip 1)
    let s ← lex Lex.quoted
    modify fun p => { p with text := s }
    finish
    return .string
  else if c = 't' then
    lex (Lex.literal ['t', 'r', 'u', 'e'])
    modify fun p => { p with boolean := true }
    finish
    return .boolean
  else if c = 'f' then
    lex (Lex.literal ['f', 'a', 'l', 's', 'e'])
    modify fun p => { p with boolean := false }
    finish
    return .boolean
  else if c = 'n' then
    lex (Lex.literal ['n', 'u', 'l', 'l'])
    finish
    return .null
  else if c = '-' ∨ c.isDigit then
    let s ← lex Lex.number
    modify fun p => { p with text := s }
    finish
    return .number
  else
    lex Lex.invalid

/-- Takes the comma that separates what follows from what came before. -/
def separator (first : Bool) : Move Unit :=
  if first then
    pure ()
  else do
    lex (Lex.expect ',')
    lex Lex.blanks

/-- Reads the name of a member or the end of its object. -/
def member (first : Bool) : Move Token := do
  if (← lex Lex.peek) = '\x7d' then
    lex (Lex.skip 1)
    close
    return .endObject
  else
    separator first
    lex (Lex.expect '"')
    let s ← lex Lex.quoted
    modify fun p => { p with name := some s }
    setTop .value
    return .fieldName

/-- Reads the value of a member. -/
def memberValue : Move Token := do
  lex (Lex.expect ':')
  lex Lex.blanks
  setTop (.member false)
  value

/-- Reads an element or the end of its array. -/
def element (first : Bool) : Move Token := do
  if (← lex Lex.peek) = ']' then
    lex (Lex.skip 1)
    close
    return .endArray
  else
    separator first
    setTop (.element false)
    value

/-- Reads the outermost value, or makes sure that nothing follows it. -/
def outermost : Move (Option Token) := do
  let p ← get
  if p.done then
    if p.input.rest.isEmpty then return none else throw (.trailingData p.position)
  else
    some <$> value

/-- Reads what the innermost frame expects. -/
def advance : Move (Option Token) := do
  match (← get).frames with
  | [] => outermost
  | .member first :: _ => some <$> member first
  | .value :: _ => some <$> memberValue
  | .element first :: _ => some <$> element first

/-- Moves on to the next token; nothing once the text is exhausted. -/
def next : Move (Option Token) := do
  lex Lex.blanks
  let t ← advance
  modify fun p => { p with current := t }
  return t

/-- Moves on until what is open has been closed `opened` times and once more, within `budget`
tokens. -/
def skipOpen : (budget opened : Nat) → Move Unit
  | 0, _ => do throw (.unexpectedEnd (← get).position)
  | budget + 1, opened => do
    match ← next with
    | none => throw (.unexpectedEnd (← get).position)
    | some t =>
      if t.opens then
        skipOpen budget (opened + 1)
      else if t.closes then
        match opened with
        | 0 => return ()
        | opened + 1 => skipOpen budget opened
      else
        skipOpen budget opened

/-- More tokens than a pull can still give, since each of them takes a character. -/
def budget (p : Pull) : Nat := p.input.rest.length + 1

/-- Moves from the beginning of an object or array to its end, and otherwise not at all. -/
def skipChildren : Move Unit := do
  let p ← get
  if p.current.any Token.opens then skipOpen p.budget 0

/-- Fails unless a token of this kind is current. -/
def require (p : Pull) (t : Token) : Except DocumentError Unit :=
  if p.current = some t then .ok () else .error (.notCurrent t p.current)

/-- The content of the current text. -/
def stringText (p : Pull) : Except DocumentError String := do
  p.require .string
  return p.text

/-- A number as it is spelled. -/
def numberText (p : Pull) : Except DocumentError String := do
  p.require .number
  return p.text

/-- The current number as one of 64 bits; it has to be spelled as an integer in their range. -/
def long (p : Pull) : Except DocumentError Int64 := do
  let spelling ← p.numberText
  match (Decimal.int? spelling.toList).bind Decimal.int64? with
  | some n => return n
  | none => throw (.numberRange spelling)

/-- The current number as one of 32 bits. -/
def int (p : Pull) : Except DocumentError Int32 := do
  let spelling ← p.numberText
  match (Decimal.int? spelling.toList).bind Decimal.int32? with
  | some n => return n
  | none => throw (.numberRange spelling)

/-- The truth value that is current. -/
def booleanValue (p : Pull) : Except DocumentError Bool := do
  p.require .boolean
  return p.boolean

end Pull

end Wireform.Json
