import Wireform.Bytes.Word
import Wireform.Json.Lexeme

/-!
# Lexing bytes

A text in memory is a row of bytes, and a reader stands at an offset into it. The lexers here are
those of `Lex`, but they look at single bytes: they step through a character that takes several, and
they cut texts out of the row by the offsets between which they have seen them. Main statement: an
escape never moves the offset back, so that a quoted text comes to an end.
-/

namespace Wireform.Json

/-- Why a lexer of bytes stops. -/
inductive Stop where
  | document (e : DocumentError)
  /-- The bytes between two offsets are to be cut out, but are not all there or are no text. -/
  | stray (start stop : Nat)
  deriving DecidableEq, Repr

/-- A step that moves an offset. -/
abbrev Scan := Step Stop Nat

namespace Scan

open Quoted

section

variable (data : Array UInt8)

/-- The bytes between two offsets, if they are all there. -/
def slice? (start stop : Nat) : Option (List UInt8) :=
  if start ≤ stop ∧ stop ≤ data.size then some (data.extract start stop).toList else none

/-- The text between two offsets. -/
def text (start stop : Nat) : Except Stop String :=
  match (slice? data start stop).bind Utf8.decode? with
  | some s => .ok s
  | none => .error (.stray start stop)

/-! ## Single bytes -/

/-- Blames the text at the offset. -/
def invalid {α : Type} : Scan α := fun x => .error (.document (.invalid x)) x

/-- Passes bytes without looking at them. -/
def skip (n : Nat) : Scan Unit := fun x => .ok () (x + n)

/-- The byte at the offset; there has to be one. -/
def peek : Scan UInt8 := fun x =>
  match data[x]? with
  | some b => .ok b x
  | none => .error (.document (.unexpectedEnd x)) x

/-- The byte at an offset that has been passed. -/
def byteAt (i : Nat) : Scan UInt8 := fun x =>
  match data[i]? with
  | some b => .ok b x
  | none => .error (.stray i (i + 1)) x

/-- Takes the longest run of bytes of a kind. -/
def run (kind : UInt8 → Bool) : Scan Unit := fun x =>
  if h : x < data.size then
    if kind data[x] then run kind (x + 1) else .ok () x
  else
    .ok () x
termination_by x => data.size - x

/-- Takes the next byte if it is one of those given, and tells whether it was. -/
def oneOf (cs : List Char) : Scan Bool := fun x =>
  match data[x]? with
  | some b => if (cs.map Char.toUInt8).contains b then .ok true (x + 1) else .ok false x
  | none => .ok false x

/-- Takes a character that has to stand here. -/
def expect (c : Char) : Scan Unit := do
  if (← peek data) = c.toUInt8 then skip 1 else invalid

/-- The four characters that may stand between tokens. -/
def isBlank (b : UInt8) : Bool :=
  b = ' '.toUInt8 || b = '\t'.toUInt8 || b = '\n'.toUInt8 || b = '\r'.toUInt8

/-- Takes what stands between tokens. -/
def blanks : Scan Unit := run data isBlank

/-- Takes a word that has to stand here in full. -/
def literal (word : List Char) : Scan Unit := fun x =>
  if slice? data x (x + word.length) = some (word.map Char.toUInt8) then
    .ok () (x + word.length)
  else
    .error (.document (.invalid x)) x

/-! ## Numbers -/

/-- The ten digits of ASCII. -/
def isDigit (b : UInt8) : Bool := '0'.toUInt8 ≤ b && b ≤ '9'.toUInt8

/-- Takes digits and counts them. -/
def digits : Scan Nat := do
  let start ← get
  run data isDigit
  return (← get) - start

/-- Takes at least one digit and counts them. -/
def someDigits : Scan Nat := do
  let n ← digits data
  if n = 0 then invalid else return n

/-- Takes the digits in front of the point. A zero that another digit follows is refused by its
place. -/
def whole : Scan Unit := do
  let start ← get
  let n ← someDigits data
  if (← byteAt data start) = '0'.toUInt8 ∧ 1 < n then
    throw (.document (.invalid start))

/-- Takes a point with digits behind it, if there is a point. -/
def fraction : Scan Unit := do
  if ← oneOf data ['.'] then
    let _ ← someDigits data

/-- Takes the mark of an exponent with a sign and digits behind it, if there is a mark. -/
def exponent : Scan Unit := do
  if ← oneOf data ['e', 'E'] then
    let _ ← oneOf data ['+', '-']
    let _ ← someDigits data

/-- Takes a number and cuts its spelling out of the row. -/
def number : Scan String := do
  let start ← get
  let _ ← oneOf data ['-']
  whole data
  fraction data
  exponent data
  Step.ofExcept (text data start (← get))

/-! ## Quoted texts -/

/-- Takes four bytes that spell a code unit. -/
def codeUnit : Scan Nat := fun x =>
  match slice? data x (x + 4) with
  | none => .error (.document (.unexpectedEnd x)) x
  | some bytes =>
    match (Utf8.decode? bytes).bind fun s => codeUnit? s.toList with
    | some n => .ok n (x + 4)
    | none => .error (.document (.invalidEscape x)) x

/-- Takes the second half of a pair of surrogates. Where it is missing, the escape that began at
`start` is blamed. -/
def pairing (start high : Nat) : Scan Nat := do
  let x ← get
  if slice? data x (x + 2) = some ['\\'.toUInt8, 'u'.toUInt8] then
    skip 2
    let low ← codeUnit data
    if isLowSurrogate low then return paired high low else throw (.document (.invalidEscape start))
  else
    throw (.document (.invalidEscape start))

/-- Takes the code point of an escape, which one code unit or a pair of them spells. -/
def codePoint (start : Nat) : Scan Nat := do
  let unit ← codeUnit data
  if isHighSurrogate unit then pairing data start unit else return unit

/-- Takes what follows a backslash. -/
def escape : Scan Char := do
  let start ← get
  let b ← peek data
  if b = 'u'.toUInt8 then
    skip 1
    match scalar? (← codePoint data start) with
    | some c => return c
    | none => throw (.document (.invalidEscape start))
  else
    match short? (Char.ofUInt8 b) with
    | some c =>
      skip 1
      return c
    | none => throw (.document (.invalidEscape start))

end

variable {data : Array UInt8} {x y start high n : Nat} {c : Char}

theorem le_of_codeUnit (h : codeUnit data x = .ok n y) : x ≤ y := by
  unfold codeUnit at h
  split at h
  · cases h
  · split at h
    · cases h
      exact Nat.le_add_right _ _
    · cases h

theorem le_of_pairing (h : pairing data start high x = .ok n y) : x ≤ y := by
  obtain ⟨_, _, hget, h⟩ := Step.bind_eq_ok.1 h
  cases hget
  split at h
  · obtain ⟨_, _, hskip, h⟩ := Step.bind_eq_ok.1 h
    cases hskip
    obtain ⟨low, z, hlow, h⟩ := Step.bind_eq_ok.1 h
    have hle := le_of_codeUnit hlow
    split at h
    · obtain ⟨-, rfl⟩ := Step.pure_eq_ok.1 h
      omega
    · cases h
  · cases h

/-- The position after an escaped code point is not before it. -/
theorem le_of_codePoint (h : codePoint data start x = .ok n y) : x ≤ y := by
  obtain ⟨unit, z, hunit, h⟩ := Step.bind_eq_ok.1 h
  refine Nat.le_trans (le_of_codeUnit hunit) ?_
  split at h
  · exact le_of_pairing h
  · obtain ⟨-, rfl⟩ := Step.pure_eq_ok.1 h
    exact Nat.le_refl _

/-- Looking at a byte does not move the scanner. -/
theorem eq_of_peek {b : UInt8} (h : peek data x = .ok b y) : y = x := by
  unfold peek at h
  split at h
  · cases h
    rfl
  · cases h

/-- An escape never moves the offset back, so a quoted text gets shorter by every step. -/
theorem le_of_escape (h : escape data x = .ok c y) : x ≤ y := by
  obtain ⟨_, _, hget, h⟩ := Step.bind_eq_ok.1 h
  cases hget
  obtain ⟨b, z, hpeek, h⟩ := Step.bind_eq_ok.1 h
  obtain rfl := eq_of_peek hpeek
  by_cases hu : b = 'u'.toUInt8
  · rw [if_pos hu] at h
    obtain ⟨_, _, hskip, h⟩ := Step.bind_eq_ok.1 h
    cases hskip
    obtain ⟨m, w, hpoint, h⟩ := Step.bind_eq_ok.1 h
    have hle := le_of_codePoint hpoint
    cases hc : scalar? m with
    | none => simp only [hc] at h; cases h
    | some c' =>
      simp only [hc] at h
      obtain ⟨-, rfl⟩ := Step.pure_eq_ok.1 h
      omega
  · rw [if_neg hu] at h
    cases hc : short? (Char.ofUInt8 b) with
    | none => simp only [hc] at h; cases h
    | some c' =>
      simp only [hc] at h
      cases h
      exact Nat.le_add_right _ _

/-- Takes bytes up to the closing quote. The text before `start` is in `out`, and the bytes from
there on are cut out when a quote or a backslash ends their run. -/
def quotedFrom (data : Array UInt8) (out : String) (start : Nat) : Scan String := fun x =>
  match h : data[x]? with
  | none => .error (.document (.unexpectedEnd x)) x
  | some b =>
    have hlt : x < data.size := (Array.getElem?_eq_some_iff.1 h).1
    if b = '"'.toUInt8 then
      match text data start x with
      | .ok run => .ok (out ++ run) (x + 1)
      | .error e => .error e x
    else if b = '\\'.toUInt8 then
      match text data start x with
      | .ok run =>
        match he : escape data (x + 1) with
        | .ok c y =>
          have := le_of_escape he
          quotedFrom data ((out ++ run).push c) y y
        | .error e y => .error e y
      | .error e => .error e x
    else if b < 0x20 then .error (.document (.invalid x)) x
    else quotedFrom data out start (x + 1)
termination_by x => data.size - x

/-- Takes a text whose opening quote has been taken. -/
def quoted (data : Array UInt8) : Scan String := do
  let start ← get
  quotedFrom data "" start

end Scan

end Wireform.Json
