import Wireform.Json.Tree

/-!
# The grammar of JSON texts

What RFC 8259 calls a JSON text, as relations between a list of characters and what it spells. Where
something can go on, the relation has the characters that follow as well: `Value d t cs rest` says
that `cs` begins with a spelling of the tree `t` and that `rest` is what it leaves.

The grammar has a second dialect, which is what is read in place of the first: a plus sign may stand
for the first digit of a `\u` escape.
-/

namespace Wireform.Json

/-- `u.Within t`: the tree `u` stands somewhere in `t`. -/
inductive Tree.Within (u : Tree) : Tree → Prop
  | self : Within u u
  | item {t : Tree} {items : List Tree} : Within u t → t ∈ items → Within u (.array items)
  | member {name : String} {t : Tree} {members : List (String × Tree)} : Within u t →
    (name, t) ∈ members → Within u (.object members)

/-- Subtrees of subtrees are subtrees. -/
theorem Tree.Within.trans {t u v : Tree} (h : u.Within v) (h' : v.Within t) : u.Within t := by
  induction h' with
  | self => exact h
  | item _ hmem ih => exact ih.item hmem
  | member _ hmem ih => exact ih.member hmem

theorem Tree.within_scalar {t u : Tree} (harray : ∀ items, t ≠ .array items)
    (hobject : ∀ members, t ≠ .object members) : u.Within t ↔ u = t := by
  constructor
  · intro h
    cases h with
    | self => rfl
    | item => exact (harray _ rfl).elim
    | member => exact (hobject _ rfl).elim
  · rintro rfl
    exact .self

/-- The subtrees of an array are itself and those of its items. -/
theorem Tree.within_array {u : Tree} {items : List Tree} :
    u.Within (.array items) ↔ u = .array items ∨ ∃ t ∈ items, u.Within t := by
  constructor
  · intro h
    cases h with
    | self => exact .inl rfl
    | item h hmem => exact .inr ⟨_, hmem, h⟩
  · rintro (rfl | ⟨t, hmem, h⟩)
    · exact .self
    · exact h.item hmem

/-- The subtrees of an object are itself and those of its members. -/
theorem Tree.within_object {u : Tree} {members : List (String × Tree)} :
    u.Within (.object members) ↔
      u = .object members ∨ ∃ member ∈ members, u.Within member.2 := by
  constructor
  · intro h
    cases h with
    | self => exact .inl rfl
    | member h hmem => exact .inr ⟨_, hmem, h⟩
  · rintro (rfl | ⟨member, hmem, h⟩)
    · exact .self
    · exact h.member hmem

namespace Grammar

/-- Which texts are taken: those of JSON, or those that the reader takes. -/
inductive Dialect where
  /-- JSON. -/
  | standard
  /-- The first of the four digits of an escape may be a plus sign instead. -/
  | signed
  deriving DecidableEq, Repr

/-! ## Blanks -/

/-- The characters that may stand between tokens. -/
def Blank (c : Char) : Prop := c ∈ [' ', '\t', '\n', '\r']

instance : DecidablePred Blank := fun c => inferInstanceAs (Decidable (c ∈ _))

/-- The second list is left of the first after some blanks. -/
inductive Blanks : List Char → List Char → Prop
  | done {cs : List Char} : Blanks cs cs
  | skip {c : Char} {cs rest : List Char} : Blank c → Blanks cs rest → Blanks (c :: cs) rest

theorem Blanks.length_le {cs rest : List Char} (h : Blanks cs rest) :
    rest.length ≤ cs.length := by
  induction h with
  | done => exact Nat.le_refl _
  | skip _ _ ih => exact Nat.le_succ_of_le ih

/-! ## Numbers -/

/-- One digit or more. -/
def Digits (ds : List Char) : Prop := ds ≠ [] ∧ ∀ d ∈ ds, d.isDigit

/-- Digits start with a digit, whatever follows them. -/
theorem Digits.head {ds : List Char} (h : Digits ds) (rest : List Char) :
    ∃ d, (ds ++ rest).head? = some d ∧ d.isDigit := by
  obtain ⟨hne, hds⟩ := h
  cases ds with
  | nil => exact (hne rfl).elim
  | cons d ds => exact ⟨d, rfl, hds d List.mem_cons_self⟩

/-- The digits in front of the point: no zero before another digit. -/
def Whole (ds : List Char) : Prop := Digits ds ∧ (ds.head? = some '0' → ds = ['0'])

/-- A sign, or none. -/
inductive Sign (signs : List Char) : List Char → Prop
  | none : Sign signs []
  | some {c : Char} : c ∈ signs → Sign signs [c]

/-- A point with digits behind it, or nothing. -/
inductive Fraction : List Char → Prop
  | none : Fraction []
  | some {ds : List Char} : Digits ds → Fraction ('.' :: ds)

/-- The mark of an exponent with a sign and digits behind it, or nothing. -/
inductive Exponent : List Char → Prop
  | none : Exponent []
  | some {e : Char} {sign ds : List Char} : e ∈ ['e', 'E'] → Sign ['+', '-'] sign → Digits ds →
    Exponent (e :: sign ++ ds)

/-- The spelling of a number. -/
inductive Number : List Char → Prop
  | mk {sign whole fraction exponent : List Char} : Sign ['-'] sign → Whole whole →
    Fraction fraction → Exponent exponent → Number (sign ++ whole ++ fraction ++ exponent)

/-- A number starts with a minus or a digit. -/
theorem Number.head {w : List Char} (h : Number w) :
    ∃ c w', w = c :: w' ∧ (c = '-' ∨ c.isDigit) := by
  obtain @⟨sign, whole, fraction, exponent, hsign, hwhole, -, -⟩ := h
  cases hsign with
  | none =>
    obtain ⟨c, hc, hdigit⟩ := hwhole.1.head (fraction ++ exponent)
    obtain ⟨w', hw⟩ := List.head?_eq_some_iff.1 hc
    exact ⟨c, w', by rw [← hw]; simp, .inr hdigit⟩
  | some hc =>
    rw [List.mem_singleton.1 hc]
    exact ⟨_, _, rfl, .inl rfl⟩

/-! ## Texts -/

/-- What follows `\u`, and the code unit that it stands for. -/
inductive CodeUnit : Dialect → Nat → List Char → Prop
  | digits {d : Dialect} {a b c e : Char} {w x y z : Nat} : Quoted.hexDigit? a = some w →
    Quoted.hexDigit? b = some x → Quoted.hexDigit? c = some y → Quoted.hexDigit? e = some z →
    CodeUnit d (16 * (16 * (16 * w + x) + y) + z) [a, b, c, e]
  | plus {b c e : Char} {x y z : Nat} : Quoted.hexDigit? b = some x →
    Quoted.hexDigit? c = some y → Quoted.hexDigit? e = some z →
    CodeUnit .signed (16 * (16 * x + y) + z) ['+', b, c, e]

/-- The spellings of a character: as it is, by a backslash and a letter, by its code point, or by
two surrogates. -/
inductive Character (d : Dialect) : Char → List Char → Prop
  | raw {c : Char} : 0x20 ≤ c.toNat → c ≠ '"' → c ≠ '\\' → Character d c [c]
  | short {c letter : Char} : Quoted.short? letter = some c → Character d c ['\\', letter]
  | unit {n : Nat} {ds : List Char} : CodeUnit d n ds → n.isValidChar →
    Character d (Char.ofNat n) ('\\' :: 'u' :: ds)
  | pair {high low : Nat} {hs ls : List Char} : CodeUnit d high hs → CodeUnit d low ls →
    Quoted.isHighSurrogate high → Quoted.isLowSurrogate low →
    Character d (Char.ofNat (Quoted.paired high low)) ('\\' :: 'u' :: hs ++ '\\' :: 'u' :: ls)

/-- A text up to its closing quote. -/
inductive Chars (d : Dialect) : List Char → List Char → List Char → Prop
  | close {rest : List Char} : Chars d [] ('"' :: rest) rest
  | cons {c : Char} {w s cs rest : List Char} : Character d c w → Chars d s cs rest →
    Chars d (c :: s) (w ++ cs) rest

theorem Chars.length_lt {d : Dialect} {s cs rest : List Char} (h : Chars d s cs rest) :
    rest.length < cs.length := by
  induction h with
  | close => exact Nat.lt_succ_self _
  | cons _ _ ih =>
    rw [List.length_append]
    omega

/-! ## Values -/

/-- The name of a member, the colon and all the blanks around them. -/
inductive Name (d : Dialect) : String → List Char → List Char → Prop
  | mk {name : String} {cs es fs gs rest : List Char} : Blanks cs ('"' :: es) →
    Chars d name.toList es fs → Blanks fs (':' :: gs) → Blanks gs rest → Name d name cs rest

mutual

inductive Value (d : Dialect) : Tree → List Char → List Char → Prop
  | null {rest : List Char} : Value d .null ('n' :: 'u' :: 'l' :: 'l' :: rest) rest
  | true {rest : List Char} : Value d (.bool true) ('t' :: 'r' :: 'u' :: 'e' :: rest) rest
  | false {rest : List Char} : Value d (.bool false) ('f' :: 'a' :: 'l' :: 's' :: 'e' :: rest) rest
  | number {w rest : List Char} : Number w → Value d (.number (String.ofList w)) (w ++ rest) rest
  | string {s : String} {cs rest : List Char} : Chars d s.toList cs rest →
    Value d (.string s) ('"' :: cs) rest
  | emptyArray {cs rest : List Char} : Blanks cs (']' :: rest) →
    Value d (.array []) ('[' :: cs) rest
  | array {items : List Tree} {cs rest : List Char} : Elements d items cs rest →
    Value d (.array items) ('[' :: cs) rest
  | emptyObject {cs rest : List Char} : Blanks cs ('\x7d' :: rest) →
    Value d (.object []) ('\x7b' :: cs) rest
  | object {members : List (String × Tree)} {cs rest : List Char} : Members d members cs rest →
    Value d (.object members) ('\x7b' :: cs) rest

/-- One or more elements up to the closing bracket. -/
inductive Elements (d : Dialect) : List Tree → List Char → List Char → Prop
  | last {t : Tree} {cs es fs rest : List Char} : Blanks cs es → Value d t es fs →
    Blanks fs (']' :: rest) → Elements d [t] cs rest
  | cons {t : Tree} {ts : List Tree} {cs es fs gs rest : List Char} : Blanks cs es →
    Value d t es fs → Blanks fs (',' :: gs) → Elements d ts gs rest → Elements d (t :: ts) cs rest

/-- One or more members up to the closing brace. -/
inductive Members (d : Dialect) : List (String × Tree) → List Char → List Char → Prop
  | last {name : String} {t : Tree} {cs es fs rest : List Char} : Name d name cs es →
    Value d t es fs → Blanks fs ('\x7d' :: rest) → Members d [(name, t)] cs rest
  | cons {name : String} {t : Tree} {ms : List (String × Tree)} {cs es fs gs rest : List Char} :
    Name d name cs es → Value d t es fs → Blanks fs (',' :: gs) → Members d ms gs rest →
    Members d ((name, t) :: ms) cs rest

end

/-- A whole text. -/
inductive Text (d : Dialect) (t : Tree) (cs : List Char) : Prop
  | mk {es fs : List Char} : Blanks cs es → Value d t es fs → Blanks fs [] → Text d t cs

/-- Some `\u` is followed by a plus sign. -/
def plusEscape : List Char → Bool
  | c :: letter :: cs =>
    if c = '\\' then (letter = 'u' && cs.head? = some '+') || plusEscape cs
    else plusEscape (letter :: cs)
  | _ => false

/-- The text is a JSON text. -/
def WellFormed (s : String) : Prop := ∃ t, Text .standard t s.toList

end Grammar

end Wireform.Json
