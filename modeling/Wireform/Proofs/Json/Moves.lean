import Wireform.Proofs.Json.Escapes

/-!
# The moves of a pull

What one move of a pull does to its frames and to the text, as a relation in terms of the grammar:
`Moves d fs cs e fs' rest` reads the event `e` where the frames `fs` expect it. Every move of a pull
is one of these in the signed dialect (`moves_of_next`), and in either dialect a pull makes every
one of them (`next_of_moves`).
-/

namespace Wireform.Json.Pull

open Grammar

/-- Reads a value, or the opening of one. -/
inductive Begins (d : Dialect) (fs : List Frame) :
    List Char → Event → List Frame → List Char → Prop
  | null {rest : List Char} : Begins d fs ('n' :: 'u' :: 'l' :: 'l' :: rest) .null fs rest
  | true {rest : List Char} : Begins d fs ('t' :: 'r' :: 'u' :: 'e' :: rest) (.boolean true) fs rest
  | false {rest : List Char} :
    Begins d fs ('f' :: 'a' :: 'l' :: 's' :: 'e' :: rest) (.boolean false) fs rest
  | number {w rest : List Char} : Number w →
    Begins d fs (w ++ rest) (.number (String.ofList w)) fs rest
  | string {s : String} {cs rest : List Char} : Chars d s.toList cs rest →
    Begins d fs ('"' :: cs) (.string s) fs rest
  | array {rest : List Char} : Begins d fs ('[' :: rest) .startArray (.element true :: fs) rest
  | object {rest : List Char} : Begins d fs ('\x7b' :: rest) .startObject (.member true :: fs) rest

/-- What stands in front of a member or an element: a comma, unless it is the first. -/
inductive Separates : Bool → List Char → List Char → Prop
  | first {cs : List Char} : Separates true cs cs
  | comma {cs rest : List Char} : Blanks cs rest → Separates false (',' :: cs) rest

/-- Reads an event that no blanks stand in front of. -/
inductive Moves (d : Dialect) : List Frame → List Char → Event → List Frame → List Char → Prop
  | outermost {fs : List Frame} {e : Event} {cs rest : List Char} :
    Begins d [] cs e fs rest → Moves d [] cs e fs rest
  | endObject {first : Bool} {fs : List Frame} {rest : List Char} :
    Moves d (.member first :: fs) ('\x7d' :: rest) .endObject fs rest
  | name {first : Bool} {fs : List Frame} {s : String} {cs ds rest : List Char} :
    Separates first cs ('"' :: ds) → Chars d s.toList ds rest →
    Moves d (.member first :: fs) cs (.name s) (.value :: fs) rest
  | value {fs fs' : List Frame} {e : Event} {cs ds rest : List Char} :
    Blanks cs ds → Begins d (.member false :: fs) ds e fs' rest →
    Moves d (.value :: fs) (':' :: cs) e fs' rest
  | endArray {first : Bool} {fs : List Frame} {rest : List Char} :
    Moves d (.element first :: fs) (']' :: rest) .endArray fs rest
  | element {first : Bool} {fs fs' : List Frame} {e : Event} {cs ds rest : List Char} :
    Separates first cs ds → Begins d (.element false :: fs) ds e fs' rest →
    Moves d (.element first :: fs) cs e fs' rest

/-- The event is the latest one read. -/
def At (p : Pull) (e : Event) : Prop := p.current = some e.token ∧ p.event e.token = e

variable {d : Dialect} {p q : Pull} {e : Event} {t : Token} {fs fs' : List Frame}
  {cs ds rest : List Char} {α : Type} {x : Lex α} {a : α}

/-! ## Lexing within a pull -/

/-- Lexing inside the parser changes its input only. -/
theorem lex_eq_ok : lex x p = .ok a q ↔ ∃ i, x p.input = .ok a i ∧ q = { p with input := i } := by
  rw [lex, Step.onPart]
  cases x p.input with
  | error e i => simp
  | ok b i =>
    simp only [EStateM.Result.ok.injEq]
    constructor
    · rintro ⟨rfl, rfl⟩
      exact ⟨i, ⟨rfl, rfl⟩, rfl⟩
    · rintro ⟨_, ⟨rfl, rfl⟩, rfl⟩
      exact ⟨rfl, rfl⟩

theorem lex_of_gives (h : Lex.Gives x cs a rest) (hp : p.input.rest = cs) :
    ∃ i : Input, i.rest = rest ∧ lex x p = .ok a { p with input := i } := by
  obtain ⟨i, hi, hrest⟩ := h p.input hp
  exact ⟨i, hrest, lex_eq_ok.2 ⟨i, hi, rfl⟩⟩

theorem lex_peek {c : Char} (h : p.input.rest = c :: cs) : lex Lex.peek p = .ok c p := by
  refine lex_eq_ok.2 ⟨p.input, ?_, rfl⟩
  obtain ⟨i, hi, -⟩ := Lex.gives_peek c cs p.input h
  obtain ⟨rfl, -⟩ := Lex.peek_sound hi
  exact hi

theorem lex_skip {c : Char} (h : p.input.rest = c :: cs) :
    ∃ i : Input, i.rest = cs ∧ lex (Lex.skip 1) p = .ok () { p with input := i } :=
  lex_of_gives (Lex.gives_skip [c] cs) h

theorem lex_peek_sound {c : Char} (h : lex Lex.peek p = .ok c q) :
    q = p ∧ ∃ cs, p.input.rest = c :: cs := by
  obtain ⟨i, hi, rfl⟩ := lex_eq_ok.1 h
  obtain ⟨rfl, hcs⟩ := Lex.peek_sound hi
  exact ⟨rfl, hcs⟩

theorem lex_skip_sound {c : Char} {u : Unit} (h : lex (Lex.skip 1) p = .ok u q)
    (hcs : p.input.rest = c :: cs) : ∃ i : Input, i.rest = cs ∧ q = { p with input := i } := by
  obtain ⟨i, hi, rfl⟩ := lex_eq_ok.1 h
  refine ⟨i, ?_, rfl⟩
  rw [Lex.skip_sound hi, hcs]
  rfl

theorem lex_literal_sound {w : List Char} {u : Unit} (h : lex (Lex.literal w) p = .ok u q) :
    ∃ i : Input, p.input.rest = w ++ i.rest ∧ q = { p with input := i } := by
  obtain ⟨i, hi, rfl⟩ := lex_eq_ok.1 h
  exact ⟨i, Lex.literal_sound hi, rfl⟩

/-! ## The beginning of a value -/

/-- The characters with which a value may begin. -/
def isHead (c : Char) : Bool := ['n', 't', 'f', '"', '[', '\x7b', '-'].contains c || c.isDigit

/-- Characters that begin values differ from those that do not. -/
theorem isHead_ne {c e : Char} (h : isHead c = true) (he : isHead e = false) : c ≠ e := by
  rintro rfl
  rw [h] at he
  cases he

theorem not_blank_of_isHead {c : Char} (h : isHead c = true) : ¬ Blank c := by
  intro hblank
  simp only [Blank, List.mem_cons, List.not_mem_nil, or_false] at hblank
  rcases hblank with rfl | rfl | rfl | rfl <;> exact absurd h (by decide)

/-- A value begins with a character that no separator or end begins with. -/
theorem Begins.head (h : Begins d fs cs e fs' rest) : ∃ c cs', cs = c :: cs' ∧ isHead c := by
  cases h with
  | @number w rest hw =>
    obtain ⟨c, w', rfl, hc⟩ := hw.head
    refine ⟨c, w' ++ rest, rfl, ?_⟩
    rcases hc with rfl | hc
    · rfl
    · rw [isHead, hc, Bool.or_true]
  | _ => exact ⟨_, _, rfl, rfl⟩

/-- What a value leaves of a pull that reads it. -/
structure Leaves (p : Pull) (e : Event) (fs : List Frame) (rest : List Char) (q : Pull) : Prop where
  event : q.event e.token = e
  frames : q.frames = fs
  rest : q.input.rest = rest
  done : q.done = (p.done || fs.isEmpty)

/-- Where the grammar has the beginning of a value, the parser reads it. -/
theorem value_of_begins (h : Begins d fs cs e fs' rest) (hfs : p.frames = fs)
    (hcs : p.input.rest = cs) (hend : e.token = .number → Lex.Ends rest) :
    ∃ q, value p = .ok e.token q ∧ Leaves p e fs' rest q := by
  subst hfs
  cases h with
  | null =>
    obtain ⟨i, hi, hlex⟩ := lex_of_gives (Lex.gives_literal ['n', 'u', 'l', 'l'] rest) hcs
    refine ⟨{ p with input := i, done := p.done || p.frames.isEmpty }, ?_, rfl, rfl, hi, rfl⟩
    rw [value, Step.bind_apply, lex_peek hcs]
    simp [Step.bind_apply, hlex]
    rfl
  | true =>
    obtain ⟨i, hi, hlex⟩ := lex_of_gives (Lex.gives_literal ['t', 'r', 'u', 'e'] rest) hcs
    refine ⟨{ p with input := i, boolean := true, done := p.done || p.frames.isEmpty }, ?_,
      rfl, rfl, hi, rfl⟩
    rw [value, Step.bind_apply, lex_peek hcs]
    simp [Step.bind_apply, hlex]
    rfl
  | false =>
    obtain ⟨i, hi, hlex⟩ := lex_of_gives (Lex.gives_literal ['f', 'a', 'l', 's', 'e'] rest) hcs
    refine ⟨{ p with input := i, boolean := false, done := p.done || p.frames.isEmpty }, ?_,
      rfl, rfl, hi, rfl⟩
    rw [value, Step.bind_apply, lex_peek hcs]
    simp [Step.bind_apply, hlex]
    rfl
  | @number w rest hw =>
    obtain ⟨c, w', rfl, hc⟩ := hw.head
    obtain ⟨i, hi, hlex⟩ := lex_of_gives (Lex.gives_number hw (hend rfl)) hcs
    refine ⟨{ p with
      input := i, text := String.ofList (c :: w'), done := p.done || p.frames.isEmpty }, ?_,
      rfl, rfl, hi, rfl⟩
    have hne (e : Char) (he : e ≠ '-') (hdigit : e.isDigit = false) : c ≠ e := by
      rintro rfl
      rcases hc with rfl | hc
      · exact he rfl
      · rw [hc] at hdigit
        cases hdigit
    rw [value, Step.bind_apply, lex_peek hcs]
    simp only [if_neg (hne '\x7b' (by decide) rfl), if_neg (hne '[' (by decide) rfl),
      if_neg (hne '"' (by decide) rfl), if_neg (hne 't' (by decide) rfl),
      if_neg (hne 'f' (by decide) rfl), if_neg (hne 'n' (by decide) rfl), if_pos hc,
      Step.bind_apply, hlex]
    rfl
  | @string s cs rest hs =>
    obtain ⟨i, hi, hlex⟩ := lex_skip hcs
    obtain ⟨j, hj, hquoted⟩ := lex_of_gives (p := { p with input := i }) (Lex.gives_quoted hs) hi
    refine ⟨{ p with input := j, text := s, done := p.done || p.frames.isEmpty }, ?_,
      rfl, rfl, hj, rfl⟩
    rw [value, Step.bind_apply, lex_peek hcs]
    simp [Step.bind_apply, hlex, hquoted]
    rfl
  | array =>
    obtain ⟨i, hi, hlex⟩ := lex_skip hcs
    refine ⟨{ p with input := i, frames := .element true :: p.frames }, ?_, rfl, rfl, hi,
      (Bool.or_false _).symm⟩
    rw [value, Step.bind_apply, lex_peek hcs]
    simp [Step.bind_apply, hlex]
    rfl
  | object =>
    obtain ⟨i, hi, hlex⟩ := lex_skip hcs
    refine ⟨{ p with input := i, frames := .member true :: p.frames }, ?_, rfl, rfl, hi,
      (Bool.or_false _).symm⟩
    rw [value, Step.bind_apply, lex_peek hcs]
    simp [Step.bind_apply, hlex]
    rfl

/-- Where the parser reads the beginning of a value, the grammar has one. -/
theorem value_sound (h : value p = .ok t q) :
    ∃ e, e.token = t ∧ Begins .signed p.frames p.input.rest e q.frames q.input.rest ∧
      Leaves p e q.frames q.input.rest q := by
  obtain ⟨c, _, hpeek, hif⟩ := Step.bind_eq_ok.1 h
  obtain ⟨rfl, cs, hcs⟩ := lex_peek_sound hpeek
  split at hif
  · next hc =>
    obtain ⟨_, _, hskip, hrest⟩ := Step.bind_eq_ok.1 hif
    obtain ⟨i, rfl, rfl⟩ := lex_skip_sound hskip hcs
    cases hrest
    refine ⟨.startObject, rfl, ?_, rfl, rfl, rfl, (Bool.or_false _).symm⟩
    rw [hcs, hc]
    exact .object
  split at hif
  · next hc =>
    obtain ⟨_, _, hskip, hrest⟩ := Step.bind_eq_ok.1 hif
    obtain ⟨i, rfl, rfl⟩ := lex_skip_sound hskip hcs
    cases hrest
    refine ⟨.startArray, rfl, ?_, rfl, rfl, rfl, (Bool.or_false _).symm⟩
    rw [hcs, hc]
    exact .array
  split at hif
  · next hc =>
    obtain ⟨_, _, hskip, hquoted⟩ := Step.bind_eq_ok.1 hif
    obtain ⟨i, rfl, rfl⟩ := lex_skip_sound hskip hcs
    obtain ⟨s, _, hlex, hrest⟩ := Step.bind_eq_ok.1 hquoted
    obtain ⟨j, hj, rfl⟩ := lex_eq_ok.1 hlex
    cases hrest
    refine ⟨.string s, rfl, ?_, rfl, rfl, rfl, rfl⟩
    rw [hcs, hc]
    exact .string (Lex.quoted_sound hj)
  split at hif
  · obtain ⟨_, _, hlex, hrest⟩ := Step.bind_eq_ok.1 hif
    obtain ⟨i, hword, rfl⟩ := lex_literal_sound hlex
    cases hrest
    refine ⟨.boolean true, rfl, ?_, rfl, rfl, rfl, rfl⟩
    rw [hword]
    exact .true
  split at hif
  · obtain ⟨_, _, hlex, hrest⟩ := Step.bind_eq_ok.1 hif
    obtain ⟨i, hword, rfl⟩ := lex_literal_sound hlex
    cases hrest
    refine ⟨.boolean false, rfl, ?_, rfl, rfl, rfl, rfl⟩
    rw [hword]
    exact .false
  split at hif
  · obtain ⟨_, _, hlex, hrest⟩ := Step.bind_eq_ok.1 hif
    obtain ⟨i, hword, rfl⟩ := lex_literal_sound hlex
    cases hrest
    refine ⟨.null, rfl, ?_, rfl, rfl, rfl, rfl⟩
    rw [hword]
    exact .null
  split at hif
  · obtain ⟨s, _, hlex, hrest⟩ := Step.bind_eq_ok.1 hif
    obtain ⟨i, hi, rfl⟩ := lex_eq_ok.1 hlex
    obtain ⟨w, hw, rfl, hword⟩ := Lex.number_sound hi
    cases hrest
    refine ⟨.number (String.ofList w), rfl, ?_, rfl, rfl, rfl, rfl⟩
    rw [hword]
    exact .number hw
  · obtain ⟨i, hi, -⟩ := lex_eq_ok.1 hif
    cases hi

/-! ## Moves -/

theorem lex_blanks (h : Blanks cs rest) (hcs : p.input.rest = cs)
    (hrest : ∀ c ∈ rest.head?, ¬ Blank c) :
    ∃ i : Input, i.rest = rest ∧ lex Lex.blanks p = .ok () { p with input := i } :=
  lex_of_gives (Lex.gives_blanks h hrest) hcs

theorem Begins.not_blank (h : Begins d fs cs e fs' rest) : ∀ c ∈ cs.head?, ¬ Blank c := by
  obtain ⟨c, cs', rfl, hc⟩ := h.head
  rintro _ ⟨⟩
  exact not_blank_of_isHead hc

/-- A comma is taken where one has to stand, with the blanks after it. -/
theorem separator_of_separates {first : Bool} (h : Separates first cs rest)
    (hcs : p.input.rest = cs) (hrest : ∀ c ∈ rest.head?, ¬ Blank c) :
    ∃ i : Input, i.rest = rest ∧ separator first p = .ok () { p with input := i } := by
  cases h with
  | first => exact ⟨p.input, hcs, rfl⟩
  | @comma ds _ hblanks =>
    obtain ⟨i, hi, hexpect⟩ := lex_of_gives (Lex.gives_expect ',' ds) hcs
    obtain ⟨j, hj, hskip⟩ := lex_blanks (p := { p with input := i }) hblanks hi hrest
    refine ⟨j, hj, ?_⟩
    rw [separator, if_neg Bool.false_ne_true, Step.bind_apply, hexpect]
    exact hskip

/-- What the parser takes for a separator is one. -/
theorem separator_sound {first : Bool} {u : Unit} (h : separator first p = .ok u q) :
    ∃ i : Input, q = { p with input := i } ∧ Separates first p.input.rest i.rest := by
  cases first with
  | true =>
    cases h
    exact ⟨p.input, rfl, .first⟩
  | false =>
    obtain ⟨_, _, hexpect, hblanks⟩ := Step.bind_eq_ok.1 h
    obtain ⟨i, hi, rfl⟩ := lex_eq_ok.1 hexpect
    obtain ⟨j, hj, rfl⟩ := lex_eq_ok.1 hblanks
    refine ⟨j, rfl, ?_⟩
    rw [Lex.expect_sound hi]
    exact .comma (Lex.blanks_sound hj)

/-- What is separated from the rest does not close it. -/
theorem Separates.head {first : Bool} {c : Char} (h : Separates first cs rest)
    (hrest : ∀ e ∈ rest.head?, e ≠ c) (hcomma : ',' ≠ c) (hne : rest ≠ []) :
    ∃ e es, cs = e :: es ∧ e ≠ c := by
  cases h with
  | first =>
    obtain ⟨e, es, rfl⟩ := List.exists_cons_of_ne_nil hne
    exact ⟨e, es, rfl, hrest e rfl⟩
  | comma => exact ⟨',', _, rfl, hcomma⟩

theorem advance_outermost (h : p.frames = []) : advance p = outermost p := by
  rw [advance, Step.bind_apply, Step.get_apply]
  simp only [h]

theorem advance_member {first : Bool} (h : p.frames = .member first :: fs) :
    advance p = (some <$> member first) p := by
  rw [advance, Step.bind_apply, Step.get_apply]
  simp only [h]

theorem advance_value (h : p.frames = .value :: fs) : advance p = (some <$> memberValue) p := by
  rw [advance, Step.bind_apply, Step.get_apply]
  simp only [h]

theorem advance_element {first : Bool} (h : p.frames = .element first :: fs) :
    advance p = (some <$> element first) p := by
  rw [advance, Step.bind_apply, Step.get_apply]
  simp only [h]

theorem close_eq (h : p.frames.tail = fs) :
    close p = .ok () { p with frames := fs, done := p.done || fs.isEmpty } := by
  subst h
  rfl

theorem setTop_eq {f g : Frame} (h : p.frames = f :: fs) :
    setTop g p = .ok () { p with frames := g :: fs } := by
  rw [setTop, Step.modify_apply, h]

/-- Closing takes the innermost frame off, and closing the last one ends the text. -/
theorem close_sound {f : Frame} {u : Unit} (h : close p = .ok u q) (hfs : p.frames = f :: fs) :
    q = { p with frames := fs, done := p.done || fs.isEmpty } := by
  rw [close_eq (congrArg List.tail hfs)] at h
  cases h
  rfl

theorem setTop_sound {f g : Frame} {u : Unit} (h : setTop g p = .ok u q)
    (hfs : p.frames = f :: fs) : q = { p with frames := g :: fs } := by
  rw [setTop_eq hfs] at h
  cases h
  rfl

/-- A pull makes every move of the grammar. -/
theorem advance_of_moves (h : Moves d fs cs e fs' rest) (hfs : p.frames = fs)
    (hcs : p.input.rest = cs) (hmore : fs = [] → p.done = false)
    (hend : e.token = .number → Lex.Ends rest) :
    ∃ q, advance p = .ok (some e.token) q ∧ Leaves p e fs' rest q := by
  cases h with
  | outermost hbegins =>
    obtain ⟨q, hq, hleaves⟩ := value_of_begins hbegins hfs hcs hend
    refine ⟨q, ?_, hleaves⟩
    rw [advance_outermost hfs, outermost, Step.bind_apply, Step.get_apply]
    simp only [hmore rfl]
    exact Step.map_eq_ok.2 ⟨_, hq, rfl⟩
  | endObject =>
    obtain ⟨i, hi, hskip⟩ := lex_skip hcs
    have hclose := close_eq (p := { p with input := i }) (congrArg List.tail hfs)
    refine ⟨{ p with input := i, frames := fs', done := p.done || fs'.isEmpty }, ?_,
      rfl, rfl, hi, rfl⟩
    rw [advance_member hfs]
    refine Step.map_eq_ok.2 ⟨.endObject, ?_, rfl⟩
    rw [member, Step.bind_apply, lex_peek hcs]
    simp only [if_pos, Step.bind_apply, hskip, hclose]
    rfl
  | endArray =>
    obtain ⟨i, hi, hskip⟩ := lex_skip hcs
    have hclose := close_eq (p := { p with input := i }) (congrArg List.tail hfs)
    refine ⟨{ p with input := i, frames := fs', done := p.done || fs'.isEmpty }, ?_,
      rfl, rfl, hi, rfl⟩
    rw [advance_element hfs]
    refine Step.map_eq_ok.2 ⟨.endArray, ?_, rfl⟩
    rw [element, Step.bind_apply, lex_peek hcs]
    simp only [if_pos, Step.bind_apply, hskip, hclose]
    rfl
  | @name first _ s cs ds rest hsep hs =>
    obtain ⟨i, hi, hseparator⟩ := separator_of_separates hsep hcs (by rintro c ⟨⟩; decide)
    obtain ⟨j, hj, hexpect⟩ :=
      lex_of_gives (p := { p with input := i }) (Lex.gives_expect '"' ds) hi
    obtain ⟨k, hk, hquoted⟩ := lex_of_gives (p := { p with input := j }) (Lex.gives_quoted hs) hj
    have hset := setTop_eq (p := { p with input := k, name := some s }) (g := .value) hfs
    obtain ⟨c, cs', rfl, hc⟩ := hsep.head (c := '\x7d') (by rintro c ⟨⟩; decide) (by decide) nofun
    refine ⟨{ p with input := k, name := some s, frames := .value :: _ }, ?_,
      rfl, rfl, hk, (Bool.or_false _).symm⟩
    rw [advance_member hfs]
    refine Step.map_eq_ok.2 ⟨.fieldName, ?_, rfl⟩
    rw [member, Step.bind_apply, lex_peek hcs]
    simp only [if_neg hc, Step.bind_apply, hseparator, hexpect, hquoted, Step.modify_apply, hset]
    rfl
  | @value fs _ _ cs ds rest hblanks hbegins =>
    obtain ⟨i, hi, hexpect⟩ := lex_of_gives (Lex.gives_expect ':' cs) hcs
    obtain ⟨j, hj, hskip⟩ := lex_blanks (p := { p with input := i }) hblanks hi hbegins.not_blank
    have hset := setTop_eq (p := { p with input := j }) (g := .member false) hfs
    obtain ⟨q, hq, hleaves⟩ := value_of_begins
      (p := { p with input := j, frames := .member false :: fs }) hbegins rfl hj hend
    refine ⟨q, ?_, hleaves.1, hleaves.2, hleaves.3, hleaves.4⟩
    rw [advance_value hfs]
    refine Step.map_eq_ok.2 ⟨_, ?_, rfl⟩
    rw [memberValue, Step.bind_apply, hexpect]
    simp only [Step.bind_apply, hskip, hset]
    exact hq
  | @element first fs _ _ cs ds rest hsep hbegins =>
    obtain ⟨i, hi, hseparator⟩ := separator_of_separates hsep hcs hbegins.not_blank
    have hset := setTop_eq (p := { p with input := i }) (g := .element false) hfs
    obtain ⟨q, hq, hleaves⟩ := value_of_begins
      (p := { p with input := i, frames := .element false :: fs }) hbegins rfl hi hend
    obtain ⟨c, cs', rfl, hc⟩ := hbegins.head
    obtain ⟨e, es, rfl, he⟩ := hsep.head (c := ']')
      (by rintro _ ⟨⟩; exact isHead_ne hc rfl) (by decide) nofun
    refine ⟨q, ?_, hleaves.1, hleaves.2, hleaves.3, hleaves.4⟩
    rw [advance_element hfs]
    refine Step.map_eq_ok.2 ⟨_, ?_, rfl⟩
    rw [element, Step.bind_apply, lex_peek hcs]
    simp only [if_neg he, Step.bind_apply, hseparator, hset]
    exact hq

/-- In the signed dialect it makes no others. -/
theorem advance_sound (h : advance p = .ok (some t) q) :
    ∃ e, e.token = t ∧ Moves .signed p.frames p.input.rest e q.frames q.input.rest ∧
      Leaves p e q.frames q.input.rest q ∧ (p.frames = [] → p.done = false) := by
  cases hfs : p.frames with
  | nil =>
    rw [advance_outermost hfs] at h
    obtain ⟨_, _, hget, hif⟩ := Step.bind_eq_ok.1 h
    cases hget
    split at hif
    · split at hif <;> cases hif
    · next hdone =>
      obtain ⟨_, hvalue, ⟨⟩⟩ := Step.map_eq_ok.1 hif
      obtain ⟨e, he, hbegins, hleaves⟩ := value_sound hvalue
      rw [hfs] at hbegins
      exact ⟨e, he, .outermost hbegins, hleaves, fun _ => Bool.eq_false_iff.2 hdone⟩
  | cons f fs =>
    cases f with
    | member first =>
      rw [advance_member hfs] at h
      obtain ⟨_, hmember, ⟨⟩⟩ := Step.map_eq_ok.1 h
      obtain ⟨c, _, hpeek, hif⟩ := Step.bind_eq_ok.1 hmember
      obtain ⟨rfl, cs, hcs⟩ := lex_peek_sound hpeek
      split at hif
      · next hc =>
        obtain ⟨_, _, hskip, hrest⟩ := Step.bind_eq_ok.1 hif
        obtain ⟨i, rfl, rfl⟩ := lex_skip_sound hskip hcs
        obtain ⟨_, _, hclose, hrest⟩ := Step.bind_eq_ok.1 hrest
        cases close_sound hclose hfs
        cases hrest
        rw [hcs, hc]
        exact ⟨.endObject, rfl, .endObject, ⟨rfl, rfl, rfl, rfl⟩, nofun⟩
      · obtain ⟨_, _, hseparator, hexpect⟩ := Step.bind_eq_ok.1 hif
        obtain ⟨i, rfl, hsep⟩ := separator_sound hseparator
        obtain ⟨_, _, hlex, hquoted⟩ := Step.bind_eq_ok.1 hexpect
        obtain ⟨j, hj, rfl⟩ := lex_eq_ok.1 hlex
        obtain ⟨s, _, hlex, hrest⟩ := Step.bind_eq_ok.1 hquoted
        obtain ⟨k, hk, rfl⟩ := lex_eq_ok.1 hlex
        obtain ⟨_, _, hname, hrest⟩ := Step.bind_eq_ok.1 hrest
        cases hname
        obtain ⟨_, _, hset, hrest⟩ := Step.bind_eq_ok.1 hrest
        cases setTop_sound hset hfs
        cases hrest
        rw [Lex.expect_sound hj] at hsep
        exact ⟨.name s, rfl, .name hsep (Lex.quoted_sound hk),
          ⟨rfl, rfl, rfl, (Bool.or_false _).symm⟩, nofun⟩
    | value =>
      rw [advance_value hfs] at h
      obtain ⟨_, hmember, ⟨⟩⟩ := Step.map_eq_ok.1 h
      obtain ⟨_, _, hlex, hrest⟩ := Step.bind_eq_ok.1 hmember
      obtain ⟨i, hi, rfl⟩ := lex_eq_ok.1 hlex
      obtain ⟨_, _, hlex, hrest⟩ := Step.bind_eq_ok.1 hrest
      obtain ⟨j, hj, rfl⟩ := lex_eq_ok.1 hlex
      obtain ⟨_, _, hset, hvalue⟩ := Step.bind_eq_ok.1 hrest
      cases setTop_sound hset hfs
      obtain ⟨e, he, hbegins, hleaves⟩ := value_sound hvalue
      rw [Lex.expect_sound hi]
      exact ⟨e, he, .value (Lex.blanks_sound hj) hbegins,
        ⟨hleaves.1, hleaves.2, hleaves.3, hleaves.4⟩, nofun⟩
    | element first =>
      rw [advance_element hfs] at h
      obtain ⟨_, helement, ⟨⟩⟩ := Step.map_eq_ok.1 h
      obtain ⟨c, _, hpeek, hif⟩ := Step.bind_eq_ok.1 helement
      obtain ⟨rfl, cs, hcs⟩ := lex_peek_sound hpeek
      split at hif
      · next hc =>
        obtain ⟨_, _, hskip, hrest⟩ := Step.bind_eq_ok.1 hif
        obtain ⟨i, rfl, rfl⟩ := lex_skip_sound hskip hcs
        obtain ⟨_, _, hclose, hrest⟩ := Step.bind_eq_ok.1 hrest
        cases close_sound hclose hfs
        cases hrest
        rw [hcs, hc]
        exact ⟨.endArray, rfl, .endArray, ⟨rfl, rfl, rfl, rfl⟩, nofun⟩
      · obtain ⟨_, _, hseparator, hrest⟩ := Step.bind_eq_ok.1 hif
        obtain ⟨i, rfl, hsep⟩ := separator_sound hseparator
        obtain ⟨_, _, hset, hvalue⟩ := Step.bind_eq_ok.1 hrest
        cases setTop_sound hset hfs
        obtain ⟨e, he, hbegins, hleaves⟩ := value_sound hvalue
        exact ⟨e, he, .element hsep hbegins, ⟨hleaves.1, hleaves.2, hleaves.3, hleaves.4⟩, nofun⟩

theorem advance_none (hfs : p.frames = []) (hdone : p.done = true) (hrest : p.input.rest = []) :
    advance p = .ok none p := by
  rw [advance_outermost hfs, outermost, Step.bind_apply, Step.get_apply]
  simp only [hdone, hrest]
  rfl

/-- The parser ends behind a whole value and at the end of the text only. -/
theorem advance_none_sound (h : advance p = .ok none q) :
    p.frames = [] ∧ p.done = true ∧ p.input.rest = [] := by
  cases hfs : p.frames with
  | nil =>
    rw [advance_outermost hfs] at h
    obtain ⟨_, _, hget, hif⟩ := Step.bind_eq_ok.1 h
    cases hget
    split at hif
    · next hdone =>
      split at hif
      · next hempty => exact ⟨rfl, hdone, List.isEmpty_iff.1 hempty⟩
      · cases hif
    · obtain ⟨_, -, ⟨⟩⟩ := Step.map_eq_ok.1 hif
  | cons f fs =>
    cases f with
    | member first =>
      rw [advance_member hfs] at h
      obtain ⟨_, -, ⟨⟩⟩ := Step.map_eq_ok.1 h
    | value =>
      rw [advance_value hfs] at h
      obtain ⟨_, -, ⟨⟩⟩ := Step.map_eq_ok.1 h
    | element first =>
      rw [advance_element hfs] at h
      obtain ⟨_, -, ⟨⟩⟩ := Step.map_eq_ok.1 h

/-! ## Tokens -/

theorem event_current (t : Option Token) (p : Pull) : { p with current := t }.event = p.event := by
  funext u
  cases u <;> rfl

theorem Moves.not_blank (h : Moves d fs cs e fs' rest) : ∀ c ∈ cs.head?, ¬ Blank c := by
  cases h with
  | outermost hbegins => exact hbegins.not_blank
  | name hsep _ =>
    cases hsep <;> rintro c ⟨⟩ <;> decide
  | element hsep hbegins =>
    cases hsep with
    | first => exact hbegins.not_blank
    | comma => rintro c ⟨⟩; decide
  | _ => rintro c ⟨⟩; decide

/-- Where the grammar has a move, the parser makes it, over any blanks. -/
theorem next_of_moves (hblanks : Blanks p.input.rest cs) (h : Moves d fs cs e fs' rest)
    (hfs : p.frames = fs) (hmore : fs = [] → p.done = false)
    (hend : e.token = .number → Lex.Ends rest) :
    ∃ q, next p = .ok (some e.token) q ∧ q.At e ∧ Leaves p e fs' rest q := by
  obtain ⟨i, hi, hlex⟩ := lex_blanks hblanks rfl h.not_blank
  obtain ⟨q, hq, hleaves⟩ := advance_of_moves (p := { p with input := i }) h hfs hi hmore hend
  have hevent := hleaves.event
  rw [← event_current (some e.token)] at hevent
  refine ⟨{ q with current := some e.token }, ?_, ⟨rfl, hevent⟩,
    hevent, hleaves.frames, hleaves.rest, hleaves.done⟩
  rw [next, Step.bind_apply, hlex]
  exact Step.bind_eq_ok.2 ⟨_, _, hq, rfl⟩

theorem next_sound {o : Option Token} (h : next p = .ok o q) :
    ∃ (i : Input) (r : Pull), Blanks p.input.rest i.rest ∧
      advance { p with input := i } = .ok o r ∧ q = { r with current := o } := by
  obtain ⟨_, _, hlex, hadvance⟩ := Step.bind_eq_ok.1 h
  obtain ⟨i, hi, rfl⟩ := lex_eq_ok.1 hlex
  obtain ⟨o', r, hr, hrest⟩ := Step.bind_eq_ok.1 hadvance
  cases hrest
  exact ⟨i, r, Lex.blanks_sound hi, hr, rfl⟩

/-- What is current after a move is what the move gave. -/
theorem current_of_next {o : Option Token} (h : next p = .ok o q) : q.current = o := by
  obtain ⟨i, r, -, -, rfl⟩ := next_sound h
  rfl

/-- Where the parser makes a move, the grammar has it. -/
theorem moves_of_next (h : next p = .ok (some t) q) :
    ∃ e cs, e.token = t ∧ Blanks p.input.rest cs ∧
      Moves .signed p.frames cs e q.frames q.input.rest ∧ Leaves p e q.frames q.input.rest q ∧
      (p.frames = [] → p.done = false) := by
  obtain ⟨i, r, hblanks, hadvance, rfl⟩ := next_sound h
  obtain ⟨e, he, hmoves, hleaves, hmore⟩ := advance_sound hadvance
  refine ⟨e, i.rest, he, hblanks, hmoves, ⟨?_, rfl, rfl, hleaves.done⟩, hmore⟩
  rw [event_current]
  exact hleaves.event

/-- The end is reported where the outermost value has been read and only blanks follow. -/
theorem next_none (hfs : p.frames = []) (hdone : p.done = true) (hblanks : Blanks p.input.rest []) :
    ∃ q, next p = .ok none q ∧ q.input.rest = [] := by
  obtain ⟨i, hi, hlex⟩ := lex_blanks hblanks rfl nofun
  have hnone := advance_none (p := { p with input := i }) hfs hdone hi
  refine ⟨{ p with input := i, current := none }, ?_, hi⟩
  rw [next, Step.bind_apply, hlex]
  exact Step.bind_eq_ok.2 ⟨none, _, hnone, rfl⟩

/-- The parser ends behind a whole value and blanks only. -/
theorem next_none_sound (h : next p = .ok none q) :
    p.frames = [] ∧ p.done = true ∧ Blanks p.input.rest [] := by
  obtain ⟨i, r, hblanks, hadvance, -⟩ := next_sound h
  obtain ⟨hfs, hdone, hi⟩ := advance_none_sound hadvance
  exact ⟨hfs, hdone, hi ▸ hblanks⟩

theorem Begins.length_lt (h : Begins d fs cs e fs' rest) : rest.length < cs.length := by
  cases h with
  | number hw =>
    obtain ⟨c, w', rfl, -⟩ := hw.head
    simp only [List.length_append, List.length_cons]
    omega
  | string hs => exact Nat.lt_succ_of_lt (hs.length_lt)
  | _ => simp only [List.length_cons]; omega

theorem Separates.length_le {first : Bool} (h : Separates first cs rest) :
    rest.length ≤ cs.length := by
  cases h with
  | first => exact Nat.le_refl _
  | comma hblanks => exact Nat.le_succ_of_le hblanks.length_le

/-- Each token takes a character. -/
theorem Moves.length_lt (h : Moves d fs cs e fs' rest) : rest.length < cs.length := by
  cases h with
  | outermost hbegins => exact hbegins.length_lt
  | endObject => exact Nat.lt_succ_self _
  | name hsep hs =>
    have hle := hsep.length_le
    rw [List.length_cons] at hle
    exact Nat.lt_trans (hs.length_lt) hle
  | value hblanks hbegins =>
    exact Nat.lt_succ_of_lt (Nat.lt_of_lt_of_le hbegins.length_lt hblanks.length_le)
  | endArray => exact Nat.lt_succ_self _
  | element hsep hbegins => exact Nat.lt_of_lt_of_le hbegins.length_lt hsep.length_le

end Wireform.Json.Pull
