import Mathlib.Logic.Function.Iterate
import Wireform.Proofs.Json.Runs

/-!
# Tokens and their contents

A caller moves a pull on, call after call, and asks it for what the current token holds. `moved n p`
is the pull after `n` calls, and `p.Shows e` says that what it answers is the event `e`. Main
statement: on a JSON text the calls give the tokens of the tree that the text spells, one by one,
each with its contents, and nothing but the end after the last of them (`next_moved_of_text`).
-/

namespace Wireform.Json.Pull

open Grammar

variable {p q r : Pull} {e : Event} {es : List Event} {t : Tree} {s : String}

/-! ## Contents of the current token -/

/-- A long is the number of the text, if that is in range. -/
theorem long_of_numberText (h : p.numberText = .ok s) :
    p.long = ((Decimal.int? s.toList).bind Decimal.int64?).elim (.error (.numberRange s)) .ok := by
  rw [Pull.long, h]
  dsimp only [bind, Except.bind]
  split <;> next h => rw [h]; rfl

namespace At

theorem stringText (h : p.At (.string s)) : p.stringText = .ok s := by
  obtain ⟨hcurrent, hevent⟩ := h
  have hrequire : p.require .string = .ok () := if_pos hcurrent
  rw [Pull.stringText, hrequire]
  exact congrArg Except.ok (Event.string.inj hevent)

theorem booleanValue {b : Bool} (h : p.At (.boolean b)) : p.booleanValue = .ok b := by
  obtain ⟨hcurrent, hevent⟩ := h
  have hrequire : p.require .boolean = .ok () := if_pos hcurrent
  rw [Pull.booleanValue, hrequire]
  exact congrArg Except.ok (Event.boolean.inj hevent)

theorem numberText (h : p.At (.number s)) : p.numberText = .ok s := by
  obtain ⟨hcurrent, hevent⟩ := h
  have hrequire : p.require .number = .ok () := if_pos hcurrent
  rw [Pull.numberText, hrequire]
  exact congrArg Except.ok (Event.number.inj hevent)

theorem long (h : p.At (.number s)) :
    p.long = ((Decimal.int? s.toList).bind Decimal.int64?).elim (.error (.numberRange s)) .ok :=
  long_of_numberText h.numberText

theorem int (h : p.At (.number s)) :
    p.int = ((Decimal.int? s.toList).bind Decimal.int32?).elim (.error (.numberRange s)) .ok := by
  rw [Pull.int, h.numberText]
  dsimp only [bind, Except.bind]
  split <;> next h => rw [h]; rfl

end At

/-- What is asked of a pull that has just read the event is answered with the event's contents. -/
def Shows (p : Pull) (e : Event) : Prop :=
  p.current = some e.token ∧
    match e with
    | .name s => p.name = some s
    | .string s => p.stringText = .ok s
    | .number w => p.numberText = .ok w
    | .boolean b => p.booleanValue = .ok b
    | _ => True

/-- A value does not begin with a name. -/
theorem Begins.token_ne_fieldName {d : Dialect} {fs fs' : List Frame} {cs rest : List Char}
    (h : Begins d fs cs e fs' rest) : e.token ≠ .fieldName := by
  cases h <;> exact nofun

/-- Only a member has a name, and it is remembered. -/
theorem name_of_member {first : Bool} (h : member first p = .ok .fieldName q) :
    ∃ s, q.name = some s := by
  obtain ⟨c, _, -, hif⟩ := Step.bind_eq_ok.1 h
  split at hif
  · obtain ⟨_, _, -, hclose⟩ := Step.bind_eq_ok.1 hif
    obtain ⟨_, _, -, hpure⟩ := Step.bind_eq_ok.1 hclose
    cases hpure
  · obtain ⟨_, _, -, hexpect⟩ := Step.bind_eq_ok.1 hif
    obtain ⟨_, _, -, hquoted⟩ := Step.bind_eq_ok.1 hexpect
    obtain ⟨s, _, -, hname⟩ := Step.bind_eq_ok.1 hquoted
    obtain ⟨_, _, hmodify, hset⟩ := Step.bind_eq_ok.1 hname
    cases hmodify
    obtain ⟨_, _, hmodify, hpure⟩ := Step.bind_eq_ok.1 hset
    cases hmodify
    cases hpure
    exact ⟨s, rfl⟩

theorem name_of_advance (h : advance p = .ok (some .fieldName) q) : ∃ s, q.name = some s := by
  obtain ⟨e, htoken, hmoves, -, -⟩ := advance_sound h
  generalize hfs : p.frames = fs, p.input.rest = cs, q.frames = fs', q.input.rest = rest at hmoves
  cases hmoves with
  | name =>
    rw [advance_member hfs] at h
    obtain ⟨_, hmember, ⟨⟩⟩ := Step.map_eq_ok.1 h
    exact name_of_member hmember
  | endObject => cases htoken
  | endArray => cases htoken
  | outermost hbegins => exact (hbegins.token_ne_fieldName htoken).elim
  | value _ hbegins => exact (hbegins.token_ne_fieldName htoken).elim
  | element _ hbegins => exact (hbegins.token_ne_fieldName htoken).elim

/-- Behind a name token the parser has a name. -/
theorem name_of_next (h : next p = .ok (some .fieldName) q) : ∃ s, q.name = some s := by
  obtain ⟨i, r, -, hadvance, rfl⟩ := next_sound h
  obtain ⟨s, hs⟩ := name_of_advance hadvance
  exact ⟨s, hs⟩

/-- A token whose event is at hand is shown with its contents. -/
theorem shows_of_next (h : next p = .ok (some e.token) q) (he : q.At e) : q.Shows e := by
  refine ⟨he.1, ?_⟩
  cases e with
  | name s =>
    obtain ⟨s', hname⟩ := name_of_next h
    have hevent : q.name.getD "" = s := Event.name.inj he.2
    rw [hname] at hevent ⊢
    exact congrArg some hevent
  | string s => exact he.stringText
  | number w => exact he.numberText
  | boolean b => exact he.booleanValue
  | _ => trivial

/-! ## Call after call -/

/-- The pull after `n` calls, those that fail included. -/
def moved (n : Nat) (p : Pull) : Pull := (fun p => Step.after (next p))^[n] p

@[simp] theorem moved_zero (p : Pull) : moved 0 p = p := rfl

theorem moved_succ_of_next {o : Option Token} (h : next p = .ok o q) (n : Nat) :
    moved (n + 1) p = moved n q := by
  rw [moved, Function.iterate_succ_apply, h]
  rfl

/-- The end stays the end. -/
theorem next_of_next_none (h : next p = .ok none q) : ∃ r, next q = .ok none r := by
  obtain ⟨i, r, -, hadvance, rfl⟩ := next_sound h
  obtain ⟨hfs, hdone, hrest⟩ := advance_none_sound hadvance
  cases hadvance.symm.trans (advance_none hfs hdone hrest)
  obtain ⟨r, hnext, -⟩ := next_none (p := { p with input := i, current := none }) hfs hdone
    (hrest ▸ Blanks.done)
  exact ⟨r, hnext⟩

/-- Behind the end of the text the parser stays at the end. -/
theorem next_moved_of_end (h : next p = .ok none q) (n : Nat) :
    Step.outcome (next (moved n p)) = .ok none := by
  induction n generalizing p q with
  | zero =>
    rw [moved_zero, h]
    rfl
  | succ n ih =>
    obtain ⟨r, hnext⟩ := next_of_next_none h
    rw [moved_succ_of_next h]
    exact ih hnext

namespace Runs

/-- Along a run that ends the text, the `n`-th call gives the token of the `n`-th event, and behind
the run none. -/
theorem next_moved (h : Runs p es q) (hend : next q = .ok none r) (n : Nat) :
    Step.outcome (next (moved n p)) = .ok (es[n]?.map Event.token) := by
  induction h generalizing n with
  | nil => exact next_moved_of_end hend n
  | cons hnext _ _ ih =>
    cases n with
    | zero =>
      rw [moved_zero, hnext]
      rfl
    | succ n =>
      rw [moved_succ_of_next hnext]
      exact ih hend n

/-- Along a run each event is shown when its call has been made. -/
theorem shows_moved (h : Runs p es q) {n : Nat} (he : es[n]? = some e) :
    (moved (n + 1) p).Shows e := by
  induction h generalizing n with
  | nil => cases he
  | cons hnext hat _ ih =>
    rw [moved_succ_of_next hnext]
    cases n with
    | zero =>
      cases he
      exact shows_of_next hnext hat
    | succ n => exact ih he

end Runs

/-- On a JSON text no call fails: the calls give the tokens of the tree in order, each with its
contents, and from then on the end. -/
theorem next_moved_of_text (h : Text .standard t s.toList) (n : Nat) :
    Step.outcome (next (moved n (ofText s))) = .ok (t.events[n]?.map Event.token) ∧
      ∀ e, t.events[n]? = some e → (moved (n + 1) (ofText s)).Shows e := by
  obtain ⟨q, r, hruns, hend⟩ := runs_text h
  exact ⟨hruns.next_moved hend n, fun e he => hruns.shows_moved he⟩

/-- A text with blanks, a pair of surrogates and other escapes, and a number in all its parts. -/
def mixedText : String := "[ \"\\uD83d\\uDe00\\n\\u00E9\", \x7b\"k\" : -0.5E+1\x7d,\ttrue]"

def mixedTree : Tree :=
  .array [.string "😀\né", .object [("k", .number "-0.5E+1")], .bool true]

theorem text_mixedText : Text .standard mixedTree mixedText.toList := by
  have hchars {rest : List Char} : Chars .standard "😀\né".toList
      ('\\' :: 'u' :: 'D' :: '8' :: '3' :: 'd' :: '\\' :: 'u' :: 'D' :: 'e' :: '0' :: '0' ::
        '\\' :: 'n' :: '\\' :: 'u' :: '0' :: '0' :: 'E' :: '9' :: '"' :: rest) rest := by
    have hhigh : CodeUnit .standard 0xd83d ['D', '8', '3', 'd'] :=
      .digits (w := 13) (x := 8) (y := 3) (z := 13) rfl rfl rfl rfl
    have hlow : CodeUnit .standard 0xde00 ['D', 'e', '0', '0'] :=
      .digits (w := 13) (x := 14) (y := 0) (z := 0) rfl rfl rfl rfl
    have hunit : CodeUnit .standard 0xe9 ['0', '0', 'E', '9'] :=
      .digits (w := 0) (x := 0) (y := 14) (z := 9) rfl rfl rfl rfl
    have hnewline : Character .standard '\n' ['\\', 'n'] := .short rfl
    exact .cons (.pair hhigh hlow rfl rfl) <| .cons hnewline <|
      .cons (.unit hunit (by decide)) .close
  have hkey {rest : List Char} : Chars .standard "k".toList ('k' :: '"' :: rest) rest :=
    .cons (.raw (by decide) (by decide) (by decide)) .close
  have hnumber : Number ['-', '0', '.', '5', 'E', '+', '1'] := by
    have hdigits (d : Char) (h : d.isDigit) : Digits [d] :=
      ⟨List.cons_ne_nil d [], by simpa using h⟩
    exact .mk (.some (List.mem_singleton_self _)) ⟨hdigits '0' rfl, fun _ => rfl⟩
      (.some (hdigits '5' rfl)) (.some (by decide) (.some (by decide)) (hdigits '1' rfl))
  have hblank {cs : List Char} : Blanks (' ' :: cs) cs := .skip (by decide) .done
  have htab {cs : List Char} : Blanks ('\t' :: cs) cs := .skip (by decide) .done
  have hobject {rest : List Char} : Members .standard [("k", .number "-0.5E+1")]
      ('"' :: 'k' :: '"' :: ' ' :: ':' :: ' ' :: '-' :: '0' :: '.' :: '5' :: 'E' :: '+' :: '1' ::
        '\x7d' :: rest) rest :=
    .last (.mk .done hkey hblank hblank) (.number hnumber) .done
  exact .mk .done (.array (.cons hblank (.string hchars) .done
    (.cons hblank (.object hobject) .done (.last htab .true .done)))) .done

theorem next_moved_of_mixedText :
    Text .standard mixedTree mixedText.toList ∧
      Step.outcome (next (moved 1 (ofText mixedText))) = .ok (some .string) ∧
      (moved 2 (ofText mixedText)).stringText = .ok "😀\né" ∧
      Step.outcome (next (moved 8 (ofText mixedText))) = .ok none := by
  have hfirst := next_moved_of_text text_mixedText 1
  exact ⟨text_mixedText, hfirst.1, (hfirst.2 (.string "😀\né") rfl).2,
    (next_moved_of_text text_mixedText 8).1⟩

end Wireform.Json.Pull
