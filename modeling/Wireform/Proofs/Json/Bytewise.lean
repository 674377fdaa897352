import Wireform.Json.Scanner
import Wireform.Proofs.Json.Scanning
import Wireform.Proofs.Json.Skipping
import Wireform.Proofs.Yields

/-!
# Bytes beside characters

A scanner of the bytes of a text goes beside a pull that reads its characters: every move of the one
is followed by the same move of the other (`follows_next`, `follows_skipChildren`), and after any
calls both stand at the same place and answer the same. A pull takes whole characters, so the
scanner never stops within one, and what it cuts out of the bytes are texts (`boundary_called`).
-/

namespace Wireform.Json.Scanner

open Step

variable {α β : Type} {cs : List Char} {b : UInt8} {c : Char} {s : Scanner} {p : Pull}
  {P : Nat → Input → Prop} {Q : α → β → Nat → Input → Prop}

/-- A scanner of the bytes of `cs` and a pull that hold the same and stand at places that `P`
relates. -/
structure Beside (cs : List Char) (P : Nat → Input → Prop) (s : Scanner) (p : Pull) : Prop where
  data : s.data = (stored cs).toArray
  frames : s.frames = p.frames
  current : s.current = p.current
  name : s.name = p.name
  text : s.text = p.text
  boolean : s.boolean = p.boolean
  done : s.done = p.done
  place : P s.position p.input

/-- Parsers beside each other stay so under a weaker relation of positions. -/
theorem Beside.mono {P' : Nat → Input → Prop} (h : Beside cs P s p)
    (hP : ∀ x i, P x i → P' x i) : Beside cs P' s p :=
  { h with place := hP _ _ h.place }

/-- From places that `P` relates the two moves do the same and come to results and places that `Q`
relates. If they fail they name the same place, which lies in the text. -/
def Follows (cs : List Char) (P : Nat → Input → Prop) (Q : α → β → Nat → Input → Prop)
    (x : Move α) (y : Pull.Move β) : Prop :=
  Tracks (Beside cs P) (fun e f => Beside cs (Stops cs e f)) (fun a b => Beside cs (Q a b)) x y

/-! ## Moves -/

/-- Lexers that track each other make the parsers follow. -/
theorem follows_lex {x : Array UInt8 → Scan α} {y : Lex β}
    (h : Tracks P (Stops cs) Q (x (stored cs).toArray) y) :
    Follows cs P Q (lex x) (Pull.lex y) := by
  intro s p hs
  have hmeets := h hs.place
  rw [← hs.data] at hmeets
  rw [lex, Pull.lex, onPart, onPart]
  revert hmeets
  generalize x s.data s.position = r, y p.input = r'
  intro hmeets
  cases hmeets with
  | ok hplace => exact .ok { hs with place := hplace }
  | error hplace => exact .error { hs with place := hplace }

theorem follows_pure {a : α} {b : β} (h : ∀ x i, P x i → Q a b x i) :
    Follows cs P Q (pure a) (pure b) := .pure fun _ _ hs => hs.mono h

theorem follows_return (t : α) : Follows cs (On cs) (Step.Same (On cs)) (pure t) (pure t) :=
  follows_pure fun _ _ h => ⟨rfl, h⟩

theorem follows_push (f : Frame) : Follows cs P (fun _ _ => P) (push f) (Pull.push f) :=
  fun _ _ hs => .ok { hs with frames := congrArg (f :: ·) hs.frames }

theorem follows_setTop (f : Frame) : Follows cs P (fun _ _ => P) (setTop f) (Pull.setTop f) := by
  intro s p hs
  have hframes := hs.frames
  refine .ok { hs with frames := ?_ }
  dsimp only
  generalize s.frames = fs at hframes ⊢
  subst hframes
  cases p.frames <;> rfl

theorem follows_finish : Follows cs P (fun _ _ => P) finish Pull.finish := by
  intro s p hs
  refine .ok { hs with done := ?_ }
  simp only [hs.frames, hs.done]

theorem follows_close : Follows cs P (fun _ _ => P) close Pull.close := by
  refine Tracks.bind (Q := fun _ _ => Beside cs P) (fun s p hs => ?_) fun _ _ => follows_finish
  exact .ok { hs with frames := congrArg List.tail hs.frames }

/-- A value is complete. -/
theorem follows_finished (t : Token) :
    Follows cs (On cs) (Step.Same (On cs)) (do finish; return t) (do Pull.finish; return t) :=
  follows_finish.bind fun _ _ => follows_return t

/-- What has been seen of the next character. -/
def Seen (cs : List Char) (b : UInt8) (c : Char) (x : Nat) (i : Input) : Prop :=
  Leads b c ∧ i.rest.head? = some c ∧ On cs x i

theorem follows_peek : Follows cs (On cs) (Seen cs) (lex Scan.peek) (Pull.lex Lex.peek) :=
  follows_lex Scan.tracks_peek

theorem Seen.on {x : Nat} {i : Input} (h : Seen cs b c x i) : On cs x i := h.2.2

theorem follows_skip (hc : c.toNat < 128) :
    Follows cs (Seen cs b c) (fun _ _ => On cs) (lex fun _ => Scan.skip 1)
      (Pull.lex (Lex.skip 1)) :=
  follows_lex fun _ _ h => Scan.tracks_skip hc h.2

theorem follows_literal {word : List Char} (hascii : Ascii word) :
    Follows cs (Seen cs b c) (fun _ _ => On cs) (lex fun data => Scan.literal data word)
      (Pull.lex (Lex.literal word)) :=
  follows_lex fun _ _ h => Scan.tracks_literal hascii h.on

/-- The byte-level parser reads a value as the other does. -/
theorem follows_value : Follows cs (On cs) (Step.Same (On cs)) value Pull.value := by
  refine Tracks.bind follows_peek fun b c => ?_
  have heq (d : Char) (hd : d.toNat < 128) : ∀ s p, Beside cs (Seen cs b c) s p →
      (b = d.toUInt8 ↔ c = d) := fun _ _ hs => hs.place.1.eq_iff hd
  refine .ite (heq '\x7b' (by decide)) (fun _ hc => ?_) fun _ _ => ?_
  · refine (follows_skip (by rw [hc]; decide)).bind fun _ _ => (follows_push _).bind fun _ _ => ?_
    exact follows_return _
  refine .ite (heq '[' (by decide)) (fun _ hc => ?_) fun _ _ => ?_
  · refine (follows_skip (by rw [hc]; decide)).bind fun _ _ => (follows_push _).bind fun _ _ => ?_
    exact follows_return _
  refine .ite (heq '"' (by decide)) (fun _ hc => ?_) fun _ _ => ?_
  · refine (follows_skip (by rw [hc]; decide)).bind fun _ _ => ?_
    refine (follows_lex Scan.tracks_quoted).bind fun t u => ?_
    intro s p hs
    obtain ⟨rfl, hon⟩ := hs.place
    exact follows_finished .string { hs with text := rfl, place := hon }
  refine .ite (heq 't' (by decide)) (fun _ _ => ?_) fun _ _ => ?_
  · refine (follows_literal (by decide)).bind fun _ _ s p hs => ?_
    exact follows_finished .boolean { hs with boolean := rfl }
  refine .ite (heq 'f' (by decide)) (fun _ _ => ?_) fun _ _ => ?_
  · refine (follows_literal (by decide)).bind fun _ _ s p hs => ?_
    exact follows_finished .boolean { hs with boolean := rfl }
  refine .ite (heq 'n' (by decide)) (fun _ _ => ?_) fun _ _ => ?_
  · exact (follows_literal (by decide)).bind fun _ _ => follows_finished .null
  refine .ite (fun s p hs => ?_) (fun _ _ => ?_) fun _ _ => ?_
  · rw [heq '-' (by decide) s p hs, hs.place.1.isDigit]
  · refine Tracks.bind (follows_lex fun _ _ h => Scan.tracks_number h.on) fun t u => ?_
    intro s p hs
    obtain ⟨rfl, hon⟩ := hs.place
    exact follows_finished .number { hs with text := rfl, place := hon }
  · exact follows_lex fun _ _ h => Scan.tracks_invalid h.on

/-- The byte-level parser reads a separator as the other does. -/
theorem follows_separator (first : Bool) :
    Follows cs (On cs) (fun _ _ => On cs) (separator first) (Pull.separator first) := by
  cases first with
  | true => exact follows_pure fun _ _ h => h
  | false =>
    exact (follows_lex (Scan.tracks_expect (by decide))).bind fun _ _ =>
      follows_lex Scan.tracks_blanks

/-- The byte-level parser reads a name as the other does. -/
theorem follows_member (first : Bool) :
    Follows cs (On cs) (Step.Same (On cs)) (member first) (Pull.member first) := by
  refine Tracks.bind follows_peek fun b c => ?_
  refine .ite (fun s p hs => hs.place.1.eq_iff (by decide)) (fun _ hc => ?_) fun _ _ => ?_
  · refine (follows_skip (by rw [hc]; decide)).bind fun _ _ => follows_close.bind fun _ _ => ?_
    exact follows_return _
  · refine Tracks.bind (Q := fun _ _ => Beside cs (On cs)) (fun s p hs => ?_) fun _ _ => ?_
    · exact follows_separator first (hs.mono fun _ _ => Seen.on)
    refine (follows_lex (Scan.tracks_expect (by decide))).bind fun _ _ => ?_
    refine (follows_lex Scan.tracks_quoted).bind fun t u => ?_
    intro s p hs
    obtain ⟨rfl, hon⟩ := hs.place
    have hrest : Follows cs (On cs) (Step.Same (On cs)) (do setTop .value; return Token.fieldName)
        (do Pull.setTop .value; return Token.fieldName) :=
      (follows_setTop _).bind fun _ _ => follows_return _
    exact hrest { hs with name := rfl, place := hon }

theorem follows_memberValue :
    Follows cs (On cs) (Step.Same (On cs)) memberValue Pull.memberValue :=
  (follows_lex (Scan.tracks_expect (by decide))).bind fun _ _ =>
    (follows_lex Scan.tracks_blanks).bind fun _ _ =>
      (follows_setTop _).bind fun _ _ => follows_value

/-- The byte-level parser reads an element as the other does. -/
theorem follows_element (first : Bool) :
    Follows cs (On cs) (Step.Same (On cs)) (element first) (Pull.element first) := by
  refine Tracks.bind follows_peek fun b c => ?_
  refine .ite (fun s p hs => hs.place.1.eq_iff (by decide)) (fun _ hc => ?_) fun _ _ => ?_
  · refine (follows_skip (by rw [hc]; decide)).bind fun _ _ => follows_close.bind fun _ _ => ?_
    exact follows_return _
  · intro s p hs
    refine Tracks.bind (follows_separator first) (fun _ _ => ?_) (hs.mono fun _ _ => Seen.on)
    exact (follows_setTop _).bind fun _ _ => follows_value

theorem follows_some {x : Move α} {y : Pull.Move α}
    (h : Follows cs (On cs) (Step.Same (On cs)) x y) :
    Follows cs (On cs) (Step.Same (On cs)) (some <$> x) (some <$> y) :=
  Tracks.map h fun _ _ _ _ hs => hs.mono fun _ _ h => ⟨congrArg some h.1, h.2⟩

theorem follows_outermost :
    Follows cs (On cs) (Step.Same (On cs)) outermost Pull.outermost := by
  intro s p hs
  have hsize := hs.place.lt_size_iff
  rw [← hs.data] at hsize
  simp only [outermost, Pull.outermost, Step.bind_apply, Step.get_apply, hs.done]
  split
  · by_cases hrest : p.input.rest.isEmpty
    · rw [if_neg (mt hsize.1 (not_not_intro hrest)), if_pos hrest]
      exact follows_return none hs
    · rw [if_pos (hsize.2 hrest), if_neg hrest]
      exact .error { hs with place := hs.place.stops_here .trailingData fun _ => rfl }
  · exact follows_some follows_value hs

theorem follows_advance : Follows cs (On cs) (Step.Same (On cs)) advance Pull.advance := by
  intro s p hs
  simp only [advance, Pull.advance, Step.bind_apply, Step.get_apply, hs.frames]
  rcases p.frames with _ | ⟨first | _ | first, outer⟩
  · exact follows_outermost hs
  · exact follows_some (follows_member first) hs
  · exact follows_some follows_memberValue hs
  · exact follows_some (follows_element first) hs

/-- The byte-level parser moves as the other does, to the same token. -/
theorem follows_next : Follows cs (On cs) (Step.Same (On cs)) next Pull.next := by
  refine (follows_lex Scan.tracks_blanks).bind fun _ _ => ?_
  refine follows_advance.bind fun t u => ?_
  intro s p hs
  obtain ⟨rfl, hon⟩ := hs.place
  exact .ok { hs with current := rfl, place := ⟨rfl, hon⟩ }

/-! ## Skipping -/

/-- Neither side runs out of its budget, though one counts bytes and the other characters. -/
theorem meets_skipOpen {budget budget' opened : Nat} (hs : Beside cs (On cs) s p)
    (hbytes : s.data.size - s.position < budget) (hchars : p.input.rest.length < budget') :
    Meets (fun e f => Beside cs (Stops cs e f)) (fun _ _ => Beside cs (On cs))
      (skipOpen budget opened s) (Pull.skipOpen budget' opened p) := by
  induction budget generalizing budget' opened s p with
  | zero => exact absurd hbytes (Nat.not_lt_zero _)
  | succ budget ih =>
    obtain ⟨budget', rfl⟩ : ∃ k, budget' = k + 1 := ⟨budget' - 1, by omega⟩
    refine (follows_next hs).remember.bind fun t t' s' q h => ?_
    obtain ⟨h, hpull⟩ := h
    obtain ⟨ht, hon⟩ := h.place
    subst ht
    have hs' : Beside cs (On cs) s' q := { h with place := hon }
    cases t with
    | none =>
      exact .error { hs' with place := hon.stops_here .unexpectedEnd fun _ => rfl }
    | some t =>
      obtain ⟨e, -, hruns, -⟩ := Pull.exists_at_of_next hpull
      have hle := hruns.length_le
      rw [List.length_singleton] at hle
      have hlt := hs.place.lt hs'.place (by omega)
      have hsize := hs.place.lt_size_iff.2 (by
        rw [List.isEmpty_iff, ← List.length_eq_zero_iff]
        omega)
      rw [← hs.data] at hsize
      have hbytes' : s'.data.size - s'.position < budget := by
        rw [hs'.data, ← hs.data]
        omega
      have hchars' : q.input.rest.length < budget' := by omega
      dsimp only
      split
      · exact ih hs' hbytes' hchars'
      split
      · cases opened with
        | zero => exact .ok hs'
        | succ opened => exact ih hs' hbytes' hchars'
      · exact ih hs' hbytes' hchars'

/-- The byte-level parser skips children as the other does. -/
theorem follows_skipChildren :
    Follows cs (On cs) (fun _ _ => On cs) skipChildren Pull.skipChildren := by
  intro s p hs
  simp only [skipChildren, Pull.skipChildren, Step.bind_apply, Step.get_apply, hs.current]
  split
  · exact meets_skipOpen hs (Nat.lt_succ_self _) (Nat.lt_succ_self _)
  · exact .ok hs

/-! ## Calls -/

/-- A question about the latest token. -/
inductive Content where
  | text | numberText | long | int | boolean
  deriving DecidableEq, Repr

/-- What a caller is given. -/
inductive Answer where
  | token (t : Option Token)
  | skipped
  | text (s : String)
  | long (n : Int64)
  | int (n : Int32)
  | boolean (b : Bool)
  deriving DecidableEq, Repr

/-- Asks a pull for the content; only the kind that is current is given. -/
def Content.ask : Content → Pull → Except DocumentError Answer
  | text, p => .text <$> p.stringText
  | numberText, p => .text <$> p.numberText
  | long, p => .long <$> p.long
  | int, p => .int <$> p.int
  | boolean, p => .boolean <$> p.booleanValue

/-- What a caller can ask of a reader of tokens. -/
inductive Call where
  | next
  | skipChildren
  | content (k : Content)
  deriving DecidableEq, Repr

namespace Call

/-- What a scanner answers to a call. -/
def run : Call → Move Answer
  | next => .token <$> Scanner.next
  | skipChildren => (fun _ => .skipped) <$> Scanner.skipChildren
  | content k => do Step.ofExcept ((k.ask (← get).contents).mapError .document)

/-- The same call of a pull. -/
def pull : Call → Pull.Move Answer
  | next => .token <$> Pull.next
  | skipChildren => (fun _ => .skipped) <$> Pull.skipChildren
  | content k => do Step.ofExcept (k.ask (← get))

end Call

/-- The scanner after the calls, those that failed included. -/
def called (calls : List Call) (s : Scanner) : Scanner :=
  calls.foldl (fun s call => after (call.run s)) s

/-- The pull after the same calls. -/
def pulled (calls : List Call) (p : Pull) : Pull :=
  calls.foldl (fun p call => after (call.pull p)) p

theorem Beside.contents_eq (hs : Beside cs (On cs) s p) :
    s.contents = { p with input := ⟨p.position, []⟩ } := by
  obtain ⟨before, hat⟩ := hs.place
  rw [contents, Pull.position, hat.position, hs.frames, hs.current, hs.name, hs.text, hs.boolean,
    hs.done]

/-- Parsers beside each other have the same contents. -/
theorem Beside.ask (hs : Beside cs P s p) (k : Content) : k.ask s.contents = k.ask p := by
  cases k <;>
    simp only [Content.ask, Pull.stringText, Pull.numberText, Pull.long, Pull.int,
      Pull.booleanValue, Pull.require, contents, hs.current, hs.text, hs.boolean]

/-- A failure to answer names no place. -/
theorem yields_require (p : Pull) (t : Token) :
    Yields (fun _ => True) (fun f => f.offset? = none) (p.require t) := by
  unfold Pull.require
  split
  · trivial
  · rfl

theorem yields_numberText (p : Pull) :
    Yields (fun _ => True) (fun f => f.offset? = none) p.numberText :=
  (yields_require p _).bind fun _ _ => trivial

/-- No failure to give a content has an offset. -/
theorem yields_ask (k : Content) (p : Pull) :
    Yields (fun _ => True) (fun f => f.offset? = none) (k.ask p) := by
  cases k with
  | text | boolean =>
    refine Yields.map (P := fun _ => True) ?_ fun _ _ => trivial
    exact (yields_require p _).bind fun _ _ => trivial
  | numberText => exact (yields_numberText p).map fun _ _ => trivial
  | long | int =>
    refine Yields.map (P := fun _ => True) ?_ fun _ _ => trivial
    refine (yields_numberText p).bind fun _ _ => ?_
    split
    · trivial
    · rfl

/-- The byte-level parser answers any call as the other does. -/
theorem follows_run (call : Call) :
    Follows cs (On cs) (Step.Same (On cs)) call.run call.pull := by
  cases call with
  | next =>
    refine Tracks.map follows_next fun t u s p hs => hs.mono fun x i h => ?_
    exact ⟨congrArg Answer.token h.1, h.2⟩
  | skipChildren =>
    exact Tracks.map follows_skipChildren fun _ _ s p hs => hs.mono fun x i h => ⟨rfl, h⟩
  | content k =>
    intro s p hs
    simp only [Call.run, Call.pull, Step.bind_apply, Step.get_apply, hs.ask]
    cases hk : k.ask p with
    | ok a => exact .ok (hs.mono fun _ _ h => ⟨rfl, h⟩)
    | error f =>
      refine .error (hs.mono fun x i h => ⟨rfl, fun n hn => ?_, h⟩)
      rw [(yields_ask k p).error hk] at hn
      cases hn

/-- The parsers start beside each other. -/
theorem beside_ofText (t : String) :
    Beside t.toList (On t.toList) (ofText t) (Pull.ofText t) where
  data := by rw [ofText, stored_toList]
  frames := rfl
  current := rfl
  name := rfl
  text := rfl
  boolean := rfl
  done := rfl
  place := ⟨[], rfl, rfl, rfl⟩

/-- The parsers stay beside each other under any calls. -/
theorem beside_called (calls : List Call) (hs : Beside cs (On cs) s p) :
    Beside cs (On cs) (called calls s) (pulled calls p) := by
  induction calls generalizing s p with
  | nil => exact hs
  | cons call calls ih =>
    refine ih ((follows_run call hs).after (fun e f s p h => ?_) fun a b s p h => ?_)
    · exact h.mono fun _ _ h => h.2.2
    · exact h.mono fun _ _ h => h.2

/-- A call from where a scanner and a pull are beside each other. -/
theorem Beside.run (hs : Beside cs (On cs) s p) (call : Call) :
    (∀ start stop s', call.run s ≠ .error (.stray start stop) s') ∧
    (∀ f s', call.run s = .error (.document f) s' → ∀ n ∈ f.offset?, n ≤ Input.byteCount cs) ∧
    outcome (call.run s) = (outcome (call.pull p)).mapError .document := by
  have hrun := follows_run call hs
  revert hrun
  generalize call.run s = r, call.pull p = r'
  intro hrun
  cases hrun with
  | ok h =>
    obtain ⟨hab, -⟩ := h.place
    refine ⟨fun _ _ _ hr => ?_, fun _ _ hr => ?_, congrArg Except.ok hab⟩ <;> cases hr
  | error h =>
    obtain ⟨hef, hoffset, -⟩ := h.place
    subst hef
    refine ⟨fun _ _ _ hr => ?_, fun f s' hr => ?_, rfl⟩
    · injection hr with hr
      cases hr
    · injection hr with hr
      injection hr with hr
      rwa [← hr]

/-- Whatever has been called, a scanner rests between two characters of its text. No call cuts a
text out of bytes that are none or are not there, and the place that a failure names lies in the
text. It all goes as if the text were read by characters. -/
theorem boundary_called (t : String) (calls : List Call) :
    let s := called calls (ofText t)
    let p := pulled calls (Pull.ofText t)
    s.position ≤ t.utf8ByteSize ∧ String.Pos.Raw.IsValid t ⟨s.position⟩ ∧
    s.contents = { p with input := ⟨p.position, []⟩ } ∧
    ∀ call : Call,
      (∀ start stop s', call.run s ≠ .error (.stray start stop) s') ∧
      (∀ f s', call.run s = .error (.document f) s' → ∀ n ∈ f.offset?, n ≤ t.utf8ByteSize) ∧
      outcome (call.run s) = (outcome (call.pull p)).mapError .document := by
  intro s p
  have hs : Beside t.toList (On t.toList) s p := beside_called calls (beside_ofText t)
  have hvalid := hs.place.isValid
  refine ⟨hvalid.le_utf8ByteSize, hvalid, hs.contents_eq, fun call => ?_⟩
  rw [← byteCount_toList]
  exact hs.run call

end Wireform.Json.Scanner
