import Wireform.Json.Pull
import Wireform.Proofs.Json.Onward

/-!
# What a failed move keeps

A move of a pull changes what a caller can ask for only once nothing can fail any more. So a move
that fails, from whatever state, leaves the latest token with all its contents, as many objects and
arrays open as before, and a position that has not gone backwards (`answers_of_next_error`).
-/

namespace Wireform.Json.Pull

variable {p q r : Pull} {e : DocumentError} {α β : Type}

/-- Nothing has been forgotten on the way from the first pull to the second, and nothing told. What
the innermost object or array expects next may have changed. -/
structure Keeps (p q : Pull) : Prop where
  input : p.input.Onward q.input
  depth : q.frames.length = p.frames.length
  current : q.current = p.current
  name : q.name = p.name
  text : q.text = p.text
  boolean : q.boolean = p.boolean
  done : q.done = p.done

namespace Keeps

theorem refl (p : Pull) : p.Keeps p := ⟨.refl _, rfl, rfl, rfl, rfl, rfl, rfl⟩

theorem trans (h : p.Keeps q) (h' : q.Keeps r) : p.Keeps r where
  input := h.input.trans h'.input
  depth := h'.depth.trans h.depth
  current := h'.current.trans h.current
  name := h'.name.trans h.name
  text := h'.text.trans h.text
  boolean := h'.boolean.trans h.boolean
  done := h'.done.trans h.done

/-! ## Answers -/

theorem stringText (h : p.Keeps q) : q.stringText = p.stringText := by
  simp only [Pull.stringText, require, h.current, h.text]

theorem numberText (h : p.Keeps q) : q.numberText = p.numberText := by
  simp only [Pull.numberText, require, h.current, h.text]

theorem long (h : p.Keeps q) : q.long = p.long := by
  simp only [Pull.long, h.numberText]

theorem int (h : p.Keeps q) : q.int = p.int := by
  simp only [Pull.int, h.numberText]

theorem booleanValue (h : p.Keeps q) : q.booleanValue = p.booleanValue := by
  simp only [Pull.booleanValue, require, h.current, h.boolean]

end Keeps

/-! ## Moves that only take from the input -/

/-- The second pull is the first after it has taken characters off its input. -/
def Takes (p q : Pull) : Prop := ∃ i, p.input.Onward i ∧ q = { p with input := i }

namespace Takes

theorem refl (p : Pull) : p.Takes p := ⟨p.input, .refl _, rfl⟩

theorem trans (h : p.Takes q) (h' : q.Takes r) : p.Takes r := by
  obtain ⟨i, hi, rfl⟩ := h
  obtain ⟨j, hj, rfl⟩ := h'
  exact ⟨j, hi.trans hj, rfl⟩

theorem keeps (h : p.Takes q) : p.Keeps q := by
  obtain ⟨i, hi, rfl⟩ := h
  exact ⟨hi, rfl, rfl, rfl, rfl, rfl, rfl⟩

end Takes

/-- A lexer that moves onward takes input only. -/
theorem takes_lex {x : Lex α} (hx : x.Onward) : Step.Along Takes (lex x) := by
  intro p
  have h := hx p.input
  rw [lex, Step.onPart]
  cases hxp : x p.input with
  | ok a i | error e i =>
    rw [hxp] at h
    exact ⟨i, h, rfl⟩

theorem takes_separator (first : Bool) : Step.Along Takes (separator first) := by
  cases first with
  | true => exact .refl
  | false =>
    exact (takes_lex (Lex.onward_expect _)).bind (fun _ _ _ => .trans) fun _ =>
      takes_lex Lex.onward_blanks

/-- A value that cannot be read leaves no trace but what has been taken from the input. -/
theorem takes_value : Step.Safe Takes value := by
  refine (takes_lex Lex.onward_peek).bind_safe (fun _ _ _ => .trans) fun c => ?_
  have hskip := takes_lex (Lex.onward_skip 1)
  have hliteral (word : List Char) := takes_lex (Lex.onward_literal word)
  split
  · exact hskip.safe.bind_total fun _ _ => ⟨_, _, rfl⟩
  split
  · exact hskip.safe.bind_total fun _ _ => ⟨_, _, rfl⟩
  split
  · exact hskip.bind_safe (fun _ _ _ => .trans) fun _ =>
      (takes_lex Lex.onward_quoted).safe.bind_total fun _ _ => ⟨_, _, rfl⟩
  split
  · exact (hliteral _).safe.bind_total fun _ _ => ⟨_, _, rfl⟩
  split
  · exact (hliteral _).safe.bind_total fun _ _ => ⟨_, _, rfl⟩
  split
  · exact (hliteral _).safe.bind_total fun _ _ => ⟨_, _, rfl⟩
  split
  · exact (takes_lex Lex.onward_number).safe.bind_total fun _ _ => ⟨_, _, rfl⟩
  · exact (takes_lex Lex.onward_invalid).safe

/-- A name that fails takes input only. -/
theorem takes_member (first : Bool) : Step.Safe Takes (member first) := by
  refine (takes_lex Lex.onward_peek).bind_safe (fun _ _ _ => .trans) fun c => ?_
  split
  · exact (takes_lex (Lex.onward_skip 1)).safe.bind_total fun _ _ => ⟨_, _, rfl⟩
  · exact (takes_separator first).bind_safe (fun _ _ _ => .trans) fun _ =>
      (takes_lex (Lex.onward_expect _)).bind_safe (fun _ _ _ => .trans) fun _ =>
        (takes_lex Lex.onward_quoted).safe.bind_total fun _ _ => ⟨_, _, rfl⟩

/-! ## Quiet moves and safe moves -/

/-- The move keeps everything, also when it succeeds. -/
def Quiet (x : Move α) : Prop := Step.Along Keeps x

/-- The move keeps everything if it fails. -/
def Safe (x : Move α) : Prop := ∀ ⦃p : Pull⦄ ⦃e : DocumentError⦄ ⦃q : Pull⦄, x p = .error e q →
  p.Keeps q

/-- The move cannot fail. -/
def Total (x : Move α) : Prop := ∀ p : Pull, ∃ a q, x p = .ok a q

variable {x : Move α} {f : α → Move β}

theorem Quiet.safe (h : Quiet x) : Safe x := Step.Along.safe h

/-- A quiet move may stand in front of a safe one. -/
theorem Quiet.bind_safe (hx : Quiet x) (hf : ∀ a, Safe (f a)) : Safe (x >>= f) :=
  Step.Along.bind_safe hx (fun _ _ _ => Keeps.trans) hf

/-- Behind a safe move everything may change that cannot fail. -/
theorem Safe.bind_total (hx : Safe x) (hf : ∀ a, Total (f a)) : Safe (x >>= f) :=
  Step.Safe.bind_total hx hf

theorem Safe.map (hx : Safe x) (g : α → β) : Safe (g <$> x) := Step.Safe.map hx g

theorem quiet_lex {x : Lex α} (hx : x.Onward) : Quiet (lex x) :=
  (takes_lex hx).mono fun _ _ => Takes.keeps

theorem quiet_setTop (f : Frame) : Quiet (setTop f) := by
  rintro ⟨input, _ | ⟨top, outer⟩, current, name, text, boolean, done⟩ <;>
    exact ⟨.refl _, rfl, rfl, rfl, rfl, rfl, rfl⟩

theorem quiet_separator (first : Bool) : Quiet (separator first) :=
  (takes_separator first).mono fun _ _ => Takes.keeps

theorem safe_value : Safe value := takes_value.mono fun _ _ => Takes.keeps

theorem safe_member (first : Bool) : Safe (member first) :=
  (takes_member first).mono fun _ _ => Takes.keeps

theorem safe_memberValue : Safe memberValue :=
  (quiet_lex (Lex.onward_expect _)).bind_safe fun _ =>
    (quiet_lex Lex.onward_blanks).bind_safe fun _ =>
      (quiet_setTop _).bind_safe fun _ => safe_value

theorem safe_element (first : Bool) : Safe (element first) := by
  refine (quiet_lex Lex.onward_peek).bind_safe fun c => ?_
  split
  · exact (quiet_lex (Lex.onward_skip 1)).safe.bind_total fun _ _ => ⟨_, _, rfl⟩
  · exact (quiet_separator first).bind_safe fun _ => (quiet_setTop _).bind_safe fun _ => safe_value

theorem quiet_get : Quiet get := fun p => .refl p

theorem safe_outermost : Safe outermost := by
  refine quiet_get.bind_safe fun p => ?_
  split
  · split
    · exact Quiet.safe fun q => .refl q
    · exact Quiet.safe fun q => .refl q
  · exact safe_value.map some

theorem safe_advance : Safe advance := by
  refine quiet_get.bind_safe fun p => ?_
  split
  · exact safe_outermost
  · exact (safe_member _).map some
  · exact safe_memberValue.map some
  · exact (safe_element _).map some

/-- A move that fails keeps everything but the position and the innermost frame. -/
theorem safe_next : Safe next :=
  (quiet_lex Lex.onward_blanks).bind_safe fun _ =>
    safe_advance.bind_total fun _ _ => ⟨_, _, rfl⟩

/-- Where there is no next token, everything is answered as before the call, as many objects and
arrays are open, and the position has not gone backwards. -/
theorem answers_of_next_error (h : next p = .error e q) :
    q.current = p.current ∧ q.name = p.name ∧
    (q.stringText = p.stringText ∧ q.numberText = p.numberText ∧ q.long = p.long ∧ q.int = p.int ∧
      q.booleanValue = p.booleanValue) ∧
    q.frames.length = p.frames.length ∧ q.done = p.done ∧ p.position ≤ q.position := by
  have hkeeps := safe_next h
  exact ⟨hkeeps.current, hkeeps.name,
    ⟨hkeeps.stringText, hkeeps.numberText, hkeeps.long, hkeeps.int, hkeeps.booleanValue⟩,
    hkeeps.depth, hkeeps.done, hkeeps.input.position_le⟩

/-- The second element is no value. The comma in front of it has been taken, but the number before
it is still current. -/
theorem answers_of_next_error_second :
    let p := Step.after (next (Step.after (next (ofText "[1,x]"))))
    p.numberText = .ok "1" ∧ ∃ q, next p = .error (.invalid 3) q ∧ q.numberText = .ok "1" := by
  intro p
  have hp : p.numberText = .ok "1" := rfl
  obtain ⟨q, hnext⟩ : ∃ q, next p = .error (.invalid 3) q := ⟨_, rfl⟩
  obtain ⟨-, -, ⟨-, hnumber, -⟩, -⟩ := answers_of_next_error hnext
  exact ⟨hp, q, hnext, hnumber.trans hp⟩

end Wireform.Json.Pull
