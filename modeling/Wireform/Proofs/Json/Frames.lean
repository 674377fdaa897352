import Wireform.Proofs.Json.Keeping
import Wireform.Proofs.Json.Skipping

/-!
# What is open

The events that a pull has read tell which objects and arrays are open in it, and what the innermost
of them goes on with (`Runs.frames_eq`); a whole value leaves open what was open around it. A call
that fails changes at most what the innermost expects (`frames_of_next_error`). What is open decides
in turn what the next call can give: it fails, or gives one of the tokens that may stand there
(`InObject.expects`, `InArray.expects`, `expects_value`).
-/

namespace Wireform.Json

/-- The token is the first of a value. -/
def Token.begins (t : Token) : Bool := !t.closes && t ≠ .fieldName

namespace Pull

open Grammar

variable {d : Dialect} {p q : Pull} {e : Event} {es : List Event} {t : Tree} {f : DocumentError}
  {fs fs' : List Frame} {cs rest : List Char} {first : Bool} {o : Option Token}

/-! ## Frames after an event -/

/-- What is open, and goes on with its next member or element, once a value has begun. -/
def settle : List Frame → List Frame
  | .value :: fs => .member false :: fs
  | .element _ :: fs => .element false :: fs
  | fs => fs

/-- What is open after an event. -/
def framesAfter (fs : List Frame) : Event → List Frame
  | .startObject => .member true :: settle fs
  | .startArray => .element true :: settle fs
  | .endObject | .endArray => fs.tail
  | .name _ => .value :: fs.tail
  | .null | .boolean _ | .number _ | .string _ => settle fs

theorem Begins.frames_eq {gs : List Frame} (h : Begins d gs cs e fs' rest) (hgs : gs = settle fs) :
    fs' = framesAfter fs e := by
  cases h <;> rw [framesAfter, ← hgs]

theorem Begins.begins (h : Begins d fs cs e fs' rest) : e.token.begins := by
  cases h <;> rfl

/-- A move changes the open frames by its event alone. -/
theorem Moves.frames_eq (h : Moves d fs cs e fs' rest) : fs' = framesAfter fs e := by
  cases h with
  | endObject | endArray | name => rfl
  | outermost hbegins | value _ hbegins | element _ hbegins => exact hbegins.frames_eq rfl

/-- A run changes the open frames by its events alone. -/
theorem Runs.frames_eq (h : Runs p es q) : q.frames = es.foldl framesAfter p.frames := by
  induction h with
  | nil => rfl
  | cons hnext he _ ih =>
    obtain ⟨cs, hmoves⟩ := moves_of_run (.one hnext he)
    rw [ih, hmoves.frames_eq, List.foldl_cons]

mutual

/-- A value that is complete has changed nothing but that it is there. -/
theorem foldl_events : (t : Tree) → (fs : List Frame) → t.events.foldl framesAfter fs = settle fs
  | .null, _ | .bool _, _ | .number _, _ | .string _, _ => rfl
  | .array items, fs => by
    obtain ⟨first, hitems⟩ := foldl_itemEvents items true (settle fs)
    have hstart : framesAfter fs .startArray = .element true :: settle fs := rfl
    rw [Tree.events, List.cons_append, List.foldl_cons, List.foldl_append, hstart, hitems]
    rfl
  | .object members, fs => by
    obtain ⟨first, hmembers⟩ := foldl_memberEvents members true (settle fs)
    have hstart : framesAfter fs .startObject = .member true :: settle fs := rfl
    rw [Tree.events, List.cons_append, List.foldl_cons, List.foldl_append, hstart, hmembers]
    rfl

/-- The events of items leave their array open. -/
theorem foldl_itemEvents : (items : List Tree) → (first : Bool) → (fs : List Frame) →
    ∃ first', (Tree.itemEvents items).foldl framesAfter (.element first :: fs) =
      .element first' :: fs
  | [], first, _ => ⟨first, rfl⟩
  | t :: items, first, fs => by
    rw [Tree.itemEvents, List.foldl_append, foldl_events t]
    exact foldl_itemEvents items false fs

/-- The events of members leave their object open. -/
theorem foldl_memberEvents : (members : List (String × Tree)) → (first : Bool) →
    (fs : List Frame) → ∃ first',
      (Tree.memberEvents members).foldl framesAfter (.member first :: fs) = .member first' :: fs
  | [], first, _ => ⟨first, rfl⟩
  | (name, t) :: members, first, fs => by
    rw [Tree.memberEvents, List.cons_append, List.foldl_cons, List.foldl_append, foldl_events t]
    exact foldl_memberEvents members false fs

end

/-- The run over a tree leaves the frames that were open before. -/
theorem Runs.frames_of_tree (h : Runs p t.events q) : q.frames = settle p.frames := by
  rw [h.frames_eq, foldl_events]

/-! ## Frames after a failure -/

theorem Takes.frames_eq (h : p.Takes q) : q.frames = p.frames := by
  obtain ⟨i, -, rfl⟩ := h
  rfl

theorem frames_of_memberValue_error (hfs : p.frames = .value :: fs)
    (h : memberValue p = .error f q) : q.frames = p.frames ∨ q.frames = .member false :: fs := by
  have hblanks := takes_lex Lex.onward_blanks
  obtain hexpect | ⟨_, p₁, hexpect, h⟩ := Step.bind_eq_error.1 h
  · exact .inl ((takes_lex (Lex.onward_expect ':')).error hexpect).frames_eq
  have hp₁ := ((takes_lex (Lex.onward_expect ':')).ok hexpect).frames_eq
  obtain hskip | ⟨_, p₂, hskip, h⟩ := Step.bind_eq_error.1 h
  · exact .inl ((hblanks.error hskip).frames_eq.trans hp₁)
  have hp₂ := (hblanks.ok hskip).frames_eq.trans hp₁
  obtain hset | ⟨_, p₃, hset, hvalue⟩ := Step.bind_eq_error.1 h
  · cases hset
  · cases setTop_sound hset (hp₂.trans hfs)
    exact .inr (takes_value hvalue).frames_eq

theorem frames_of_element_error (hfs : p.frames = .element first :: fs)
    (h : element first p = .error f q) :
    q.frames = p.frames ∨ q.frames = .element false :: fs := by
  obtain hpeek | ⟨c, p₁, hpeek, h⟩ := Step.bind_eq_error.1 h
  · exact .inl ((takes_lex Lex.onward_peek).error hpeek).frames_eq
  have hp₁ := ((takes_lex Lex.onward_peek).ok hpeek).frames_eq
  split at h
  · obtain hskip | ⟨_, p₂, -, hclose⟩ := Step.bind_eq_error.1 h
    · exact .inl (((takes_lex (Lex.onward_skip 1)).error hskip).frames_eq.trans hp₁)
    · cases hclose
  · obtain hsep | ⟨_, p₂, hsep, h⟩ := Step.bind_eq_error.1 h
    · exact .inl (((takes_separator first).error hsep).frames_eq.trans hp₁)
    have hp₂ := ((takes_separator first).ok hsep).frames_eq.trans hp₁
    obtain hset | ⟨_, p₃, hset, hvalue⟩ := Step.bind_eq_error.1 h
    · cases hset
    · cases setTop_sound hset (hp₂.trans hfs)
      exact .inr (takes_value hvalue).frames_eq

/-- A failing move leaves the open frames as they were, or with the innermost one settled. -/
theorem frames_of_advance_error (h : advance p = .error f q) :
    q.frames = p.frames ∨ q.frames = settle p.frames := by
  cases hfs : p.frames with
  | nil =>
    rw [advance_outermost hfs] at h
    obtain ⟨⟨⟩⟩ | ⟨_, _, hget, hif⟩ := Step.bind_eq_error.1 h
    cases hget
    split at hif
    · split at hif <;> cases hif
      exact .inl hfs
    · exact .inl ((takes_value (Step.map_eq_error.1 hif)).frames_eq.trans hfs)
  | cons top fs =>
    cases top with
    | member first =>
      rw [advance_member hfs] at h
      exact .inl ((takes_member first (Step.map_eq_error.1 h)).frames_eq.trans hfs)
    | value =>
      rw [advance_value hfs] at h
      rw [← hfs]
      refine (frames_of_memberValue_error hfs (Step.map_eq_error.1 h)).imp_right fun hq => ?_
      rw [hq, hfs]
      rfl
    | element first =>
      rw [advance_element hfs] at h
      rw [← hfs]
      refine (frames_of_element_error hfs (Step.map_eq_error.1 h)).imp_right fun hq => ?_
      rw [hq, hfs]
      rfl

/-- A call that fails may have settled what the innermost object or array goes on with, because the
colon or comma in front of a value is taken first. -/
theorem frames_of_next_error (h : next p = .error f q) :
    q.frames = p.frames ∨ q.frames = settle p.frames := by
  have hblanks := takes_lex Lex.onward_blanks
  obtain hskip | ⟨_, p₁, hskip, h⟩ := Step.bind_eq_error.1 h
  · exact .inl (hblanks.error hskip).frames_eq
  rw [← (hblanks.ok hskip).frames_eq]
  obtain hadvance | ⟨_, _, -, hmodify⟩ := Step.bind_eq_error.1 h
  · exact frames_of_advance_error hadvance
  · cases hmodify

/-! ## What the next call can give -/

/-- The next call fails, or it gives a token, and one of those that are allowed. -/
def Expects (p : Pull) (allowed : Token → Bool) : Prop :=
  ∀ o q, next p = .ok o q → ∃ t, o = some t ∧ allowed t = true

theorem expects_of_moves {allowed : Token → Bool} (hfs : p.frames ≠ [])
    (h : ∀ cs e fs' rest, Moves .signed p.frames cs e fs' rest → allowed e.token = true) :
    p.Expects allowed := by
  intro o q hnext
  cases o with
  | none => exact (hfs (next_none_sound hnext).1).elim
  | some t =>
    obtain ⟨e, cs, rfl, -, hmoves, -, -⟩ := moves_of_next hnext
    exact ⟨e.token, rfl, h _ _ _ _ hmoves⟩

/-- What is open innermost is an object, and it goes on with a member or its end. -/
def InObject (p : Pull) : Prop := ∃ first fs, p.frames = .member first :: fs

/-- What is open innermost is an array, and it goes on with an element or its end. -/
def InArray (p : Pull) : Prop := ∃ first fs, p.frames = .element first :: fs

/-- In an object come names, and its end. -/
theorem InObject.expects (h : p.InObject) :
    p.Expects fun t => t = .fieldName || t = .endObject := by
  obtain ⟨first, fs, hfs⟩ := h
  refine expects_of_moves (by rw [hfs]; exact List.cons_ne_nil _ _) fun cs e fs' rest h => ?_
  rw [hfs] at h
  cases h <;> rfl

/-- In an array come values, and its end. -/
theorem InArray.expects (h : p.InArray) : p.Expects fun t => t.begins || t = .endArray := by
  obtain ⟨first, fs, hfs⟩ := h
  refine expects_of_moves (by rw [hfs]; exact List.cons_ne_nil _ _) fun cs e fs' rest h => ?_
  rw [hfs] at h
  cases h with
  | endArray => rfl
  | element _ hbegins => rw [hbegins.begins, Bool.true_or]

/-- Behind a name comes a value. -/
theorem expects_value (hfs : p.frames = .value :: fs) : p.Expects Token.begins := by
  refine expects_of_moves (by rw [hfs]; exact List.cons_ne_nil _ _) fun cs e fs' rest h => ?_
  rw [hfs] at h
  cases h with
  | value _ hbegins => exact hbegins.begins

/-- After a member its object goes on with the next. -/
theorem InObject.member {name : String} (hp : p.InObject)
    (h : Runs p (.name name :: t.events) q) : q.InObject := by
  obtain ⟨first, fs, hfs⟩ := hp
  refine ⟨false, fs, ?_⟩
  rw [h.frames_eq, hfs, List.foldl_cons, foldl_events]
  rfl

/-- Behind an element the parser is in the same array. -/
theorem InArray.item (hp : p.InArray) (h : Runs p t.events q) : q.InArray := by
  obtain ⟨first, fs, hfs⟩ := hp
  refine ⟨false, fs, ?_⟩
  rw [h.frames_of_tree, hfs]
  rfl

/-- Where the beginning of an object or array is current, that is what is open innermost. -/
structure Innermost (p : Pull) : Prop where
  object : p.current = some .startObject → p.InObject
  array : p.current = some .startArray → p.InArray

theorem Innermost.frames_pos (h : p.Innermost) (hopen : p.current.any Token.opens = true) :
    0 < p.frames.length := by
  obtain ⟨t, hcurrent, hopens⟩ := (Option.any_eq_true _ _).1 hopen
  rw [Token.opens, Bool.or_eq_true, decide_eq_true_eq, decide_eq_true_eq] at hopens
  obtain rfl | rfl := hopens
  · obtain ⟨first, fs, hfs⟩ := h.object hcurrent
    exact hfs ▸ Nat.succ_pos _
  · obtain ⟨first, fs, hfs⟩ := h.array hcurrent
    exact hfs ▸ Nat.succ_pos _

theorem innermost_ofText (s : String) : (ofText s).Innermost := ⟨nofun, nofun⟩

/-- No call takes from this, whether it fails or not. -/
theorem Innermost.next (h : p.Innermost) : (Step.after (next p)).Innermost := by
  cases hnext : Pull.next p with
  | ok o q =>
    cases o with
    | none =>
      have hcurrent := current_of_next hnext
      exact ⟨fun hq => (by cases hcurrent.symm.trans hq), fun hq => by cases hcurrent.symm.trans hq⟩
    | some t =>
      obtain ⟨e, rfl, hruns, hq⟩ := exists_at_of_next hnext
      obtain ⟨cs, hmoves⟩ := moves_of_run hruns
      have hfs := hmoves.frames_eq
      constructor
      · intro hcurrent
        cases e <;> cases hq.1.symm.trans hcurrent
        exact ⟨_, _, hfs⟩
      · intro hcurrent
        cases e <;> cases hq.1.symm.trans hcurrent
        exact ⟨_, _, hfs⟩
  | error f q =>
    have hkeeps := safe_next hnext
    have hfs := frames_of_next_error hnext
    constructor
    · intro hcurrent
      obtain ⟨first, fs, hp⟩ := h.object (hkeeps.current.symm.trans hcurrent)
      rw [hp] at hfs
      obtain hq | hq := hfs <;> exact ⟨_, _, hq⟩
    · intro hcurrent
      obtain ⟨first, fs, hp⟩ := h.array (hkeeps.current.symm.trans hcurrent)
      rw [hp] at hfs
      obtain hq | hq := hfs <;> exact ⟨_, _, hq⟩

end Pull

end Wireform.Json
