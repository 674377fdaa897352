import Wireform.Proofs.Json.Compact

/-!
# Drafting trees

A draft that is handed the tokens of an array or object comes out as if the compact spelling had
been written at once (`array_eq`, `object_eq`), and a draft of one spelling is complete and holds
just that (`text_scalar`).
-/

namespace Wireform.Json.Draft

variable {out : Array UInt8} {scopes outer : List Scope} {first done : Bool} {cs es : List Char}

/-! ## Bytes -/

/-- The bytes of a row of characters. -/
def spell (cs : List Char) : List UInt8 := Utf8.encode (String.ofList cs)

@[simp] theorem spell_nil : spell [] = [] := rfl

theorem spell_append (cs es : List Char) : spell (cs ++ es) = spell cs ++ spell es := by
  rw [spell, String.ofList_append, Utf8.encode_append]
  rfl

theorem append_append (out : Array UInt8) (bs bs' : List UInt8) :
    out ++ bs ++ bs' = out ++ (bs ++ bs') := by
  apply Array.ext'
  simp [List.append_assoc]

theorem append_spell (out : Array UInt8) (cs es : List Char) :
    out ++ spell cs ++ spell es = out ++ spell (cs ++ es) := by
  rw [append_append, spell_append]

theorem append_nil (out : Array UInt8) : out ++ spell [] = out := by
  apply Array.ext'
  simp

/-! ## Moves -/

theorem separate_apply (first : Bool) :
    separate first ⟨out, scopes, done⟩ =
      .ok () ⟨out ++ spell (Tree.comma first), scopes, done⟩ := by
  cases first with
  | true =>
    rw [Tree.comma, if_pos rfl, append_nil]
    rfl
  | false => rfl

/-- In an array a value is preceded by a comma, unless it is the first. -/
theorem beforeValue_array (out : Array UInt8) (first : Bool) (outer : List Scope) (done : Bool) :
    beforeValue ⟨out, .array first :: outer, done⟩ =
      .ok () ⟨out ++ spell (Tree.comma first), .array false :: outer, done⟩ := by
  change (separate first >>= fun _ => setScopes (.array false :: outer)) _ = _
  rw [Step.bind_apply, separate_apply]
  rfl

theorem fieldName_apply (name : String) :
    fieldName name ⟨out, .object first false :: outer, done⟩ =
      .ok () ⟨out ++ spell (Tree.comma first ++ (Quoted.encode name ++ [':'])),
        .object false true :: outer, done⟩ := by
  rw [← append_spell]
  change (separate first >>= fun _ => _) _ = _
  rw [Step.bind_apply, separate_apply]
  rfl

theorem endArray_apply : endArray ⟨out, .array first :: outer, done⟩ =
    .ok () ⟨out ++ spell [']'], outer, done || outer.isEmpty⟩ := rfl

theorem endObject_apply : endObject ⟨out, .object first false :: outer, done⟩ =
    .ok () ⟨out ++ spell ['\x7d'], outer, done || outer.isEmpty⟩ := rfl

/-- A value in the place of a member. -/
theorem scalar_member (cs : List Char) :
    scalar cs ⟨out, .object first true :: outer, done⟩ =
      .ok () ⟨out ++ spell cs, .object first false :: outer, done⟩ := by
  change EStateM.Result.ok () (Draft.mk _ _ (done || false)) = _
  rw [Bool.or_false]
  rfl

/-- A value in the place of an element. -/
theorem scalar_element (cs : List Char) :
    scalar cs ⟨out, .array first :: outer, done⟩ =
      .ok () ⟨out ++ spell (Tree.comma first ++ cs), .array false :: outer, done⟩ := by
  rw [← append_spell]
  change ((separate first >>= fun _ => _) >>= fun _ => _) _ = _
  rw [Step.bind_apply, Step.bind_apply, separate_apply]
  change EStateM.Result.ok () (Draft.mk _ _ (done || false)) = _
  rw [Bool.or_false]
  rfl

/-- Whether a value may begin is settled before anything is written. -/
theorem scalar_apply (cs : List Char) (d : Draft) :
    scalar cs d = match beforeValue d with
      | .ok () ⟨out, scopes, done⟩ => .ok () ⟨out ++ spell cs, scopes, done || scopes.isEmpty⟩
      | .error e d => .error e d := by
  rw [scalar, Step.bind_apply]
  cases beforeValue d <;> rfl

/-- An opening bracket is written where a value may stand. -/
theorem startArray_apply (d : Draft) :
    startArray d = match beforeValue d with
      | .ok () ⟨out, scopes, done⟩ => .ok () ⟨out ++ spell ['['], .array true :: scopes, done⟩
      | .error e d => .error e d := by
  rw [startArray, Step.bind_apply]
  cases beforeValue d <;> rfl

/-- An opening brace is written where a value may stand. -/
theorem startObject_apply (d : Draft) :
    startObject d = match beforeValue d with
      | .ok () ⟨out, scopes, done⟩ =>
        .ok () ⟨out ++ spell ['\x7b'], .object true false :: scopes, done⟩
      | .error e d => .error e d := by
  rw [startObject, Step.bind_apply]
  cases beforeValue d <;> rfl

/-! ## Arrays and objects -/

/-- An element of an array, by its compact spelling. -/
def element (t : Tree) : Move Unit := scalar t.compact

/-- A member of an object, by its name and the compact spelling of its value. -/
def member (m : String × Tree) : Move Unit := do
  fieldName m.1
  scalar m.2.compact

/-- Elements are drafted as their compact texts, with commas. -/
theorem forM_element (items : List Tree) :
    items.forM element ⟨out, .array first :: outer, done⟩ =
      .ok () ⟨out ++ spell (Tree.compactItems first items),
        .array (first && items.isEmpty) :: outer, done⟩ := by
  induction items generalizing out first with
  | nil =>
    rw [Tree.compactItems, append_nil, List.isEmpty_nil, Bool.and_true]
    rfl
  | cons t items ih =>
    rw [Tree.compactItems, ← append_spell, List.isEmpty_cons, Bool.and_false]
    change (scalar t.compact >>= fun _ => items.forM element) _ = _
    rw [Step.bind_apply, scalar_element]
    exact ih

/-- Members are drafted as their compact texts, with commas. -/
theorem forM_member (members : List (String × Tree)) :
    members.forM member ⟨out, .object first false :: outer, done⟩ =
      .ok () ⟨out ++ spell (Tree.compactMembers first members),
        .object (first && members.isEmpty) false :: outer, done⟩ := by
  induction members generalizing out first with
  | nil =>
    rw [Tree.compactMembers, append_nil, List.isEmpty_nil, Bool.and_true]
    rfl
  | cons m members ih =>
    obtain ⟨name, t⟩ := m
    have hsplit : Tree.comma first ++ (Quoted.encode name ++ ':' :: t.compact) =
        Tree.comma first ++ (Quoted.encode name ++ [':']) ++ t.compact := by
      simp
    rw [Tree.compactMembers, ← append_spell, hsplit, ← append_spell, List.isEmpty_cons,
      Bool.and_false]
    change ((fieldName name >>= fun _ => scalar t.compact) >>= fun _ => members.forM member) _ = _
    rw [Step.bind_apply, Step.bind_apply, fieldName_apply]
    dsimp only
    rw [scalar_member]
    exact ih

/-- An array drafted element by element is drafted as its compact text. -/
theorem array_eq (items : List Tree) :
    (do startArray; items.forM element; endArray) = scalar (Tree.array items).compact := by
  funext d
  rw [Step.bind_apply, startArray_apply, scalar_apply]
  cases beforeValue d with
  | error e d => rfl
  | ok _ d =>
    obtain ⟨out, scopes, done⟩ := d
    dsimp only
    rw [Step.bind_apply, forM_element, Tree.compact, ← append_spell, append_spell]
    rfl

/-- An object drafted member by member is drafted as its compact text. -/
theorem object_eq (members : List (String × Tree)) :
    (do startObject; members.forM member; endObject) =
      scalar (Tree.object members).compact := by
  funext d
  rw [Step.bind_apply, startObject_apply, scalar_apply]
  cases beforeValue d with
  | error e d => rfl
  | ok _ d =>
    obtain ⟨out, scopes, done⟩ := d
    dsimp only
    rw [Step.bind_apply, forM_member, Tree.compact, ← append_spell, append_spell]
    rfl

/-- A complete draft of valid UTF-8 has its text. -/
theorem text_of_complete {d : Draft} {t : String} (h : d.isComplete = true)
    (hout : d.out.toList = Utf8.encode t) : d.text = .ok t := by
  have hbytes : d.bytes = .ok (Utf8.encode t) := by
    rw [bytes, if_pos h, hout]
  simp only [text, hbytes, Utf8.decode?_encode, bind, Except.bind, pure, Except.pure]

/-- A draft of one value is complete, and its text is the spelling. -/
theorem text_scalar (cs : List Char) :
    ∃ d, scalar cs empty = .ok () d ∧ d.isComplete = true ∧ d.text = .ok (String.ofList cs) := by
  refine ⟨⟨(#[] : Array UInt8) ++ spell cs, [], true⟩, rfl, rfl, ?_⟩
  apply text_of_complete
  · rfl
  · simp [spell]

end Wireform.Json.Draft
