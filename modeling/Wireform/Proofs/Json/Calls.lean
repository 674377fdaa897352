import Wireform.Proofs.Json.Building
import Wireform.Proofs.Json.Delivery
import Wireform.Proofs.Json.Drafting

/-!
# Drafts call by call

A caller hands tokens to a draft one after the other and goes on after a refusal. `Progress` is what
the accepted calls amount to: arrays and objects that are open, or a whole value. Each call is
refused without a trace or takes the progress one event further (`move_progress`), so a draft has a
text just when the accepted calls spell a value, and the text is read back as these calls
(`calls_spell_text`).
-/

namespace Wireform.Json

namespace Draft

/-- A token handed to a draft, with its contents. -/
inductive Call where
  | startObject | endObject | startArray | endArray
  | name (s : String)
  | null
  | bool (b : Bool)
  | long (n : Int64)
  | string (s : String)
  deriving DecidableEq, Repr

namespace Call

/-- What a call does to a draft. -/
def move : Call → Move Unit
  | startObject => Draft.startObject
  | endObject => Draft.endObject
  | startArray => Draft.startArray
  | endArray => Draft.endArray
  | name s => Draft.fieldName s
  | null => Draft.null
  | bool b => Draft.bool b
  | long n => Draft.long n
  | string s => Draft.string s

/-- What the call adds to the events of the text. -/
def event : Call → Event
  | startObject => .startObject
  | endObject => .endObject
  | startArray => .startArray
  | endArray => .endArray
  | name s => .name s
  | null => .null
  | bool b => .boolean b
  | long n => .number (Decimal.text n.toInt)
  | string s => .string s

/-- A pull that has just read the token of the call answers with the contents of the call. -/
def ReadBy (c : Call) (p : Pull) : Prop := p.Shows c.event ∧ ∀ n, c = .long n → p.long = .ok n

end Call

/-- The draft after the calls, those that were refused included. -/
def performed (calls : List Call) (d : Draft) : Draft :=
  calls.foldl (fun d c => Step.after (c.move d)) d

/-- The calls that are not refused. -/
def accepted : List Call → Draft → List Call
  | [], _ => []
  | c :: calls, d =>
    match c.move d with
    | .ok _ d => c :: accepted calls d
    | .error _ d => accepted calls d

/-! ## Refusals -/

variable {d d' : Draft} {e : DocumentError} {c : Call} {calls : List Call}

/-- A value that is refused leaves the draft as it was. -/
theorem eq_of_beforeValue_error (h : beforeValue d = .error e d') : d' = d := by
  obtain ⟨out, _ | ⟨⟨first, _ | _⟩ | first, outer⟩, _ | _⟩ := d
  case cons.array.false | cons.array.true =>
    rw [beforeValue_array] at h
    cases h
  all_goals cases h <;> rfl

/-- A scalar that is refused leaves the draft as it was. -/
theorem eq_of_scalar_error {cs : List Char} (h : scalar cs d = .error e d') : d' = d := by
  rw [scalar_apply] at h
  split at h
  · cases h
  · next hbefore =>
    cases h
    exact eq_of_beforeValue_error hbefore

/-- A call that is refused leaves the draft as it was. -/
theorem eq_of_move_error (h : c.move d = .error e d') : d' = d := by
  cases c with
  | startObject | startArray =>
    simp only [Call.move, startObject_apply, startArray_apply] at h
    split at h
    · cases h
    · next hbefore =>
      cases h
      exact eq_of_beforeValue_error hbefore
  | endObject | endArray =>
    obtain ⟨out, _ | ⟨⟨first, _ | _⟩ | first, outer⟩, done⟩ := d <;> cases h <;> rfl
  | name s =>
    obtain ⟨out, _ | ⟨⟨first, _ | _⟩ | first, outer⟩, done⟩ := d
    case cons.object.false =>
      rw [Call.move, fieldName_apply] at h
      cases h
    all_goals
      cases h
      rfl
  | null | bool | long | string => exact eq_of_scalar_error h

/-! ## Progress -/

/-- An array or object that waits for a value, with what it holds so far, the latest first. -/
inductive Host where
  | array (items : List Tree)
  | object (members : List (String × Tree)) (name : String)

/-- What accepted calls amount to. The hosts are open around what comes next, the innermost
first. -/
inductive Progress where
  /-- A value may follow, or the end of the innermost host if that is an array. -/
  | free (hosts : List Host)
  /-- An object is open and a name may follow, or the end of the object. -/
  | member (members : List (String × Tree)) (hosts : List Host)
  | whole (t : Tree)

namespace Host

/-- The spelling up to here; `busy` if a value has begun, so that the comma in front of it has been
written. -/
def spelling (busy : Bool) : Host → List Char
  | array items =>
    '[' :: Tree.compactItems true items.reverse ++ if busy then Tree.comma items.isEmpty else []
  | object members name =>
    '\x7b' :: Tree.compactMembers true members.reverse ++
      (Tree.comma members.isEmpty ++ (Quoted.encode name ++ [':']))

/-- What a draft keeps of an open object or array. It is busy while something is open within it. -/
def scope (busy : Bool) : Host → Scope
  | array items => .array (!busy && items.isEmpty)
  | object _ _ => .object false (!busy)

/-- The events of what is in an open object or array so far. -/
def events : Host → List Event
  | array items => .startArray :: Tree.itemEvents items.reverse
  | object members name => .startObject :: Tree.memberEvents members.reverse ++ [.name name]

/-- The same in the words of the reading of events. -/
def toOpen : Host → Tree.Open
  | array items => .array items
  | object members name => .object members (some name)

/-- The spelling of hosts, all of which are busy apart perhaps from the innermost. -/
def spellings (busy : Bool) : List Host → List Char
  | [] => []
  | h :: hosts => spellings true hosts ++ h.spelling busy

/-- What a draft keeps of all that is open. -/
def scopes (busy : Bool) : List Host → List Scope
  | [] => []
  | h :: hosts => h.scope busy :: scopes true hosts

/-- The events of all that is open, from the outside. -/
def allEvents : List Host → List Event
  | [] => []
  | h :: hosts => allEvents hosts ++ h.events

end Host

/-- A draft that holds just these characters. -/
def holding (cs : List Char) (scopes : List Scope) (done : Bool) : Draft :=
  ⟨(#[] : Array UInt8) ++ spell cs, scopes, done⟩

namespace Progress

/-- The draft that has come as far. -/
def draft : Progress → Draft
  | free hosts => holding (Host.spellings false hosts) (Host.scopes false hosts) false
  | member members hosts =>
    holding (Host.spellings true hosts ++ '\x7b' :: Tree.compactMembers true members.reverse)
      (.object members.isEmpty false :: Host.scopes true hosts) false
  | whole t => holding t.compact [] true

/-- The events that have been drafted. -/
def events : Progress → List Event
  | free hosts => Host.allEvents hosts
  | member members hosts =>
    Host.allEvents hosts ++ .startObject :: Tree.memberEvents members.reverse
  | whole t => t.events

/-- A value that is complete goes into the innermost host. -/
def place (t : Tree) : List Host → Progress
  | [] => whole t
  | .array items :: hosts => free (.array (t :: items) :: hosts)
  | .object members name :: hosts => member ((name, t) :: members) hosts

end Progress

variable {k : Progress} {t : Tree} {hosts : List Host}

/-- One more item is written behind a comma, unless it is the first. -/
theorem compactItems_concat (first : Bool) (items : List Tree) (t : Tree) :
    Tree.compactItems first (items ++ [t]) =
      Tree.compactItems first items ++ (Tree.comma (first && items.isEmpty) ++ t.compact) := by
  induction items generalizing first with
  | nil => simp [Tree.compactItems]
  | cons u items ih => simp [Tree.compactItems, ih]

/-- One more member is written behind a comma, unless it is the first. -/
theorem compactMembers_concat (first : Bool) (members : List (String × Tree)) (name : String)
    (t : Tree) :
    Tree.compactMembers first (members ++ [(name, t)]) = Tree.compactMembers first members ++
      (Tree.comma (first && members.isEmpty) ++ (Quoted.encode name ++ ':' :: t.compact)) := by
  induction members generalizing first with
  | nil => simp [Tree.compactMembers]
  | cons m members ih => simp [Tree.compactMembers, ih]

/-- The draft of a tree placed among its hosts is the text of the hosts so far and that of the tree.
-/
theorem draft_place (t : Tree) (hosts : List Host) :
    (Progress.place t hosts).draft =
      holding (Host.spellings true hosts ++ t.compact) (Host.scopes true hosts)
        (Host.scopes true hosts).isEmpty := by
  rcases hosts with _ | ⟨items | ⟨members, name⟩, hosts⟩
  · rfl
  · simp [Progress.place, Progress.draft, Host.spellings, Host.scopes, Host.spelling, Host.scope,
      compactItems_concat]
  · simp [Progress.place, Progress.draft, Host.spellings, Host.scopes, Host.spelling, Host.scope,
      compactMembers_concat]

/-- The events of a tree placed among its hosts are those of the hosts so far and those of the tree.
-/
theorem events_place (t : Tree) (hosts : List Host) :
    (Progress.place t hosts).events = Host.allEvents hosts ++ t.events := by
  rcases hosts with _ | ⟨items | ⟨members, name⟩, hosts⟩
  · rfl
  · simp [Progress.place, Progress.events, Host.allEvents, Host.events, Tree.itemEvents_append,
      Tree.itemEvents]
  · simp [Progress.place, Progress.events, Host.allEvents, Host.events, Tree.memberEvents_append,
      Tree.memberEvents]

theorem put_spell (cs es : List Char) (scopes : List Scope) (done : Bool) :
    Draft.mk ((#[] : Array UInt8) ++ spell cs ++ spell es) scopes done =
      holding (cs ++ es) scopes done := by
  rw [append_spell]
  rfl

theorem beforeValue_free (hosts : List Host) : beforeValue (Progress.free hosts).draft =
    .ok () (holding (Host.spellings true hosts) (Host.scopes true hosts) false) := by
  -- Only in an array is there a comma to write: that of a member stands in front of its name.
  rcases hosts with _ | ⟨items | ⟨members, name⟩, hosts⟩
  · rfl
  · refine (beforeValue_array _ items.isEmpty (Host.scopes true hosts) false).trans ?_
    refine congrArg _ ((put_spell _ _ _ _).trans ?_)
    simp [Host.spellings, Host.spelling, Host.scopes, Host.scope]
  · rfl

/-- Where a value may stand, a scalar is placed. -/
theorem scalar_free (t : Tree) (hosts : List Host) :
    scalar t.compact (Progress.free hosts).draft = .ok () (Progress.place t hosts).draft := by
  rw [scalar_apply, beforeValue_free, draft_place]
  exact congrArg _ (put_spell _ _ _ _)

/-- Where a value may stand, an array may be opened. -/
theorem startArray_free (hosts : List Host) :
    startArray (Progress.free hosts).draft = .ok () (Progress.free (.array [] :: hosts)).draft := by
  rw [startArray_apply, beforeValue_free]
  exact congrArg _ (put_spell _ _ _ _)

/-- Where a value may stand, an object may be opened. -/
theorem startObject_free (hosts : List Host) :
    startObject (Progress.free hosts).draft = .ok () (Progress.member [] hosts).draft := by
  rw [startObject_apply, beforeValue_free]
  exact congrArg _ (put_spell _ _ _ _)

/-- An open array is closed around its items. -/
theorem endArray_free (items : List Tree) (hosts : List Host) :
    endArray (Progress.free (.array items :: hosts)).draft =
      .ok () (Progress.place (.array items.reverse) hosts).draft := by
  rw [draft_place, Tree.compact]
  refine endArray_apply.trans (congrArg _ ((put_spell _ _ _ _).trans ?_))
  simp [Host.spellings, Host.spelling]

/-- An open object that waits for no value is closed around its members. -/
theorem endObject_member (members : List (String × Tree)) (hosts : List Host) :
    endObject (Progress.member members hosts).draft =
      .ok () (Progress.place (.object members.reverse) hosts).draft := by
  rw [draft_place, Tree.compact]
  refine endObject_apply.trans (congrArg _ ((put_spell _ _ _ _).trans ?_))
  simp

/-- An open object that waits for no value takes a name, and waits for its value. -/
theorem fieldName_member (members : List (String × Tree)) (hosts : List Host) (name : String) :
    fieldName name (Progress.member members hosts).draft =
      .ok () (Progress.free (.object members name :: hosts)).draft := by
  refine (fieldName_apply name).trans (congrArg _ ((put_spell _ _ _ _).trans ?_))
  simp [Progress.draft, Host.spellings, Host.spelling, Host.scopes, Host.scope]

/-- What a call does to a draft that stands for `k`: it adds one event, or it is refused. -/
def Advances (k : Progress) (x : Move Unit) (es : List Event) : Prop :=
  (∃ k' : Progress, x k.draft = .ok () k'.draft ∧ k'.events = k.events ++ es) ∨
    ∃ e, x k.draft = .error e k.draft

theorem advances_scalar (k : Progress) (t : Tree) : Advances k (scalar t.compact) t.events := by
  cases k with
  | free hosts => exact .inl ⟨_, scalar_free t hosts, events_place t hosts⟩
  | member | whole => exact .inr ⟨_, rfl⟩

/-- The step lemma: whatever the progress, a call adds its own event or is refused. -/
theorem move_progress (k : Progress) (c : Call) : Advances k c.move [c.event] := by
  cases c with
  | startObject =>
    cases k with
    | free hosts => exact .inl ⟨_, startObject_free hosts, rfl⟩
    | member | whole => exact .inr ⟨_, rfl⟩
  | startArray =>
    cases k with
    | free hosts => exact .inl ⟨_, startArray_free hosts, rfl⟩
    | member | whole => exact .inr ⟨_, rfl⟩
  | endObject =>
    cases k with
    | member members hosts =>
      refine .inl ⟨_, endObject_member members hosts, ?_⟩
      rw [events_place, Tree.events, Progress.events, List.append_assoc]
      rfl
    | free hosts => rcases hosts with _ | ⟨_ | _, hosts⟩ <;> exact .inr ⟨_, rfl⟩
    | whole => exact .inr ⟨_, rfl⟩
  | endArray =>
    cases k with
    | free hosts =>
      rcases hosts with _ | ⟨items | _, hosts⟩
      · exact .inr ⟨_, rfl⟩
      · refine .inl ⟨_, endArray_free items hosts, ?_⟩
        rw [events_place, Tree.events, Progress.events, Host.allEvents, List.append_assoc]
        rfl
      · exact .inr ⟨_, rfl⟩
    | member | whole => exact .inr ⟨_, rfl⟩
  | name s =>
    cases k with
    | member members hosts =>
      refine .inl ⟨_, fieldName_member members hosts s, ?_⟩
      simp [Progress.events, Host.allEvents, Host.events, Call.event]
    | free hosts => rcases hosts with _ | ⟨_ | _, hosts⟩ <;> exact .inr ⟨_, rfl⟩
    | whole => exact .inr ⟨_, rfl⟩
  | null => exact advances_scalar k .null
  | bool b => exact advances_scalar k (.bool b)
  | string s => exact advances_scalar k (.string s)
  | long n =>
    -- The spelling is handed to `scalar` as characters, where a tree has it as a text.
    have hlong := advances_scalar k (.number (Decimal.text n.toInt))
    rw [Tree.compact, Decimal.text, String.toList_ofList] at hlong
    exact hlong

/-- From any progress, calls lead to a progress that has the events of the accepted ones in
addition. -/
theorem performed_progress (calls : List Call) (k : Progress) :
    ∃ k' : Progress, performed calls k.draft = k'.draft ∧
      k'.events = k.events ++ (accepted calls k.draft).map Call.event := by
  induction calls generalizing k with
  | nil => exact ⟨k, rfl, (List.append_nil _).symm⟩
  | cons c calls ih =>
    rcases move_progress k c with ⟨k₁, hmove, hevents⟩ | ⟨e, hmove⟩
    · obtain ⟨k', hperformed, hk'⟩ := ih k₁
      rw [performed, List.foldl_cons, accepted, hmove]
      refine ⟨k', hperformed, ?_⟩
      rw [hk', hevents, List.append_assoc]
      rfl
    · obtain ⟨k', hperformed, hk'⟩ := ih k
      rw [performed, List.foldl_cons, accepted, hmove]
      exact ⟨k', hperformed, hk'⟩

/-- From the empty draft, calls lead to the progress of the accepted ones. -/
theorem performed_empty (calls : List Call) :
    ∃ k : Progress, performed calls empty = k.draft ∧
      k.events = (accepted calls empty).map Call.event := by
  have hempty : (Progress.free []).draft = empty := by
    rw [Progress.draft, holding, Host.spellings, append_nil]
    rfl
  rw [← hempty]
  exact performed_progress calls (.free [])

/-! ## Complete drafts -/

theorem build_allEvents (hosts : List Host) (rest : List Event) :
    Tree.build (Host.allEvents hosts ++ rest) [] = Tree.build rest (hosts.map Host.toOpen) := by
  induction hosts generalizing rest with
  | nil => rfl
  | cons h hosts ih =>
    rw [Host.allEvents, List.append_assoc, ih, List.map_cons]
    cases h with
    | array items =>
      rw [Host.events, List.cons_append, Tree.build_startArray, Tree.build_itemEvents,
        List.reverse_reverse, List.append_nil, Host.toOpen]
    | object members name =>
      rw [Host.events, List.cons_append, List.cons_append, List.append_assoc,
        Tree.build_startObject, Tree.build_memberEvents, List.reverse_reverse, List.append_nil]
      rfl

/-- Only a whole value has events that spell a tree. -/
theorem eq_whole_of_events (h : k.events = t.events) : k = .whole t := by
  have hbuild : Tree.build k.events [] = some t := by
    rw [h]
    exact Tree.ofEvents?_events t
  cases k with
  | free hosts =>
    rw [Progress.events, ← List.append_nil (Host.allEvents hosts), build_allEvents] at hbuild
    cases hbuild
  | member members hosts =>
    rw [Progress.events, build_allEvents, Tree.build_startObject,
      ← List.append_nil (Tree.memberEvents _), Tree.build_memberEvents] at hbuild
    cases hbuild
  | whole u =>
    have hu : Tree.build u.events [] = some u := Tree.ofEvents?_events u
    rw [Option.some.inj (hu.symm.trans hbuild)]

/-- A whole tree has its compact text. -/
theorem text_whole (t : Tree) : (Progress.whole t).draft.text = .ok (String.ofList t.compact) := by
  apply text_of_complete
  · rfl
  · simp [Progress.draft, holding, spell]

/-- Just the drafts of whole values have a text. -/
theorem exists_text_iff : (∃ s, k.draft.text = .ok s) ↔ ∃ t, k = .whole t := by
  constructor
  · rintro ⟨s, hs⟩
    cases k with
    | free | member => cases hs
    | whole t => exact ⟨t, rfl⟩
  · rintro ⟨t, rfl⟩
    exact ⟨_, text_whole t⟩

/-! ## Reading back -/

theorem spelled_of_events (h : t.events = calls.map Call.event) : t.Spelled := by
  intro w hw
  have hmem := Tree.number_mem_events hw
  rw [h] at hmem
  obtain ⟨c, -, hc⟩ := List.mem_map.1 hmem
  cases c with
  | long n =>
    have hspelling : Decimal.text n.toInt = w := Event.number.inj hc
    rw [← hspelling, Decimal.text, String.toList_ofList]
    exact Grammar.number_ofInt n.toInt
  | _ => cases hc

/-- A parser that shows the event of a call reads the call back. -/
theorem Call.readBy_of_shows {p : Pull} (h : p.Shows c.event) : c.ReadBy p := by
  refine ⟨h, ?_⟩
  rintro n rfl
  have hspelling : p.numberText = .ok (Decimal.text n.toInt) := h.2
  rw [Pull.long_of_numberText hspelling, Decimal.text, String.toList_ofList, Decimal.int?_ofInt,
    Option.bind_some, Decimal.int64?_toInt]
  rfl

theorem readBack_whole (h : t.events = calls.map Call.event) (n : Nat) :
    let p := Pull.ofText (String.ofList t.compact)
    Step.outcome (Pull.next (Pull.moved n p)) =
        .ok (calls[n]?.map fun c => c.event.token) ∧
      ∀ c, calls[n]? = some c → c.ReadBy (Pull.moved (n + 1) p) := by
  have htext := Grammar.text_compact (d := .standard) (spelled_of_events h)
  rw [← String.toList_ofList (l := t.compact)] at htext
  obtain ⟨q, r, hruns, hend⟩ := Pull.runs_text htext
  rw [h] at hruns
  refine ⟨?_, fun c hc => ?_⟩
  · rw [hruns.next_moved hend n, List.getElem?_map, Option.map_map]
    rfl
  · apply Call.readBy_of_shows
    apply hruns.shows_moved
    rw [List.getElem?_map, hc]
    rfl

/-- Whatever is called on a new draft: a call that is refused changes nothing; there is a text just
when the accepted calls spell one tree; and the text is read as just these calls. -/
theorem calls_spell_text (calls : List Call) :
    (∀ (c : Call) (d d' : Draft) (e : DocumentError), c.move d = .error e d' → d' = d) ∧
      ((∃ s, (performed calls empty).text = .ok s) ↔
        ∃ t : Tree, (accepted calls empty).map Call.event = t.events) ∧
      ∀ s, (performed calls empty).text = .ok s → ∀ n,
        Step.outcome (Pull.next (Pull.moved n (.ofText s))) =
            .ok ((accepted calls empty)[n]?.map fun c => c.event.token) ∧
          ∀ c, (accepted calls empty)[n]? = some c →
            c.ReadBy (Pull.moved (n + 1) (.ofText s)) := by
  obtain ⟨k, hdraft, hevents⟩ := performed_empty calls
  rw [hdraft]
  refine ⟨fun c d d' e => eq_of_move_error, ?_, fun s hs => ?_⟩
  · rw [exists_text_iff, ← hevents]
    constructor
    · rintro ⟨t, rfl⟩
      exact ⟨t, rfl⟩
    · rintro ⟨t, ht⟩
      exact ⟨t, eq_whole_of_events ht⟩
  · obtain ⟨t, rfl⟩ := exists_text_iff.1 ⟨s, hs⟩
    cases (text_whole t).symm.trans hs
    exact readBack_whole hevents

/-- A name in an array and a second value are refused, and what is left is one text. -/
example : accepted [.startArray, .name "x", .long 5, .endArray, .null] empty =
    [.startArray, .long 5, .endArray] := by decide

end Draft

end Wireform.Json
