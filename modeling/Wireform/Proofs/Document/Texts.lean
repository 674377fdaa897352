import Wireform.Proofs.Document.Agreement
import Wireform.Proofs.Document.Members

/-!
# What is made of a text

A reader of documents makes of a text what can be computed from the tree that the text spells
(`textLevels`). For most values this is what the reader of trees makes of it. The differences are
that a zero with a sign is a whole number, that the members of a duration are taken as they come,
and that objects are matched with their models in one of two orders. In each of them the reader
agrees with the computation, whatever the text is (`agrees_levels`).
-/

namespace Wireform.Document

open Json (Event Pull Token Tree)
open Json.Pull (Runs)

/-! ## Trees as texts are read -/

section
variable (s : Schema)

/-- A value as it is read from a text. -/
def textValue (nested : ObjectReading) (site : Site) : Tag → Tree → Except ModelError Value
  | .int, .number spelling => .int <$> required site (.number (.numberRange spelling))
      ((Decimal.int? spelling.toList).bind Decimal.int32?)
  | .long, .number spelling => .long <$> required site (.number (.numberRange spelling))
      ((Decimal.int? spelling.toList).bind Decimal.int64?)
  | .duration, .object members => .duration <$>
      (members.foldlM (durationMember site) (none, none) >>= durationOf site)
  | tag, t => treeValue s nested site tag t

/-- What the text of a member makes for its column; `null` stands for an absent value. -/
def textContent (nested : ObjectReading) (m : ModelId) : Content := fun c t =>
  match t with
  | .null => .ok none
  | t => some <$> textValue s nested ⟨s.name m, c.name⟩ c.tag t

/-- The member that has to be the column. -/
def textNext (content : Content) (m : ModelId) (c : Column) (member : String × Tree) :
    Except ModelError (String × Option Value) :=
  if member.1 = c.name then (fun v => (c.name, v)) <$> content c member.2
  else .error (.orderMismatch ⟨s.name m, c.name⟩ member.1)

/-- The members of an object, which have to be the columns one by one. -/
def textInOrder (content : Content) (m : ModelId) :
    List Column → List (String × Tree) → Except ModelError (List (String × Option Value))
  | [], [] => .ok []
  | [], (name, _) :: _ => .error (.unknownField ⟨s.name m, name⟩)
  | c :: _, [] => .error (.orderMismatch ⟨s.name m, c.name⟩ (Token.foundText (some .endObject)))
  | c :: cs, member :: members => do
    let entry ← textNext s content m c member
    (entry :: ·) <$> textInOrder content m cs members

/-- The entries that members in any order make. -/
def textByName (content : Content) (m : ModelId) (columns : List Column)
    (members : List (String × Tree)) : Except ModelError (List (String × Option Value)) :=
  List.map Slot.entry <$> members.foldlM (fillFrom s content m) (columns.map fun c => ⟨c, none⟩)

/-- A record that may open `levels` levels of models, its own included. -/
def textLevels (options : Options) : (levels : Nat) → ObjectReading
  | 0, m, _ => .error (.depthExceeded (s.name m) options.depth)
  | levels + 1, m, members => do
    let columns ← s.columns m
    let content := textContent s (textLevels options levels) m
    let entries ← match options.order with
      | .canonical => textInOrder s content m columns members
      | .byName => textByName s content m columns members
    return ⟨m, entries⟩

/-- The record that a tree makes for a reader of texts. -/
def textRecord (options : Options) (m : ModelId) : Tree → Except ModelError Record
  | .object members => textLevels s options (options.depth + 1) m members
  | t => .error (.notAnObject (s.name m) t.kind)

end

variable {s : Schema} {options : Options} {m : ModelId} {t u : Tree} {tag : Tag} {site : Site}
  {p q : Pull} {e : Event} {es : List Event} {items : List Tree} {content : Content}
  {members : List (String × Tree)} {nested : ModelId → Read Record} {tree : ObjectReading}

/-- Where no name is repeated, the members are looked up one by one. -/
theorem textByName_ok_iff {cs : List Column} (hkeys : (members.map Prod.fst).Nodup)
    (hnames : (cs.map Column.name).Nodup) (entries : List (String × Option Value)) :
    textByName s content m cs members = .ok entries ↔
      cs.mapM (columnEntry content members) = .ok entries := by
  have hslots : ((cs.map fun c => (⟨c, none⟩ : Slot)).map fun slot => slot.column.name).Nodup := by
    rwa [List.map_map]
  have hfresh : ∀ slot ∈ cs.map fun c => (⟨c, none⟩ : Slot),
      slot.column.name ∈ members.map Prod.fst → slot.content = none := by
    intro slot hslot _
    obtain ⟨c, -, rfl⟩ := List.mem_map.1 hslot
    rfl
  rw [textByName, foldlM_fillFrom_iff hkeys hslots hfresh, List.mapM_map]
  exact Iff.rfl

theorem map_model_ok_iff {x : Except ModelError Record} {r : Record} :
    Value.model <$> x = .ok (.model r) ↔ x = .ok r := by
  rw [map_ok_iff]
  exact ⟨fun ⟨_, hx, hr⟩ => Value.model.inj hr ▸ hx, fun hx => ⟨r, hx, rfl⟩⟩

/-- A document is read as a value of its model. -/
theorem textRecord_ok_iff {r : Record} (site : Site) :
    textRecord s options m t = .ok r ↔
      textValue s (textLevels s options (options.depth + 1)) site (.model m) t =
        .ok (.model r) := by
  cases t with
  | object members => exact map_model_ok_iff.symm
  | _ => exact ⟨nofun, nofun⟩

/-! ## Texts with a meaning of their own -/

theorem agrees_calendar {name : String} (hp : p.At (.string name)) :
    Agrees (required site (.calendarName name) (CalendarUnit.ofName? name))
      (readCalendar site p) p := by
  rw [readCalendar, Step.bind_apply, currentText_of_at hp]
  dsimp only
  cases CalendarUnit.ofName? name with
  | none => exact .fail _ _ p p
  | some u => exact .pure u p

theorem agrees_zone {id : String} (hp : p.At (.string id)) :
    Agrees (required site (.zone id) (ZoneId.ofText? id)) (readZone site p) p := by
  rw [readZone, Step.bind_apply, currentText_of_at hp]
  dsimp only
  cases ZoneId.ofText? id with
  | none => exact .fail _ _ p p
  | some z => exact .pure z p

/-! ## Parts of objects and arrays -/

theorem exists_events (t : Tree) : ∃ e es, t.events = e :: es ∧ ¬ e.token.closes := by
  cases t <;> exact ⟨_, _, rfl, nofun⟩

theorem itemEvents_eq (items : List Tree) :
    Tree.itemEvents items =
      items.flatMap fun t => t.events.headD .null :: t.events.tail := by
  induction items with
  | nil => rfl
  | cons t items ih =>
    obtain ⟨e, es, ht, -⟩ := exists_events t
    rw [Tree.itemEvents, List.flatMap_cons, ih, ht]
    rfl

theorem memberEvents_eq (members : List (String × Tree)) :
    Tree.memberEvents members =
      members.flatMap fun member => .name member.1 :: member.2.events := by
  induction members with
  | nil => rfl
  | cons member members ih => rw [Tree.memberEvents, List.flatMap_cons, ih]

/-- Elements of the text are read as the items of the tree, if each of them is. -/
theorem agrees_elements {f : Tree → Except ModelError Value} {read : Token → Read Value}
    (h : ∀ t ∈ items, ∀ e es p q, t.events = e :: es → p.At e → Runs p es q →
      Agrees (f t) (read e.token p) q)
    (hruns : Runs p (Tree.itemEvents items ++ [.endArray]) q) :
    Agrees (items.mapM f) (readElements read p) q := by
  rw [itemEvents_eq] at hruns
  have hlast : ∀ t ∈ items, (t.events.headD .null).token ≠ Event.endArray.token := by
    intro t _ hlast
    obtain ⟨e, es, ht, hcloses⟩ := exists_events t
    rw [ht] at hlast
    exact hcloses (congrArg Token.closes hlast)
  have hgather := agrees_gather unexpectedEnd (fun t found => do return (← read t) :: found)
    (fun found t => (· :: found) <$> f t) (fun _ => True) hlast
    (fun t ht found p q _ hp hruns => by
      obtain ⟨e, es, hevents, -⟩ := exists_events t
      rw [hevents] at hp hruns ⊢
      exact (h t ht e es p q hevents hp hruns).map (· :: found))
    (fun _ _ _ _ _ _ => trivial) hruns [] trivial
  refine (hgather.map List.reverse).congr fun vs => ?_
  rw [foldlM_cons_eq]
  cases items.mapM f with
  | error e => exact ⟨nofun, nofun⟩
  | ok vs' =>
    change Except.ok _ = _ ↔ _
    dsimp only
    rw [List.append_nil, List.reverse_reverse]

theorem agrees_durationMember {name : String} {found : Option Int64 × Option DurationUnit}
    (hp : p.At (.name name)) (hruns : Runs p u.events q) :
    Agrees (durationMember site found (name, u)) (readDurationMember site found p) q := by
  obtain ⟨e, es, hevents, -⟩ := exists_events u
  rw [hevents] at hruns
  rw [readDurationMember, Step.bind_apply, currentName_of_at hp]
  refine agrees_next hruns fun p' hp' hruns' => ?_
  by_cases hmagnitude : name = "magnitude"
  · subst hmagnitude
    rw [durationMember, if_pos rfl]
    cases u with
    | number spelling =>
      cases hevents
      cases hruns'
      rw [if_pos ⟨rfl, rfl⟩]
      exact (agrees_content hp'.long site .durationMagnitude).map fun n => (some n, found.2)
    | _ =>
      cases hevents
      have hname : "magnitude" ≠ "unit" := by decide
      rw [if_neg (by rintro ⟨-, h⟩; cases h), if_neg fun h => hname h.1]
      exact .fail _ _ p' q
  by_cases hunit : name = "unit"
  · subst hunit
    rw [durationMember, if_neg hmagnitude, if_pos rfl]
    cases u with
    | string text =>
      cases hevents
      cases hruns'
      rw [if_neg fun h => hmagnitude h.1, if_pos ⟨rfl, rfl⟩, Step.bind_apply, currentText_of_at hp']
      dsimp only [unit?]
      cases DurationUnit.ofName? text with
      | none => exact .fail _ _ q q
      | some unit => exact .pure (found.1, some unit) q
    | _ =>
      cases hevents
      rw [if_neg fun h => hmagnitude h.1, if_neg (by rintro ⟨-, h⟩; cases h)]
      exact .fail _ _ p' q
  · rw [durationMember, if_neg hmagnitude, if_neg hunit, if_neg fun h => hmagnitude h.1,
      if_neg fun h => hunit h.1]
    exact .fail _ _ p' q

/-- Records are read as they are computed from the members of an object. -/
def NestedAgrees (tree : ObjectReading) (nested : ModelId → Read Record) : Prop :=
  ∀ ⦃n members p q⦄, Runs p (Tree.memberEvents members ++ [.endObject]) q →
    Agrees (tree n members) (nested n p) q

theorem agrees_text (ht : t.events = e :: es) (hp : p.At e) (hruns : Runs p es q) :
    Agrees (treeText s site t)
      ((if e.token = .string then Value.str <$> currentText else wrongToken s site .strList e.token)
        p) q := by
  cases t with
  | string text =>
    cases ht
    cases hruns
    have htoken : (Event.string text).token = .string := rfl
    rw [if_pos htoken, Step.map_apply, currentText_of_at hp]
    exact .pure _ p
  | _ =>
    cases ht
    rw [if_neg nofun]
    exact .fail _ _ p q

theorem agrees_duration (hruns : Runs p (Tree.memberEvents members ++ [.endObject]) q) :
    Agrees (members.foldlM (durationMember site) (none, none) >>= durationOf site)
      (readDuration site p) q := by
  rw [memberEvents_eq] at hruns
  have hlast : ∀ member ∈ members, (Event.name member.1).token ≠ Event.endObject.token :=
    fun _ _ => nofun
  have hgather := agrees_gather (unexpected .fieldName none)
    (fun t found =>
      if t = .fieldName then readDurationMember site found else unexpected .fieldName (some t))
    (durationMember site) (fun _ => True) hlast
    (fun member _ found p q _ hp hruns => agrees_durationMember hp hruns)
    (fun _ _ _ _ _ _ => trivial) hruns (none, none) trivial
  refine hgather.bind fun found _ => ?_
  obtain ⟨_ | n, _ | unit⟩ := found
  · exact .fail _ _ q q
  · exact .fail _ _ q q
  · exact .fail _ _ q q
  · exact .pure _ q

/-! ## Values -/

theorem agrees_model {n : ModelId} (hnested : NestedAgrees tree nested) (ht : t.events = e :: es)
    (hruns : Runs p es q) :
    Agrees (treeModel s tree site n t)
      ((if e.token = .startObject then Value.model <$> nested n
        else wrongToken s site (.modelList n) e.token) p) q := by
  cases t with
  | object members =>
    cases ht
    have htoken : Event.startObject.token = .startObject := rfl
    rw [if_pos htoken]
    exact (hnested hruns).map Value.model
  | _ =>
    cases ht
    rw [if_neg nofun]
    exact .fail _ _ p q

theorem agrees_value (hnested : NestedAgrees tree nested) (ht : t.events = e :: es) (hp : p.At e)
    (hruns : Runs p es q) :
    Agrees (textValue s tree site tag t) (readValueFrom s nested site tag e.token p) q := by
  cases t with
  | null =>
    cases ht
    cases tag <;> exact .fail _ _ p q
  | bool b =>
    cases ht
    cases hruns
    cases tag with
    | bool =>
      refine Agrees.map Value.bool (x := .ok b) ?_
      rw [content_of_ok hp.booleanValue]
      exact .pure b p
    | _ => exact .fail _ _ p p
  | number spelling =>
    cases ht
    cases hruns
    cases tag with
    | int => exact (agrees_content hp.int _ _).map Value.int
    | long => exact (agrees_content hp.long _ _).map Value.long
    | _ => exact .fail _ _ p p
  | string text =>
    cases ht
    cases hruns
    cases tag with
    | str =>
      refine Agrees.map Value.str (x := .ok text) ?_
      rw [currentText_of_at hp]
      exact .pure text p
    | calendar => exact (agrees_calendar hp).map Value.calendar
    | zone => exact (agrees_zone hp).map Value.zone
    | _ => exact .fail _ _ p p
  | array items =>
    cases ht
    cases tag with
    | strList =>
      refine (agrees_elements (f := treeText s site) (fun t _ e es p q ht hp hruns => ?_) hruns).map
        Value.list
      exact agrees_text ht hp hruns
    | modelList n =>
      refine (agrees_elements (f := treeModel s tree site n) (fun t _ e es p q ht _ hruns => ?_)
        hruns).map Value.list
      exact agrees_model hnested ht hruns
    | _ => exact .fail _ _ p q
  | object members =>
    cases ht
    cases tag with
    | duration => exact (agrees_duration hruns).map Value.duration
    | model n => exact (hnested hruns).map Value.model
    | _ => exact .fail _ _ p q

theorem agrees_textContent {c : Column} (hnested : NestedAgrees tree nested)
    (hruns : Runs p t.events q) :
    Agrees (textContent s tree m c t) (readValue s nested ⟨s.name m, c.name⟩ c.tag p) q := by
  obtain ⟨e, es, ht, -⟩ := exists_events t
  rw [ht] at hruns
  refine agrees_next hruns fun p' hp hruns' => ?_
  have hvalue (site : Site) : Agrees (textValue s tree site c.tag t)
      (readValueFrom s nested site c.tag e.token p') q := agrees_value hnested ht hp hruns'
  cases t with
  | null =>
    cases ht
    cases hruns'
    exact .pure none _
  | _ =>
    cases ht
    exact (hvalue _).map some

/-! ## Records -/

theorem agrees_named {name : String} {slots : List Slot} (hnested : NestedAgrees tree nested)
    (hp : p.At (.name name)) (hruns : Runs p u.events q) :
    Agrees (fillFrom s (textContent s tree m) m slots (name, u)) (readNamed s nested m slots p)
      q := by
  rw [readNamed, Step.bind_apply, currentName_of_at hp, fillFrom]
  dsimp only
  cases slots.find? fun slot => slot.column.name = name with
  | none =>
    obtain ⟨e, es, hevents, -⟩ := exists_events u
    rw [hevents] at hruns
    refine agrees_next hruns fun p' hp' hruns' => ?_
    rw [Step.bind_apply, pull, Step.adaptExcept_apply, skipChildren_events hevents hp' hruns']
    exact .pure slots q
  | some slot =>
    obtain ⟨c, _ | v⟩ := slot
    · exact (agrees_textContent hnested hruns).map _
    · exact .fail _ _ p q

/-- Members of the text are read by name as those of the tree. -/
theorem agrees_byName {cs : List Column} (hnested : NestedAgrees tree nested)
    (hruns : Runs p (Tree.memberEvents members ++ [.endObject]) q) :
    Agrees (textByName s (textContent s tree m) m cs members) (readByName s nested m cs p) q := by
  rw [memberEvents_eq] at hruns
  have hlast : ∀ member ∈ members, (Event.name member.1).token ≠ Event.endObject.token :=
    fun _ _ => nofun
  have hgather := agrees_gather (unexpected .fieldName none)
    (fun t slots =>
      if t = .fieldName then readNamed s nested m slots else unexpected .fieldName (some t))
    (fillFrom s (textContent s tree m) m) (fun _ => True) hlast
    (fun ⟨name, u⟩ _ slots p q _ hp hruns => agrees_named hnested hp hruns)
    (fun _ _ _ _ _ _ => trivial) hruns (cs.map fun c => ⟨c, none⟩) trivial
  exact hgather.map (List.map Slot.entry)

/-- The columns are taken one after the other, so what has been read stands in front of the rest. -/
theorem readCanonical_cons (c : Column) (cs : List Column) :
    readCanonical s nested m (c :: cs) = (do
      let entry ← readNext s nested m c
      (entry :: ·) <$> readCanonical s nested m cs) := by
  simp only [readCanonical, List.mapM_cons, bind_assoc, pure_bind, map_bind]
  congr
  funext entry
  congr
  funext entries
  congr
  funext t
  split <;> rfl

theorem agrees_readNext {c : Column} {name : String} (hnested : NestedAgrees tree nested)
    (hruns : Runs p (.name name :: u.events) q) :
    Agrees (textNext s (textContent s tree m) m c (name, u)) (readNext s nested m c p) q := by
  rw [readNext, textNext]
  refine agrees_next hruns fun p' hp hruns' => ?_
  dsimp only [Event.token]
  rw [Step.bind_apply, currentName_of_at hp]
  dsimp only
  split
  · exact (agrees_textContent hnested hruns').map _
  · exact .fail _ _ p' q

/-- Members of the text are read in order as those of the tree. -/
theorem agrees_inOrder {cs : List Column} (hnested : NestedAgrees tree nested)
    (hruns : Runs p (Tree.memberEvents members ++ [.endObject]) q) :
    Agrees (textInOrder s (textContent s tree m) m cs members) (readCanonical s nested m cs p)
      q := by
  induction cs generalizing members p with
  | nil =>
    rw [readCanonical]
    cases members with
    | nil =>
      refine agrees_next hruns fun p' _ hnil => ?_
      cases hnil
      exact .pure [] _
    | cons member members =>
      refine agrees_next hruns fun p' hp _ => ?_
      dsimp only [Event.token]
      rw [Step.bind_apply, currentName_of_at hp]
      exact .fail _ _ p' q
  | cons c cs ih =>
    rw [readCanonical_cons]
    cases members with
    | nil =>
      rw [readNext, bind_assoc]
      refine agrees_next hruns fun p' _ _ => ?_
      exact .fail _ _ p' q
    | cons member members =>
      obtain ⟨name, u⟩ := member
      rw [Tree.memberEvents, List.append_assoc] at hruns
      obtain ⟨r, hmember, hrest⟩ := hruns.split
      exact (agrees_readNext hnested hmember).bind fun entry _ => (ih hrest).map _

/-- The reader makes the same of a text as is computed from the tree that the text spells. -/
theorem agrees_levels (levels : Nat) :
    NestedAgrees (textLevels s options levels) (readLevels s options levels) := by
  induction levels with
  | zero => exact fun _ _ p q _ => .fail _ _ p q
  | succ levels ih =>
    intro n members p q hruns
    rw [textLevels, readLevels]
    cases s.columns n with
    | error e => exact .fail _ _ p q
    | ok cs =>
      cases options.order with
      | canonical => exact (agrees_inOrder ih hruns).bind fun entries _ => .pure _ q
      | byName => exact (agrees_byName ih hruns).bind fun entries _ => .pure _ q

theorem agrees_textRecord (options : Options) (hcurrent : p.current = none)
    (hruns : Runs p t.events q) :
    Agrees (textRecord s options m t) (readRecord s options m p) q := by
  obtain ⟨e, es, ht, -⟩ := exists_events t
  rw [ht] at hruns
  rw [readRecord, Step.bind_apply, Step.get_apply]
  simp only [hcurrent]
  refine agrees_next hruns fun p' hp hruns' => ?_
  cases t with
  | object members =>
    cases ht
    have htoken : some Event.startObject.token = some Token.startObject := rfl
    rw [if_pos htoken]
    exact agrees_levels (options.depth + 1) hruns'
  | _ =>
    cases ht
    exact .fail _ _ p' q

end Wireform.Document
