import Wireform.Proofs.Document.Members
import Wireform.Proofs.Document.Writing
import Wireform.Proofs.Schema.Checking
import Wireform.Proofs.Value.Regular

/-!
# What reading and writing documents may come to

Whatever text or tree is read, in either order, a record that is read is regular, and a failure
speaks of an unsupported field only if a model that is reached has one (`yields_readLevels`,
`yields_ofMembers`). The same is true of the failures of a write (`yields_write`).
-/

namespace Wireform.Document

open Json (DocumentError Draft Pull Token Tree)
open Value (Answers Regular)

variable {s : Schema} {options : Options} {root m : ModelId} {site : Site} {tag : Tag}
  {nested : ModelId → Read Record}

/-! ## Moves of a pull -/

theorem yields_pull {α : Type} (x : Pull.Move α) :
    Step.Yields (fun _ => True) (s.Blames root) (pull x) :=
  .adaptExcept x fun _ _ _ => nofun

theorem yields_content {α : Type} {get : Pull → Except DocumentError α}
    {report : DocumentError → ModelError} (h : ∀ e, s.Blames root (report e)) :
    Step.Yields (fun _ => True) (s.Blames root) (content get report) := by
  intro p
  rw [content]
  cases get p with
  | ok a => trivial
  | error e => exact h e

theorem yields_number {α : Type} (get : Pull → Except DocumentError α) :
    Step.Yields (fun _ => True) (s.Blames root)
      (content get fun e => .invalidValue site (.number e)) :=
  yields_content fun _ _ _ => nofun

theorem yields_boolean :
    Step.Yields (fun _ => True) (s.Blames root) (content Pull.booleanValue .document) :=
  yields_content fun _ _ _ => nofun

theorem yields_currentText : Step.Yields (fun _ => True) (s.Blames root) currentText :=
  yields_content fun _ _ _ => nofun

theorem yields_currentName : Step.Yields (fun _ => True) (s.Blames root) currentName :=
  .bind .get fun _ _ => .pure trivial

theorem yields_invalid {α : Type} {P : α → Prop} (reason : Reason) :
    Step.Yields P (s.Blames root) (invalid site reason) :=
  .throw fun _ _ => nofun

theorem yields_unexpected {α : Type} {P : α → Prop} (expected : Token) (found : Option Token) :
    Step.Yields P (s.Blames root) (unexpected expected found) :=
  .throw fun _ _ => nofun

theorem yields_unexpectedEnd {α : Type} {P : α → Prop} :
    Step.Yields P (s.Blames root) unexpectedEnd :=
  .bind .get fun _ _ => .throw fun _ _ => nofun

theorem yields_wrongToken {α : Type} {P : α → Prop} (t : Token) :
    Step.Yields P (s.Blames root) (wrongToken s site tag t) :=
  .throw fun _ _ => nofun

section
variable {σ : Type} {I : σ → Prop} {last : Token} {atEnd : Read σ} {step : Token → σ → Read σ}

/-- A loop keeps the invariant that its steps keep, and fails only as they do. -/
theorem yields_gatherWithin (hend : Step.Yields I (s.Blames root) atEnd)
    (hstep : ∀ t found, I found → Step.Yields I (s.Blames root) (step t found)) (budget : Nat)
    {found : σ} (hfound : I found) :
    Step.Yields I (s.Blames root) (gatherWithin last atEnd step budget found) := by
  induction budget generalizing found with
  | zero => exact hend
  | succ budget ih =>
    refine (yields_pull _).bind fun t _ => ?_
    split
    · exact hend
    · split
      · exact .pure hfound
      · exact (hstep _ found hfound).bind fun found' hfound' => ih hfound'

/-- What each step of a loop keeps true of what has been found is true of the result. -/
theorem yields_gather (hend : Step.Yields I (s.Blames root) atEnd)
    (hstep : ∀ t found, I found → Step.Yields I (s.Blames root) (step t found)) {found : σ}
    (hfound : I found) : Step.Yields I (s.Blames root) (gather last atEnd step found) :=
  .bind .get fun p _ => yields_gatherWithin hend hstep p.budget hfound

end

/-! ## Values -/

theorem yields_readDuration : Step.Yields (fun _ => True) (s.Blames root) (readDuration site) := by
  have hmember (found : Option Int64 × Option DurationUnit) :
      Step.Yields (fun _ => True) (s.Blames root) (readDurationMember site found) := by
    refine yields_currentName.bind fun key _ => (yields_pull _).bind fun t _ => ?_
    split
    · exact (yields_number _).bind fun _ _ => .pure trivial
    · split
      · refine yields_currentText.bind fun name _ => ?_
        split
        · exact .pure trivial
        · exact yields_invalid _
      · exact yields_invalid _
  refine (yields_gather (I := fun _ => True) (yields_unexpected _ _) (fun t found _ => ?_)
    trivial).bind fun found _ => ?_
  · split
    · exact hmember found
    · exact yields_unexpected _ _
  · split
    · exact .pure trivial
    · exact yields_invalid _

theorem yields_readCalendar : Step.Yields (fun _ => True) (s.Blames root) (readCalendar site) := by
  refine yields_currentText.bind fun name _ => ?_
  split
  · exact .pure trivial
  · exact yields_invalid _

theorem yields_readZone : Step.Yields (fun _ => True) (s.Blames root) (readZone site) := by
  refine yields_currentText.bind fun id _ => ?_
  split
  · exact .pure trivial
  · exact yields_invalid _

theorem yields_readElements {P : Value → Prop} {read : Token → Read Value}
    (h : ∀ t, Step.Yields P (s.Blames root) (read t)) :
    Step.Yields (fun items => ∀ v ∈ items, P v) (s.Blames root) (readElements read) := by
  refine (yields_gather (I := fun found => ∀ v ∈ found, P v) yields_unexpectedEnd
    (fun t found hfound => ?_) (List.forall_mem_nil _)).bind fun found hfound => ?_
  · exact (h t).bind fun v hv => .pure (List.forall_mem_cons.2 ⟨hv, hfound⟩)
  · exact .pure fun v hv => hfound v (List.mem_reverse.1 hv)

/-- Records of the models that the tag holds are read as they should be. -/
abbrev YieldsNested (s : Schema) (root : ModelId) (nested : ModelId → Read Record) (tag : Tag) :
    Prop :=
  ∀ n, tag.nested? = some n → Step.Yields (RecordOf.Regular s n) (s.Blames root) (nested n)

theorem yields_readValueFrom (h : YieldsNested s root nested tag) (t : Token) :
    Step.Yields (Regular s tag) (s.Blames root) (readValueFrom s nested site tag t) := by
  unfold readValueFrom
  split
  · exact yields_boolean.map fun b _ => .bool b
  · exact yields_currentText.map fun t _ => .str t
  · exact (yields_number _).map fun n _ => .int n
  · exact (yields_number _).map fun n _ => .long n
  · exact yields_readDuration.map fun d _ => .duration d
  · exact yields_readCalendar.map fun u _ => .calendar u
  · exact yields_readZone.map fun z _ => .zone z
  · refine (yields_readElements (P := Regular s .str) fun t => ?_).map fun _ => .strList
    split
    · exact yields_currentText.map fun t _ => .str t
    · exact yields_wrongToken _
  · next m =>
    refine (yields_readElements (P := Regular s (.model m)) fun t => ?_).map fun _ => .modelList
    split
    · exact (h m rfl).map fun r hr => hr
    · exact yields_wrongToken _
  · next m => exact (h m rfl).map fun r hr => hr
  · exact yields_wrongToken _

theorem yields_readValue (h : YieldsNested s root nested tag) :
    Step.Yields (fun o => ∀ v, o = some v → Regular s tag v) (s.Blames root)
      (readValue s nested site tag) := by
  refine (yields_pull _).bind fun t _ => ?_
  split
  · exact yields_unexpectedEnd
  · exact .pure nofun
  · exact (yields_readValueFrom h _).map fun v hv w hw => Option.some.inj hw ▸ hv

/-! ## Records -/

theorem yields_readCanonical {cs : List Column} (h : ∀ c ∈ cs, YieldsNested s root nested c.tag) :
    Step.Yields (List.Forall₂ (Answers (Regular s)) cs) (s.Blames root)
      (readCanonical s nested m cs) := by
  have hnext : ∀ c ∈ cs,
      Step.Yields (Answers (Regular s) c) (s.Blames root) (readNext s nested m c) := by
    intro c hc
    refine (yields_pull _).bind fun t _ => ?_
    split
    · refine yields_currentName.bind fun name _ => ?_
      split
      · exact (yields_readValue (h c hc)).bind fun o ho => .pure ⟨rfl, ho⟩
      · exact .throw fun _ _ => nofun
    · exact .throw fun _ _ => nofun
  refine (Step.Yields.mapM hnext).bind fun entries hentries => (yields_pull _).bind fun t _ => ?_
  split
  · exact .pure hentries
  · exact yields_currentName.bind fun _ _ => .throw fun _ _ => nofun
  · exact yields_unexpected _ _

/-- What has been read for a column answers it. -/
def Slot.Answers (s : Schema) (slot : Slot) : Prop :=
  ∀ v, slot.content = some (some v) → Regular s slot.column.tag v

/-- Only the slot that is found by the name is filled. -/
theorem Slot.forall_fill {P : Slot → Prop} {slots : List Slot} {name : String} {v : Option Value}
    (h : ∀ slot ∈ slots, P slot)
    (hfill : ∀ slot, (slots.find? fun slot => slot.column.name = name) = some slot →
      P { slot with content := some v }) :
    ∀ slot ∈ fill name v slots, P slot := by
  induction slots with
  | nil => exact h
  | cons slot slots ih =>
    obtain ⟨hslot, hslots⟩ := List.forall_mem_cons.1 h
    rw [fill]
    by_cases hname : slot.column.name = name
    · rw [if_pos hname]
      refine List.forall_mem_cons.2 ⟨hfill slot ?_, hslots⟩
      exact List.find?_cons_of_pos (decide_eq_true hname)
    · rw [if_neg hname]
      refine List.forall_mem_cons.2 ⟨hslot, ih hslots fun other hother => hfill other ?_⟩
      rw [List.find?_cons_of_neg (by simpa using hname)]
      exact hother

theorem yields_readNamed {slots : List Slot}
    (h : ∀ slot ∈ slots, YieldsNested s root nested slot.column.tag)
    (hslots : ∀ slot ∈ slots, slot.Answers s) :
    Step.Yields (fun slots' => slots'.map Slot.column = slots.map Slot.column ∧
      ∀ slot ∈ slots', slot.Answers s) (s.Blames root) (readNamed s nested m slots) := by
  refine yields_currentName.bind fun name _ => ?_
  split
  · refine (yields_pull _).bind fun _ _ => (yields_pull _).bind fun _ _ => ?_
    exact .pure ⟨rfl, hslots⟩
  · next c found hfind =>
    split
    · exact yields_invalid _
    · have hnested := h _ (List.mem_of_find?_eq_some hfind)
      refine (yields_readValue hnested).bind fun o ho => ?_
      refine .pure ⟨map_column_fill name o slots, Slot.forall_fill hslots fun slot hslot v hv => ?_⟩
      cases hfind.symm.trans hslot
      exact ho v (Option.some.inj hv)

theorem forall₂_entries {slots : List Slot} (h : ∀ slot ∈ slots, slot.Answers s) :
    List.Forall₂ (Answers (Regular s)) (slots.map Slot.column) (slots.map Slot.entry) := by
  rw [List.forall₂_map_left_iff, List.forall₂_map_right_iff, List.forall₂_same]
  refine fun slot hslot => ⟨rfl, fun v hv => h slot hslot v ?_⟩
  exact Option.join_eq_some_iff.1 hv

/-- Members read by name give regular entries. -/
theorem yields_readByName {cs : List Column} (h : ∀ c ∈ cs, YieldsNested s root nested c.tag) :
    Step.Yields (List.Forall₂ (Answers (Regular s)) cs) (s.Blames root)
      (readByName s nested m cs) := by
  let Filled (slots : List Slot) : Prop :=
    slots.map Slot.column = cs ∧ ∀ slot ∈ slots, slot.Answers s
  have hstart : Filled (cs.map fun c => ⟨c, none⟩) := by
    refine ⟨?_, List.forall_mem_map.2 fun c _ => nofun⟩
    rw [List.map_map]
    exact List.map_id cs
  refine (yields_gather (I := Filled) (yields_unexpected _ _) (fun t slots hslots => ?_)
    hstart).bind fun slots hslots => .pure (hslots.1 ▸ forall₂_entries hslots.2)
  split
  · refine (yields_readNamed (fun slot hslot => ?_) hslots.2).mono fun slots' hslots' => ?_
    · exact h _ (hslots.1 ▸ List.mem_map_of_mem hslot)
    · exact ⟨hslots'.1.trans hslots.1, hslots'.2⟩
  · exact yields_unexpected _ _

/-- A model that is reached leads to none that is not. -/
theorem yields_readLevels (levels : Nat) (hm : s.Reaches root m) :
    Step.Yields (RecordOf.Regular s m) (s.Blames root) (readLevels s options levels m) := by
  induction levels generalizing m with
  | zero => exact .throw fun _ _ => nofun
  | succ levels ih =>
    refine (Step.Yields.ofExcept (Schema.yields_columns hm)).bind fun cs hcs => ?_
    have hnested : ∀ c ∈ cs, YieldsNested s root (readLevels s options levels) c.tag :=
      fun c hc n hn => ih (hm.column hcs hc hn)
    split
    · exact (yields_readCanonical hnested).bind fun _ h => .pure (Regular.of_answers hcs h)
    · exact (yields_readByName hnested).bind fun _ h => .pure (Regular.of_answers hcs h)

theorem yields_readRecord : Step.Yields (RecordOf.Regular s m) (s.Blames m)
    (readRecord s options m) := by
  have hopen (t : Option Token) : Step.Yields (RecordOf.Regular s m) (s.Blames m)
      (if t = some .startObject then readLevels s options (options.depth + 1) m
        else throw (.notAnObject (s.name m) (Token.foundText t))) := by
    split
    · exact yields_readLevels _ .refl
    · exact .throw fun _ _ => nofun
  refine Step.Yields.bind .get fun p _ => ?_
  split
  · exact hopen _
  · exact (yields_pull _).bind fun t _ => hopen t

/-! ## Trees -/

section
variable {tree : ObjectReading}

theorem yields_wrongTree {α : Type} {P : α → Prop} (t : Tree) :
    Yields P (s.Blames root) (wrongTree s site tag t : Except ModelError α) :=
  fun _ _ => nofun

theorem yields_required {α : Type} (reason : Reason) (o : Option α) :
    Yields (fun _ => True) (s.Blames root) (required site reason o) := by
  cases o with
  | none => exact fun _ _ => nofun
  | some a => trivial

theorem yields_treeDuration (members : List (String × Tree)) :
    Yields (fun _ => True) (s.Blames root) (treeDuration site members) :=
  (yields_required _ _).bind fun _ _ => (yields_required _ _).bind fun _ _ =>
    (yields_required _ _).bind fun _ _ => trivial

/-- Records of the models that the tag holds are read as they should be. -/
abbrev YieldsMembers (s : Schema) (root : ModelId) (tree : ObjectReading) (tag : Tag) : Prop :=
  ∀ n, tag.nested? = some n → ∀ members,
    Yields (RecordOf.Regular s n) (s.Blames root) (tree n members)

theorem yields_treeValue (h : YieldsMembers s root tree tag) (t : Tree) :
    Yields (Regular s tag) (s.Blames root) (treeValue s tree site tag t) := by
  unfold treeValue
  split
  · exact .bool _
  · exact .str _
  · split
    · exact (yields_required _ _).map fun n _ => .int n
    · exact yields_wrongTree _
  · split
    · exact .long _
    · exact yields_wrongTree _
  · exact (yields_treeDuration _).map fun d _ => .duration d
  · exact (yields_required _ _).map fun u _ => .calendar u
  · exact (yields_required _ _).map fun z _ => .zone z
  · refine (Yields.mapM_all (P := Regular s .str) (fun t => ?_) _).map fun _ => .strList
    cases t with
    | string t => exact .str t
    | _ => exact yields_wrongTree _
  · next m _ =>
    refine (Yields.mapM_all (P := Regular s (.model m)) (fun t => ?_) _).map fun _ => .modelList
    cases t with
    | object members => exact (h m rfl members).map fun r hr => hr
    | _ => exact yields_wrongTree _
  · next m members => exact (h m rfl members).map fun r hr => hr
  · exact yields_wrongTree _

theorem yields_treeEntry {c : Column} (h : YieldsMembers s root tree c.tag)
    (members : List (String × Tree)) :
    Yields (Answers (Regular s) c) (s.Blames root) (treeEntry s tree m members c) := by
  unfold treeEntry
  split
  · exact ⟨rfl, nofun⟩
  · exact ⟨rfl, nofun⟩
  · exact (yields_treeValue h _).bind fun v hv => ⟨rfl, fun w hw => Option.some.inj hw ▸ hv⟩

theorem yields_ofMembers {depth : Nat} (levels : Nat) (hm : s.Reaches root m)
    (members : List (String × Tree)) :
    Yields (RecordOf.Regular s m) (s.Blames root) (ofMembers s depth levels m members) := by
  induction levels generalizing m members with
  | zero => exact fun _ _ => nofun
  | succ levels ih =>
    refine (Schema.yields_columns hm).bind fun cs hcs => ?_
    refine (Yields.mapM fun c hc => yields_treeEntry (fun n hn members => ?_) members).bind
      fun entries h => Regular.of_answers hcs h
    exact ih (hm.column hcs hc hn) members

theorem yields_ofTree {depth : Nat} (t : Tree) :
    Yields (RecordOf.Regular s m) (s.Blames m) (ofTree s depth m t) := by
  cases t with
  | object members => exact yields_ofMembers _ .refl members
  | _ => exact fun _ _ => nofun

end

/-! ## Writing -/

theorem yields_draft {α : Type} (x : Draft.Move α) :
    Step.Yields (fun _ => True) (s.Blames root) (draft x) :=
  .adaptExcept x fun _ _ _ => nofun

theorem yields_mismatch (v : Value) :
    Step.Yields (fun _ => True) (s.Blames root) (mismatch s v site tag) :=
  .throw fun _ _ => nofun

theorem yields_between {start finish : Draft.Move Unit} {x : Move Unit}
    (h : Step.Yields (fun _ => True) (s.Blames root) x) :
    Step.Yields (fun _ => True) (s.Blames root) (do draft start; x; draft finish) :=
  (yields_draft start).bind fun _ _ => h.bind fun _ _ => yields_draft finish

theorem yields_elements {items : List Value} {one list : Tag} (h : ∀ v ∈ items,
    Step.Yields (fun _ => True) (s.Blames root) ((format s).value v site one)) :
    Step.Yields (fun _ => True) (s.Blames root) ((format s).elements items site one list) := by
  induction items with
  | nil => exact .pure trivial
  | cons v items ih =>
    obtain ⟨hv, hitems⟩ := List.forall_mem_cons.1 h
    rw [Format.elements]
    split
    · exact hv.bind fun _ _ => ih hitems
    · exact yields_mismatch _

theorem yields_columns {r : Record} (hr : s.Reaches root r.model)
    (h : ∀ cs, s.columns r.model = .ok cs → ∀ c ∈ cs, ∀ v, r.get c.name = some v →
      Step.Yields (fun _ => True) (s.Blames root)
        ((format s).value v ⟨s.name r.model, c.name⟩ c.tag)) :
    Step.Yields (fun _ => True) (s.Blames root) (write s r) := by
  refine (Step.Yields.ofExcept (Schema.yields_columns hr)).bind fun cs hcs => ?_
  refine yields_between (.forM fun c hc => ?_)
  rw [column_writings]
  refine (yields_draft _).bind fun _ _ => ?_
  cases hv : r.get c.name with
  | none => exact yields_draft _
  | some v => exact h cs hcs c hc v hv

/-- The invariant of the recursion through nested records: a value is written under a tag only if
the model of the tag is reached. -/
theorem yields_value {v : Value} (h : ∀ n, tag.nested? = some n → s.Reaches root n) :
    Step.Yields (fun _ => True) (s.Blames root) ((format s).value v site tag) := by
  induction v, tag using Value.writing_induction generalizing site with
  | mismatch v tag hsuits =>
    rw [Format.value_of_not_suits _ hsuits]
    exact yields_mismatch _
  | bool | str | int | long | calendar | zone => exact yields_draft _
  | duration d =>
    change Step.Yields _ _ (duration d)
    rw [duration_eq]
    exact yields_draft _
  | strList items ih => exact yields_between (yields_elements fun v hv => ih v hv nofun)
  | modelList m items ih => exact yields_between (yields_elements fun v hv => ih v hv h)
  | model r ih =>
    rw [Format.value_model]
    refine yields_columns (h _ rfl) fun cs hcs c hc v hv => ?_
    exact ih c.name v c.tag hv fun n hn => (h _ rfl).column hcs hc hn

/-- A field that is reported as unsupported by a write is one of a model reachable from that of the
record. -/
theorem yields_write (r : Record) :
    Step.Yields (fun _ => True) (s.Blames r.model) (write s r) := by
  rw [write, ← Format.value_model _ r ⟨"", ""⟩]
  apply yields_value
  intro n hn
  cases hn
  exact .refl

end Wireform.Document
