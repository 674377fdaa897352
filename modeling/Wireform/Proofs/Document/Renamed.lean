import Wireform.Proofs.Binary.Renamed
import Wireform.Proofs.Document.Failures
import Wireform.Proofs.Document.Limits
import Wireform.Proofs.Schema.Order

/-!
# Formats and the order of declaration

Documents and trees are read and written in the same way for fields of one name of two models, as
binary is (`Wireform.Proofs.Binary.Renamed`). Models that expose the same fields have the same
columns, in whatever order they declare them, so no format can tell them apart (`order_irrelevant`).
-/

namespace Wireform

namespace Document

open Json (DocumentError Pull Token Tree)

variable {s : Schema} {options : Options} {a b field : String} {m n : ModelId}

/-! ## Reads -/

section

variable {nested : ModelId → Read Record}

theorem mirrors_invalid {α : Type} (reason : Reason) :
    Step.Mirrors (Renamed a b) (invalid ⟨a, field⟩ reason : Read α) (invalid ⟨b, field⟩ reason) :=
  .throw (.invalidValue _ _)

theorem mirrors_wrongToken {α : Type} (tag : Tag) (t : Token) :
    Step.Mirrors (Renamed a b) (wrongToken s ⟨a, field⟩ tag t : Read α)
      (wrongToken s ⟨b, field⟩ tag t) :=
  .throw (.typeMismatch _ _ _)

theorem mirrors_number {α : Type} (get : Pull → Except DocumentError α) :
    Step.Mirrors (Renamed a b) (content get fun e => .invalidValue ⟨a, field⟩ (.number e))
      (content get fun e => .invalidValue ⟨b, field⟩ (.number e)) := by
  intro p
  unfold content
  cases get p with
  | ok n => exact .inl rfl
  | error e => exact .inr ⟨_, _, p, rfl, rfl, .invalidValue _ _⟩

theorem mirrors_readDurationMember (found : Option Int64 × Option DurationUnit) :
    Step.Mirrors (Renamed a b) (readDurationMember ⟨a, field⟩ found)
      (readDurationMember ⟨b, field⟩ found) := by
  refine (Step.Mirrors.refl _).bind fun key => (Step.Mirrors.refl _).bind fun t => ?_
  split
  · exact (mirrors_number _).bind fun _ => .refl _
  · split
    · refine (Step.Mirrors.refl _).bind fun name => ?_
      split
      · exact .refl _
      · exact mirrors_invalid _
    · exact mirrors_invalid _

theorem mirrors_readDuration :
    Step.Mirrors (Renamed a b) (readDuration ⟨a, field⟩) (readDuration ⟨b, field⟩) := by
  refine Step.Mirrors.bind (related_gather (Step.Mirrors.congruence _) (fun t found => ?_) _)
    fun found => ?_
  · split
    · exact mirrors_readDurationMember found
    · exact .refl _
  · split
    · exact .refl _
    · exact mirrors_invalid _

theorem mirrors_readCalendar :
    Step.Mirrors (Renamed a b) (readCalendar ⟨a, field⟩) (readCalendar ⟨b, field⟩) := by
  refine (Step.Mirrors.refl _).bind fun name => ?_
  split
  · exact .refl _
  · exact mirrors_invalid _

theorem mirrors_readZone :
    Step.Mirrors (Renamed a b) (readZone ⟨a, field⟩) (readZone ⟨b, field⟩) := by
  refine (Step.Mirrors.refl _).bind fun id => ?_
  split
  · exact .refl _
  · exact mirrors_invalid _

theorem mirrors_readValueFrom (tag : Tag) (t : Token) :
    Step.Mirrors (Renamed a b) (readValueFrom s nested ⟨a, field⟩ tag t)
      (readValueFrom s nested ⟨b, field⟩ tag t) := by
  unfold readValueFrom
  split
  · exact .refl _
  · exact .refl _
  · exact (mirrors_number _).map _
  · exact (mirrors_number _).map _
  · exact mirrors_readDuration.map _
  · exact mirrors_readCalendar.map _
  · exact mirrors_readZone.map _
  · refine Step.Mirrors.map _ (related_readElements (Step.Mirrors.congruence _) fun t => ?_)
    split
    · exact .refl _
    · exact mirrors_wrongToken _ _
  · refine Step.Mirrors.map _ (related_readElements (Step.Mirrors.congruence _) fun t => ?_)
    split
    · exact .refl _
    · exact mirrors_wrongToken _ _
  · exact .refl _
  · exact mirrors_wrongToken _ _

theorem mirrors_readValue (tag : Tag) :
    Step.Mirrors (Renamed a b) (readValue s nested ⟨a, field⟩ tag)
      (readValue s nested ⟨b, field⟩ tag) := by
  refine (Step.Mirrors.refl _).bind fun o => ?_
  split
  · exact .refl _
  · exact .refl _
  · exact (mirrors_readValueFrom tag _).map _

theorem mirrors_readNext (c : Column) :
    Step.Mirrors (Renamed (s.name m) (s.name n)) (readNext s nested m c) (readNext s nested n c) := by
  refine (Step.Mirrors.refl _).bind fun o => ?_
  split
  · refine (Step.Mirrors.refl _).bind fun name => ?_
    split
    · exact (mirrors_readValue c.tag).bind fun _ => .refl _
    · exact .throw (.orderMismatch _ _)
  · exact .throw (.orderMismatch _ _)

theorem mirrors_readCanonical (columns : List Column) :
    Step.Mirrors (Renamed (s.name m) (s.name n)) (readCanonical s nested m columns)
      (readCanonical s nested n columns) := by
  refine (Step.Mirrors.mapM mirrors_readNext columns).bind fun entries =>
    (Step.Mirrors.refl _).bind fun o => ?_
  split
  · exact .refl _
  · exact (Step.Mirrors.refl _).bind fun name => .throw (.unknownField _)
  · exact .refl _

theorem mirrors_readNamed (slots : List Slot) :
    Step.Mirrors (Renamed (s.name m) (s.name n)) (readNamed s nested m slots)
      (readNamed s nested n slots) := by
  refine (Step.Mirrors.refl _).bind fun name => ?_
  split
  · exact .refl _
  · dsimp only
    split
    · exact mirrors_invalid _
    · exact (mirrors_readValue _).bind fun _ => .refl _

theorem mirrors_readByName (columns : List Column) :
    Step.Mirrors (Renamed (s.name m) (s.name n)) (readByName s nested m columns)
      (readByName s nested n columns) := by
  refine Step.Mirrors.bind (related_gather (Step.Mirrors.congruence _) (fun t slots => ?_) _)
    fun _ => .refl _
  split
  · exact mirrors_readNamed slots
  · exact .refl _

end

/-- Models with the same columns are read from the same documents, with the same entries. -/
theorem mirrors_readRecord
    (h : Mirrors (Renamed (s.name m) (s.name n)) (s.columns m) (s.columns n)) (options : Options) :
    Step.Mirrors (Renamed (s.name m) (s.name n)) (RecordOf.entries <$> readRecord s options m)
      (RecordOf.entries <$> readRecord s options n) := by
  have hlevels : Step.Mirrors (Renamed (s.name m) (s.name n))
      (RecordOf.entries <$> readLevels s options (options.depth + 1) m)
      (RecordOf.entries <$> readLevels s options (options.depth + 1) n) := by
    rw [readLevels, readLevels, map_bind, map_bind]
    refine (Step.Mirrors.ofExcept h).bind fun columns => ?_
    cases options.order with
    | canonical =>
      simp only [map_bind, map_pure, bind_pure]
      exact mirrors_readCanonical columns
    | byName =>
      simp only [map_bind, map_pure, bind_pure]
      exact mirrors_readByName columns
  have hbody (t : Option Token) : Step.Mirrors (Renamed (s.name m) (s.name n))
      (RecordOf.entries <$> if t = some .startObject then readLevels s options (options.depth + 1) m
        else throw (.notAnObject (s.name m) (Token.foundText t)))
      (RecordOf.entries <$> if t = some .startObject then readLevels s options (options.depth + 1) n
        else throw (.notAnObject (s.name n) (Token.foundText t))) := by
    split
    · exact hlevels
    · exact (Step.Mirrors.throw (.notAnObject _)).map _
  rw [readRecord, readRecord, map_bind, map_bind]
  refine (Step.Mirrors.refl _).bind fun p => ?_
  cases p.current with
  | some t =>
    dsimp only
    rw [map_bind, map_bind]
    exact (Step.Mirrors.refl _).bind hbody
  | none =>
    dsimp only
    rw [map_bind, map_bind]
    exact (Step.Mirrors.refl _).bind hbody

/-! ## Trees -/

section

variable {nested : ObjectReading}

theorem mirrors_required {α : Type} (reason : Reason) (o : Option α) :
    Mirrors (Renamed a b) (required ⟨a, field⟩ reason o) (required ⟨b, field⟩ reason o) := by
  cases o with
  | none => exact .error (.invalidValue _ _)
  | some x => exact .refl _

theorem mirrors_wrongTree {α : Type} (tag : Tag) (t : Tree) :
    Mirrors (Renamed a b) (wrongTree s ⟨a, field⟩ tag t : Except ModelError α)
      (wrongTree s ⟨b, field⟩ tag t) :=
  .error (.typeMismatch _ _ _)

theorem mirrors_treeDuration (members : List (String × Tree)) :
    Mirrors (Renamed a b) (treeDuration ⟨a, field⟩ members) (treeDuration ⟨b, field⟩ members) :=
  (mirrors_required _ _).bind fun _ => (mirrors_required _ _).bind fun _ =>
    (mirrors_required _ _).bind fun _ => .refl _

theorem mirrors_treeText (t : Tree) :
    Mirrors (Renamed a b) (treeText s ⟨a, field⟩ t) (treeText s ⟨b, field⟩ t) := by
  cases t with
  | string => exact .refl _
  | _ => exact mirrors_wrongTree _ _

theorem mirrors_treeModel (k : ModelId) (t : Tree) :
    Mirrors (Renamed a b) (treeModel s nested ⟨a, field⟩ k t)
      (treeModel s nested ⟨b, field⟩ k t) := by
  cases t with
  | object => exact .refl _
  | _ => exact mirrors_wrongTree _ _

theorem mirrors_treeValue (tag : Tag) (t : Tree) :
    Mirrors (Renamed a b) (treeValue s nested ⟨a, field⟩ tag t)
      (treeValue s nested ⟨b, field⟩ tag t) := by
  unfold treeValue
  split
  · exact .refl _
  · exact .refl _
  · split
    · exact (mirrors_required _ _).map _
    · exact mirrors_wrongTree _ _
  · split
    · exact .refl _
    · exact mirrors_wrongTree _ _
  · exact (mirrors_treeDuration _).map _
  · exact (mirrors_required _ _).map _
  · exact (mirrors_required _ _).map _
  · exact (Mirrors.mapM mirrors_treeText _).map _
  · exact (Mirrors.mapM (mirrors_treeModel _) _).map _
  · exact .refl _
  · exact mirrors_wrongTree _ _

theorem mirrors_treeEntry (members : List (String × Tree)) (c : Column) :
    Mirrors (Renamed (s.name m) (s.name n)) (treeEntry s nested m members c)
      (treeEntry s nested n members c) := by
  unfold treeEntry
  split
  · exact .refl _
  · exact .refl _
  · exact (mirrors_treeValue c.tag _).bind fun _ => .refl _

end

/-- Models with the same columns are read from the same trees, with the same entries. -/
theorem mirrors_ofTree (h : Mirrors (Renamed (s.name m) (s.name n)) (s.columns m) (s.columns n))
    (depth : Nat) (t : Tree) :
    Mirrors (Renamed (s.name m) (s.name n)) (RecordOf.entries <$> ofTree s depth m t)
      (RecordOf.entries <$> ofTree s depth n t) := by
  cases t with
  | object members =>
    simp only [ofTree, ofMembers, map_bind, map_pure, bind_pure]
    exact h.bind fun columns => .mapM (mirrors_treeEntry members) columns
  | _ => exact .error (.notAnObject _)

/-! ## Writes -/

theorem mirrors_mismatch (v : Value) (tag : Tag) :
    Step.Mirrors (Renamed a b) (mismatch s v ⟨a, field⟩ tag) (mismatch s v ⟨b, field⟩ tag) :=
  .throw (.typeMismatch _ _ _)

theorem mirrors_elements {items : List Value} {one list : Tag}
    (h : ∀ v ∈ items, Step.Mirrors (Renamed a b) ((format s).value v ⟨a, field⟩ one)
      ((format s).value v ⟨b, field⟩ one)) :
    Step.Mirrors (Renamed a b) ((format s).elements items ⟨a, field⟩ one list)
      ((format s).elements items ⟨b, field⟩ one list) := by
  induction items with
  | nil => exact .refl _
  | cons v items ih =>
    obtain ⟨hv, hitems⟩ := List.forall_mem_cons.1 h
    rw [Format.elements, Format.elements]
    split
    · exact hv.bind fun _ => ih hitems
    · exact mirrors_mismatch _ _

theorem mirrors_array {x y : Move Unit} (h : Step.Mirrors (Renamed a b) x y) :
    Step.Mirrors (Renamed a b) (array x) (array y) :=
  (Step.Mirrors.refl _).bind fun _ => h.bind fun _ => .refl _

theorem mirrors_value (v : Value) (tag : Tag) :
    Step.Mirrors (Renamed a b) ((format s).value v ⟨a, field⟩ tag)
      ((format s).value v ⟨b, field⟩ tag) := by
  induction v, tag using Value.writing_induction with
  | mismatch v tag hsuits =>
    rw [Format.value_of_not_suits _ hsuits, Format.value_of_not_suits _ hsuits]
    exact mirrors_mismatch _ _
  | bool | str | int | long | duration | calendar | zone => exact .refl _
  | strList items ih => exact mirrors_array (mirrors_elements ih)
  | modelList m items ih => exact mirrors_array (mirrors_elements ih)
  | model r =>
    rw [Format.value_model, Format.value_model]
    exact .refl _

/-- Records that have the same for every name are written as the same text, if the models have the
same columns. -/
theorem mirrors_ofRecord {r r' : Record}
    (h : Mirrors (Renamed (s.name r.model) (s.name r'.model)) (s.columns r.model)
      (s.columns r'.model)) (hget : ∀ name, r.get name = r'.get name) :
    Mirrors (Renamed (s.name r.model) (s.name r'.model)) (ofRecord s r) (ofRecord s r') := by
  have hcolumn (c : Column) : Step.Mirrors (Renamed (s.name r.model) (s.name r'.model))
      (column s r.model ((format s).writings r.entries) c)
      (column s r'.model ((format s).writings r'.entries) c) := by
    rw [column_writings, column_writings, hget c.name]
    refine (Step.Mirrors.refl _).bind fun _ => ?_
    cases r'.get c.name with
    | none => exact .refl _
    | some v => exact mirrors_value v c.tag
  have hwrite : Step.Mirrors (Renamed (s.name r.model) (s.name r'.model)) (write s r)
      (write s r') := by
    refine (Step.Mirrors.ofExcept h).bind fun cs => (Step.Mirrors.refl _).bind fun _ => ?_
    exact (Step.Mirrors.forM hcolumn cs).bind fun _ => .refl _
  rw [ofRecord, ofRecord]
  obtain heq | ⟨e, f, d, he, hf, hrenamed⟩ := hwrite .empty
  · rw [heq]
    exact .refl _
  · rw [he, hf]
    exact .error hrenamed

end Document

/-! ## The order of declaration -/

namespace Schema

variable {s : Schema} {m n : ModelId}

/-- Models that expose the same fields have one catalog, which goes up in the order of the bytes of
the names and has just the exposed fields of each. They have the same columns, or none on account of
the same field. Records that have the same for every name are written alike, and whatever is read is
read alike and with the same entries: where the one fails, the other does, for the same reason. -/
theorem order_irrelevant
    (h : ((s.exposed m).map FieldDecl.key).Perm ((s.exposed n).map FieldDecl.key))
    (hdistinct : ((s.exposed m).map FieldDecl.name).Nodup) :
    (s.catalog m).map FieldDecl.key = (s.catalog n).map FieldDecl.key ∧
    ((s.catalog m).Pairwise fun d e => Utf8.encode d.name < Utf8.encode e.name) ∧
    (s.catalog m).Perm (s.exposed m) ∧ (s.catalog n).Perm (s.exposed n) ∧
    ((∃ cs, s.columns m = .ok cs ∧ s.columns n = .ok cs) ∨ ∃ field shape,
      s.columns m = .error (.unsupportedField ⟨s.name m, field⟩ shape) ∧
      s.columns n = .error (.unsupportedField ⟨s.name n, field⟩ shape)) ∧
    (∀ r r' : Record, r.model = m → r'.model = n → (∀ name, r.get name = r'.get name) →
      Mirrors (Renamed (s.name m) (s.name n)) (Binary.bytes s r) (Binary.bytes s r') ∧
      Mirrors (Renamed (s.name m) (s.name n)) (Document.ofRecord s r) (Document.ofRecord s r')) ∧
    (∀ limits, Step.Mirrors (Renamed (s.name m) (s.name n))
      (RecordOf.entries <$> Binary.readRecord s limits m)
      (RecordOf.entries <$> Binary.readRecord s limits n)) ∧
    (∀ options, Step.Mirrors (Renamed (s.name m) (s.name n))
      (RecordOf.entries <$> Document.readRecord s options m)
      (RecordOf.entries <$> Document.readRecord s options n)) ∧
    ∀ depth t, Mirrors (Renamed (s.name m) (s.name n))
      (RecordOf.entries <$> Document.ofTree s depth m t)
      (RecordOf.entries <$> Document.ofTree s depth n t) := by
  have hcatalog := catalog_eq h hdistinct
  have hcolumns := columns_eq_of_catalog hcatalog
  have hmirrors : Mirrors (Renamed (s.name m) (s.name n)) (s.columns m) (s.columns n) := by
    obtain ⟨cs, hm, hn⟩ | ⟨field, shape, hm, hn⟩ := hcolumns
    · exact .inl (hm.trans hn.symm)
    · exact .inr ⟨_, _, hm, hn, .unsupportedField _ _⟩
  refine ⟨hcatalog, (ascending_catalog hdistinct).imp Utf8.encode_lt_encode, s.perm_catalog m,
    s.perm_catalog n, hcolumns, ?_, Binary.mirrors_readRecord hmirrors,
    Document.mirrors_readRecord hmirrors, Document.mirrors_ofTree hmirrors⟩
  rintro r r' rfl rfl hget
  exact ⟨Binary.mirrors_bytes hmirrors hget, Document.mirrors_ofRecord hmirrors hget⟩

/-- Two models that differ in the order of their fields and in what they hide. -/
def twins : Schema :=
  ⟨[⟨"Job", [⟨"a1", .str, true, .str ""⟩, ⟨"B", .list (.model ⟨0⟩), true, .list []⟩,
      ⟨"_id", .long, true, .long 0⟩, ⟨"a", .optional .int, true, .absent⟩]⟩,
    ⟨"Task", [⟨"a", .optional .int, true, .absent⟩,
      ⟨"scratch", .foreign "f32", false, .foreign "0.0"⟩, ⟨"a1", .str, true, .str "x"⟩,
      ⟨"_id", .long, true, .long 7⟩, ⟨"B", .list (.model ⟨0⟩), true, .list []⟩]⟩]⟩

theorem order_irrelevant_twins :
    ((twins.exposed ⟨0⟩).map FieldDecl.key).Perm ((twins.exposed ⟨1⟩).map FieldDecl.key) ∧
    ((twins.exposed ⟨0⟩).map FieldDecl.name).Nodup ∧
    (twins.catalog ⟨1⟩).map FieldDecl.name = ["B", "_id", "a", "a1"] ∧
    (twins.catalog ⟨0⟩).map FieldDecl.key = (twins.catalog ⟨1⟩).map FieldDecl.key ∧
    Step.Mirrors (Renamed "Job" "Task")
      (RecordOf.entries <$> Document.readRecord twins .standard ⟨0⟩)
      (RecordOf.entries <$> Document.readRecord twins .standard ⟨1⟩) := by
  have h : ((twins.exposed ⟨0⟩).map FieldDecl.key).Perm
      ((twins.exposed ⟨1⟩).map FieldDecl.key) := by decide
  have hdistinct : ((twins.exposed ⟨0⟩).map FieldDecl.name).Nodup := by decide
  obtain ⟨hcatalog, -, -, -, -, -, -, hread, -⟩ := order_irrelevant h hdistinct
  exact ⟨h, hdistinct, by decide, hcatalog, hread .standard⟩

end Schema

end Wireform
