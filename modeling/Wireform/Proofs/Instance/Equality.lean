import Mathlib.Logic.Relation
import Wireform.Proofs.Document.Formats
import Wireform.Proofs.Instance.Typed
import Wireform.Proofs.Schema.Checking

/-!
# Equality and encodings

Equality of instances, their hashes and both of their encodings depend only on their records, and
conversely the record of a typed instance can be told from either encoding. So instances are equal
just if they are encoded alike (`InstanceOf.equal_iff_encodings`). What is not exposed does not
occur in a record, however deep it lies (`Cell.HiddenChange.value_eq`).
-/

namespace Wireform

variable {s : Schema} {m : ModelId}

/-! ## Encodings tell records apart -/

/-- Records of one model with the same bytes have the same normal form. -/
theorem Binary.normal_eq_of_bytes {r r' : Record} {bs : List UInt8} (h : r.WellTyped s)
    (h' : r'.WellTyped s) (hmodel : r.model = r'.model) (hbs : bytes s r = .ok bs)
    (hbs' : bytes s r' = .ok bs) : r.normal s = r'.normal s := by
  -- Limits that both records keep to.
  let limits : Limits := ⟨max (r.normal s).depth (r'.normal s).depth,
    max (r.normal s).extent (r'.normal s).extent⟩
  obtain ⟨c, hread, -⟩ : ∃ c, readRecord s limits r.model (.ofBytes bs) = .ok (r.normal s) c ∧ _ :=
    readRecord_bytes h (Nat.le_max_left _ _) (Nat.le_max_left _ _) hbs
  obtain ⟨c', hread', -⟩ :
      ∃ c', readRecord s limits r'.model (.ofBytes bs) = .ok (r'.normal s) c' ∧ _ :=
    readRecord_bytes h' (Nat.le_max_right _ _) (Nat.le_max_right _ _) hbs'
  rw [hmodel] at hread
  exact (EStateM.Result.ok.inj (hread.symm.trans hread')).1

/-- Records of one model with the same text have the same normal form. -/
theorem Document.normal_eq_of_ofRecord {r r' : Record} {text : String} (h : r.WellTyped s)
    (h' : r'.WellTyped s) (hmodel : r.model = r'.model) (htext : ofRecord s r = .ok text)
    (htext' : ofRecord s r' = .ok text) : r.normal s = r'.normal s := by
  have hspelled := Except.ok.inj (htext.symm.trans (ofRecord_eq h))
  have hspelled' := Except.ok.inj (htext'.symm.trans (ofRecord_eq h'))
  obtain ⟨p, hread⟩ := readRecord_ofRecord h
    (Nat.le_max_left (r.normal s).depth (r'.normal s).depth) .canonical
  obtain ⟨p', hread'⟩ := readRecord_ofRecord h'
    (Nat.le_max_right (r.normal s).depth (r'.normal s).depth) .canonical
  rw [hmodel, ← hspelled, hspelled'] at hread
  exact (EStateM.Result.ok.inj (hread.symm.trans hread')).1

/-! ## Equality and hashes -/

namespace InstanceOf

variable {i j : Instance}

/-- Instances have the same record if they have the same model and the same exposed values. -/
theorem record_eq_iff : i.record s = j.record s ↔
    i.model = j.model ∧ ∀ d ∈ s.catalog i.model, i.get s d.name = j.get s d.name := by
  rw [record, record, RecordOf.mk.injEq]
  refine and_congr_right fun hmodel => ?_
  rw [← hmodel]
  constructor
  · intro hmap d hd
    exact (Prod.mk.inj (List.map_inj_left.1 hmap d hd)).2
  · intro hget
    exact List.map_congr_left fun d hd => congrArg (Prod.mk d.name) (hget d hd)

/-- The equality test compares the records. -/
theorem equal_iff : i.equal s j = true ↔ i.record s = j.record s := by
  rw [record_eq_iff, equal, Bool.and_eq_true, decide_eq_true_iff, List.all_eq_true]
  simp only [decide_eq_true_iff]

/-- Instances of the same record have the same hash. -/
theorem hash_eq (h : i.record s = j.record s) (field : String → Option Value → UInt64) :
    i.hash s field = j.hash s field := by
  have hcontents : i.contents s = j.contents s := congrArg RecordOf.entries h
  rw [hash, hash, hcontents]

end InstanceOf

/-! ## Fields that are not exposed -/

namespace Cell

/-- Another cell is put in one field that is not exposed, in an instance or in what it holds. -/
inductive HiddenChange (s : Schema) : Cell → Cell → Prop
  | put {i : Instance} {name : String} (c : Cell) : (∀ d ∈ s.catalog i.model, d.name ≠ name) →
    HiddenChange s (.model i) (.model (i.put name c))
  | field {i : Instance} {name : String} {c c' : Cell} : i.fields.lookup name = some c →
    HiddenChange s c c' → HiddenChange s (.model i) (.model (i.put name c'))
  | present {c c' : Cell} : HiddenChange s c c' → HiddenChange s (.present c) (.present c')
  | item {before after : List Cell} {c c' : Cell} : HiddenChange s c c' →
    HiddenChange s (.list (before ++ c :: after)) (.list (before ++ c' :: after))

theorem itemValues_append (xs ys : List Cell) :
    itemValues s (xs ++ ys) = itemValues s xs ++ itemValues s ys := by
  induction xs with
  | nil => rfl
  | cons c xs ih => rw [List.cons_append, itemValues, itemValues, ih, List.append_assoc]

/-- A change in hidden fields does not show in the value of a cell. -/
theorem HiddenChange.value_eq {c c' : Cell} (h : HiddenChange s c c') :
    c.value s = c'.value s := by
  induction h with
  | @put i name c hhidden =>
    have hrecord : i.record s = (i.put name c).record s := by
      refine InstanceOf.record_eq_iff.2 ⟨rfl, fun d hd => ?_⟩
      rw [InstanceOf.get_put_of_ne (hhidden d hd)]
    rw [InstanceOf.value_model, InstanceOf.value_model, hrecord]
  | @field i name c c' hlookup _ ih =>
    have hrecord : i.record s = (i.put name c').record s := by
      refine InstanceOf.record_eq_iff.2 ⟨rfl, fun d _ => ?_⟩
      by_cases hname : d.name = name
      · simp [InstanceOf.get, InstanceOf.lookup_put, hname, hlookup, ih]
      · rw [InstanceOf.get_put_of_ne hname]
    rw [InstanceOf.value_model, InstanceOf.value_model, hrecord]
  | present _ ih => rw [value, value, ih]
  | item _ ih => simp only [value, itemValues_append, itemValues, ih]

end Cell

namespace InstanceOf

variable {i j : Instance}

/-- However many fields are changed that are not exposed, the record stays as it is. -/
theorem record_eq_of_hiddenChanges
    (h : Relation.ReflTransGen (Cell.HiddenChange s) (.model i) (.model j)) :
    i.record s = j.record s := by
  have hvalue : ∀ c, Relation.ReflTransGen (Cell.HiddenChange s) (.model i) c →
      Cell.value s (.model i) = c.value s := by
    intro c h
    induction h with
    | refl => rfl
    | tail _ hchange ih => exact ih.trans hchange.value_eq
  have hvalue := hvalue _ h
  rw [value_model, value_model] at hvalue
  exact Value.model.inj (Option.some.inj hvalue)

/-! ## Typed instances -/

theorem Typed.model_record (h : i.Typed s m) : (i.record s).model = m := by
  cases h
  rfl

/-- Instances of one typed model are equal just if they have the same record, the same binary form
or the same text, and hash alike if they are equal. None of this depends on what is not exposed. -/
theorem equal_iff_encodings (hvalid : s.validate m = .ok ())
    (hnames : ∀ n, s.Reaches m n → ((s.catalog n).map FieldDecl.name).Nodup)
    (hi : i.Typed s m) (hj : j.Typed s m) :
    (i.equal s j = true ↔ i.record s = j.record s) ∧
    ((i.record s).Storable → (j.record s).Storable →
      ∃ bs bs', Binary.bytes s (i.record s) = .ok bs ∧ Binary.bytes s (j.record s) = .ok bs' ∧
        (i.equal s j = true ↔ bs = bs')) ∧
    (∃ text text', Document.ofRecord s (i.record s) = .ok text ∧
      Document.ofRecord s (j.record s) = .ok text' ∧ (i.equal s j = true ↔ text = text')) ∧
    (i.equal s j = true → ∀ field, i.hash s field = j.hash s field) ∧
    ∀ i', Relation.ReflTransGen (Cell.HiddenChange s) (.model i) (.model i') →
      i.record s = i'.record s ∧ i.equal s j = i'.equal s j ∧
        ∀ field, i.hash s field = i'.hash s field := by
  have hri := hi.wellTyped_record hvalid hnames
  have hrj := hj.wellTyped_record hvalid hnames
  have hmodel : (i.record s).model = (j.record s).model :=
    hi.model_record.trans hj.model_record.symm
  refine ⟨equal_iff, fun hsi hsj => ?_, ?_, fun h => hash_eq (equal_iff.1 h), fun i' hi' => ?_⟩
  · obtain ⟨bs, hbs⟩ := (Binary.exists_bytes_iff hri).2 (by rwa [normal_record])
    obtain ⟨bs', hbs'⟩ := (Binary.exists_bytes_iff hrj).2 (by rwa [normal_record])
    refine ⟨bs, bs', hbs, hbs', equal_iff.trans ⟨fun h => ?_, ?_⟩⟩
    · rw [h] at hbs
      exact Except.ok.inj (hbs.symm.trans hbs')
    · rintro rfl
      have hnormal := Binary.normal_eq_of_bytes hri hrj hmodel hbs hbs'
      rwa [normal_record, normal_record] at hnormal
  · have htext := Document.ofRecord_eq hri
    have htext' := Document.ofRecord_eq hrj
    refine ⟨_, _, htext, htext', equal_iff.trans ⟨fun h => by rw [h], fun h => ?_⟩⟩
    rw [h] at htext
    have hnormal := Document.normal_eq_of_ofRecord hri hrj hmodel htext htext'
    rwa [normal_record, normal_record] at hnormal
  · have hrecord := record_eq_of_hiddenChanges hi'
    refine ⟨hrecord, ?_, hash_eq hrecord⟩
    rw [Bool.eq_iff_iff, equal_iff, equal_iff, hrecord]

end InstanceOf

section

/-- One model, whose instances have parts of the same model and a field that is not exposed and has
no encoding. -/
def Schema.tasks : Schema :=
  ⟨[⟨"Task", [⟨"name", .str, true, .str ""⟩, ⟨"parts", .list (.model ⟨0⟩), true, .list []⟩,
    ⟨"scratch", .foreign "f32", false, .foreign "0.0"⟩]⟩]⟩

/-- A task with its parts; the scratch field is not exposed. -/
def InstanceOf.task (name : String) (parts : List Instance) (scratch : String) : Instance :=
  ⟨⟨0⟩, [("name", .str name), ("parts", .list (parts.map .model)), ("scratch", .foreign scratch)]⟩

theorem validate_tasks : Schema.tasks.validate ⟨0⟩ = .ok () := by
  refine Schema.validate_eq_ok_iff.2 fun n _ => ?_
  obtain ⟨_ | n⟩ := n
  · unfold Schema.Supported
    decide
  · simp [Schema.Supported, Schema.catalog_eq_nil, Schema.tasks]

theorem distinct_tasks (n : ModelId) : ((Schema.tasks.catalog n).map FieldDecl.name).Nodup := by
  obtain ⟨_ | n⟩ := n
  · decide
  · simp [Schema.catalog_eq_nil, Schema.tasks]

theorem typed_task {parts : List Instance} (h : ∀ i ∈ parts, i.Typed Schema.tasks ⟨0⟩)
    (name scratch : String) : (InstanceOf.task name parts scratch).Typed Schema.tasks ⟨0⟩ := by
  refine Cell.Fits.model (i := InstanceOf.task name parts scratch) rfl fun d hd c hc => ?_
  have hd : d ∈ [_, _, _] := hd
  simp only [List.mem_cons, List.not_mem_nil, or_false] at hd
  rcases hd with rfl | rfl | rfl
  · cases hc
    exact .str name
  · cases hc
    exact .list (List.forall_mem_map.2 h)
  · cases hc
    exact .foreign _ scratch

/-- The scratch of a part does not matter; its name does. -/
theorem equal_iff_encodings_tasks :
    let i := InstanceOf.task "a" [.task "b" [] "0.0"] "0.0"
    let i' := InstanceOf.task "a" [.task "b" [] "1.0"] "0.0"
    let j := InstanceOf.task "a" [.task "c" [] "0.0"] "0.0"
    i.Typed Schema.tasks ⟨0⟩ ∧ j.Typed Schema.tasks ⟨0⟩ ∧
      (i.record Schema.tasks).Storable ∧ (j.record Schema.tasks).Storable ∧
      i.record Schema.tasks = i'.record Schema.tasks ∧
      (∃ bs bs', Binary.bytes Schema.tasks (i.record Schema.tasks) = .ok bs ∧
        Binary.bytes Schema.tasks (j.record Schema.tasks) = .ok bs' ∧ bs ≠ bs') ∧
      ∃ text text', Document.ofRecord Schema.tasks (i.record Schema.tasks) = .ok text ∧
        Document.ofRecord Schema.tasks (j.record Schema.tasks) = .ok text' ∧ text ≠ text' := by
  intro i i' j
  have hi : i.Typed Schema.tasks ⟨0⟩ := typed_task (by simpa using typed_task (by simp) _ _) _ _
  have hj : j.Typed Schema.tasks ⟨0⟩ := typed_task (by simpa using typed_task (by simp) _ _) _ _
  have hsi : (i.record Schema.tasks).Storable := Value.storable_of_extent_lt (by decide)
  have hsj : (j.record Schema.tasks).Storable := Value.storable_of_extent_lt (by decide)
  obtain ⟨-, hbinary, htext, -, hhidden⟩ :=
    InstanceOf.equal_iff_encodings validate_tasks (fun n _ => distinct_tasks n) hi hj
  have hne : ¬ i.equal Schema.tasks j = true := by decide
  obtain ⟨bs, bs', hbs, hbs', hbytes⟩ := hbinary hsi hsj
  obtain ⟨text, text', htext, htext', htexts⟩ := htext
  have hpart : Cell.HiddenChange Schema.tasks (.model (.task "b" [] "0.0"))
      (.model (.put (.task "b" [] "0.0") "scratch" (.foreign "1.0"))) := .put _ (by decide)
  have hparts : Cell.HiddenChange Schema.tasks (.list ([] ++ _ :: [])) (.list ([] ++ _ :: [])) :=
    .item hpart
  have hchange : Cell.HiddenChange Schema.tasks (.model i) (.model i') :=
    .field (show i.fields.lookup "parts" = some _ from rfl) hparts
  exact ⟨hi, hj, hsi, hsj, (hhidden i' (.single hchange)).1, ⟨bs, bs', hbs, hbs', mt hbytes.2 hne⟩,
    text, text', htext, htext', mt htexts.2 hne⟩

end

end Wireform
