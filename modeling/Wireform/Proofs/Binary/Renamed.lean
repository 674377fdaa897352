import Wireform.Proofs.Binary.Reuse
import Wireform.Proofs.Mirrors

/-!
# Binary for a model of another name

Everything that is read or written for a field of the model `a` is read or written in the same way for
the field of that name of the model `b`; only a failure names the other model. What lies within a
nested record does not know for which field it is read or written.
-/

namespace Wireform

namespace Emission

variable {ε : Type} {E : ε → ε → Prop}

/-- Both send out the same bytes, and then end in the same way or fail. -/
def Mirrors (E : ε → ε → Prop) (x y : Emission ε) : Prop :=
  x = y ∨ ∃ bytes e f, x = ⟨bytes, some e⟩ ∧ y = ⟨bytes, some f⟩ ∧ E e f

namespace Mirrors

theorem refl (x : Emission ε) : Mirrors E x x := .inl rfl

theorem fail {e f : ε} (h : E e f) : Mirrors E (.fail e) (.fail f) := .inr ⟨[], e, f, rfl, rfl, h⟩

variable {x y : Emission ε}

theorem append {x' y' : Emission ε} (h : Mirrors E x y) (h' : Mirrors E x' y') :
    Mirrors E (x ++ x') (y ++ y') := by
  obtain rfl | ⟨bytes, e, f, rfl, rfl, he⟩ := h
  · obtain rfl | ⟨bytes', e, f, rfl, rfl, he⟩ := h'
    · exact refl _
    · obtain ⟨bytes, _ | e'⟩ := x
      · exact .inr ⟨bytes ++ bytes', e, f, rfl, rfl, he⟩
      · exact refl _
  · exact .inr ⟨bytes, e, f, rfl, rfl, he⟩

theorem concat {α : Type} {f g : α → Emission ε} (h : ∀ a, Mirrors E (f a) (g a)) (as : List α) :
    Mirrors E (.concat (as.map f)) (.concat (as.map g)) := by
  induction as with
  | nil => exact refl _
  | cons a as ih => exact (h a).append ih

theorem made (h : Mirrors E x y) : Wireform.Mirrors E x.made y.made := by
  obtain rfl | ⟨bytes, e, f, rfl, rfl, he⟩ := h
  · exact .refl _
  · exact .error he

end Mirrors

end Emission

namespace Binary

variable {s : Schema} {limits : Limits} {a b field : String}

/-! ## Reads -/

theorem mirrors_varint (w : Varint.Width) :
    Step.Mirrors (Renamed a b) (varint w ⟨a, field⟩) (varint w ⟨b, field⟩) := by
  refine .adaptExcept (fun e => ?_) _
  cases e with
  | buffer => exact .inl rfl
  | overflow | tooLong => exact .inr (.invalidValue _ _)

theorem mirrors_invalid {α : Type} (reason : Reason) :
    Step.Mirrors (Renamed a b) (invalid ⟨a, field⟩ reason : Read α) (invalid ⟨b, field⟩ reason) :=
  .throw (.invalidValue _ _)

theorem mirrors_readFlag :
    Step.Mirrors (Renamed a b) (readFlag ⟨a, field⟩) (readFlag ⟨b, field⟩) := by
  refine (Step.Mirrors.refl _).bind fun byte => ?_
  split
  · exact .refl _
  · split
    · exact .refl _
    · exact mirrors_invalid _

theorem mirrors_checkLength (n : Nat) :
    Step.Mirrors (Renamed a b) (checkLength limits ⟨a, field⟩ n)
      (checkLength limits ⟨b, field⟩ n) := by
  unfold checkLength
  split
  · exact .throw (.lengthExceeded _ _ _)
  · exact .refl _

theorem mirrors_readText :
    Step.Mirrors (Renamed a b) (readText limits ⟨a, field⟩) (readText limits ⟨b, field⟩) :=
  (mirrors_varint _).bind fun n => (mirrors_checkLength n).bind fun _ => .refl _

theorem mirrors_readLong : Step.Mirrors (Renamed a b) (readLong ⟨a, field⟩) (readLong ⟨b, field⟩) :=
  (mirrors_varint _).bind fun _ => .refl _

theorem mirrors_readDuration :
    Step.Mirrors (Renamed a b) (readDuration ⟨a, field⟩) (readDuration ⟨b, field⟩) := by
  refine mirrors_readLong.bind fun magnitude => (Step.Mirrors.refl _).bind fun ordinal => ?_
  split
  · exact .refl _
  · exact mirrors_invalid _

theorem mirrors_readCalendar :
    Step.Mirrors (Renamed a b) (readCalendar ⟨a, field⟩) (readCalendar ⟨b, field⟩) := by
  refine (mirrors_varint _).bind fun ordinal => ?_
  split
  · exact .refl _
  · exact mirrors_invalid _

theorem mirrors_readZone :
    Step.Mirrors (Renamed a b) (readZone limits ⟨a, field⟩) (readZone limits ⟨b, field⟩) := by
  refine mirrors_readText.bind fun id => ?_
  split
  · exact .refl _
  · exact mirrors_invalid _

theorem mirrors_readCount :
    Step.Mirrors (Renamed a b) (readCount limits ⟨a, field⟩) (readCount limits ⟨b, field⟩) := by
  refine (Step.Mirrors.refl _).bind fun n => ?_
  split
  · exact (mirrors_invalid _).bind fun _ => (mirrors_checkLength _).bind fun _ => .refl _
  · exact (mirrors_checkLength _).bind fun _ => .refl _

variable {nested : ModelId → Read Record}

/-- The name of the model is nowhere in a value that was read, only in errors. -/
theorem mirrors_readValue (tag : Tag) :
    Step.Mirrors (Renamed a b) (readValue limits nested ⟨a, field⟩ tag)
      (readValue limits nested ⟨b, field⟩ tag) := by
  cases tag with
  | bool => exact mirrors_readFlag.map _
  | str => exact mirrors_readText.map _
  | int | long | model => exact .refl _
  | duration => exact mirrors_readDuration.map _
  | calendar => exact mirrors_readCalendar.map _
  | zone => exact mirrors_readZone.map _
  | strList =>
    refine (mirrors_varint _).bind fun n => (mirrors_checkLength n).bind fun _ => ?_
    exact ((mirrors_readText.map _).times n).map _
  | modelList m => exact mirrors_readCount.bind fun n => .refl _

variable {m n : ModelId}

theorem mirrors_readEntry (c : Column) :
    Step.Mirrors (Renamed (s.name m) (s.name n)) (readEntry s limits nested m c)
      (readEntry s limits nested n c) := by
  refine mirrors_readFlag.bind fun present => ?_
  split
  · exact (mirrors_readValue c.tag).bind fun _ => .refl _
  · exact .refl _

/-- Models with the same columns are read from the same bytes, with the same entries. -/
theorem mirrors_readRecord
    (h : Mirrors (Renamed (s.name m) (s.name n)) (s.columns m) (s.columns n)) (limits : Limits) :
    Step.Mirrors (Renamed (s.name m) (s.name n)) (RecordOf.entries <$> readRecord s limits m)
      (RecordOf.entries <$> readRecord s limits n) := by
  simp only [readRecord, readLevels, map_bind, map_pure, bind_pure]
  exact (Step.Mirrors.ofExcept h).bind fun columns => .mapM mirrors_readEntry columns

/-! ## Writes -/

theorem mirrors_mismatch (v : Value) (tag : Tag) :
    Emission.Mirrors (Renamed a b) (mismatch s v ⟨a, field⟩ tag) (mismatch s v ⟨b, field⟩ tag) :=
  .fail (.typeMismatch _ _ _)

theorem mirrors_elements {items : List Value} {one list : Tag}
    (h : ∀ v ∈ items, Emission.Mirrors (Renamed a b) ((format s).value v ⟨a, field⟩ one)
      ((format s).value v ⟨b, field⟩ one)) :
    Emission.Mirrors (Renamed a b) ((format s).elements items ⟨a, field⟩ one list)
      ((format s).elements items ⟨b, field⟩ one list) := by
  induction items with
  | nil => exact .refl _
  | cons v items ih =>
    obtain ⟨hv, hitems⟩ := List.forall_mem_cons.1 h
    rw [Format.elements, Format.elements]
    split
    · exact hv.append (ih hitems)
    · exact mirrors_mismatch _ _

/-- The name of the model is nowhere in the bytes of a value, only in errors. -/
theorem mirrors_value (v : Value) (tag : Tag) :
    Emission.Mirrors (Renamed a b) ((format s).value v ⟨a, field⟩ tag)
      ((format s).value v ⟨b, field⟩ tag) := by
  induction v, tag using Value.writing_induction with
  | mismatch v tag hsuits =>
    rw [Format.value_of_not_suits _ hsuits, Format.value_of_not_suits _ hsuits]
    exact mirrors_mismatch _ _
  | bool | str | int | long | duration | calendar | zone => exact .refl _
  | strList items ih => exact (Emission.Mirrors.refl _).append (mirrors_elements ih)
  | modelList m items ih => exact (Emission.Mirrors.refl _).append (mirrors_elements ih)
  | model r =>
    rw [Format.value_model, Format.value_model]
    exact .refl _

/-- Records that have the same for every name are written as the same bytes, if the models have the
same columns. -/
theorem mirrors_bytes {r r' : Record}
    (h : Mirrors (Renamed (s.name r.model) (s.name r'.model)) (s.columns r.model)
      (s.columns r'.model)) (hget : ∀ name, r.get name = r'.get name) :
    Mirrors (Renamed (s.name r.model) (s.name r'.model)) (bytes s r) (bytes s r') := by
  rw [Encoder.bytes_eq_made, Encoder.bytes_eq_made]
  apply Emission.Mirrors.made
  obtain heq | ⟨e, f, he, hf, hrenamed⟩ := h
  · cases hcs : s.columns r'.model with
    | error e =>
      rw [record_of_error s (heq.trans hcs), record_of_error s hcs]
      exact .refl _
    | ok cs =>
      rw [record_eq s (heq.trans hcs), record_eq s hcs]
      refine .concat (fun c => ?_) cs
      rw [hget c.name]
      cases r'.get c.name with
      | none => exact .refl _
      | some v => exact (Emission.Mirrors.refl _).append (mirrors_value v c.tag)
  · rw [record_of_error s he, record_of_error s hf]
    exact .fail hrenamed

end Binary

end Wireform
