import Wireform.Binary.Codec
import Wireform.Proofs.Binary.Failures
import Wireform.Proofs.Schema.Checking
import Wireform.Proofs.Value.Regular

/-!
# What reading and writing in binary may come to

Whatever bytes are read, a record that is read is regular, and a failure speaks of an unsupported
field only if a model that is reached has one (`yields_readLevels`). The same is true of the
failures of a write (`blames_record`).
-/

namespace Wireform.Binary

open Value (Answers Regular)

variable {s : Schema} {limits : Limits} {root m : ModelId} {site : Site} {tag : Tag}
  {nested : ModelId → Read Record}

/-! ## Reading -/

theorem yields_take {α : Type} (x : Take α) :
    Step.Yields (fun _ => True) (s.Blames root) (take x) :=
  .adaptExcept x fun _ _ _ => nofun

theorem yields_varint (w : Varint.Width) (site : Site) :
    Step.Yields (fun _ => True) (s.Blames root) (varint w site) :=
  .adaptExcept _ fun e _ _ => by cases e <;> exact nofun

theorem yields_invalid {α : Type} {P : α → Prop} (reason : Reason) :
    Step.Yields P (s.Blames root) (invalid site reason) :=
  .throw fun _ _ => nofun

theorem yields_readFlag : Step.Yields (fun _ => True) (s.Blames root) (readFlag site) := by
  refine (yields_take _).bind fun b _ => ?_
  split
  · exact .pure trivial
  · split
    · exact .pure trivial
    · exact yields_invalid _

theorem yields_checkLength (n : Nat) :
    Step.Yields (fun _ => True) (s.Blames root) (checkLength limits site n) := by
  unfold checkLength
  split
  · exact .throw fun _ _ => nofun
  · exact .pure trivial

theorem yields_readText : Step.Yields (fun _ => True) (s.Blames root) (readText limits site) :=
  (yields_varint _ _).bind fun n _ => (yields_checkLength n).bind fun _ _ => yields_take _

theorem yields_readDuration : Step.Yields (fun _ => True) (s.Blames root) (readDuration site) := by
  have hlong : Step.Yields (fun _ => True) (s.Blames root) (readLong site) :=
    (yields_varint _ _).bind fun _ _ => .pure trivial
  refine hlong.bind fun magnitude _ => (yields_take _).bind fun ordinal _ => ?_
  split
  · exact .pure trivial
  · exact yields_invalid _

theorem yields_readCalendar : Step.Yields (fun _ => True) (s.Blames root) (readCalendar site) := by
  refine (yields_varint _ _).bind fun ordinal _ => ?_
  split
  · exact .pure trivial
  · exact yields_invalid _

theorem yields_readZone : Step.Yields (fun _ => True) (s.Blames root) (readZone limits site) := by
  refine yields_readText.bind fun id _ => ?_
  split
  · exact .pure trivial
  · exact yields_invalid _

theorem yields_readCount : Step.Yields (fun _ => True) (s.Blames root) (readCount limits site) := by
  refine (yields_take _).bind fun n _ => ?_
  have hcheck : Step.Yields (fun _ => True) (s.Blames root) (do
      checkLength limits site n.toInt.toNat
      return n.toInt.toNat) := (yields_checkLength _).bind fun _ _ => .pure trivial
  split
  · exact (yields_invalid (P := fun _ => True) _).bind fun _ _ => hcheck
  · exact hcheck

/-- Records of the models that the tag holds are read as they should be. -/
abbrev YieldsNested (s : Schema) (root : ModelId) (nested : ModelId → Read Record) (tag : Tag) :
    Prop :=
  ∀ n, tag.nested? = some n → Step.Yields (RecordOf.Regular s n) (s.Blames root) (nested n)

/-- A value that was read is regular, and a field that is reported as unsupported is one of a
reachable model. -/
theorem yields_readValue (h : YieldsNested s root nested tag) :
    Step.Yields (Regular s tag) (s.Blames root) (readValue limits nested site tag) := by
  cases tag with
  | bool => exact yields_readFlag.map fun b _ => .bool b
  | str => exact yields_readText.map fun t _ => .str t
  | int => exact (yields_take _).map fun n _ => .int n
  | long => exact (yields_take _).map fun n _ => .long n
  | duration => exact yields_readDuration.map fun d _ => .duration d
  | calendar => exact yields_readCalendar.map fun u _ => .calendar u
  | zone => exact yields_readZone.map fun z _ => .zone z
  | strList =>
    refine (yields_varint _ _).bind fun n _ => (yields_checkLength n).bind fun _ _ => ?_
    have helement : Step.Yields (Regular s .str) (s.Blames root)
        (Value.str <$> readText limits site) := yields_readText.map fun t _ => .str t
    exact (helement.times n).map fun items hitems => .strList hitems
  | modelList m =>
    refine yields_readCount.bind fun n _ => ?_
    have helement : Step.Yields (Regular s (.model m)) (s.Blames root)
        (Value.model <$> nested m) := (h m rfl).map fun r hr => hr
    exact (helement.times n).map fun items hitems => .modelList hitems
  | model m => exact (h m rfl).map fun r hr => hr

theorem yields_readEntry {c : Column} (h : YieldsNested s root nested c.tag) :
    Step.Yields (Answers (Regular s) c) (s.Blames root) (readEntry s limits nested m c) := by
  refine yields_readFlag.bind fun present _ => ?_
  split
  · refine (yields_readValue h).bind fun v hv => .pure ⟨rfl, fun w hw => ?_⟩
    cases hw
    exact hv
  · exact .pure ⟨rfl, nofun⟩

/-- A model that is reached leads to none that is not. -/
theorem yields_readLevels (levels : Nat) (hm : s.Reaches root m) :
    Step.Yields (RecordOf.Regular s m) (s.Blames root) (readLevels s limits levels m) := by
  induction levels generalizing m with
  | zero => exact .throw fun _ _ => nofun
  | succ levels ih =>
    refine (Step.Yields.ofExcept (Schema.yields_columns hm)).bind fun cs hcs => ?_
    refine (Step.Yields.mapM fun c hc => yields_readEntry fun n hn => ?_).bind fun entries h => ?_
    · exact ih (hm.column hcs hc hn)
    · exact .pure (Regular.of_answers hcs h)

/-! ## Writing -/

/-- Whatever keeps a value from being written, it is blamed on what `root` leads to. -/
abbrev BlamesOf (s : Schema) (root : ModelId) (e : Emission ModelError) : Prop :=
  ∀ f, e.failure = some f → s.Blames root f

theorem BlamesOf.append {a b : Emission ModelError} (ha : BlamesOf s root a)
    (hb : BlamesOf s root b) : BlamesOf s root (a ++ b) := by
  intro f hf
  rw [Emission.failure_append] at hf
  rcases Option.or_eq_some_iff.1 hf with hf | ⟨-, hf⟩
  · exact ha f hf
  · exact hb f hf

theorem BlamesOf.concat {es : List (Emission ModelError)} (h : ∀ e ∈ es, BlamesOf s root e) :
    BlamesOf s root (Emission.concat es) := by
  induction es with
  | nil => exact nofun
  | cons e es ih =>
    obtain ⟨he, hes⟩ := List.forall_mem_cons.1 h
    exact he.append (ih hes)

theorem blamesOf_bytes (bytes : List UInt8) : BlamesOf s root (.of bytes) := nofun

theorem blamesOf_mismatch (v : Value) (site : Site) (tag : Tag) :
    BlamesOf s root (mismatch s v site tag) := by
  rintro _ ⟨⟩ site shape h
  cases h

theorem blamesOf_buffer (e : Emission BufferError) : BlamesOf s root (ofBuffer e) := by
  obtain ⟨bytes, _ | e⟩ := e
  · exact nofun
  · rintro _ ⟨⟩ site shape h
    cases h

theorem blamesOf_elements {items : List Value} {one list : Tag}
    (h : ∀ v ∈ items, BlamesOf s root ((format s).value v site one)) :
    BlamesOf s root ((format s).elements items site one list) := by
  induction items with
  | nil => exact blamesOf_bytes _
  | cons v items ih =>
    obtain ⟨hv, hitems⟩ := List.forall_mem_cons.1 h
    rw [Format.elements]
    split
    · exact hv.append (ih hitems)
    · exact blamesOf_mismatch _ _ _

/-- A record of a reachable model reports no unsupported field but those of reachable models, if the
values of its columns do not. -/
theorem blamesOf_record {r : Record} (hr : s.Reaches root r.model)
    (h : ∀ cs, s.columns r.model = .ok cs → ∀ c ∈ cs, ∀ v, r.get c.name = some v →
      BlamesOf s root ((format s).value v ⟨s.name r.model, c.name⟩ c.tag)) :
    BlamesOf s root (record s r) := by
  cases hcs : s.columns r.model with
  | error e =>
    rw [record_of_error s hcs]
    rintro _ ⟨⟩ _ _ -
    exact ⟨r.model, hr, hcs⟩
  | ok cs =>
    rw [record_eq s hcs]
    refine .concat (List.forall_mem_map.2 fun c hc => ?_)
    cases hv : r.get c.name with
    | none => exact blamesOf_bytes _
    | some v => exact (blamesOf_bytes _).append (h cs hcs c hc v hv)

/-- The invariant of the recursion through nested records: a value is written under a tag only if
the model of the tag is reached. -/
theorem blamesOf_value {v : Value} (h : ∀ n, tag.nested? = some n → s.Reaches root n) :
    BlamesOf s root ((format s).value v site tag) := by
  induction v, tag using Value.writing_induction generalizing site with
  | mismatch v tag hsuits =>
    rw [Format.value_of_not_suits _ hsuits]
    exact blamesOf_mismatch _ _ _
  | bool | int | long | duration | calendar => exact blamesOf_bytes _
  | str | zone => exact blamesOf_buffer _
  | strList items ih =>
    exact (blamesOf_buffer _).append (blamesOf_elements fun v hv => ih v hv nofun)
  | modelList m items ih =>
    exact (blamesOf_buffer _).append (blamesOf_elements fun v hv => ih v hv h)
  | model r ih =>
    rw [Format.value_model]
    refine blamesOf_record (h _ rfl) fun cs hcs c hc v hv => ?_
    exact ih c.name v c.tag hv fun n hn => (h _ rfl).column hcs hc hn

theorem yields_write (r : Record) :
    Step.Yields (fun _ => True) (s.Blames r.model) (write s r) := by
  have hrecord : BlamesOf s r.model (record s r) := by
    rw [record, ← Format.value_model _ r ⟨"", ""⟩]
    apply blamesOf_value
    intro n hn
    cases hn
    exact .refl
  intro q
  rw [write, Emission.into]
  cases hfailure : (record s r).failure with
  | none => trivial
  | some e => exact hrecord e hfailure

end Wireform.Binary
