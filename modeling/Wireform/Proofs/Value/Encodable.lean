import Wireform.Proofs.Value.Normal

/-!
# Which records can be encoded

Writing a record looks each column up and goes on to what the record has for it. `Value.Under` says
what it comes to in this way. A record can be encoded when every model that it comes to has only
fields that are supported, and when what is found is of the type that its column asks for.
-/

namespace Wireform

namespace Schema

variable {s : Schema} {m : ModelId}

/-- Every exposed field of the model has an encoding. -/
def Supported (s : Schema) (m : ModelId) : Prop := ∀ d ∈ s.catalog m, d.shape.present.tag?.isSome

/-- A model is supported if its columns exist. -/
theorem supported_iff : s.Supported m ↔ ∃ cs, s.columns m = .ok cs := by
  constructor
  · intro h
    refine ⟨(s.catalog m).map fun d => ⟨d.name, d.shape.present.tag?.getD .bool⟩, mapM_ok ?_⟩
    intro d hd
    obtain ⟨t, ht⟩ := Option.isSome_iff_exists.1 (h d hd)
    rw [column_eq_ok, ht]
    exact ⟨rfl, rfl⟩
  · rintro ⟨cs, hcs⟩ d hd
    obtain ⟨c, -, -, ht⟩ := exists_column_of_mem_catalog hcs hd
    exact Option.isSome_of_eq_some ht

end Schema

/-- What the length of a value under a tag has to stay below. Only a list of models has a signed
length. -/
def Tag.lengthBound : Tag → Value → Nat
  | .modelList _, .list _ => Word.size 4 / 2
  | _, _ => Word.size 4

/-- No field of the wire format is narrower than 31 bits. -/
theorem Tag.le_lengthBound (t : Tag) (v : Value) : Word.size 4 / 2 ≤ t.lengthBound v := by
  unfold lengthBound
  split
  · exact Nat.le_refl _
  · exact Nat.div_le_self _ _

namespace Value

/-- `Under s t v u w`: writing the value `w` under the tag `u` comes to the value `v`, to be written
under the tag `t`. -/
inductive Under (s : Schema) (t : Tag) (v : Value) : Tag → Value → Prop
  | self : Under s t v t v
  | text {items : List Value} {w : Value} : Under s t v .str w → w ∈ items →
    Under s t v .strList (.list items)
  | item {m : ModelId} {items : List Value} {w : Value} : Under s t v (.model m) w → w ∈ items →
    Under s t v (.modelList m) (.list items)
  | column {r : Record} {d : FieldDecl} {u : Tag} {w : Value} : Under s t v u w →
    d ∈ s.catalog r.model → d.shape.present.tag? = some u → r.get d.name = some w →
    Under s t v (.model r.model) (.model r)

/-- Every length that writing the value comes to can be written. -/
def Bounded (s : Schema) (u : Tag) (w : Value) : Prop :=
  ∀ t v, Under s t v u w → v.length < t.lengthBound v

/-- The value is of the type that the tag asks for, and so is all that is found within it, in models
whose fields are supported. -/
structure Encodable (s : Schema) (u : Tag) (w : Value) : Prop where
  fits : Fits s u w
  supported : ∀ r : Record, Under s (.model r.model) (.model r) u w → s.Supported r.model

variable {s : Schema} {t u : Tag} {v w : Value} {items : List Value} {m : ModelId} {r : Record}
  {cs : List Column} {c : Column}

/-- The value of a column stands under its record. -/
theorem Under.of_column (h : Under s t v c.tag w) (hcs : s.columns r.model = .ok cs) (hc : c ∈ cs)
    (hw : r.get c.name = some w) : Under s t v (.model r.model) (.model r) := by
  obtain ⟨d, hd, hname, ht⟩ := Schema.exists_decl_of_mem_columns hcs hc
  exact h.column hd ht (hname ▸ hw)

/-- A model comes to itself and to what its columns come to. -/
theorem Under.model_cases (h : Under s t v (.model r.model) (.model r))
    (hcs : s.columns r.model = .ok cs) :
    (t = .model r.model ∧ v = .model r) ∨
      ∃ c ∈ cs, ∃ w, r.get c.name = some w ∧ Under s t v c.tag w := by
  -- With `r.model` in the index the case split would not know which record a column is of.
  generalize hm : r.model = m at h
  cases h with
  | self => exact .inl ⟨rfl, rfl⟩
  | column h hd ht hw =>
    obtain ⟨c, hc, hname, htag⟩ := Schema.exists_column_of_mem_catalog hcs hd
    cases ht.symm.trans htag
    exact .inr ⟨c, hc, _, hname ▸ hw, h⟩

/-- What a value comes to is of models that its own lead to. -/
theorem Under.reaches {root n : ModelId} (h : Under s t v u w)
    (hreach : ∀ k, u.nested? = some k → s.Reaches root k) (hn : t.nested? = some n) :
    s.Reaches root n := by
  induction h with
  | self => exact hreach n hn
  | text _ _ ih => exact ih nofun
  | item _ _ ih => exact ih hreach
  | column _ hd ht _ ih => exact ih fun k hk => (hreach _ rfl).step hd ht hk

/-- Values inside a value are no larger than it. -/
theorem Under.extent_le (h : Under s t v u w) : v.extent ≤ w.extent := by
  induction h with
  | self => exact Nat.le_refl _
  | text _ hmem ih | item _ hmem ih => exact Nat.le_trans ih (extent_le_of_mem hmem)
  | column _ _ _ hget ih =>
    exact Nat.le_trans ih (extent_le_of_entry (RecordOf.mem_entries_of_get hget))

/-! ## Bounded values -/

/-- A value whose extent is below the narrowest bound is bounded. -/
theorem bounded_of_extent_lt (h : w.extent < Word.size 4 / 2) : w.Bounded s u := by
  intro t v hv
  calc v.length ≤ v.extent := length_le_extent v
    _ ≤ w.extent := hv.extent_le
    _ < Word.size 4 / 2 := h
    _ ≤ t.lengthBound v := t.le_lengthBound v

theorem Bounded.length_lt (h : w.Bounded s u) : w.length < u.lengthBound w := h u w .self

theorem bounded_scalar (hscalar : w.isCompound = false) :
    w.Bounded s u ↔ w.length < u.lengthBound w := by
  refine ⟨Bounded.length_lt, fun h t v hv => ?_⟩
  cases hv with
  | self => exact h
  | text | item | column => cases hscalar

/-- A list of texts has its length as a 32-bit number. -/
theorem bounded_texts : (list items).Bounded s .strList ↔
    items.length < Word.size 4 ∧ ∀ w ∈ items, w.Bounded s .str := by
  constructor
  · exact fun h => ⟨h.length_lt, fun w hw t v hv => h t v (hv.text hw)⟩
  · rintro ⟨hlength, hitems⟩ t v hv
    cases hv with
    | self => exact hlength
    | text hv hw => exact hitems _ hw t v hv

/-- A list of models has its count as a signed 32-bit number. -/
theorem bounded_models : (list items).Bounded s (.modelList m) ↔
    items.length < Word.size 4 / 2 ∧ ∀ w ∈ items, w.Bounded s (.model m) := by
  constructor
  · exact fun h => ⟨h.length_lt, fun w hw t v hv => h t v (hv.item hw)⟩
  · rintro ⟨hlength, hitems⟩ t v hv
    cases hv with
    | self => exact hlength
    | item hv hw => exact hitems _ hw t v hv

/-- A record is bounded if the values of its columns are. -/
theorem bounded_model (hcs : s.columns r.model = .ok cs) :
    (model r).Bounded s (.model r.model) ↔
      ∀ c ∈ cs, ∀ w, r.get c.name = some w → w.Bounded s c.tag := by
  constructor
  · exact fun h c hc w hw t v hv => h t v (hv.of_column hcs hc hw)
  · intro h t v hv
    obtain ⟨rfl, rfl⟩ | ⟨c, hc, w, hw, hv⟩ := hv.model_cases hcs
    · exact Word.size_pos 4
    · exact h c hc w hw t v hv

/-! ## Encodable values -/

/-- Nothing stands within a value that holds no others. -/
theorem encodable_scalar (hscalar : w.isCompound = false) : w.Encodable s u ↔ Fits s u w := by
  refine ⟨Encodable.fits, fun h => ⟨h, fun r hr => ?_⟩⟩
  cases hr <;> cases hscalar

theorem encodable_texts :
    (list items).Encodable s .strList ↔ ∀ w ∈ items, w.Encodable s .str := by
  constructor
  · rintro ⟨hfits, hsupported⟩ w hw
    cases hfits with
    | strList hitems => exact ⟨hitems w hw, fun r hr => hsupported r (hr.text hw)⟩
  · intro h
    refine ⟨.strList fun w hw => (h w hw).fits, fun r hr => ?_⟩
    cases hr with
    | text hr hw => exact (h _ hw).supported r hr

/-- A record can be encoded if its columns exist and their values can be. -/
theorem encodable_models :
    (list items).Encodable s (.modelList m) ↔ ∀ w ∈ items, w.Encodable s (.model m) := by
  constructor
  · rintro ⟨hfits, hsupported⟩ w hw
    cases hfits with
    | modelList hitems => exact ⟨hitems w hw, fun r hr => hsupported r (hr.item hw)⟩
  · intro h
    refine ⟨.modelList fun w hw => (h w hw).fits, fun r hr => ?_⟩
    cases hr with
    | item hr hw => exact (h _ hw).supported r hr

theorem encodable_model : (model r).Encodable s (.model r.model) ↔
    ∃ cs, s.columns r.model = .ok cs ∧
      ∀ c ∈ cs, ∀ w, r.get c.name = some w → w.Encodable s c.tag := by
  constructor
  · rintro ⟨hfits, hsupported⟩
    obtain ⟨cs, hcs⟩ := Schema.supported_iff.1 (hsupported r .self)
    refine ⟨cs, hcs, fun c hc w hw => ⟨hfits.of_model hcs hc hw, fun k hk => ?_⟩⟩
    exact hsupported k (hk.of_column hcs hc hw)
  · rintro ⟨cs, hcs, h⟩
    refine ⟨.model fun cs' hcs' c hc w hw => ?_, fun k hk => ?_⟩
    · cases hcs.symm.trans hcs'
      exact (h c hc w hw).fits
    · obtain ⟨-, hself⟩ | ⟨c, hc, w, hw, hk⟩ := hk.model_cases hcs
      · cases hself
        exact Schema.supported_iff.2 ⟨cs, hcs⟩
      · exact (h c hc w hw).supported k hk

end Value

namespace RecordOf

/-- Every length that writing the record comes to can be written. -/
def Bounded (s : Schema) (r : Record) : Prop := (Value.model r).Bounded s (.model r.model)

/-- All that writing the record comes to is supported and of the right type. -/
def Encodable (s : Schema) (r : Record) : Prop := (Value.model r).Encodable s (.model r.model)

/-- What has been checked for the outermost model holds for all models within. -/
theorem WellTyped.encodable {s : Schema} {r : Record} (h : r.WellTyped s) : r.Encodable s := by
  refine ⟨h.fits, fun k hk => Schema.supported_iff.2 (Schema.columns_of_validate h.valid ?_)⟩
  exact hk.reaches (fun _ => .of_nested) rfl

end RecordOf

end Wireform
