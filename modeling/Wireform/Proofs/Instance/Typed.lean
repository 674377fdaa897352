import Wireform.Instance.Capture
import Wireform.Proofs.Instance.Defaults
import Wireform.Proofs.Value.Normal

/-!
# Instances of typed models

An instance is typed when it has the declared fields of its model and each of them holds a cell of
its declared shape, also in the instances within it. The record of a typed instance is well-typed
(`InstanceOf.Typed.wellTyped_record`), and the record of any instance is in normal form
(`InstanceOf.normal_record`).
-/

namespace Wireform

namespace Cell

/-- Lists, present cells and instances hold other cells. -/
def isCompound : Cell → Bool
  | list _ | present _ | model _ => true
  | _ => false

/-- What holds of a cell if it holds of all that the cell holds is true of every cell. -/
theorem nested_induction {P : Cell → Prop} (scalar : ∀ c, c.isCompound = false → P c)
    (list : ∀ items, (∀ c ∈ items, P c) → P (.list items)) (present : ∀ c, P c → P (.present c))
    (model : ∀ i : Instance, (∀ name c, (name, c) ∈ i.fields → P c) → P (.model i)) :
    (c : Cell) → P c
  | .list items => list items fun c _ => nested_induction scalar list present model c
  | .present c => present c (nested_induction scalar list present model c)
  | .model ⟨m, fields⟩ =>
    model ⟨m, fields⟩ fun _ c _ => nested_induction scalar list present model c
  | .bool _ | .str _ | .int _ | .long _ | .duration _ | .calendar _ | .zone _ | .foreign _
  | .absent => scalar _ rfl
termination_by c => sizeOf c
decreasing_by
  · have hsize := List.sizeOf_lt_of_mem ‹_ ∈ _›
    simp
    omega
  · simp
  · have hsize := List.sizeOf_lt_of_mem ‹_ ∈ _›
    simp at hsize ⊢
    omega

/-- `c.Fits s shape`: the cell is of the shape, and so is everything in the instances within it. -/
inductive Fits (s : Schema) : Shape → Cell → Prop
  | bool (b : Bool) : Fits s .bool (.bool b)
  | str (t : String) : Fits s .str (.str t)
  | int (n : Int32) : Fits s .int (.int n)
  | long (n : Int64) : Fits s .long (.long n)
  | duration (d : Duration) : Fits s .duration (.duration d)
  | calendar (u : CalendarUnit) : Fits s .calendar (.calendar u)
  | zone (z : ZoneId) : Fits s .zone (.zone z)
  | foreign (name text : String) : Fits s (.foreign name) (.foreign text)
  | list {item : Shape} {items : List Cell} : (∀ c ∈ items, Fits s item c) →
    Fits s (.list item) (.list items)
  | absent (item : Shape) : Fits s (.optional item) .absent
  | present {item : Shape} {c : Cell} : Fits s item c → Fits s (.optional item) (.present c)
  | model {i : Instance} : i.fields.map Prod.fst = (s.fields i.model).map FieldDecl.name →
    (∀ d ∈ s.fields i.model, ∀ c, i.fields.lookup d.name = some c → Fits s d.shape c) →
    Fits s (.model i.model) (.model i)

end Cell

/-- The instance is one of `m`, with a cell of the declared shape for each of its fields. -/
def InstanceOf.Typed (s : Schema) (m : ModelId) (i : Instance) : Prop :=
  Cell.Fits s (.model m) (.model i)

variable {s : Schema} {m : ModelId}

theorem Shape.present_of_tag? {shape : Shape} {t : Tag} (h : shape.tag? = some t) :
    shape.present = shape := by
  cases shape with
  | optional item => cases h
  | _ => rfl

/-! ## Records of instances -/

namespace InstanceOf

variable {i : Instance}

/-- The record of an instance answers an exposed field as the instance does. -/
theorem get_record {d : FieldDecl} (hd : d ∈ s.catalog i.model) :
    (i.record s).get d.name = i.get s d.name := by
  have hentries : (i.record s).entries =
      ((s.catalog i.model).map FieldDecl.name).map fun name => (name, i.get s name) := by
    rw [List.map_map]
    rfl
  rw [RecordOf.get, hentries, List.lookup_graph _ (List.mem_map_of_mem hd), Option.join_some]

/-- A value of an instance is the value of a cell. -/
theorem exists_cell_of_get {name : String} {v : Value} (h : i.get s name = some v) :
    ∃ c, i.fields.lookup name = some c ∧ c.value s = some v :=
  Option.bind_eq_some_iff.1 h

theorem mem_of_lookup {name : String} {c : Cell} (h : i.fields.lookup name = some c) :
    (name, c) ∈ i.fields := by
  obtain ⟨before, after, hfields, -⟩ := List.lookup_eq_some_iff.1 h
  rw [hfields]
  exact List.mem_append_right _ List.mem_cons_self

/-- Looking the columns up again finds what they were listed with. -/
theorem normal_record_of (h : ∀ d ∈ s.catalog i.model, ∀ v, i.get s d.name = some v →
    v.normal s = v) : (i.record s).normal s = i.record s := by
  rw [RecordOf.normal, record]
  congr 1
  refine List.map_congr_left fun d hd => ?_
  have hget := get_record (s := s) hd
  rw [record] at hget
  rw [hget]
  cases hv : i.get s d.name with
  | none => rfl
  | some v => rw [Option.map_some, h d hd v hv]

end InstanceOf

namespace Cell

theorem exists_of_mem_itemValues {items : List Cell} {v : Value} (h : v ∈ itemValues s items) :
    ∃ c ∈ items, c.value s = some v := by
  induction items with
  | nil => cases h
  | cons c items ih =>
    rw [itemValues, List.mem_append, Option.mem_toList] at h
    rcases h with h | h
    · exact ⟨c, List.mem_cons_self, h⟩
    · obtain ⟨c', hc', hv⟩ := ih h
      exact ⟨c', List.mem_cons_of_mem _ hc', hv⟩

/-- What a cell holds lists its columns as they are looked up. -/
theorem normal_of_value {c : Cell} {v : Value} (h : c.value s = some v) : v.normal s = v := by
  induction c using nested_induction generalizing v with
  | scalar c hscalar =>
    cases c with
    | list | present | model => cases hscalar
    | absent => cases h
    | _ =>
      cases h
      rfl
  | list items ih =>
    cases h
    rw [Value.normal_list]
    congr 1
    refine (List.map_congr_left fun v hv => ?_).trans (List.map_id _)
    obtain ⟨c, hc, hv⟩ := exists_of_mem_itemValues hv
    exact ih c hc hv
  | present c ih => exact ih (by rwa [value] at h)
  | model i ih =>
    rw [InstanceOf.value_model] at h
    cases h
    rw [Value.normal_model, InstanceOf.normal_record_of]
    intro d _ v hv
    obtain ⟨c, hc, hv⟩ := InstanceOf.exists_cell_of_get hv
    exact ih d.name c (InstanceOf.mem_of_lookup hc) hv

/-- The value of a cell of some shape is of the type that the tag of the shape asks for. -/
theorem Fits.value {c : Cell} {shape : Shape} {t : Tag} {v : Value} (h : c.Fits s shape)
    (htag : shape.present.tag? = some t) (hv : c.value s = some v) : v.Fits s t := by
  induction h generalizing t v with
  | bool | str | int | long | duration | calendar | zone =>
    cases htag
    cases hv
    constructor
  | foreign => cases htag
  | @list item items _ ih =>
    cases hv
    cases item with
    | str =>
      cases htag
      refine .strList fun v hv => ?_
      obtain ⟨c, hc, hv⟩ := exists_of_mem_itemValues hv
      exact ih c hc rfl hv
    | model m =>
      cases htag
      refine .modelList fun v hv => ?_
      obtain ⟨c, hc, hv⟩ := exists_of_mem_itemValues hv
      exact ih c hc rfl hv
    | _ => cases htag
  | absent => cases hv
  | @present item c _ ih =>
    rw [Cell.value] at hv
    have hitem : item.tag? = some t := htag
    exact ih (by rwa [Shape.present_of_tag? hitem]) hv
  | @model i _ _ ih =>
    cases htag
    rw [InstanceOf.value_model] at hv
    cases hv
    apply Value.Fits.model (r := i.record s)
    intro cs hcs c hc v hv
    obtain ⟨d, hd, hname, ht⟩ := Schema.exists_decl_of_mem_columns hcs hc
    rw [hname, InstanceOf.get_record hd] at hv
    obtain ⟨cell, hcell, hv⟩ := InstanceOf.exists_cell_of_get hv
    exact ih d (Schema.mem_fields_of_mem_catalog hd) cell hcell ht hv

end Cell

namespace InstanceOf

/-- The record of an instance is in normal form. -/
theorem normal_record (i : Instance) : (i.record s).normal s = i.record s := by
  apply normal_record_of
  intro d _ v hv
  obtain ⟨c, -, hv⟩ := exists_cell_of_get hv
  exact Cell.normal_of_value hv

/-- The record of a typed instance is well-typed. -/
theorem Typed.wellTyped_record {i : Instance} (h : i.Typed s m) (hvalid : s.validate m = .ok ())
    (hnames : ∀ n, s.Reaches m n → ((s.catalog n).map FieldDecl.name).Nodup) :
    (i.record s).WellTyped s := by
  have hmodel : (i.record s).model = m := by
    cases h
    rfl
  refine ⟨hmodel ▸ hvalid, hmodel ▸ hnames, ?_⟩
  rw [hmodel]
  exact Cell.Fits.value h rfl (value_model s i)

end InstanceOf

end Wireform
