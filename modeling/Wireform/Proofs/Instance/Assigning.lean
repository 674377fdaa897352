import Wireform.Proofs.Instance.Typed
import Wireform.Proofs.Schema.Checking

/-!
# What assigning may come to

In a schema whose initial cells are of the shapes that are declared, a new instance is typed, and
assigning to it leaves it so, whatever is assigned (`yields_assignWith`, `yields_ofRecord`). No
failure to assign speaks of an unsupported field.
-/

namespace Wireform

/-- No name is declared twice in a model, and every field starts with a cell of its shape. -/
structure Schema.WellFormed (s : Schema) : Prop where
  distinct : ∀ m, s.Distinct m
  initial : ∀ m, ∀ d ∈ s.fields m, d.initial.Fits s d.shape

variable {s : Schema} {root m : ModelId} {site : Site} {shape : Shape}

/-! ## Typed instances -/

namespace InstanceOf

variable {i : Instance}

/-- In a well-formed schema the initial instance is typed. -/
theorem typed_initial (hs : s.WellFormed) (m : ModelId) : (s.initial m).Typed s m := by
  have hnames : (s.initial m).fields.map Prod.fst = (s.fields m).map FieldDecl.name :=
    List.map_map
  refine Cell.Fits.model (i := s.initial m) hnames fun d hd c hc => ?_
  have hinitial : (d.name, d.initial) ∈ (s.initial m).fields := List.mem_map.2 ⟨d, hd, rfl⟩
  have hlookup := lookup_of_mem (hnames ▸ hs.distinct m) hinitial
  cases hlookup.symm.trans hc
  exact hs.initial m d hd

/-- An instance stays typed when a field takes a cell of its shape. -/
theorem Typed.put (h : i.Typed s m) (hdistinct : s.Distinct m) {d : FieldDecl}
    (hd : d ∈ s.fields m) {c : Cell} (hc : c.Fits s d.shape) : (i.put d.name c).Typed s m := by
  cases h with
  | model hnames hcells =>
    refine Cell.Fits.model (i := i.put d.name c) ((map_fst_put i d.name c).trans hnames) ?_
    intro e he c' hc'
    rw [lookup_put] at hc'
    obtain ⟨old, hold, rfl⟩ := Option.map_eq_some_iff.1 hc'
    split
    · next hname =>
      obtain rfl := List.inj_on_of_nodup_map hdistinct he hd hname
      exact hc
    · exact hcells e he old hold

end InstanceOf

/-- A cell of the bare shape, wrapped as present, fits the shape. -/
theorem Cell.Fits.wrap {c : Cell} (h : c.Fits s shape.bare) : (shape.wrap c).Fits s shape := by
  induction shape with
  | optional item ih => exact .present (ih h)
  | _ => exact h

/-! ## Assigning -/

namespace Value

variable {items : List Value} {entries : List (String × Option Value)}

/-- A value becomes a cell of the shape asked for, unless it is of another type. -/
abbrev YieldsCell (s : Schema) (root : ModelId) (v : Value) : Prop :=
  ∀ site shape,
    Yields (fun c => s.WellFormed → c.Fits s shape) (s.Blames root) (v.cell s site shape)

/-- A value is converted into a cell that fits the shape. -/
theorem yields_cells {item : Shape} (h : ∀ v ∈ items, YieldsCell s root v) :
    Yields (fun cs => s.WellFormed → ∀ c ∈ cs, c.Fits s item) (s.Blames root)
      (cells s items site item) := by
  induction items with
  | nil => exact fun _ => List.forall_mem_nil _
  | cons v items ih =>
    obtain ⟨hv, hitems⟩ := List.forall_mem_cons.1 h
    refine (hv site item).bind fun c hc => (ih hitems).bind fun cs hcs => ?_
    exact fun hs => List.forall_mem_cons.2 ⟨hc hs, hcs hs⟩

theorem yields_assignWith {v : Value} (h : YieldsCell s root v) {i : Instance} {name : String}
    (hi : s.WellFormed → i.Typed s m) :
    Yields (fun j => s.WellFormed → j.Typed s m) (s.Blames root)
      (assignWith s i name (v.cell s)) := by
  unfold assignWith
  split
  · exact fun _ _ => nofun
  · next d hd =>
    refine (h _ d.shape).bind fun c hc hs => ?_
    have htyped := hi hs
    have hmodel : i.model = m := by
      cases htyped
      rfl
    have hname : d.name = name := by simpa using List.find?_some hd
    rw [← hname]
    exact htyped.put (hs.distinct m) (hmodel ▸ List.mem_of_find?_eq_some hd) (hc hs)

/-- Assignment of entries keeps the instance typed, if their values are converted into cells that
fit. -/
theorem yields_assignEntries (h : ∀ name v, (name, some v) ∈ entries → YieldsCell s root v)
    {i : Instance} (hi : s.WellFormed → i.Typed s m) :
    Yields (fun j => s.WellFormed → j.Typed s m) (s.Blames root)
      (assignEntries s i (conversions s entries)) := by
  induction entries generalizing i with
  | nil => exact hi
  | cons e entries ih =>
    obtain ⟨name, o⟩ := e
    have hrest : ∀ name v, (name, some v) ∈ entries → YieldsCell s root v :=
      fun name v hv => h name v (List.mem_cons_of_mem _ hv)
    cases o with
    | none => exact ih hrest hi
    | some v => exact (yields_assignWith (h name v List.mem_cons_self) hi).bind fun j => ih hrest

/-- An instance made from entries is typed, if their values are converted into cells that fit. -/
theorem yields_instanceWith (h : ∀ name v, (name, some v) ∈ entries → YieldsCell s root v)
    (expected found : ModelId) :
    Yields (fun i => s.WellFormed → i.Typed s expected) (s.Blames root)
      (instanceWith s expected found (conversions s entries)) := by
  unfold instanceWith
  split
  · exact yields_assignEntries h fun hs => InstanceOf.typed_initial hs expected
  · exact fun _ _ => nofun

theorem yields_cell (v : Value) : YieldsCell s root v := by
  intro site shape
  induction v using nested_induction generalizing site shape with
  | scalar v hscalar =>
    unfold cell
    refine Yields.map (P := fun c => c.Fits s shape.bare) ?_ fun c hc _ => hc.wrap
    generalize shape.bare = bare
    split
    · exact .bool _
    · exact .str _
    · exact .int _
    · exact .long _
    · exact .duration _
    · exact .calendar _
    · exact .zone _
    · cases hscalar
    · cases hscalar
    · exact fun _ _ => nofun
  | list items ih =>
    unfold cell
    refine Yields.map (P := fun c => s.WellFormed → c.Fits s shape.bare) ?_
      fun c hc hs => (hc hs).wrap
    cases shape.bare with
    | list item => exact (yields_cells ih).map fun cs hcs hs => .list (hcs hs)
    | _ => exact fun _ _ => nofun
  | model r ih =>
    obtain ⟨n, entries⟩ := r
    unfold cell
    refine Yields.map (P := fun c => s.WellFormed → c.Fits s shape.bare) ?_
      fun c hc hs => (hc hs).wrap
    cases shape.bare with
    | model m => exact (yields_instanceWith ih m n).map fun i hi hs => hi hs
    | _ => exact fun _ _ => nofun

end Value

/-- The instance of a record is typed if there is one. -/
theorem yields_ofRecord (m : ModelId) (r : Record) :
    Yields (fun i => s.WellFormed → i.Typed s m) (s.Blames root) (InstanceOf.ofRecord s m r) :=
  Value.yields_instanceWith (fun _ v _ => v.yields_cell) m r.model

namespace InstanceOf

/-- Assigning to a field of a typed instance leaves it typed. -/
theorem yields_assign {i : Instance} (hi : s.WellFormed → i.Typed s m) (name : String)
    (v : Value) :
    Yields (fun j => s.WellFormed → j.Typed s m) (s.Blames root) (i.assign s name v) :=
  Value.yields_assignWith v.yields_cell hi

/-- So do assignments one after the other. -/
theorem yields_assignAll {i : Instance} (hi : s.WellFormed → i.Typed s m)
    (sets : List (String × Value)) :
    Yields (fun j => s.WellFormed → j.Typed s m) (s.Blames root) (i.assignAll s sets) := by
  induction sets generalizing i with
  | nil => exact hi
  | cons e sets ih =>
    rw [assignAll, List.foldlM_cons]
    exact (yields_assign hi e.1 e.2).bind fun j hj => ih hj

end InstanceOf

end Wireform
