import Wireform.Proofs.Instance.Defaults
import Wireform.Proofs.Value.Normal

/-!
# Values that a field takes

A value conforms to a shape when it is of that type through all of its lists and records. A record
within it has to be of the model that the shape names, and its entries have to conform in turn to the
fields they are for. An assignment takes just the values that conform to the shape of the field
(`set_iff_conforms`). What the field shows afterwards is the canonical form of the value, in which
each record is the one of a new instance, updated entry by entry.
-/

namespace Wireform

/-! ## Canonical forms -/

/-- The record with another value for that name, if the name is one of its own. -/
def RecordOf.update (r : Record) (name : String) (v : Value) : Record :=
  ⟨r.model, r.entries.map fun e => if e.1 = name then (e.1, some v) else e⟩

namespace Value

mutual

/-- A value as a field shows it that it has been assigned to. -/
def canonical (s : Schema) : Value → Value
  | list items => .list (canonicalItems s items)
  | model ⟨m, entries⟩ => .model (updated s entries ((s.initial m).record s))
  | v => v

def canonicalItems (s : Schema) : List Value → List Value
  | [] => []
  | v :: rest => canonical s v :: canonicalItems s rest

/-- A record updated with the entries that are present, one after the other. -/
def updated (s : Schema) : List (String × Option Value) → Record → Record
  | [], r => r
  | (_, none) :: rest, r => updated s rest r
  | (name, some v) :: rest, r => updated s rest (r.update name (canonical s v))

end

/-- `v.Conforms s shape`: the value may be assigned to a field of the shape. Nothing conforms to a
type that no encoding knows. -/
inductive Conforms (s : Schema) : Shape → Value → Prop
  | bool (b : Bool) : Conforms s .bool (.bool b)
  | str (t : String) : Conforms s .str (.str t)
  | int (n : Int32) : Conforms s .int (.int n)
  | long (n : Int64) : Conforms s .long (.long n)
  | duration (d : Duration) : Conforms s .duration (.duration d)
  | calendar (u : CalendarUnit) : Conforms s .calendar (.calendar u)
  | zone (z : ZoneId) : Conforms s .zone (.zone z)
  | optional {item : Shape} {v : Value} : Conforms s item v → Conforms s (.optional item) v
  | list {item : Shape} {items : List Value} : (∀ v ∈ items, Conforms s item v) →
    Conforms s (.list item) (.list items)
  | model {r : Record} :
    (∀ name v, (name, some v) ∈ r.entries → ∃ d, s.field? r.model name = some d) →
    (∀ name v, (name, some v) ∈ r.entries → ∀ d, s.field? r.model name = some d →
      Conforms s d.shape v) →
    Conforms s (.model r.model) (.model r)

variable {s : Schema} {site : Site} {shape : Shape} {v : Value} {items : List Value}
  {entries : List (String × Option Value)} {i j : Instance} {c : Cell}

theorem canonicalItems_eq (items : List Value) :
    canonicalItems s items = items.map (canonical s) := by
  induction items with
  | nil => rfl
  | cons v items ih => rw [canonicalItems, ih, List.map_cons]

/-- A value for an optional field is converted as for the field inside, and is present. -/
theorem cell_optional (v : Value) (site : Site) (item : Shape) :
    v.cell s site (.optional item) = Cell.present <$> v.cell s site item := by
  have hlayer (x : Except ModelError Cell) :
      Shape.wrap (.optional item) <$> x = Cell.present <$> item.wrap <$> x := by
    cases x <;> rfl
  unfold cell
  exact hlayer _

/-! ## Instances as they are updated -/

end Value

/-- The instance lists just the fields that its model declares. -/
def InstanceOf.Complete (s : Schema) (i : Instance) : Prop :=
  i.fields.map Prod.fst = (s.fields i.model).map FieldDecl.name

namespace InstanceOf

variable {s : Schema} {i : Instance} {name : String}

theorem complete_initial (m : ModelId) : (s.initial m).Complete s := List.map_map

/-- Assignment adds no field and takes none away. -/
theorem Complete.put (h : i.Complete s) (name : String) (c : Cell) : (i.put name c).Complete s :=
  (map_fst_put i name c).trans h

theorem Complete.mem (h : i.Complete s) {d : FieldDecl} (hd : s.field? i.model name = some d) :
    name ∈ i.fields.map Prod.fst := by
  have hname : d.name = name := by simpa using List.find?_some hd
  rw [h, ← hname]
  exact List.mem_map_of_mem (List.mem_of_find?_eq_some hd)

/-- What is put in a field shows in the record just where the record has that field. -/
theorem record_put (hmem : name ∈ i.fields.map Prod.fst) {c : Cell} {v : Value}
    (hc : c.value s = some v) : (i.put name c).record s = (i.record s).update name v := by
  rw [record, record, RecordOf.update, List.map_map]
  congr 1
  refine List.map_congr_left fun d _ => ?_
  dsimp only [Function.comp]
  split
  · next hname => rw [hname, get_put_self hmem, hc]
  · next hname => rw [get_put_of_ne hname]

end InstanceOf

namespace Value

variable {s : Schema} {site : Site} {shape : Shape} {v : Value} {items : List Value}
  {entries : List (String × Option Value)} {i j : Instance} {c : Cell}

/-! ## What conforms is taken -/

/-- The invariant of the loop: the record of the instance is the one that the entries so far have
made of the first record. -/
theorem exists_assignEntries_updated (hi : i.Complete s)
    (hdeclared : ∀ name v, (name, some v) ∈ entries → ∃ d, s.field? i.model name = some d)
    (hcell : ∀ name v, (name, some v) ∈ entries → ∀ d, s.field? i.model name = some d →
      ∀ site, ∃ c, v.cell s site d.shape = .ok c ∧ c.value s = some (v.canonical s)) :
    ∃ j, assignEntries s i (conversions s entries) = .ok j ∧
      j.record s = updated s entries (i.record s) := by
  induction entries generalizing i with
  | nil => exact ⟨i, rfl, rfl⟩
  | cons e entries ih =>
    have hrest (name : String) (v : Value) (h : (name, some v) ∈ entries) :=
      hdeclared name v (List.mem_cons_of_mem _ h)
    have hcells (name : String) (v : Value) (h : (name, some v) ∈ entries) :=
      hcell name v (List.mem_cons_of_mem _ h)
    obtain ⟨name, _ | v⟩ := e
    · exact ih hi hrest hcells
    · obtain ⟨d, hd⟩ := hdeclared name v List.mem_cons_self
      obtain ⟨c, hc, hvalue⟩ := hcell name v List.mem_cons_self d hd ⟨s.name i.model, d.name⟩
      obtain ⟨j, hj, hrecord⟩ := ih (hi.put name c) hrest hcells
      refine ⟨j, ?_, ?_⟩
      · rw [conversions, assignEntries, assignWith, hd]
        dsimp only
        rw [hc]
        exact hj
      · rw [hrecord, InstanceOf.record_put (hi.mem hd) hvalue]
        rfl

/-- A value that conforms becomes a cell, and the cell holds its canonical form. -/
theorem Conforms.exists_cell (h : v.Conforms s shape) (site : Site) :
    ∃ c, v.cell s site shape = .ok c ∧ c.value s = some (v.canonical s) := by
  induction h generalizing site with
  | bool b => exact ⟨.bool b, rfl, rfl⟩
  | str t => exact ⟨.str t, rfl, rfl⟩
  | int n => exact ⟨.int n, rfl, rfl⟩
  | long n => exact ⟨.long n, rfl, rfl⟩
  | duration d => exact ⟨.duration d, rfl, rfl⟩
  | calendar u => exact ⟨.calendar u, rfl, rfl⟩
  | zone z => exact ⟨.zone z, rfl, rfl⟩
  | optional _ ih =>
    obtain ⟨c, hc, hvalue⟩ := ih site
    refine ⟨.present c, ?_, hvalue⟩
    rw [cell_optional, hc]
    rfl
  | list _ ih =>
    obtain ⟨cs, hcs, hvalues⟩ := exists_cells fun v hv => ih v hv site
    refine ⟨.list cs, ?_, ?_⟩
    · rw [cell_list, hcs]
      rfl
    · rw [Cell.value, hvalues, canonical, canonicalItems_eq]
  | @model r hdeclared _ ih =>
    obtain ⟨i, hi, hrecord⟩ := exists_assignEntries_updated
      (InstanceOf.complete_initial r.model) hdeclared ih
    refine ⟨.model i, ?_, ?_⟩
    · rw [cell_model, instanceWith, if_pos rfl, hi]
      rfl
    · rw [InstanceOf.value_model, hrecord]
      rfl

/-! ## What is taken conforms -/

theorem Conforms.of_bare (h : v.Conforms s shape.bare) : v.Conforms s shape := by
  induction shape with
  | optional item ih => exact .optional (ih h)
  | _ => exact h

theorem forall_mem_of_cells {item : Shape} {cs : List Cell} (h : cells s items site item = .ok cs) :
    ∀ v ∈ items, ∃ c, v.cell s site item = .ok c := by
  induction items generalizing cs with
  | nil => exact List.forall_mem_nil _
  | cons v items ih =>
    obtain ⟨c, hc, h⟩ := bind_ok_iff.1 h
    obtain ⟨cs, hcs, -⟩ := bind_ok_iff.1 h
    exact List.forall_mem_cons.2 ⟨⟨c, hc⟩, ih hcs⟩

/-- Each entry that has been assigned was taken by the field that it names. -/
theorem exists_cell_of_assignEntries (h : assignEntries s i (conversions s entries) = .ok j) :
    ∀ name v, (name, some v) ∈ entries →
      ∃ d site c, s.field? i.model name = some d ∧ v.cell s site d.shape = .ok c := by
  induction entries generalizing i with
  | nil => exact fun _ _ => nofun
  | cons e entries ih =>
    intro name v hmem
    obtain ⟨key, _ | w⟩ := e
    · exact ih h name v (by simpa using hmem)
    · obtain ⟨i', hassign, hrest⟩ := bind_ok_iff.1 h
      obtain ⟨d, c, hd, hc, rfl⟩ := assignWith_eq_ok hassign
      rcases List.mem_cons.1 hmem with heq | hmem
      · cases heq
        exact ⟨d, _, c, hd, hc⟩
      · exact ih hrest name v hmem

/-- A value that becomes a cell conforms. -/
theorem conforms_of_cell (h : v.cell s site shape = .ok c) : v.Conforms s shape := by
  induction v using nested_induction generalizing site shape c with
  | scalar v hscalar =>
    refine .of_bare ?_
    unfold cell at h
    obtain ⟨c', h, -⟩ := map_ok_iff.1 h
    revert h
    generalize shape.bare = bare
    split
    · exact fun _ => .bool _
    · exact fun _ => .str _
    · exact fun _ => .int _
    · exact fun _ => .long _
    · exact fun _ => .duration _
    · exact fun _ => .calendar _
    · exact fun _ => .zone _
    · cases hscalar
    · cases hscalar
    · exact nofun
  | list items ih =>
    refine .of_bare ?_
    unfold cell at h
    obtain ⟨c', h, -⟩ := map_ok_iff.1 h
    cases hbare : shape.bare with
    | list item =>
      rw [hbare] at h
      obtain ⟨cs, hcs, -⟩ := map_ok_iff.1 h
      refine .list fun v hv => ?_
      obtain ⟨c, hc⟩ := forall_mem_of_cells hcs v hv
      exact ih v hv hc
    | _ =>
      rw [hbare] at h
      cases h
  | model r ih =>
    obtain ⟨n, entries⟩ := r
    refine .of_bare ?_
    unfold cell at h
    obtain ⟨c', h, -⟩ := map_ok_iff.1 h
    cases hbare : shape.bare with
    | model m =>
      rw [hbare] at h
      obtain ⟨i, hi, -⟩ := map_ok_iff.1 h
      rw [instanceWith] at hi
      split at hi
      · next hn =>
        subst hn
        have htaken := exists_cell_of_assignEntries hi
        refine Conforms.model (r := ⟨n, entries⟩) (fun name v hv => ?_) fun name v hv d hd => ?_
        · obtain ⟨d, -, -, hd, -⟩ := htaken name v hv
          exact ⟨d, hd⟩
        · obtain ⟨d', site, c, hd', hc⟩ := htaken name v hv
          cases hd.symm.trans hd'
          exact ih name v hv hc
      · cases hi
    | _ =>
      rw [hbare] at h
      cases h

end Value

/-! ## Assignments -/

namespace InstanceOf

variable {s : Schema} {i : Instance}

/-- A value that has not become a cell leaves the instance as it is. -/
theorem set_cases (s : Schema) (i : Instance) (name : String) (v : Value) :
    (∃ j, i.assign s name v = .ok j ∧ set s name v i = .ok () j) ∨
      ∃ e, i.assign s name v = .error e ∧ set s name v i = .error e i := by
  have hget : (getThe Instance : Step ModelError Instance Instance) i = .ok i i := rfl
  rw [assign, Value.assignWith, set, Step.bind_apply, hget]
  dsimp only
  cases s.field? i.model name with
  | none => exact .inr ⟨_, rfl, rfl⟩
  | some d =>
    dsimp only
    cases v.cell s ⟨s.name i.model, d.name⟩ d.shape with
    | ok c => exact .inl ⟨_, rfl, rfl⟩
    | error e => exact .inr ⟨e, rfl, rfl⟩

/-- Assignment succeeds for a declared field and a value that has a cell of its shape, and changes
that field only. -/
theorem assign_eq_ok {name : String} {v : Value} {j : Instance} :
    i.assign s name v = .ok j ↔ ∃ d c, s.field? i.model name = some d ∧
      v.cell s ⟨s.name i.model, d.name⟩ d.shape = .ok c ∧ j = i.put name c := by
  refine ⟨Value.assignWith_eq_ok, ?_⟩
  rintro ⟨d, c, hd, hc, rfl⟩
  rw [assign, Value.assignWith, hd]
  dsimp only
  rw [hc]
  rfl

/-- An assignment succeeds just if the field is declared, exposed or not, and the value conforms to
its shape. If it fails, nothing has changed, and if it succeeds, nothing but the field, which shows
the canonical form of the value. -/
theorem set_iff_conforms (hi : i.Complete s) (name : String) (v : Value) :
    ((∃ j, set s name v i = .ok () j) ↔
      ∃ d, s.field? i.model name = some d ∧ v.Conforms s d.shape) ∧
    (∀ e j, set s name v i = .error e j → j = i) ∧
    ∀ j, set s name v i = .ok () j →
      j.get s name = some (v.canonical s) ∧ j.model = i.model ∧ j.Complete s ∧
        ∀ other, other ≠ name → j.fields.lookup other = i.fields.lookup other := by
  have hset (j : Instance) : set s name v i = .ok () j ↔ i.assign s name v = .ok j := by
    obtain ⟨k, hassign, hk⟩ | ⟨e, hassign, he⟩ := set_cases s i name v
    · simp [hassign, hk]
    · simp [hassign, he]
  refine ⟨⟨?_, ?_⟩, fun e j h => ?_, fun j h => ?_⟩
  · rintro ⟨j, h⟩
    obtain ⟨d, c, hd, hc, -⟩ := assign_eq_ok.1 ((hset j).1 h)
    exact ⟨d, hd, Value.conforms_of_cell hc⟩
  · rintro ⟨d, hd, hv⟩
    obtain ⟨c, hc, -⟩ := hv.exists_cell ⟨s.name i.model, d.name⟩
    exact ⟨i.put name c, (hset _).2 (assign_eq_ok.2 ⟨d, c, hd, hc, rfl⟩)⟩
  · obtain ⟨k, -, hk⟩ | ⟨e', -, he⟩ := set_cases s i name v
    · cases hk.symm.trans h
    · cases he.symm.trans h
      rfl
  · obtain ⟨d, c, hd, hc, rfl⟩ := assign_eq_ok.1 ((hset j).1 h)
    obtain ⟨c', hc', hvalue⟩ := (Value.conforms_of_cell hc).exists_cell ⟨s.name i.model, d.name⟩
    cases hc.symm.trans hc'
    refine ⟨(get_put_self (hi.mem hd) c).trans hvalue, rfl, hi.put name c, fun other hother => ?_⟩
    simp only [lookup_put, if_neg hother, Option.map_id']

end InstanceOf

section

/-- One model, whose steps are jobs themselves and whose count is not exposed. -/
def Schema.jobs : Schema :=
  ⟨[⟨"Job", [⟨"title", .str, true, .str "untitled"⟩,
    ⟨"steps", .optional (.list (.model ⟨0⟩)), true, .absent⟩, ⟨"count", .long, false, .long 0⟩]⟩]⟩

/-- Entries of a job with a repeated title and a count, in no order. -/
def RecordOf.drafted : Record :=
  ⟨⟨0⟩, [("title", some (.str "a")), ("count", some (.long 3)), ("steps", none),
    ("title", some (.str "b"))]⟩

/-- The steps show what the last entries say, and the count stays as it was. A step with an entry that
is not declared is refused, although its title has been taken by then. -/
theorem set_iff_conforms_jobs :
    let i := Schema.jobs.initial ⟨0⟩
    let steps : Value := .list [.model .drafted]
    i.Complete Schema.jobs ∧
      (∃ d, Schema.jobs.field? ⟨0⟩ "steps" = some d ∧ steps.Conforms Schema.jobs d.shape) ∧
      (∃ j, InstanceOf.set Schema.jobs "steps" steps i = .ok () j ∧
        j.get Schema.jobs "steps" =
          some (.list [.model ⟨⟨0⟩, [("steps", none), ("title", some (.str "b"))]⟩]) ∧
        j.fields.lookup "count" = some (.long 0)) ∧
      ∃ e, InstanceOf.set Schema.jobs "steps"
        (.list [.model ⟨⟨0⟩, [("title", some (.str "a")), ("size", some (.int 1))]⟩]) i =
          .error e i := by
  intro i steps
  have hi : i.Complete Schema.jobs := InstanceOf.complete_initial ⟨0⟩
  obtain ⟨hiff, -, hshows⟩ := InstanceOf.set_iff_conforms hi "steps" steps
  obtain ⟨j, hj⟩ : ∃ j, InstanceOf.set Schema.jobs "steps" steps i = .ok () j := ⟨_, rfl⟩
  obtain ⟨hget, -, -, hother⟩ := hshows j hj
  obtain ⟨-, hframe, -⟩ := InstanceOf.set_iff_conforms hi "steps"
    (.list [.model ⟨⟨0⟩, [("title", some (.str "a")), ("size", some (.int 1))]⟩])
  obtain ⟨e, k, hk⟩ : ∃ e k, InstanceOf.set Schema.jobs "steps"
      (.list [.model ⟨⟨0⟩, [("title", some (.str "a")), ("size", some (.int 1))]⟩]) i =
        .error e k := ⟨_, _, rfl⟩
  have hsame : k = i := hframe e k hk
  subst hsame
  exact ⟨hi, hiff.1 ⟨j, hj⟩, ⟨j, hj, hget, hother "count" (by decide)⟩, e, hk⟩

end

end Wireform
