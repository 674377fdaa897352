import Wireform.Bytes.Word
import Wireform.Proofs.Schema.Reachable
import Wireform.Value.Format

/-!
# Well-typed records and their normal form

A record is well-typed when its model has been checked and what it has for each column is of the
type that the column asks for, through all nested records; anything else it lists does not matter.
`RecordOf.normal` keeps just that: the names of the catalog in their order, each with what the
record has for it. The limits of a reader are compared with `RecordOf.depth` and `RecordOf.extent`.
-/

namespace Wireform

/-- What a record answers stands in its entries. -/
theorem RecordOf.mem_entries_of_get {r : Record} {name : String} {v : Value} (h : r.get name = some v) :
    (name, some v) ∈ r.entries := by
  obtain ⟨o, hlookup, rfl⟩ := Option.bind_eq_some_iff.1 h
  obtain ⟨before, after, hentries, -⟩ := List.lookup_eq_some_iff.1 hlookup
  rw [hentries]
  exact List.mem_append_right _ List.mem_cons_self

namespace Value

/-- Lists and models hold other values. -/
def isCompound : Value → Bool
  | list _ | model _ => true
  | _ => false

/-- What holds of a value if it holds of all that the value holds is true of every value. -/
theorem nested_induction {P : Value → Prop} (scalar : ∀ v, v.isCompound = false → P v)
    (list : ∀ items, (∀ v ∈ items, P v) → P (.list items))
    (model : ∀ r : Record, (∀ name v, (name, some v) ∈ r.entries → P v) → P (.model r)) :
    (v : Value) → P v
  | .list items => list items fun v _ => nested_induction scalar list model v
  | .model ⟨m, entries⟩ => model ⟨m, entries⟩ fun _ v _ => nested_induction scalar list model v
  | .bool _ | .str _ | .int _ | .long _ | .duration _ | .calendar _ | .zone _ | .foreign _ =>
    scalar _ rfl
termination_by v => sizeOf v
decreasing_by
  all_goals
    have hsize := List.sizeOf_lt_of_mem ‹_ ∈ _›
    simp at hsize ⊢
    omega

/-- The cases of `Format.value`, which all formats go through: a value that is not of the type asked
for, and otherwise one case for each tag. The elements of a list and what a model has under a name
may be assumed under the tags that they are written under. -/
theorem writing_induction {P : Value → Tag → Prop}
    (mismatch : ∀ v tag, v.suits tag = false → P v tag)
    (bool : ∀ b, P (.bool b) .bool) (str : ∀ t, P (.str t) .str) (int : ∀ n, P (.int n) .int)
    (long : ∀ n, P (.long n) .long) (duration : ∀ d, P (.duration d) .duration)
    (calendar : ∀ u, P (.calendar u) .calendar) (zone : ∀ z, P (.zone z) .zone)
    (strList : ∀ items, (∀ v ∈ items, P v .str) → P (.list items) .strList)
    (modelList : ∀ m items, (∀ v ∈ items, P v (.model m)) → P (.list items) (.modelList m))
    (model : ∀ r : Record, (∀ name v tag, r.get name = some v → P v tag) →
      P (.model r) (.model r.model)) (v : Value) (tag : Tag) : P v tag := by
  induction v using nested_induction generalizing tag with
  | scalar v hscalar =>
    cases v with
    | list | model => cases hscalar
    | _ =>
      cases tag <;> first
        | exact mismatch _ _ rfl
        | solve_by_elim only [bool, str, int, long, duration, calendar, zone]
  | list items ih =>
    cases tag with
    | strList => exact strList items fun v hv => ih v hv .str
    | modelList m => exact modelList m items fun v hv => ih v hv (.model m)
    | _ => exact mismatch _ _ rfl
  | model r ih =>
    cases hsuits : (Value.model r).suits tag with
    | false => exact mismatch _ tag hsuits
    | true =>
      cases tag with
      | model m =>
        cases of_decide_eq_true hsuits
        exact model r fun name v tag hv => ih name v (RecordOf.mem_entries_of_get hv) tag
      | _ => cases hsuits

/-- `v.Fits s tag`: the value is of the type that the tag asks for, and so is everything that the
records within it have for their columns. -/
inductive Fits (s : Schema) : Tag → Value → Prop
  | bool (b : Bool) : Fits s .bool (.bool b)
  | str (t : String) : Fits s .str (.str t)
  | int (n : Int32) : Fits s .int (.int n)
  | long (n : Int64) : Fits s .long (.long n)
  | duration (d : Duration) : Fits s .duration (.duration d)
  | calendar (u : CalendarUnit) : Fits s .calendar (.calendar u)
  | zone (z : ZoneId) : Fits s .zone (.zone z)
  | strList {items : List Value} : (∀ v ∈ items, Fits s .str v) → Fits s .strList (.list items)
  | modelList {m : ModelId} {items : List Value} : (∀ v ∈ items, Fits s (.model m) v) →
    Fits s (.modelList m) (.list items)
  | model {r : Record} :
    (∀ cs, s.columns r.model = .ok cs → ∀ c ∈ cs, ∀ v, r.get c.name = some v → Fits s c.tag v) →
    Fits s (.model r.model) (.model r)

variable {s : Schema} {v : Value} {items : List Value} {m : ModelId}

/-- A value that fits a tag has its kind. -/
theorem Fits.suits {tag : Tag} (h : Fits s tag v) : v.suits tag = true := by
  cases h with
  | model => exact decide_eq_true rfl
  | _ => rfl

/-- What fits a text column is a text. -/
theorem Fits.eq_str (h : Fits s .str v) : ∃ t, v = .str t := by
  cases h
  exact ⟨_, rfl⟩

/-- What fits a model column is a record of that model. -/
theorem Fits.eq_model (h : Fits s (.model m) v) : ∃ r : Record, v = .model r ∧ r.model = m := by
  cases h
  exact ⟨_, rfl, rfl⟩

/-- The values of a record that fits its model fit their columns. -/
theorem Fits.of_model {r : Record} {cs : List Column} (h : Fits s (.model m) (.model r))
    (hcs : s.columns r.model = .ok cs) {c : Column} (hc : c ∈ cs) (hv : r.get c.name = some v) :
    Fits s c.tag v := by
  cases h with
  | model hcols => exact hcols cs hcs c hc v hv

/-! ## Normal forms -/

mutual

/-- A value with every record in it normalised. -/
def normal (s : Schema) : Value → Value
  | list items => .list (normalItems s items)
  | model ⟨m, entries⟩ =>
    .model ⟨m, (s.catalog m).map fun d => (d.name, ((normalEntries s entries).lookup d.name).join)⟩
  | v => v

def normalItems (s : Schema) : List Value → List Value
  | [] => []
  | v :: rest => normal s v :: normalItems s rest

def normalEntries (s : Schema) : List (String × Option Value) → List (String × Option Value)
  | [] => []
  | (name, none) :: rest => (name, none) :: normalEntries s rest
  | (name, some v) :: rest => (name, some (normal s v)) :: normalEntries s rest

end

end Value

/-- The names of the catalog in their order, each with what the record has for it. -/
def RecordOf.normal (s : Schema) (r : Record) : Record :=
  ⟨r.model, (s.catalog r.model).map fun d => (d.name, (r.get d.name).map (Value.normal s))⟩

namespace Value

variable {s : Schema}

/-- Entries have the names they had before normalization, and normalized values. -/
theorem lookup_normalEntries (entries : List (String × Option Value)) (name : String) :
    (normalEntries s entries).lookup name = (entries.lookup name).map (Option.map (normal s)) :=
  lookup_of_map _ rfl (fun _ v _ => by cases v <;> rfl) _ _

@[simp] theorem normal_list (items : List Value) :
    normal s (.list items) = .list (items.map (normal s)) := by
  have hitems : normalItems s items = items.map (normal s) := by
    induction items with
    | nil => rfl
    | cons v items ih => rw [normalItems, ih, List.map_cons]
  rw [normal, hitems]

@[simp] theorem normal_model (r : Record) : normal s (.model r) = .model (r.normal s) := by
  obtain ⟨m, entries⟩ := r
  have hjoin (o : Option (Option Value)) :
      (o.map (Option.map (normal s))).join = o.join.map (normal s) := by
    rcases o with _ | _ | v <;> rfl
  simp only [normal, RecordOf.normal, RecordOf.get, lookup_normalEntries, hjoin]

end Value

namespace RecordOf

variable {s : Schema} {r : Record} {cs : List Column}

/-- A normal record has an entry for each column, in catalog order. -/
theorem entries_normal (h : s.columns r.model = .ok cs) :
    (r.normal s).entries = cs.map fun c => (c.name, (r.get c.name).map (Value.normal s)) := by
  have hnames := congrArg (List.map fun name => (name, (r.get name).map (Value.normal s)))
    (Schema.map_name_columns h)
  rw [List.map_map, List.map_map] at hnames
  exact hnames.symm

/-- A value answered for a column stands in the normal record, normalized. -/
theorem mem_entries_normal (h : s.columns r.model = .ok cs) {c : Column} (hc : c ∈ cs) {v : Value}
    (hv : r.get c.name = some v) : (c.name, some (v.normal s)) ∈ (r.normal s).entries := by
  rw [entries_normal h]
  apply List.mem_map.2
  exact ⟨c, hc, by rw [hv, Option.map_some]⟩

/-- A record whose model has been checked, with distinct names in every model it may hold, and with
values of the types that its columns ask for. -/
structure WellTyped (s : Schema) (r : Record) : Prop where
  valid : s.validate r.model = .ok ()
  distinct : ∀ n, s.Reaches r.model n → ((s.catalog n).map FieldDecl.name).Nodup
  fits : Value.Fits s (.model r.model) (.model r)

end RecordOf

section

/-- One model, with a label and a list of instances of itself. -/
def Schema.nodes : Schema :=
  ⟨[⟨"Node", [⟨"label", .optional .str, true, .absent⟩,
    ⟨"children", .list (.model ⟨0⟩), true, .list []⟩]⟩]⟩

/-- A node with one child; its entries are out of order, one is repeated and one is unknown. -/
def RecordOf.family : Record :=
  ⟨⟨0⟩, [("label", some (.str "é")), ("unknown", some (.foreign "1.5")), ("label", some (.int 3)),
    ("children", some (.list [.model ⟨⟨0⟩, []⟩]))]⟩

theorem columns_nodes :
    Schema.nodes.columns ⟨0⟩ = .ok [⟨"children", .modelList ⟨0⟩⟩, ⟨"label", .str⟩] := rfl

theorem validate_nodes : Schema.nodes.validate ⟨0⟩ = .ok () := by
  rw [Schema.validate, Schema.visit, dif_neg List.not_mem_nil]
  split
  · next e he => cases columns_nodes.symm.trans he
  · next cs hcs =>
    cases columns_nodes.symm.trans hcs
    simp [Schema.nestedModels, Tag.nested?, Schema.visit]

theorem wellTyped_family : RecordOf.family.WellTyped Schema.nodes := by
  refine ⟨validate_nodes, fun n _ => ?_, .model fun cs hcs c hc v hv => ?_⟩
  · obtain ⟨_ | n⟩ := n
    · decide
    · simp [Schema.catalog_eq_nil, Schema.nodes]
  · cases columns_nodes.symm.trans hcs
    simp only [List.mem_cons, List.not_mem_nil, or_false] at hc
    rcases hc with rfl | rfl
    · cases hv
      refine .modelList fun w hw => ?_
      cases List.mem_singleton.1 hw
      apply Value.Fits.model (r := ⟨⟨0⟩, []⟩)
      intro _ _ _ _ _ hv
      cases hv
    · cases hv
      exact .str _

end

/-! ## Measures -/

namespace Value

section
variable {α : Type} (unit : α) (join : α → α → α) (step : Value → α → α)

mutual

/-- Measures a value from within: `join` gathers the measures of what a value holds, and `step`
makes its own measure of them. -/
def measure : Value → α
  | list items => step (.list items) (measureItems items)
  | model ⟨m, entries⟩ => step (.model ⟨m, entries⟩) (measureEntries entries)
  | v => step v unit

def measureItems : List Value → α
  | [] => unit
  | v :: rest => join (measure v) (measureItems rest)

def measureEntries : List (String × Option Value) → α
  | [] => unit
  | (_, none) :: rest => measureEntries rest
  | (_, some v) :: rest => join (measure v) (measureEntries rest)

end

/-- The measure of a list is joined from those of its items. -/
theorem measureItems_eq (items : List Value) :
    measureItems unit join step items =
      (items.map (measure unit join step)).foldr join unit := by
  induction items with
  | nil => rfl
  | cons v items ih => rw [measureItems, ih, List.map_cons, List.foldr_cons]

/-- The measure of a record is joined from those of its present entries. -/
theorem measureEntries_eq (entries : List (String × Option Value)) :
    measureEntries unit join step entries =
      ((entries.filterMap Prod.snd).map (measure unit join step)).foldr join unit := by
  induction entries with
  | nil => rfl
  | cons e entries ih =>
    obtain ⟨name, _ | v⟩ := e <;> simp [measureEntries, ih]

end

/-- A model is one level deeper than what it holds. -/
def deepen : Value → Nat → Nat
  | model _, n => n + 1
  | _, n => n

/-- How many models are open in the value at once. -/
def depth : Value → Nat := measure 0 max deepen

/-- The bytes of a text, and how many elements a list has. -/
def length : Value → Nat
  | str t => t.utf8ByteSize
  | zone z => z.text.utf8ByteSize
  | list items => items.length
  | _ => 0

/-- The greatest length in a value. -/
def extent : Value → Nat := measure 0 max fun v n => max v.length n

/-- Whether a value is a record. -/
def isModel : Value → Bool
  | model _ => true
  | _ => false

/-- What a length has to stay below for its field: a list of models has a signed one. -/
def lengthBound : Value → Nat
  | list items => if items.any isModel then Word.size 4 / 2 else Word.size 4
  | _ => Word.size 4

/-- Every length in the value can be written. -/
def Storable : Value → Prop := measure True And fun v p => v.length < v.lengthBound ∧ p

end Value

namespace RecordOf

/-- How deep models nest in the record, whose own depth is zero. -/
def depth (r : Record) : Nat := Value.measureEntries 0 max Value.deepen r.entries

/-- The greatest length in a record. -/
def extent (r : Record) : Nat := (Value.model r).extent

/-- Every length in the record can be written. -/
def Storable (r : Record) : Prop := (Value.model r).Storable

end RecordOf

namespace Value

variable {v : Value} {items : List Value} {r : Record} {name : String}

theorem foldr_max_le {xs : List Nat} {n : Nat} : xs.foldr max 0 ≤ n ↔ ∀ x ∈ xs, x ≤ n := by
  induction xs with
  | nil => simp
  | cons x xs ih => rw [List.foldr_cons, Nat.max_le, ih, List.forall_mem_cons]

theorem foldr_and {ps : List Prop} : ps.foldr And True ↔ ∀ p ∈ ps, p := by
  induction ps with
  | nil => simp
  | cons p ps ih => rw [List.foldr_cons, ih, List.forall_mem_cons]

theorem mem_values {entries : List (String × Option Value)} (h : (name, some v) ∈ entries) :
    v ∈ entries.filterMap Prod.snd :=
  List.mem_filterMap.2 ⟨_, h, rfl⟩

theorem forall_mem_values {P : Value → Prop} {entries : List (String × Option Value)} :
    (∀ v ∈ entries.filterMap Prod.snd, P v) ↔ ∀ name v, (name, some v) ∈ entries → P v := by
  constructor
  · exact fun h name v hv => h v (mem_values hv)
  · intro h v hv
    obtain ⟨⟨name, o⟩, ho, rfl⟩ := List.mem_filterMap.1 hv
    exact h name v ho

@[simp] theorem depth_model (r : Record) : (model r).depth = r.depth + 1 := rfl

/-- A list is as deep as its deepest item. -/
theorem depth_list_le {n : Nat} : (list items).depth ≤ n ↔ ∀ v ∈ items, v.depth ≤ n := by
  change measureItems 0 max deepen items ≤ n ↔ _
  rw [measureItems_eq, foldr_max_le, List.forall_mem_map]
  exact Iff.rfl

/-- A record is as deep as its deepest entry. -/
theorem depth_record_le {n : Nat} :
    r.depth ≤ n ↔ ∀ name v, (name, some v) ∈ r.entries → v.depth ≤ n := by
  rw [RecordOf.depth, measureEntries_eq, foldr_max_le, List.forall_mem_map, ← forall_mem_values]
  exact Iff.rfl

/-- A list is as large as its length and its largest item. -/
theorem extent_list_le {n : Nat} :
    (list items).extent ≤ n ↔ items.length ≤ n ∧ ∀ v ∈ items, v.extent ≤ n := by
  rw [extent, measure.eq_1, measureItems_eq, Nat.max_le, foldr_max_le, List.forall_mem_map]
  exact Iff.rfl

/-- A record is as large as its largest entry. -/
theorem extent_record_le {n : Nat} :
    r.extent ≤ n ↔ ∀ name v, (name, some v) ∈ r.entries → v.extent ≤ n := by
  rw [RecordOf.extent, extent, measure.eq_2, measureEntries_eq, Nat.max_le, foldr_max_le,
    List.forall_mem_map, ← forall_mem_values]
  exact and_iff_right (Nat.zero_le _)

theorem depth_le_of_mem (h : v ∈ items) : v.depth ≤ (list items).depth :=
  depth_list_le.1 (Nat.le_refl _) v h

theorem depth_le_of_entry (h : (name, some v) ∈ r.entries) : v.depth ≤ r.depth :=
  depth_record_le.1 (Nat.le_refl _) name v h

/-- The extent counts the length of the value itself. -/
theorem length_le_extent (v : Value) : v.length ≤ v.extent := by
  unfold extent
  cases v <;> exact Nat.le_max_left _ _

theorem extent_le_of_mem (h : v ∈ items) : v.extent ≤ (list items).extent :=
  (extent_list_le.1 (Nat.le_refl _)).2 v h

theorem extent_le_of_entry (h : (name, some v) ∈ r.entries) : v.extent ≤ r.extent :=
  extent_record_le.1 (Nat.le_refl _) name v h

/-- At most `levels` models are open in the value at once, and no length exceeds `bound`. -/
def Within (levels bound : Nat) (v : Value) : Prop := v.depth ≤ levels ∧ v.extent ≤ bound

section
variable {levels bound : Nat}

/-- A scalar is within limits if its own length is. -/
theorem within_scalar (h : v.isCompound = false) : v.Within levels bound ↔ v.length ≤ bound := by
  unfold Within depth extent
  cases v with
  | list | model => cases h
  | _ => simp [measure, deepen]

/-- A list is within limits if its length and its items are; it takes no level. -/
theorem within_list :
    (list items).Within levels bound ↔ items.length ≤ bound ∧ ∀ v ∈ items, v.Within levels bound := by
  rw [Within, depth_list_le, extent_list_le]
  constructor
  · exact fun h => ⟨h.2.1, fun v hv => ⟨h.1 v hv, h.2.2 v hv⟩⟩
  · exact fun h => ⟨fun v hv => (h.2 v hv).1, h.1, fun v hv => (h.2 v hv).2⟩

/-- A model takes one of the levels. -/
theorem within_model :
    (model r).Within (levels + 1) bound ↔
      ∀ name v, (name, some v) ∈ r.entries → v.Within levels bound := by
  rw [Within, depth_model, Nat.add_le_add_iff_right, ← RecordOf.extent, depth_record_le,
    extent_record_le]
  constructor
  · exact fun h name v hv => ⟨h.1 name v hv, h.2 name v hv⟩
  · exact fun h => ⟨fun name v hv => (h name v hv).1, fun name v hv => (h name v hv).2⟩

end

/-- A value that holds no others can be written just if its own length can. -/
theorem storable_scalar (h : v.isCompound = false) : v.Storable ↔ v.length < Word.size 4 := by
  unfold Storable
  cases v with
  | list | model => cases h
  | _ => exact and_iff_left trivial

/-- A list can be stored if its length fits and its items can be. -/
theorem storable_list :
    (list items).Storable ↔ items.length < (list items).lengthBound ∧ ∀ v ∈ items, v.Storable := by
  rw [Storable, measure, measureItems_eq, foldr_and, List.forall_mem_map]
  rfl

/-- A record can be stored if its values can be. -/
theorem storable_record :
    r.Storable ↔ ∀ name v, (name, some v) ∈ r.entries → v.Storable := by
  obtain ⟨m, entries⟩ := r
  have hlen : (model ⟨m, entries⟩).length < (model ⟨m, entries⟩).lengthBound := by
    simp [length, lengthBound, Word.size_pos]
  rw [RecordOf.Storable, Storable, measure, measureEntries_eq, foldr_and, List.forall_mem_map,
    ← forall_mem_values]
  exact and_iff_right hlen

/-- Lengths below the smallest bound can be written wherever they stand. -/
theorem storable_of_extent_lt (h : v.extent < Word.size 4 / 2) : v.Storable := by
  induction v using nested_induction with
  | scalar v hscalar =>
    have hlen : v.length < Word.size 4 / 2 := Nat.lt_of_le_of_lt (length_le_extent v) h
    rw [storable_scalar hscalar]
    omega
  | list items ih =>
    have hlen : items.length < Word.size 4 / 2 :=
      Nat.lt_of_le_of_lt (length_le_extent (list items)) h
    apply storable_list.2
    refine ⟨?_, fun v hv => ih v hv (Nat.lt_of_le_of_lt (extent_le_of_mem hv) h)⟩
    rw [lengthBound]
    split <;> omega
  | model r ih =>
    apply storable_record.2
    intro name v hv
    exact ih name v hv (Nat.lt_of_le_of_lt (extent_le_of_entry hv) h)

end Value

/-! ## A record of any extent -/

namespace RecordOf

/-- A node with this label and no children. -/
def leaf (label : String) : Record := ⟨⟨0⟩, [("label", some (.str label))]⟩

theorem wellTyped_leaf (label : String) : (leaf label).WellTyped Schema.nodes := by
  refine ⟨validate_nodes, wellTyped_family.distinct, .model fun cs hcs c hc v hv => ?_⟩
  cases columns_nodes.symm.trans hcs
  simp only [List.mem_cons, List.not_mem_nil, or_false] at hc
  rcases hc with rfl | rfl
  · cases hv
  · cases hv
    exact .str label

theorem mem_entries_leaf {label name : String} {v : Value} :
    (name, some v) ∈ ((leaf label).normal Schema.nodes).entries ↔ name = "label" ∧ v = .str label := by
  have hnormal : ((leaf label).normal Schema.nodes).entries =
      [("children", none), ("label", some (.str label))] := rfl
  simp [hnormal]

theorem within_leaf (label : String) :
    (Value.model ((leaf label).normal Schema.nodes)).Within 1 label.utf8ByteSize := by
  refine Value.within_model.2 fun name v hv => ?_
  rw [(mem_entries_leaf.1 hv).2]
  exact (Value.within_scalar rfl).2 (Nat.le_refl _)

/-- A leaf can be stored if the length of its label fits 32 bits. -/
theorem storable_leaf {label : String} :
    ((leaf label).normal Schema.nodes).Storable ↔ label.utf8ByteSize < Word.size 4 := by
  have hlabel : (Value.str label).Storable ↔ label.utf8ByteSize < Word.size 4 :=
    Value.storable_scalar rfl
  rw [Value.storable_record, ← hlabel]
  constructor
  · exact fun h => h "label" _ (mem_entries_leaf.2 ⟨rfl, rfl⟩)
  · intro h name v hv
    rwa [(mem_entries_leaf.1 hv).2]

theorem utf8ByteSize_replicate (n : Nat) :
    (String.ofList (List.replicate n 'a')).utf8ByteSize = n := by
  induction n with
  | zero => rfl
  | succ n ih =>
    rw [List.replicate_succ, String.ofList_cons, String.utf8ByteSize_append, ih, Nat.add_comm]
    rfl

end RecordOf

end Wireform
