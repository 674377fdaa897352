import Wireform.Instance.Assign
import Wireform.Proofs.Schema.Declared
import Wireform.Proofs.Value.Regular

/-!
# Instances of regular records

A regular record is assigned to a new instance of its model without a failure. The record of that
instance is the regular one with its gaps filled: a field that is absent but may not be has its
initial value (`exists_ofRecord`).
-/

namespace Wireform

/-! ## Filling in what is absent -/

/-- What is shown for a field that nothing has been assigned to, if it cannot be absent. -/
def FieldDecl.default? (s : Schema) (d : FieldDecl) : Option Value :=
  match d.shape with
  | .optional _ => none
  | _ => d.initial.value s

/-- What a field shows in a new instance. -/
def Schema.default? (s : Schema) (m : ModelId) (name : String) : Option Value :=
  (s.field? m name).bind (FieldDecl.default? s)

namespace Value

mutual

/-- A value with the defaults of absent fields filled in, in every record within it. -/
def filled (s : Schema) : Value → Value
  | list items => .list (filledItems s items)
  | model ⟨m, entries⟩ => .model ⟨m, filledEntries s m entries⟩
  | v => v

def filledItems (s : Schema) : List Value → List Value
  | [] => []
  | v :: rest => filled s v :: filledItems s rest

def filledEntries (s : Schema) (m : ModelId) :
    List (String × Option Value) → List (String × Option Value)
  | [] => []
  | (name, none) :: rest => (name, s.default? m name) :: filledEntries s m rest
  | (name, some v) :: rest => (name, some (filled s v)) :: filledEntries s m rest

end

end Value

/-- What an entry comes to be in a record of `m`. -/
def RecordOf.filledEntry (s : Schema) (m : ModelId) : String × Option Value → Option Value
  | (name, none) => s.default? m name
  | (_, some v) => some (v.filled s)

/-- The record with the defaults of absent fields filled in, also in the records within it. -/
def RecordOf.filled (s : Schema) (r : Record) : Record :=
  ⟨r.model, r.entries.map fun e => (e.1, filledEntry s r.model e)⟩

namespace Value

variable {s : Schema}

theorem filledItems_eq (items : List Value) : filledItems s items = items.map (filled s) := by
  induction items with
  | nil => rfl
  | cons v items ih => rw [filledItems, ih, List.map_cons]

@[simp] theorem filled_list (items : List Value) :
    filled s (.list items) = .list (items.map (filled s)) := by
  rw [filled, filledItems_eq]

@[simp] theorem filled_model (r : Record) : filled s (.model r) = .model (r.filled s) := by
  obtain ⟨m, entries⟩ := r
  have hentries : filledEntries s m entries =
      entries.map fun e => (e.1, RecordOf.filledEntry s m e) := by
    induction entries with
    | nil => rfl
    | cons e entries ih =>
      obtain ⟨name, _ | v⟩ := e <;> rw [filledEntries, ih, List.map_cons] <;> rfl
  rw [filled, hentries]
  rfl

end Value

/-! ## Entries of one name -/

/-- The last entry of that name that is present. -/
def lastPresent {V : Type} (entries : List (String × Option V)) (name : String) : Option V :=
  (entries.filterMap fun e => if e.1 = name then e.2 else none).getLast?

/-- The last present value under a name is looked for in the rest of the entries first. -/
theorem lastPresent_cons {V : Type} (key : String) (o : Option V)
    (entries : List (String × Option V)) (name : String) :
    lastPresent ((key, o) :: entries) name =
      (lastPresent entries name).or (if key = name then o else none) := by
  unfold lastPresent
  rw [List.filterMap_cons]
  dsimp only
  split
  · next h => rw [h, Option.or_none]
  · next v h =>
    rw [h, List.getLast?_cons]
    cases List.getLast? _ <;> rfl

theorem lastPresent_eq_none {V : Type} {entries : List (String × Option V)} {name : String}
    (h : name ∉ entries.map Prod.fst) : lastPresent entries name = none := by
  induction entries with
  | nil => rfl
  | cons e entries ih =>
    rw [List.map_cons, List.mem_cons, not_or] at h
    rw [lastPresent_cons, ih h.2, if_neg (Ne.symm h.1)]
    rfl

/-- Where no name is repeated, the entry that is found is the only one. -/
theorem lastPresent_of_nodup {V : Type} {entries : List (String × Option V)}
    (h : (entries.map Prod.fst).Nodup) (name : String) :
    lastPresent entries name = (entries.lookup name).join := by
  induction entries with
  | nil => rfl
  | cons e entries ih =>
    rw [List.map_cons, List.nodup_cons] at h
    rw [lastPresent_cons, List.lookup_cons]
    by_cases hname : name = e.1
    · rw [hname, lastPresent_eq_none h.1, if_pos rfl, beq_self_eq_true]
      rfl
    · rw [ih h.2, if_neg (Ne.symm hname), beq_eq_false_iff_ne.2 hname, Option.or_none]

/-! ## Contents of fields -/

namespace InstanceOf

variable {s : Schema} {i : Instance}

@[simp] theorem map_fst_put (i : Instance) (name : String) (c : Cell) :
    (i.put name c).fields.map Prod.fst = i.fields.map Prod.fst := by
  rw [put, List.map_map]
  refine List.map_congr_left fun f _ => ?_
  dsimp only [Function.comp]
  split <;> rfl

/-- An assigned field has the new cell, and the others have their own. -/
theorem lookup_put (i : Instance) (name other : String) (c : Cell) :
    (i.put name c).fields.lookup other =
      (i.fields.lookup other).map fun old => if other = name then c else old := by
  obtain ⟨m, fields⟩ := i
  change (fields.map fun f => if f.1 = name then (f.1, c) else f).lookup other =
    (fields.lookup other).map fun old => if other = name then c else old
  induction fields with
  | nil => rfl
  | cons f fields ih =>
    obtain ⟨key, old⟩ := f
    have hput : (if key = name then (key, c) else (key, old)) =
        (key, if key = name then c else old) := by split <;> rfl
    rw [List.map_cons, hput, List.lookup_cons, List.lookup_cons]
    by_cases hkey : other = key
    · rw [hkey, beq_self_eq_true]
      rfl
    · rw [beq_eq_false_iff_ne.2 hkey]
      exact ih

/-- Assignment to one field does not change the value of another. -/
theorem get_put_of_ne {name other : String} (h : other ≠ name) (c : Cell) :
    (i.put name c).get s other = i.get s other := by
  simp only [get, lookup_put, if_neg h, Option.map_id']

/-- An assigned field has the value of its cell. -/
theorem get_put_self {name : String} (h : name ∈ i.fields.map Prod.fst) (c : Cell) :
    (i.put name c).get s name = c.value s := by
  obtain ⟨old, hold⟩ := Option.ne_none_iff_exists'.1 fun hnone => lookup_eq_none_iff.1 hnone h
  simp [get, lookup_put, hold]

/-- The initial instance has the declared value of each field. -/
theorem get_initial {m : ModelId} {d : FieldDecl} {name : String} (h : s.field? m name = some d) :
    (s.initial m).get s name = d.initial.value s := by
  have hlookup (ds : List FieldDecl) : (ds.map fun d => (d.name, d.initial)).lookup name =
      (ds.find? fun d => d.name = name).map FieldDecl.initial := by
    induction ds with
    | nil => rfl
    | cons e ds ih =>
      rw [List.map_cons, List.lookup_cons, List.find?_cons]
      by_cases hname : name = e.name
      · rw [hname, beq_self_eq_true, decide_eq_true rfl]
        rfl
      · rw [beq_eq_false_iff_ne.2 hname, decide_eq_false (Ne.symm hname)]
        exact ih
  have hfields : (s.initial m).fields.lookup name = some d.initial := by
    rw [Schema.initial, hlookup]
    exact congrArg (Option.map FieldDecl.initial) h
  rw [get, hfields]
  rfl

end InstanceOf

/-! ## Cells for values -/

namespace Shape

variable {s : Schema} {shape : Shape} {t : Tag}

theorem value_wrap (s : Schema) (shape : Shape) (c : Cell) :
    (shape.wrap c).value s = c.value s := by
  induction shape with
  | optional item ih => rw [wrap, Cell.value, ih]
  | _ => rfl

/-- What has a tag cannot be absent. -/
theorem bare_of_tag? (h : shape.tag? = some t) : shape.bare = shape := by
  cases shape with
  | optional item => cases h
  | _ => rfl

theorem wrap_of_tag? (h : shape.tag? = some t) (c : Cell) : shape.wrap c = c := by
  cases shape with
  | optional item => cases h
  | _ => rfl

theorem bare_of_present (h : shape.present.tag? = some t) : shape.bare = shape.present := by
  cases shape with
  | optional item => exact bare_of_tag? h
  | _ => rfl

end Shape

namespace Value

variable {s : Schema} {root m : ModelId} {site : Site} {shape : Shape} {tag : Tag} {v : Value}
  {items : List Value} {entries : List (String × Option Value)}

/-- Whether a field may be absent matters only for how its cell is wrapped. -/
theorem cell_of_present (h : shape.present.tag? = some tag) (v : Value) (site : Site) :
    v.cell s site shape = shape.wrap <$> v.cell s site shape.present := by
  have hwrap (x : Except ModelError Cell) : shape.present.wrap <$> x = x := by
    cases x with
    | ok c => exact congrArg Except.ok (Shape.wrap_of_tag? h c)
    | error e => rfl
  unfold cell
  rw [Shape.bare_of_present h, Shape.bare_of_tag? h, hwrap]

/-- A list is converted item by item. -/
theorem cell_list (items : List Value) (site : Site) (item : Shape) :
    (Value.list items).cell s site (.list item) = Cell.list <$> cells s items site item := by
  unfold cell
  change Shape.wrap _ <$> Cell.list <$> cells s items site item = _
  cases cells s items site item <;> rfl

/-- A record is converted into an instance of its model. -/
theorem cell_model (r : Record) (site : Site) (m : ModelId) :
    (Value.model r).cell s site (.model m) =
      Cell.model <$> instanceWith s m r.model (conversions s r.entries) := by
  obtain ⟨n, entries⟩ := r
  unfold cell
  change Shape.wrap _ <$> Cell.model <$> instanceWith s m n (conversions s entries) = _
  cases instanceWith s m n (conversions s entries) <;> rfl

/-- The value becomes a cell of the shape, and the cell holds the value with its gaps filled. -/
def Suits (s : Schema) (v : Value) (shape : Shape) : Prop :=
  ∀ site, ∃ c, v.cell s site shape = .ok c ∧ c.value s = some (v.filled s)

theorem Suits.of_present (h : shape.present.tag? = some tag) (hv : v.Suits s shape.present) :
    v.Suits s shape := by
  intro site
  obtain ⟨c, hc, hvalue⟩ := hv site
  refine ⟨shape.wrap c, ?_, (Shape.value_wrap s shape c).trans hvalue⟩
  rw [cell_of_present h, hc]
  rfl

/-- The elements of a list become cells one by one, and the cells hold what these are said to. -/
theorem exists_cells {item : Shape} {f : Value → Value}
    (h : ∀ v ∈ items, ∃ c, v.cell s site item = .ok c ∧ c.value s = some (f v)) :
    ∃ cs, cells s items site item = .ok cs ∧ Cell.itemValues s cs = items.map f := by
  induction items with
  | nil => exact ⟨[], rfl, rfl⟩
  | cons v items ih =>
    obtain ⟨⟨c, hc, hvalue⟩, hrest⟩ := List.forall_mem_cons.1 h
    obtain ⟨cs, hcs, hvalues⟩ := ih hrest
    refine ⟨c :: cs, ?_, ?_⟩
    · rw [cells, hc, hcs]
      rfl
    · rw [Cell.itemValues, hvalue, hvalues]
      rfl

/-- A list suits its shape if its items suit theirs. -/
theorem Suits.list {item : Shape} (h : ∀ v ∈ items, v.Suits s item) :
    (Value.list items).Suits s (.list item) := by
  intro site
  obtain ⟨cs, hcs, hvalues⟩ := exists_cells fun v hv => h v hv site
  refine ⟨.list cs, ?_, ?_⟩
  · rw [cell_list, hcs]
    rfl
  · rw [Cell.value, hvalues, filled_list]

/-- Entries are assigned if each of them that is present becomes a cell of its field. -/
theorem exists_assignEntries {i : Instance}
    (h : ∀ e ∈ entries, ∃ d, s.field? i.model e.1 = some d ∧
      ∀ v, e.2 = some v → v.Suits s d.shape) :
    ∃ j, assignEntries s i (conversions s entries) = .ok j := by
  induction entries generalizing i with
  | nil => exact ⟨i, rfl⟩
  | cons e entries ih =>
    obtain ⟨⟨d, hd, hsuits⟩, hrest⟩ := List.forall_mem_cons.1 h
    obtain ⟨name, _ | v⟩ := e
    · exact ih hrest
    · obtain ⟨c, hc, -⟩ := hsuits v rfl ⟨s.name i.model, d.name⟩
      obtain ⟨j, hj⟩ := ih (i := i.put name c) hrest
      refine ⟨j, ?_⟩
      rw [conversions, assignEntries, assignWith, hd]
      dsimp only
      rw [hc]
      exact hj

/-- An assignment that succeeds found the field and converted the value. -/
theorem assignWith_eq_ok {name : String} (h : assignWith s i name (v.cell s) = .ok j) :
    ∃ d c, s.field? i.model name = some d ∧ v.cell s ⟨s.name i.model, d.name⟩ d.shape = .ok c ∧
      j = i.put name c := by
  rw [assignWith] at h
  cases hd : s.field? i.model name with
  | none =>
    rw [hd] at h
    cases h
  | some d =>
    rw [hd] at h
    obtain ⟨c, hc, hj⟩ := bind_ok_iff.1 h
    exact ⟨d, c, rfl, hc, (Except.ok.inj hj).symm⟩

/-- What a field shows after an assignment for each entry: the last that was present, and otherwise
what it showed before. -/
def Shows (s : Schema) (i j : Instance) (entries : List (String × Option Value)) (d : FieldDecl) :
    Prop :=
  match lastPresent entries d.name with
  | some v => ∃ site c, v.cell s site d.shape = .ok c ∧ j.get s d.name = c.value s
  | none => j.get s d.name = i.get s d.name

/-- The invariant of the loop: no assignment takes a field away or changes another one. -/
theorem shows_of_assignEntries (h : assignEntries s i (conversions s entries) = .ok j) :
    j.model = i.model ∧ ∀ d, s.field? i.model d.name = some d → d.name ∈ i.fields.map Prod.fst →
      Shows s i j entries d := by
  induction entries generalizing i with
  | nil =>
    cases h
    exact ⟨rfl, fun _ _ _ => rfl⟩
  | cons e entries ih =>
    obtain ⟨key, _ | v⟩ := e
    · obtain ⟨hmodel, hshows⟩ := ih h
      refine ⟨hmodel, fun d hd hmem => ?_⟩
      have hlast : lastPresent ((key, none) :: entries) d.name = lastPresent entries d.name := by
        rw [lastPresent_cons, ite_self, Option.or_none]
      rw [Shows, hlast]
      exact hshows d hd hmem
    · obtain ⟨i', hassign, hrest⟩ := bind_ok_iff.1 h
      obtain ⟨d', c, hd', hc, rfl⟩ := assignWith_eq_ok hassign
      obtain ⟨hmodel, hshows⟩ := ih hrest
      refine ⟨hmodel, fun d hd hmem => ?_⟩
      have hrest := hshows d hd (by rwa [InstanceOf.map_fst_put])
      rw [Shows] at hrest ⊢
      rw [lastPresent_cons]
      cases hlast : lastPresent entries d.name with
      | some w =>
        rw [hlast] at hrest
        exact hrest
      | none =>
        rw [hlast] at hrest
        by_cases hkey : key = d.name
        · subst hkey
          cases hd.symm.trans hd'
          rw [if_pos rfl]
          exact ⟨_, c, hc, hrest.trans (InstanceOf.get_put_self hmem c)⟩
        · rw [if_neg hkey]
          exact hrest.trans (InstanceOf.get_put_of_ne (Ne.symm hkey) c)

end Value

/-! ## Regular records -/

/-- The shape of what has the tag, unless it may be absent. -/
def Tag.shape : Tag → Shape
  | .bool => .bool
  | .str => .str
  | .int => .int
  | .long => .long
  | .duration => .duration
  | .calendar => .calendar
  | .zone => .zone
  | .strList => .list .str
  | .modelList m => .list (.model m)
  | .model m => .model m

/-- A shape is determined by its tag. -/
theorem Shape.eq_of_tag? {shape : Shape} {t : Tag} (h : shape.tag? = some t) : shape = t.shape := by
  unfold tag? at h
  split at h <;> cases h <;> rfl

/-- Exposed fields that may be absent are so in a new instance. -/
def Schema.StartsAbsent (s : Schema) (m : ModelId) : Prop :=
  ∀ d ∈ s.catalog m, ∀ item, d.shape = .optional item → d.initial = .absent

namespace Value

variable {s : Schema} {root m : ModelId} {tag : Tag} {v : Value} {cs : List Column}
  {entries : List (String × Option Value)}

/-- The default of an exposed field is its value in the initial instance. -/
theorem default?_eq_get_initial (hdistinct : s.Distinct m) (habsent : s.StartsAbsent m)
    {d : FieldDecl} (hd : d ∈ s.catalog m) :
    s.default? m d.name = (s.initial m).get s d.name := by
  have hfield := hdistinct.field?_eq_some (Schema.mem_fields_of_mem_catalog hd)
  rw [InstanceOf.get_initial hfield, Schema.default?, hfield, Option.bind_some, FieldDecl.default?]
  split
  · next item hshape =>
    rw [habsent d hd item hshape]
    rfl
  · rfl

/-- Assignments to a new instance show in every field of the catalog. -/
theorem shows_of_initial (hdistinct : s.Distinct m) {i : Instance}
    (h : assignEntries s (s.initial m) (conversions s entries) = .ok i) :
    i.model = m ∧ ∀ d ∈ s.catalog m, Shows s (s.initial m) i entries d := by
  obtain ⟨hmodel, hshows⟩ := shows_of_assignEntries h
  refine ⟨hmodel, fun d hd => ?_⟩
  have hmem := Schema.mem_fields_of_mem_catalog hd
  refine hshows d (hdistinct.field?_eq_some hmem) ?_
  rw [Schema.initial, List.map_map]
  exact List.mem_map.2 ⟨d, hmem, rfl⟩

/-- Assigning what the columns of a model ask for fills a new instance of it. -/
theorem exists_instance (hdistinct : s.Distinct m) (habsent : s.StartsAbsent m)
    (hcs : s.columns m = .ok cs)
    (h : List.Forall₂ (Answers fun t v => v.Suits s t.shape) cs entries) :
    ∃ i, instanceWith s m m (conversions s entries) = .ok i ∧
      i.record s = (RecordOf.mk m entries).filled s := by
  have hnames : entries.map Prod.fst = (s.catalog m).map FieldDecl.name :=
    (forall₂_answers.1 h).1.trans (Schema.map_name_columns hcs)
  have hkeys : (entries.map Prod.fst).Nodup := hnames ▸ hdistinct.catalog
  have hdecl : ∀ e ∈ entries, ∃ d ∈ s.catalog m, d.name = e.1 ∧
      ∀ v, e.2 = some v → v.Suits s d.shape := by
    intro e he
    obtain ⟨c, hc, hname, hsuits⟩ := exists_of_forall₂ h.flip he
    obtain ⟨d, hd, hcname, htag⟩ := Schema.exists_decl_of_mem_columns hcs hc
    refine ⟨d, hd, hcname.symm.trans hname.symm, fun v hv => .of_present htag ?_⟩
    rw [Shape.eq_of_tag? htag]
    exact hsuits v hv
  have hfields : ∀ e ∈ entries, ∃ d, s.field? m e.1 = some d ∧
      ∀ v, e.2 = some v → v.Suits s d.shape := by
    intro e he
    obtain ⟨d, hd, hname, hsuits⟩ := hdecl e he
    have hmem := Schema.mem_fields_of_mem_catalog hd
    exact ⟨d, hname ▸ hdistinct.field?_eq_some hmem, hsuits⟩
  obtain ⟨i, hi⟩ := exists_assignEntries (i := s.initial m) hfields
  obtain ⟨hmodel, hshows⟩ := shows_of_initial hdistinct hi
  refine ⟨i, (if_pos rfl).trans hi, ?_⟩
  have hrecord : (s.catalog i.model).map (fun d => (d.name, i.get s d.name)) =
      entries.map fun e => (e.1, i.get s e.1) := by
    have hmap := congrArg (List.map fun name => (name, i.get s name)) hnames
    rw [List.map_map, List.map_map] at hmap
    rw [hmodel]
    exact hmap.symm
  rw [InstanceOf.record, hrecord, hmodel, RecordOf.filled]
  congr 1
  refine List.map_congr_left fun e he => ?_
  obtain ⟨d, hd, hname, hsuits⟩ := hdecl e he
  obtain ⟨name, o⟩ := e
  obtain rfl : d.name = name := hname
  have hshow := hshows d hd
  rw [Shows, lastPresent_of_nodup hkeys, lookup_of_mem hkeys he] at hshow
  refine congrArg (Prod.mk d.name) ?_
  cases o with
  | some v =>
    obtain ⟨site, c, hc, hvalue⟩ := hshow
    obtain ⟨c', hc', hvalue'⟩ := hsuits v rfl site
    cases hc.symm.trans hc'
    exact hvalue.trans hvalue'
  | none => exact hshow.trans (default?_eq_get_initial hdistinct habsent hd).symm

/-- The invariant of the recursion through nested records: they are of models that are reached, so
what is assumed of those holds of theirs. -/
theorem Regular.suits (hdistinct : ∀ n, s.Reaches root n → s.Distinct n)
    (habsent : ∀ n, s.Reaches root n → s.StartsAbsent n) (h : Regular s tag v)
    (hreach : ∀ n, tag.nested? = some n → s.Reaches root n) : v.Suits s tag.shape := by
  induction h with
  | bool b => exact fun _ => ⟨.bool b, rfl, rfl⟩
  | str t => exact fun _ => ⟨.str t, rfl, rfl⟩
  | int n => exact fun _ => ⟨.int n, rfl, rfl⟩
  | long n => exact fun _ => ⟨.long n, rfl, rfl⟩
  | duration d => exact fun _ => ⟨.duration d, rfl, rfl⟩
  | calendar u => exact fun _ => ⟨.calendar u, rfl, rfl⟩
  | zone z => exact fun _ => ⟨.zone z, rfl, rfl⟩
  | strList _ ih => exact .list fun v hv => ih v hv nofun
  | modelList _ ih => exact .list fun v hv => ih v hv hreach
  | @model r cs hcs hnames _ ih =>
    obtain ⟨m, entries⟩ := r
    have hm : s.Reaches root m := hreach m rfl
    have hanswers : List.Forall₂ (Answers fun t v => v.Suits s t.shape) cs entries := by
      refine forall₂_answers.2 ⟨hnames, fun c name v hmem => ih c name v hmem fun n hn => ?_⟩
      exact hm.column hcs (List.of_mem_zip hmem).1 hn
    obtain ⟨i, hi, hrecord⟩ := exists_instance (hdistinct m hm) (habsent m hm) hcs hanswers
    refine fun site => ⟨.model i, ?_, ?_⟩
    · rw [Tag.shape, cell_model, hi]
      rfl
    · rw [InstanceOf.value_model, hrecord, filled_model]

end Value

/-- A regular record becomes an instance, and the record of that is the one it came from with the
defaults of absent fields filled in. -/
theorem RecordOf.Regular.exists_ofRecord {s : Schema} {m : ModelId} {r : Record}
    (hdistinct : ∀ n, s.Reaches m n → s.Distinct n)
    (habsent : ∀ n, s.Reaches m n → s.StartsAbsent n) (h : r.Regular s m) :
    ∃ i, InstanceOf.ofRecord s m r = .ok i ∧ i.record s = r.filled s := by
  cases h with
  | @model r cs hcs hnames hentries =>
    refine Value.exists_instance (hdistinct _ .refl) (habsent _ .refl) hcs ?_
    refine Value.forall₂_answers.2 ⟨hnames, fun c name v hmem => ?_⟩
    refine (hentries c name v hmem).suits hdistinct habsent fun n hn => ?_
    exact Schema.Reaches.refl.column hcs (List.of_mem_zip hmem).1 hn

end Wireform
