import Mathlib.Data.List.Sort
import Wireform.Schema.Catalog

/-!
# Declared fields

Fields are declared under distinct names and are looked up by them. The catalog of a model has the
exposed ones, each of them once.
-/

namespace Wireform

namespace FieldDecl

/-- Sorting is the insertion sort of the library, whose lemmas hold of it. -/
theorem sortByName_eq (ds : List FieldDecl) :
    sortByName ds = ds.insertionSort fun d e => d.name ≤ e.name := by
  have hinsert (d : FieldDecl) (ds : List FieldDecl) :
      d.insert ds = ds.orderedInsert (fun d e => d.name ≤ e.name) d := by
    induction ds with
    | nil => rfl
    | cons e ds ih => rw [insert, ih, List.orderedInsert_cons]
  induction ds with
  | nil => rfl
  | cons d ds ih =>
    rw [List.insertionSort_cons, ← ih, ← hinsert]
    rfl

end FieldDecl

namespace Schema

/-- No two fields of the model have the same name. -/
def Distinct (s : Schema) (m : ModelId) : Prop := ((s.fields m).map FieldDecl.name).Nodup

variable {s : Schema} {m : ModelId} {d : FieldDecl} {name : String}

/-- A catalog is a rearrangement of the exposed fields. -/
theorem perm_catalog (s : Schema) (m : ModelId) :
    (s.catalog m).Perm ((s.fields m).filter FieldDecl.exposed) := by
  rw [catalog, FieldDecl.sortByName_eq]
  exact List.perm_insertionSort _ _

theorem mem_fields_of_mem_catalog (h : d ∈ s.catalog m) : d ∈ s.fields m :=
  (List.mem_filter.1 ((s.perm_catalog m).mem_iff.1 h)).1

/-- Distinct field names stay distinct in the catalog. -/
theorem Distinct.catalog (h : s.Distinct m) : ((s.catalog m).map FieldDecl.name).Nodup := by
  rw [((s.perm_catalog m).map FieldDecl.name).nodup_iff]
  exact h.sublist (List.filter_sublist.map FieldDecl.name)

/-- Among distinct names a field is found under its own. -/
theorem Distinct.field?_eq_some (h : s.Distinct m) (hd : d ∈ s.fields m) :
    s.field? m d.name = some d := by
  cases hfind : s.field? m d.name with
  | none =>
    have hne := List.find?_eq_none.1 hfind d hd
    exact (hne (decide_eq_true rfl)).elim
  | some e =>
    have hname : e.name = d.name := by simpa using List.find?_some hfind
    exact congrArg some (List.inj_on_of_nodup_map h (List.mem_of_find?_eq_some hfind) hd hname)

end Schema

/-- A name is not found just if no pair has it. -/
theorem lookup_eq_none_iff {α : Type} {entries : List (String × α)} {name : String} :
    entries.lookup name = none ↔ name ∉ entries.map Prod.fst := by
  rw [List.lookup_eq_none_iff, List.mem_map]
  constructor
  · rintro h ⟨e, he, rfl⟩
    simpa using h e he
  · intro h e he
    have hne : name ≠ e.1 := fun heq => h ⟨e, he, heq.symm⟩
    simpa using hne

/-- Where no name is repeated, a pair is found by its name. -/
theorem lookup_of_mem {α : Type} {entries : List (String × α)} {name : String} {a : α}
    (h : (entries.map Prod.fst).Nodup) (hmem : (name, a) ∈ entries) :
    entries.lookup name = some a := by
  obtain ⟨before, after, rfl⟩ := List.append_of_mem hmem
  refine List.lookup_eq_some_iff.2 ⟨before, after, rfl, fun e he => ?_⟩
  rw [List.map_append, List.nodup_append] at h
  have hne := h.2.2 e.1 (List.mem_map_of_mem he) name List.mem_cons_self
  simpa using hne.symm

end Wireform
