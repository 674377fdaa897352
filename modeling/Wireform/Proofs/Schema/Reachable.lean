import Wireform.Proofs.Traversal
import Wireform.Schema.Reach

/-!
# What a checked schema promises

`Schema.Reaches` says which models a model leads to through the tags of its exposed fields. Main
statement: when a schema has been checked for a model, every model that it reaches has columns
(`Schema.columns_of_validate`). The invariant of a visit is `Schema.Settled`: what has been seen has
columns that lead only to what has been seen or is pending.
-/

namespace Wireform.Schema

/-- `s.Reaches m n`: the exposed fields of `m` lead to `n`, directly or through other models. -/
inductive Reaches (s : Schema) (m : ModelId) : ModelId → Prop
  | refl : s.Reaches m m
  | step {n k : ModelId} {d : FieldDecl} {t : Tag} : s.Reaches m n → d ∈ s.catalog n →
    d.shape.present.tag? = some t → t.nested? = some k → s.Reaches m k

variable {s : Schema} {m n k : ModelId} {cs : List Column}

theorem Reaches.of_nested (h : (Tag.model m).nested? = some n) : s.Reaches m n := by
  cases h
  exact .refl

/-! ## Columns and the declarations they come from -/

/-- The column of a field has its name, and the tag of its shape without the option. -/
theorem column_eq_ok {d : FieldDecl} {c : Column} :
    s.column m d = .ok c ↔ c.name = d.name ∧ d.shape.present.tag? = some c.tag := by
  obtain ⟨name, tag⟩ := c
  unfold column Schema.tag
  cases d.shape.present.tag? with
  | none => simp [Except.map]
  | some t => simp [Except.map, eq_comm]

/-- The columns stand for the fields of the catalog, one for one. -/
theorem forall₂_columns (h : s.columns m = .ok cs) :
    List.Forall₂ (fun d c => c.name = d.name ∧ d.shape.present.tag? = some c.tag)
      (s.catalog m) cs :=
  (forall₂_of_mapM_ok h).imp fun _ _ => column_eq_ok.1

/-- The columns have the names of the catalog. -/
theorem map_name_columns (h : s.columns m = .ok cs) :
    cs.map Column.name = (s.catalog m).map FieldDecl.name :=
  map_eq_map_iff.2 ((forall₂_columns h).imp fun _ _ hc => hc.1)

/-- Every column comes from a field of the catalog. -/
theorem exists_decl_of_mem_columns (h : s.columns m = .ok cs) {c : Column} (hc : c ∈ cs) :
    ∃ d ∈ s.catalog m, c.name = d.name ∧ d.shape.present.tag? = some c.tag :=
  exists_of_forall₂ (forall₂_columns h).flip hc

/-- Every field of the catalog has its column. -/
theorem exists_column_of_mem_catalog (h : s.columns m = .ok cs) {d : FieldDecl}
    (hd : d ∈ s.catalog m) : ∃ c ∈ cs, c.name = d.name ∧ d.shape.present.tag? = some c.tag :=
  exists_of_forall₂ (forall₂_columns h) hd

/-- A model reaches what its columns hold. -/
theorem Reaches.column (hr : s.Reaches m n) (h : s.columns n = .ok cs) {c : Column} (hc : c ∈ cs)
    (hk : c.tag.nested? = some k) : s.Reaches m k := by
  obtain ⟨d, hd, -, ht⟩ := exists_decl_of_mem_columns h hc
  exact .step hr hd ht hk

/-! ## The visit -/

/-- What has been seen has columns, and they lead to what has been seen or is pending. -/
def Settled (s : Schema) (seen pending : List ModelId) : Prop :=
  ∀ n ∈ seen, ∃ cs, s.columns n = .ok cs ∧ ∀ k ∈ nestedModels cs, k ∈ seen ∨ k ∈ pending

theorem settled_nil (pending : List ModelId) : s.Settled [] pending := fun _ h => nomatch h

/-- A model that has been seen need not be visited again. -/
theorem Settled.skip {seen pending : List ModelId} (h : s.Settled seen (m :: pending))
    (hm : m ∈ seen) : s.Settled seen pending := by
  intro n hn
  obtain ⟨cs, hcs, hnested⟩ := h n hn
  refine ⟨cs, hcs, fun k hk => ?_⟩
  rcases hnested k hk with hseen | hpending
  · exact .inl hseen
  · rcases List.mem_cons.1 hpending with rfl | hpending
    · exact .inl hm
    · exact .inr hpending

/-- Visiting a model adds what its columns hold to what is pending. -/
theorem Settled.visit {seen pending : List ModelId} (h : s.Settled seen (m :: pending))
    (hcs : s.columns m = .ok cs) :
    s.Settled (m :: seen) ((nestedModels cs).reverse ++ pending) := by
  intro n hn
  rcases List.mem_cons.1 hn with rfl | hn
  · refine ⟨cs, hcs, fun k hk => .inr ?_⟩
    exact List.mem_append_left _ (List.mem_reverse.2 hk)
  · obtain ⟨cs', hcs', hnested⟩ := h n hn
    refine ⟨cs', hcs', fun k hk => ?_⟩
    rcases hnested k hk with hseen | hpending
    · exact .inl (List.mem_cons_of_mem _ hseen)
    · rcases List.mem_cons.1 hpending with rfl | hpending
      · exact .inl List.mem_cons_self
      · exact .inr (List.mem_append_right _ hpending)

/-- A model that has not been seen ends the visit if it has no columns. -/
theorem visit_of_error {seen pending : List ModelId} {e : ModelError} (hm : m ∉ seen)
    (h : s.columns m = .error e) : s.visit seen (m :: pending) = .error e := by
  rw [visit, dif_neg hm]
  split <;> simp_all

/-- Otherwise the visit goes on with what its columns hold. -/
theorem visit_of_columns {seen pending : List ModelId} (hm : m ∉ seen) (h : s.columns m = .ok cs) :
    s.visit seen (m :: pending) = s.visit (m :: seen) ((nestedModels cs).reverse ++ pending) := by
  rw [visit, dif_neg hm]
  split <;> simp_all

/-- A visit that succeeds has seen everything it set out for, and what that leads to. -/
theorem settled_of_visit {seen pending : List ModelId} (hinv : s.Settled seen pending)
    (h : s.visit seen pending = .ok ()) :
    ∃ all, seen ⊆ all ∧ pending ⊆ all ∧ s.Settled all [] := by
  induction seen, pending using visit.induct s with
  | case1 seen => exact ⟨seen, List.Subset.refl _, List.nil_subset _, hinv⟩
  | case2 seen m pending hm ih =>
    rw [visit, dif_pos hm] at h
    obtain ⟨all, hseen, hpending, hall⟩ := ih (hinv.skip hm) h
    exact ⟨all, hseen, List.cons_subset.2 ⟨hseen hm, hpending⟩, hall⟩
  | case3 seen m pending hm e he =>
    rw [visit_of_error hm he] at h
    cases h
  | case4 seen m pending hm cs hcs _ ih =>
    rw [visit_of_columns hm hcs] at h
    obtain ⟨all, hseen, hpending, hall⟩ := ih (hinv.visit hcs) h
    obtain ⟨hm, hseen⟩ := List.cons_subset.1 hseen
    refine ⟨all, hseen, List.cons_subset.2 ⟨hm, ?_⟩, hall⟩
    exact fun k hk => hpending (List.mem_append_right _ hk)

/-- Every model that a checked model reaches has columns. -/
theorem columns_of_validate (h : s.validate m = .ok ()) (hr : s.Reaches m n) :
    ∃ cs, s.columns n = .ok cs := by
  obtain ⟨all, -, hm, hall⟩ := settled_of_visit (settled_nil _) h
  suffices hn : n ∈ all by
    obtain ⟨cs, hcs, -⟩ := hall n hn
    exact ⟨cs, hcs⟩
  induction hr with
  | refl => exact hm List.mem_cons_self
  | @step n k d t _ hd ht hk ih =>
    obtain ⟨cs, hcs, hnested⟩ := hall n ih
    obtain ⟨c, hc, -, hct⟩ := exists_column_of_mem_catalog hcs hd
    obtain rfl : t = c.tag := Option.some.inj (ht.symm.trans hct)
    rcases hnested k (List.mem_filterMap.2 ⟨c, hc, hk⟩) with hk | hk
    · exact hk
    · cases hk

end Wireform.Schema
