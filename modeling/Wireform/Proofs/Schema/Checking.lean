import Wireform.Proofs.Value.Encodable
import Wireform.Proofs.Yields

/-!
# What checking a schema finds

A schema passes the check for a model just if every model that it reaches has only fields that are
supported (`validate_eq_ok_iff`). A check that fails has come to a reachable model, and names the
first field of its catalog that has no encoding (`exists_of_validate_error`). Reading and writing
meet with the same failure, so `Blames` says of an error in general that it is that of a reachable
model if it speaks of an unsupported field.
-/

namespace Wireform.Schema

variable {s : Schema} {root m n : ModelId} {e : ModelError}

/-- `d` comes before all other fields of the catalog that have no encoding. -/
def FirstUnsupported (s : Schema) (m : ModelId) (d : FieldDecl) : Prop :=
  ∃ before after, s.catalog m = before ++ d :: after ∧
    (∀ b ∈ before, b.shape.present.tag?.isSome) ∧ d.shape.present.tag? = none

/-- An unsupported field is reported only if a reachable model has one. -/
def Blames (s : Schema) (root : ModelId) (e : ModelError) : Prop :=
  ∀ site shape, e = .unsupportedField site shape → ∃ n, s.Reaches root n ∧ s.columns n = .error e

/-! ## Columns -/

/-- A field has no column exactly if its shape has no tag, and the error names the field and its
shape. -/
theorem column_eq_error {d : FieldDecl} : s.column m d = .error e ↔
    d.shape.present.tag? = none ∧ e = .unsupportedField ⟨s.name m, d.name⟩ (d.shape.text s) := by
  unfold column Schema.tag
  cases d.shape.present.tag? with
  | none => simp [Except.map, eq_comm]
  | some t => simp [Except.map]

/-- A model without columns is reported by its first field that has no encoding. -/
theorem exists_of_columns_error (h : s.columns m = .error e) :
    ∃ d, s.FirstUnsupported m d ∧ e = .unsupportedField ⟨s.name m, d.name⟩ (d.shape.text s) := by
  obtain ⟨before, d, after, hcatalog, hbefore, hd⟩ := exists_of_mapM_error h
  obtain ⟨htag, he⟩ := column_eq_error.1 hd
  refine ⟨d, ⟨before, after, hcatalog, fun b hb => ?_, htag⟩, he⟩
  obtain ⟨c, hc⟩ := hbefore b hb
  exact Option.isSome_of_eq_some (column_eq_ok.1 hc).2

/-- A reachable model has its columns, or fails with an unsupported field of its own. -/
theorem yields_columns (hm : s.Reaches root m) :
    Yields (fun cs => s.columns m = .ok cs) (s.Blames root) (s.columns m) := by
  cases hcs : s.columns m with
  | ok cs => exact rfl
  | error e => exact fun _ _ _ => ⟨m, hm, hcs⟩

/-! ## The visit -/

/-- A visit that sets out for models that are reached comes to no others. -/
theorem exists_of_visit_error {seen pending : List ModelId}
    (hreach : ∀ n ∈ pending, s.Reaches root n) (h : s.visit seen pending = .error e) :
    ∃ n, s.Reaches root n ∧ s.columns n = .error e := by
  induction seen, pending using visit.induct s with
  | case1 seen =>
    rw [visit] at h
    cases h
  | case2 seen m pending hm ih =>
    rw [visit, dif_pos hm] at h
    exact ih (fun n hn => hreach n (List.mem_cons_of_mem _ hn)) h
  | case3 seen m pending hm e' he' =>
    rw [visit_of_error hm he'] at h
    cases h
    exact ⟨m, hreach m List.mem_cons_self, he'⟩
  | case4 seen m pending hm cs hcs _ ih =>
    rw [visit_of_columns hm hcs] at h
    refine ih (fun n hn => ?_) h
    rcases List.mem_append.1 hn with hn | hn
    · obtain ⟨c, hc, hk⟩ := List.mem_filterMap.1 (List.mem_reverse.1 hn)
      exact (hreach m List.mem_cons_self).column hcs hc hk
    · exact hreach n (List.mem_cons_of_mem _ hn)

/-- A failed validation met a reachable model without columns. -/
theorem exists_of_validate_error (h : s.validate m = .error e) :
    ∃ n, s.Reaches m n ∧ s.columns n = .error e := by
  refine exists_of_visit_error (fun n hn => ?_) h
  rw [List.mem_singleton.1 hn]
  exact .refl

/-- Validation succeeds exactly if every reachable model has all its columns. -/
theorem validate_eq_ok_iff : s.validate m = .ok () ↔ ∀ n, s.Reaches m n → s.Supported n := by
  constructor
  · intro h n hn
    exact supported_iff.2 (columns_of_validate h hn)
  · intro h
    cases hvalidate : s.validate m with
    | ok u => rfl
    | error e =>
      obtain ⟨n, hn, hcolumns⟩ := exists_of_validate_error hvalidate
      obtain ⟨cs, hcs⟩ := supported_iff.1 (h n hn)
      cases hcs.symm.trans hcolumns

/-- What is said of a checked schema is not that it has an unsupported field. -/
theorem Blames.ne (h : s.Blames m e) (hvalid : s.validate m = .ok ()) (site : Site)
    (shape : String) : e ≠ .unsupportedField site shape := by
  rintro rfl
  obtain ⟨n, hn, hcolumns⟩ := h site shape rfl
  obtain ⟨cs, hcs⟩ := columns_of_validate hvalid hn
  cases hcs.symm.trans hcolumns

end Wireform.Schema
