import Wireform.Schema.Catalog

/-!
# The models that a model reaches

A schema is checked for a model by visiting every model that its columns lead to. Each model is
visited once, so the visit ends also when models refer to each other in a circle.
-/

namespace Wireform.Schema

variable (s : Schema)

/-- What is still ahead of a visit: the exposed fields of the models not yet seen. -/
def unseenFields (seen : List ModelId) (indices : List Nat) : Nat :=
  indices.foldr (fun i n => (if ⟨i⟩ ∈ seen then 0 else (s.catalog ⟨i⟩).length) + n) 0

/-- A visit to `m` takes the fields of `m` off the count once for each time its index is listed. -/
theorem unseenFields_cons {seen : List ModelId} {m : ModelId} (h : m ∉ seen)
    (indices : List Nat) :
    s.unseenFields (m :: seen) indices + indices.count m.index * (s.catalog m).length =
      s.unseenFields seen indices := by
  obtain ⟨k⟩ := m
  induction indices with
  | nil => simp [unseenFields]
  | cons i indices ih =>
    simp only [unseenFields, List.foldr_cons, List.count_cons, List.mem_cons] at ih ⊢
    by_cases hi : i = k
    · subst hi
      simp only [true_or, if_true, h, if_false, beq_self_eq_true, Nat.add_mul, Nat.one_mul]
      omega
    · have hne : (⟨i⟩ : ModelId) ≠ ⟨k⟩ := fun he => hi (congrArg ModelId.index he)
      simp only [hne, false_or, beq_eq_false_iff_ne.2 hi, Bool.false_eq_true, if_false,
        Nat.add_zero]
      omega

/-- A first visit to `m` takes all fields of `m` off the measure. -/
theorem unseenFields_visit {seen : List ModelId} {m : ModelId} (h : m ∉ seen) :
    s.unseenFields (m :: seen) (List.range s.models.length) + (s.catalog m).length ≤
      s.unseenFields seen (List.range s.models.length) := by
  have hsum := s.unseenFields_cons h (List.range s.models.length)
  by_cases hm : m.index < s.models.length
  · rw [List.count_range, if_pos hm] at hsum
    omega
  · rw [catalog_eq_nil (by omega)] at hsum ⊢
    simpa using Nat.le_of_eq hsum

theorem length_of_mapM_ok {ε α β : Type} {f : α → Except ε β} {xs : List α} {ys : List β}
    (h : xs.mapM f = .ok ys) : ys.length = xs.length := by
  induction xs generalizing ys with
  | nil => cases h; rfl
  | cons x xs ih =>
    rw [List.mapM_cons] at h
    cases hx : f x with
    | error e => simp [hx, bind, Except.bind] at h
    | ok y =>
      cases hxs : xs.mapM f with
      | error e => simp [hx, hxs, bind, Except.bind] at h
      | ok zs =>
        simp only [hx, hxs, bind, Except.bind, pure, Except.pure, Except.ok.injEq] at h
        subst h
        simp [ih hxs]

/-- The models that the columns lead to, in their order. -/
def nestedModels (columns : List Column) : List ModelId := columns.filterMap fun c => c.tag.nested?

/-- The measure falls at a first visit, even after the models nested in its columns have been
queued: they are no more than its fields. -/
theorem unseenFields_columns {seen : List ModelId} {m : ModelId} {columns : List Column}
    (hm : m ∉ seen) (h : s.columns m = .ok columns) (n : Nat) :
    s.unseenFields (m :: seen) (List.range s.models.length) +
        ((nestedModels columns).length + n) <
      s.unseenFields seen (List.range s.models.length) + (n + 1) := by
  have hvisit := s.unseenFields_visit hm
  have hcolumns : columns.length = (s.catalog m).length := length_of_mapM_ok h
  have hnested : (nestedModels columns).length ≤ columns.length := List.length_filterMap_le _ _
  omega

/-- Visits the pending models, the first of them first, and turns to those that a model leads to
before going on, its last column first. -/
def visit (seen pending : List ModelId) : Except ModelError Unit :=
  match pending with
  | [] => .ok ()
  | m :: pending =>
    if hm : m ∈ seen then
      visit seen pending
    else
      match h : s.columns m with
      | .error e => .error e
      | .ok columns =>
        have := s.unseenFields_columns hm h pending.length
        visit (m :: seen) ((nestedModels columns).reverse ++ pending)
termination_by s.unseenFields seen (List.range s.models.length) + pending.length

/-- Succeeds when every exposed field of every model that `m` reaches has a tag. -/
def validate (m : ModelId) : Except ModelError Unit := s.visit [] [m]

end Wireform.Schema
