import Wireform.Binary.Encode
import Wireform.Proofs.Value.Encodable

/-!
# When writing a record in binary fails

A write sends out all of a record just when the record can be encoded and no length is too large for
its field (`failure_value_iff`).
-/

namespace Wireform

namespace Emission

variable {ε : Type} {a b : Emission ε}

theorem failure_append (a b : Emission ε) : (a ++ b).failure = a.failure.or b.failure := by
  obtain ⟨bytes, _ | e⟩ := a <;> rfl

theorem failure_append_eq_none :
    (a ++ b).failure = none ↔ a.failure = none ∧ b.failure = none := by
  rw [failure_append, Option.or_eq_none_iff]

/-- A concatenation fails if one of its parts does. -/
theorem failure_concat_eq_none {es : List (Emission ε)} :
    (concat es).failure = none ↔ ∀ e ∈ es, e.failure = none := by
  induction es with
  | nil => exact iff_of_true rfl (List.forall_mem_nil _)
  | cons e es ih => rw [concat, failure_append_eq_none, ih, List.forall_mem_cons]

end Emission

namespace Binary

variable {s : Schema} {site : Site} {m : ModelId} {v : Value} {items : List Value} {tag : Tag}
  {r : Record}

/-! ## Lengths -/

theorem failure_length_eq_none {n : Nat} :
    (ofBuffer (length n)).failure = none ↔ n < Word.size 4 := by
  rw [length]
  split
  · next h => exact iff_of_true rfl h
  · next h => exact iff_of_false (Option.some_ne_none _) h

theorem failure_text_eq_none {t : String} :
    (ofBuffer (text t)).failure = none ↔ t.utf8ByteSize < Word.size 4 := by
  rw [text, length]
  split
  · next h => exact iff_of_true rfl h
  · next h => exact iff_of_false (Option.some_ne_none _) h

theorem failure_count_eq_none {n : Nat} :
    (ofBuffer (count n)).failure = none ↔ n < Word.size 4 / 2 := by
  rw [count]
  split
  · next h => exact iff_of_true rfl h
  · next h => exact iff_of_false (Option.some_ne_none _) h

theorem failure_mismatch (v : Value) (site : Site) (tag : Tag) :
    (mismatch s v site tag).failure ≠ none := Option.some_ne_none _

/-! ## Lists -/

/-- The elements of a list are written as on their own, and only the tag that an error names is that
of the list. -/
theorem failure_elements_eq_none {one list : Tag} :
    ((format s).elements items site one list).failure = none ↔
      ∀ v ∈ items, ((format s).value v site one).failure = none := by
  induction items with
  | nil => exact iff_of_true rfl (List.forall_mem_nil _)
  | cons v items ih =>
    rw [List.forall_mem_cons, ← ih, Format.elements]
    split
    · exact Emission.failure_append_eq_none
    · next hsuits =>
      rw [Format.value_of_not_suits _ (Bool.eq_false_iff.2 hsuits)]
      exact iff_of_false (failure_mismatch _ _ _) fun h => failure_mismatch _ _ _ h.1

/-! ## Values -/

/-- A record is written if its columns exist and their values are written. -/
theorem failure_record_eq_none :
    (record s r).failure = none ↔ ∃ cs, s.columns r.model = .ok cs ∧ ∀ c ∈ cs, ∀ v,
      r.get c.name = some v →
        ((format s).value v ⟨s.name r.model, c.name⟩ c.tag).failure = none := by
  cases hcs : s.columns r.model with
  | error e =>
    rw [record_of_error s hcs]
    refine iff_of_false (Option.some_ne_none e) ?_
    rintro ⟨_, hcs', -⟩
    cases hcs'
  | ok cs =>
    rw [record_eq s hcs, Emission.failure_concat_eq_none, List.forall_mem_map]
    constructor
    · refine fun h => ⟨cs, rfl, fun c hc v hv => ?_⟩
      have hentry := h c hc
      rw [hv] at hentry
      exact hentry
    · rintro ⟨_, hcs', h⟩ c hc
      cases hcs'
      cases hv : r.get c.name with
      | none => rfl
      | some v => exact h c hc v hv

/-- The invariant of the recursion through nested records: a value is written without a failure just
if it can be encoded and its lengths are bounded. -/
theorem failure_value_iff :
    ((format s).value v site tag).failure = none ↔ v.Encodable s tag ∧ v.Bounded s tag := by
  induction v, tag using Value.writing_induction generalizing site with
  | mismatch v tag hsuits =>
    rw [Format.value_of_not_suits _ hsuits]
    refine iff_of_false (failure_mismatch _ _ _) fun h => ?_
    rw [h.1.fits.suits] at hsuits
    cases hsuits
  | bool | int | long | duration | calendar =>
    rw [Value.encodable_scalar rfl, Value.bounded_scalar rfl]
    exact iff_of_true rfl ⟨by constructor, Word.size_pos 4⟩
  | str | zone =>
    rw [Value.encodable_scalar rfl, Value.bounded_scalar rfl]
    exact failure_text_eq_none.trans (and_iff_right (by constructor)).symm
  | strList items ih =>
    rw [Value.encodable_texts, Value.bounded_texts, and_left_comm, ← forall₂_and,
      ← failure_length_eq_none, ← forall₂_congr fun v hv => ih v hv, ← failure_elements_eq_none]
    exact Emission.failure_append_eq_none
  | modelList m items ih =>
    rw [Value.encodable_models, Value.bounded_models, and_left_comm, ← forall₂_and,
      ← failure_count_eq_none, ← forall₂_congr fun v hv => ih v hv, ← failure_elements_eq_none]
    exact Emission.failure_append_eq_none
  | model r ih =>
    rw [Format.value_model, ← record, failure_record_eq_none, Value.encodable_model]
    constructor
    · rintro ⟨cs, hcs, h⟩
      rw [Value.bounded_model hcs]
      exact ⟨⟨cs, hcs, fun c hc v hv => ((ih c.name v c.tag hv).1 (h c hc v hv)).1⟩,
        fun c hc v hv => ((ih c.name v c.tag hv).1 (h c hc v hv)).2⟩
    · rintro ⟨⟨cs, hcs, h⟩, hbounded⟩
      rw [Value.bounded_model hcs] at hbounded
      exact ⟨cs, hcs, fun c hc v hv => (ih c.name v c.tag hv).2 ⟨h c hc v hv, hbounded c hc v hv⟩⟩

theorem failure_record_iff (h : r.Bounded s) : (record s r).failure = none ↔ r.Encodable s := by
  rw [record, ← Format.value_model _ r ⟨"", ""⟩, failure_value_iff]
  exact and_iff_left h

/-- What has been written can be encoded. -/
theorem encodable_of_bytes {bs : List UInt8} (h : bytes s r = .ok bs) : r.Encodable s := by
  have hvalue : ((format s).value (.model r) ⟨"", ""⟩ (.model r.model)).failure = none := by
    rw [Format.value_model, ← record, (bytes_eq_ok s).1 h]
    rfl
  exact (failure_value_iff.1 hvalue).1

end Binary

end Wireform
