import Wireform.Proofs.Binary.Failures
import Wireform.Proofs.Document.Writing

/-!
# When writing a record as a document fails

A document and the binary form of a record are written by two traversals that come to the same end:
both write all of the record, or both fail with the same error (`write_agrees`). `Ends` says of a
move that it ends as an emission does; that a draft never refuses what the traversal hands to it is
in what holds before and after each move.
-/

namespace Wireform

namespace Json.Draft

variable {d : Draft} {outer : List Scope}

/-! ## Where a draft stands -/

/-- A value may stand here, and `outer` is open around it. -/
def Ready (outer : List Scope) (d : Draft) : Prop :=
  ∃ d', beforeValue d = .ok () d' ∧ d'.scopes = outer

/-- In an array, between its elements. -/
def InArray (outer : List Scope) (d : Draft) : Prop := ∃ first, d.scopes = .array first :: outer

/-- In an object, between its members. -/
def InObject (outer : List Scope) (d : Draft) : Prop :=
  ∃ first, d.scopes = .object first false :: outer

theorem ready_empty : Ready [] empty := ⟨empty, rfl, rfl⟩

theorem InArray.ready (h : InArray outer d) : Ready (.array false :: outer) d := by
  obtain ⟨out, scopes, done⟩ := d
  obtain ⟨first, rfl⟩ := h
  exact ⟨_, beforeValue_array out first outer done, rfl⟩

theorem Ready.scalar (h : Ready outer d) (cs : List Char) :
    ∃ d', scalar cs d = .ok () d' ∧ d'.scopes = outer := by
  obtain ⟨d', hbefore, hscopes⟩ := h
  rw [scalar_apply, hbefore]
  exact ⟨_, rfl, hscopes⟩

theorem Ready.startArray (h : Ready outer d) : ∃ d', startArray d = .ok () d' ∧ InArray outer d' := by
  obtain ⟨d', hbefore, rfl⟩ := h
  rw [startArray_apply, hbefore]
  exact ⟨_, rfl, true, rfl⟩

theorem Ready.startObject (h : Ready outer d) :
    ∃ d', startObject d = .ok () d' ∧ InObject outer d' := by
  obtain ⟨d', hbefore, rfl⟩ := h
  rw [startObject_apply, hbefore]
  exact ⟨_, rfl, true, rfl⟩

theorem InArray.endArray (h : InArray outer d) :
    ∃ d', endArray d = .ok () d' ∧ d'.scopes = outer := by
  obtain ⟨out, scopes, done⟩ := d
  obtain ⟨first, rfl⟩ := h
  exact ⟨_, endArray_apply, rfl⟩

theorem InObject.endObject (h : InObject outer d) :
    ∃ d', endObject d = .ok () d' ∧ d'.scopes = outer := by
  obtain ⟨out, scopes, done⟩ := d
  obtain ⟨first, rfl⟩ := h
  exact ⟨_, endObject_apply, rfl⟩

/-- After a name there is room for the value of the member. -/
theorem InObject.fieldName (h : InObject outer d) (name : String) :
    ∃ d', fieldName name d = .ok () d' ∧ Ready (.object false false :: outer) d' := by
  obtain ⟨out, scopes, done⟩ := d
  obtain ⟨first, rfl⟩ := h
  exact ⟨_, fieldName_apply name, _, rfl, rfl⟩

end Json.Draft

namespace Document

open Json (Draft)
open Json.Draft (Ready InArray InObject)

/-! ## Moves that end alike -/

variable {pre mid post : Draft → Prop} {x y : Move Unit} {f g : Option ModelError}

/-- Wherever `pre` holds the move ends as `f` says: with this failure, or else without any and where
`post` holds. -/
def Ends (pre : Draft → Prop) (x : Move Unit) (f : Option ModelError) (post : Draft → Prop) : Prop :=
  ∀ d, pre d → match x d with
    | .ok () d' => f = none ∧ post d'
    | .error e _ => f = some e

namespace Ends

theorem pure : Ends pre (pure ()) none pre := fun _ hd => ⟨rfl, hd⟩

theorem throw (e : ModelError) : Ends pre (throw e) (some e) post := fun _ _ => rfl

theorem draft {x : Draft.Move Unit} (h : ∀ d, pre d → ∃ d', x d = .ok () d' ∧ post d') :
    Ends pre (draft x) none post := by
  intro d hd
  obtain ⟨d', hx, hpost⟩ := h d hd
  rw [Document.draft, Step.adaptExcept_apply, hx]
  exact ⟨rfl, hpost⟩

/-- Two writes in a row fail with the first failure. -/
theorem bind (h : Ends pre x f mid) (h' : Ends mid y g post) :
    Ends pre (x >>= fun _ => y) (f.or g) post := by
  intro d hd
  have hx := h d hd
  rw [Step.bind_apply]
  cases hd' : x d with
  | ok a d' =>
    rw [hd'] at hx
    obtain ⟨rfl, hmid⟩ := hx
    exact h' d' hmid
  | error e d' =>
    rw [hd'] at hx
    subst hx
    rfl

theorem mono {pre' post' : Draft → Prop} (h : Ends pre x f post) (hpre : ∀ d, pre' d → pre d)
    (hpost : ∀ d, post d → post' d) : Ends pre' x f post' := by
  intro d hd
  have hx := h d (hpre d hd)
  revert hx
  cases x d with
  | ok a d' => exact fun hx => ⟨hx.1, hpost d' hx.2⟩
  | error e d' => exact id

theorem forM {α : Type} {xs : List α} {E : α → Emission ModelError} {X : α → Move Unit}
    (h : ∀ a ∈ xs, Ends pre (X a) (E a).failure pre) :
    Ends pre (xs.forM X) (Emission.concat (xs.map E)).failure pre := by
  induction xs with
  | nil => exact .pure
  | cons a xs ih =>
    obtain ⟨ha, hxs⟩ := List.forall_mem_cons.1 h
    rw [List.map_cons, Emission.concat, Emission.failure_append]
    exact .bind ha (ih hxs)

theorem scalar (cs : List Char) {outer : List Json.Scope} :
    Ends (Ready outer) (Document.draft (Draft.scalar cs)) none (·.scopes = outer) :=
  .draft fun _ hd => hd.scalar cs

/-- A value in the place of an element. -/
theorem element {outer : List Json.Scope}
    (h : Ends (Ready (.array false :: outer)) x f (·.scopes = .array false :: outer)) :
    Ends (InArray outer) x f (InArray outer) :=
  h.mono (fun _ hd => hd.ready) fun _ hd => ⟨false, hd⟩

/-- A value in the place of a member. -/
theorem member {outer : List Json.Scope} (name : String)
    (h : Ends (Ready (.object false false :: outer)) x f (·.scopes = .object false false :: outer)) :
    Ends (InObject outer) (do Document.draft (Draft.fieldName name); x) f (InObject outer) := by
  have hname : Ends (InObject outer) (Document.draft (Draft.fieldName name)) none
      (Ready (.object false false :: outer)) := .draft fun _ hd => hd.fieldName name
  exact (hname.bind h).mono (fun _ hd => hd) fun _ hd => ⟨false, hd⟩

theorem array {outer : List Json.Scope} (h : Ends (InArray outer) x f (InArray outer)) :
    Ends (Ready outer) (do
      Document.draft Draft.startArray
      x
      Document.draft Draft.endArray) f (·.scopes = outer) := by
  have hstart : Ends (Ready outer) (Document.draft Draft.startArray) none (InArray outer) :=
    .draft fun _ hd => hd.startArray
  have hend : Ends (InArray outer) (Document.draft Draft.endArray) none (·.scopes = outer) :=
    .draft fun _ hd => hd.endArray
  have hall := hstart.bind (h.bind hend)
  rwa [Option.none_or, Option.or_none] at hall

theorem object {outer : List Json.Scope} (h : Ends (InObject outer) x f (InObject outer)) :
    Ends (Ready outer) (do
      Document.draft Draft.startObject
      x
      Document.draft Draft.endObject) f (·.scopes = outer) := by
  have hstart : Ends (Ready outer) (Document.draft Draft.startObject) none (InObject outer) :=
    .draft fun _ hd => hd.startObject
  have hend : Ends (InObject outer) (Document.draft Draft.endObject) none (·.scopes = outer) :=
    .draft fun _ hd => hd.endObject
  have hall := hstart.bind (h.bind hend)
  rwa [Option.none_or, Option.or_none] at hall

end Ends

/-! ## Values -/

variable {s : Schema} {site : Site} {m : ModelId} {v : Value} {items : List Value} {tag : Tag}
  {r : Record} {outer : List Json.Scope}

/-- Writing the value as part of a document ends as writing it in binary does. -/
abbrev Alike (s : Schema) (v : Value) (tag : Tag) : Prop :=
  ∀ site outer, Ends (Ready outer) ((format s).value v site tag)
    ((Binary.format s).value v site tag).failure (·.scopes = outer)

/-- The elements of a list fail in the document as in the bytes, if each of them does. -/
theorem ends_elements {one list : Tag} (h : ∀ v ∈ items, Alike s v one) :
    Ends (InArray outer) ((format s).elements items site one list)
      ((Binary.format s).elements items site one list).failure (InArray outer) := by
  induction items with
  | nil => exact .pure
  | cons v items ih =>
    obtain ⟨hv, hitems⟩ := List.forall_mem_cons.1 h
    rw [Format.elements, Format.elements]
    split
    · have hall := Ends.bind (hv site (.array false :: outer)).element (ih hitems)
      rwa [← Emission.failure_append] at hall
    · exact .throw _

/-- A record fails in the document as in the bytes, if the values of its columns do. -/
theorem ends_write (h : ∀ cs, s.columns r.model = .ok cs → ∀ c ∈ cs, ∀ v,
    r.get c.name = some v → Alike s v c.tag) :
    Ends (Ready outer) (write s r) (Binary.record s r).failure (·.scopes = outer) := by
  cases hcs : s.columns r.model with
  | error e =>
    -- Both look for the columns before they write anything.
    rw [write_eq_of_error s hcs, Binary.record_of_error s hcs]
    exact .throw e
  | ok cs =>
    rw [write_eq_object s hcs, Binary.record_eq s hcs]
    refine .object (.forM fun c hc => ?_)
    rw [column_writings]
    cases hv : r.get c.name with
    | none => exact .member c.name (.scalar _)
    | some v => exact .member c.name (h cs hcs c hc v hv _ _)

/-- The invariant of the recursion through nested records. A value is refused under any tag that it
does not suit, by both in the same words. -/
theorem alike_value (h : v.Bounded s tag) : Alike s v tag := by
  induction v, tag using Value.writing_induction with
  | mismatch v tag hsuits =>
    intro site outer
    rw [Format.value_of_not_suits _ hsuits, Format.value_of_not_suits _ hsuits]
    exact .throw _
  | bool | int | long | calendar => exact fun _ _ => .scalar _
  | str | zone =>
    intro site outer
    change Ends _ _ (Binary.ofBuffer (Binary.text _)).failure _
    rw [Binary.failure_text_eq_none.2 h.length_lt]
    exact .scalar _
  | duration d =>
    intro site outer
    change Ends _ (duration d) none _
    rw [duration_eq]
    exact .scalar _
  | strList items ih =>
    intro site outer
    obtain ⟨hlength, hitems⟩ := Value.bounded_texts.1 h
    rw [Binary.value_texts, Emission.failure_append, Binary.failure_length_eq_none.2 hlength]
    exact .array (ends_elements fun v hv => ih v hv (hitems v hv))
  | modelList m items ih =>
    intro site outer
    obtain ⟨hlength, hitems⟩ := Value.bounded_models.1 h
    rw [Binary.value_models, Emission.failure_append, Binary.failure_count_eq_none.2 hlength]
    exact .array (ends_elements fun v hv => ih v hv (hitems v hv))
  | model r ih =>
    intro site outer
    rw [Format.value_model, Format.value_model]
    refine ends_write fun cs hcs c hc v hv => ?_
    exact ih c.name v c.tag hv ((Value.bounded_model hcs).1 h c hc v hv)

/-- Whatever a record holds, as long as no length is too large for the binary form: it is written in
both forms, and that just if it can be encoded; or both writes fail, with the same error. -/
theorem write_agrees (h : r.Bounded s) (q : Queue) :
    Step.outcome (Binary.write s r q) = Step.outcome (write s r .empty) ∧
      (Step.outcome (Binary.write s r q) = .ok () ↔ r.Encodable s) := by
  have hends : Ends (Ready []) (write s r) (Binary.record s r).failure (·.scopes = []) := by
    have hvalue := alike_value h ⟨"", ""⟩ []
    rwa [Format.value_model, Format.value_model] at hvalue
  have hdocument := hends .empty Draft.ready_empty
  rw [← Binary.failure_record_iff h, Binary.write, Emission.into]
  revert hdocument
  cases write s r .empty with
  | ok a d =>
    rintro ⟨hfailure, -⟩
    rw [hfailure]
    exact ⟨rfl, iff_of_true rfl rfl⟩
  | error e d =>
    intro hfailure
    rw [hfailure]
    refine ⟨rfl, iff_of_false ?_ (Option.some_ne_none e)⟩
    intro hok
    cases hok

/-- A node whose child has a number for its label. -/
def misfit : Record :=
  ⟨⟨0⟩, [("children", some (.list [.model ⟨⟨0⟩, [("label", some (.int 3))]⟩]))]⟩

theorem write_agrees_misfit :
    misfit.Bounded Schema.nodes ∧
      Step.outcome (write Schema.nodes misfit .empty) =
        .error (.typeMismatch ⟨"Node", "label"⟩ "string" "int") ∧
      ¬ misfit.Encodable Schema.nodes := by
  have hbounded : misfit.Bounded Schema.nodes := Value.bounded_of_extent_lt (by decide)
  have hbinary : Step.outcome (Binary.write Schema.nodes misfit .empty) =
      .error (.typeMismatch ⟨"Node", "label"⟩ "string" "int") := rfl
  obtain ⟨hagree, hiff⟩ := write_agrees hbounded .empty
  rw [hbinary] at hagree hiff
  refine ⟨hbounded, hagree.symm, fun h => ?_⟩
  cases hiff.2 h

end Document

end Wireform
