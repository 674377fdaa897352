import Wireform.Proofs.Binary.Results
import Wireform.Proofs.Document.Reading
import Wireform.Proofs.Document.Results
import Wireform.Proofs.Instance.Defaults

/-!
# Decoded records

Whatever a reader accepts, from bytes, from text in either order or from a tree, it makes a regular
record of it. So a record that was decoded for a model always becomes an instance of that model, and
the instance shows what was decoded, with defaults where a field that may not be absent was
(`exists_instance_of_decoded`).
-/

namespace Wireform

namespace Schema

theorem distinct_nodes (n : ModelId) : nodes.Distinct n := by
  obtain ⟨_ | n⟩ := n
  · unfold Distinct
    decide
  · simp [Distinct, fields_eq_nil, nodes]

theorem startsAbsent_nodes (n : ModelId) : nodes.StartsAbsent n := by
  obtain ⟨_ | n⟩ := n
  · intro d hd item hshape
    obtain rfl | rfl : d = ⟨"children", .list (.model ⟨0⟩), true, .list []⟩ ∨
        d = ⟨"label", .optional .str, true, .absent⟩ := by
      simpa using (show d ∈ [_, _] from hd)
    · cases hshape
    · rfl
  · simp [StartsAbsent, catalog_eq_nil, nodes]

end Schema

namespace RecordOf

/-- A reader for the model `m` has accepted some input and returned the record. -/
inductive Decoded (s : Schema) (m : ModelId) : Record → Prop
  | binary {limits : Binary.Limits} {c c' : Cursor} {r : Record} :
    Binary.readRecord s limits m c = .ok r c' → Decoded s m r
  | document {options : Document.Options} {p p' : Json.Pull} {r : Record} :
    Document.readRecord s options m p = .ok r p' → Decoded s m r
  | tree {depth : Nat} {t : Json.Tree} {r : Record} :
    Document.ofTree s depth m t = .ok r → Decoded s m r

variable {s : Schema} {m : ModelId} {r : Record}

/-- What any of the readers gives is regular. -/
theorem Decoded.regular (h : r.Decoded s m) : r.Regular s m := by
  cases h with
  | binary h => exact (Binary.yields_readLevels _ .refl).ok h
  | document h => exact Document.yields_readRecord.ok h
  | tree h => exact (Document.yields_ofTree _).ok h

/-- A regular record lists the catalog of its model. -/
theorem Regular.names (h : r.Regular s m) :
    r.entries.map Prod.fst = (s.catalog m).map FieldDecl.name := by
  cases h with
  | model hcs hnames _ => exact hnames.trans (Schema.map_name_columns hcs)

/-- What has been decoded lists the catalog in order and is regular throughout; it becomes an
instance, whose record is the one decoded with the defaults of absent fields filled in. -/
theorem exists_instance_of_decoded (hdistinct : ∀ n, s.Reaches m n → s.Distinct n)
    (habsent : ∀ n, s.Reaches m n → s.StartsAbsent n) (h : r.Decoded s m) :
    r.entries.map Prod.fst = (s.catalog m).map FieldDecl.name ∧ r.Regular s m ∧
      ∃ i, InstanceOf.ofRecord s m r = .ok i ∧ i.record s = r.filled s :=
  ⟨h.regular.names, h.regular, h.regular.exists_ofRecord hdistinct habsent⟩

/-- The child of the family has nothing for its fields. One of them may not be absent. -/
theorem exists_instance_of_decoded_family :
    (family.normal Schema.nodes).Decoded Schema.nodes ⟨0⟩ ∧
    (family.normal Schema.nodes).filled Schema.nodes =
      ⟨⟨0⟩, [("children", some (.list [.model ⟨⟨0⟩, [("children", some (.list [])),
        ("label", none)]⟩])), ("label", some (.str "é"))]⟩ ∧
    ∃ i, InstanceOf.ofRecord Schema.nodes ⟨0⟩ (family.normal Schema.nodes) = .ok i ∧
      i.record Schema.nodes = (family.normal Schema.nodes).filled Schema.nodes := by
  have hdecoded : (family.normal Schema.nodes).Decoded Schema.nodes ⟨0⟩ :=
    .tree Document.ofTree_familyTree
  obtain ⟨-, -, hinstance⟩ := exists_instance_of_decoded (fun n _ => Schema.distinct_nodes n)
    (fun n _ => Schema.startsAbsent_nodes n) hdecoded
  exact ⟨hdecoded, rfl, hinstance⟩

end RecordOf

end Wireform
