import Wireform.Proofs.Binary.Stream
import Wireform.Proofs.Document.RoundTrip
import Wireform.Proofs.Json.Building

/-!
# One record in all formats

The text of a well-typed record spells one tree. Reading this tree, reading the text and reading the
binary form all give the normal form of the record (`formats_agree`).
-/

namespace Wireform

namespace Document

open Json (Pull Tree)
open Json.Grammar (Text)

variable {s : Schema} {r : Record} {depth : Nat}

theorem text_tree (r : Record) : Text .standard r.tree (String.ofList r.tree.compact).toList := by
  rw [String.toList_ofList]
  apply Json.Grammar.text_compact
  rw [← Value.tree_model]
  exact Value.spelled_tree _

/-- The text of a well-typed record is that of its tree. -/
theorem ofRecord_eq (h : r.WellTyped s) :
    ofRecord s r = .ok (String.ofList (r.normal s).tree.compact) := by
  obtain ⟨d, hdraft, -, htext⟩ := Json.Draft.text_scalar (r.normal s).tree.compact
  rw [ofRecord, write_eq h, draft, Step.adaptExcept_apply, hdraft]
  dsimp only
  rw [htext]
  rfl

/-- Its text is read as its tree is. -/
theorem exists_readRecord_iff (h : r.WellTyped s) (order : Order) (r' : Record) :
    (∃ p, readRecord s ⟨order, depth⟩ r.model
      (.ofText (String.ofList (r.normal s).tree.compact)) = .ok r' p) ↔
    ofTree s depth r.model (r.normal s).tree = .ok r' := by
  obtain ⟨p, q, hruns, -⟩ := Pull.runs_text (text_tree (r.normal s))
  exact (agrees_record ⟨order, depth⟩ (suits_tree h order) rfl hruns).iff r'

theorem readRecord_ofRecord (h : r.WellTyped s) (hdepth : (r.normal s).depth ≤ depth)
    (order : Order) : ∃ p, readRecord s ⟨order, depth⟩ r.model
      (.ofText (String.ofList (r.normal s).tree.compact)) = .ok (r.normal s) p :=
  (exists_readRecord_iff h order _).2 (ofTree_tree h hdepth)

/-- A well-typed record is written as a text that spells one tree. The tree, the text in canonical
order and the binary form are all read as the normal form of the record; the binary form exists
unless a length has no room in its field. -/
theorem formats_agree (h : r.WellTyped s) (hdepth : (r.normal s).depth ≤ depth) :
    ∃ text t, ofRecord s r = .ok text ∧ (∀ u, Text .standard u text.toList ↔ u = t) ∧
      Tree.ofText? text = some t ∧ ofTree s depth r.model t = .ok (r.normal s) ∧
      (∃ p, readRecord s ⟨.canonical, depth⟩ r.model (.ofText text) = .ok (r.normal s) p) ∧
      ((∃ bs, Binary.bytes s r = .ok bs) ↔ (r.normal s).Storable) ∧
      ∀ (limits : Binary.Limits) (bs : List UInt8), (r.normal s).depth ≤ limits.depth →
        (r.normal s).extent ≤ limits.length → Binary.bytes s r = .ok bs →
        ∃ c, Binary.readRecord s limits r.model (.ofBytes bs) = .ok (r.normal s) c ∧ c.left = [] := by
  have htext := text_tree (r.normal s)
  refine ⟨_, (r.normal s).tree, ofRecord_eq h, fun u => ?_, Tree.ofText?_of_text htext,
    ofTree_tree h hdepth, readRecord_ofRecord h hdepth .canonical, Binary.exists_bytes_iff h,
    fun limits bs => Binary.readRecord_bytes h⟩
  constructor
  · exact fun hu => Tree.tree_unique hu htext
  · rintro rfl
    exact htext

theorem formats_agree_family :
    RecordOf.family.WellTyped Schema.nodes ∧ (RecordOf.family.normal Schema.nodes).depth ≤ 1 ∧
    ∃ text t bs, ofRecord Schema.nodes RecordOf.family = .ok text ∧ Tree.ofText? text = some t ∧
      ofTree Schema.nodes 1 ⟨0⟩ t = .ok (RecordOf.family.normal Schema.nodes) ∧
      Binary.bytes Schema.nodes RecordOf.family = .ok bs ∧
      ∃ c, Binary.readRecord Schema.nodes ⟨1, 2⟩ ⟨0⟩ (.ofBytes bs) =
        .ok (RecordOf.family.normal Schema.nodes) c := by
  have hdepth : (RecordOf.family.normal Schema.nodes).depth ≤ 1 := by decide
  have hextent : (RecordOf.family.normal Schema.nodes).extent ≤ 2 := by decide
  obtain ⟨text, t, htext, -, htree, hread, -, hstore, hbinary⟩ :=
    formats_agree wellTyped_family hdepth
  have hsmall : (RecordOf.family.normal Schema.nodes).Storable :=
    Value.storable_of_extent_lt (Nat.lt_of_le_of_lt hextent (by decide))
  obtain ⟨bs, hbs⟩ := hstore.2 hsmall
  obtain ⟨c, hc, -⟩ := hbinary ⟨1, 2⟩ bs hdepth hextent hbs
  exact ⟨wellTyped_family, hdepth, text, t, bs, htext, htree, hread, hbs, c, hc⟩

end Document

end Wireform
