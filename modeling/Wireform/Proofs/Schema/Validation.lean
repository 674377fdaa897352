import Wireform.Proofs.Binary.Results
import Wireform.Proofs.Document.Results
import Wireform.Proofs.Instance.Assigning

/-!
# What a check of a schema is good for

Checking a schema for a model finds out exactly whether every model that is reached has only
supported fields. A model that passes is never the cause of an unsupported field again: neither when
a record of it is written, whatever the record holds, nor when one is read from any bytes, text or
tree (`Schema.validate_decides_support`).
-/

namespace Wireform

variable {s : Schema} {m : ModelId}

/-- An instance that is made of what was read is typed. -/
abbrev YieldsInstance {σ : Type} (s : Schema) (m : ModelId) (x : Step ModelError σ Instance) :
    Prop :=
  Step.Yields (fun i => s.WellFormed → i.Typed s m) (s.Blames m) x

/-- Of a well-formed schema a whole buffer is read as a typed instance. A field that is reported as
unsupported is one of a reachable model. -/
theorem Binary.yields_readAll (limits : Limits) : YieldsInstance s m (readAll s limits m) := by
  have hinstance : YieldsInstance s m (readInstance s limits m) :=
    (yields_readLevels _ .refl).bind fun r _ => .ofExcept (yields_ofRecord m r)
  refine hinstance.bind fun i hi => Step.Yields.bind .get fun c _ => ?_
  split
  · exact .pure hi
  · exact yields_invalid _

/-- Of a well-formed schema a whole text is read as a typed instance. A field that is reported as
unsupported is one of a reachable model. -/
theorem Document.yields_readAll (options : Options) : YieldsInstance s m (readAll s options m) := by
  have hinstance : YieldsInstance s m (readInstance s options m) :=
    yields_readRecord.bind fun r _ => .ofExcept (yields_ofRecord m r)
  refine hinstance.bind fun i hi => (yields_pull _).bind fun t _ => ?_
  split
  · exact .pure hi
  · exact Step.Yields.bind .get fun _ _ => .throw fun _ _ => nofun

/-- Of a well-formed schema a tree is converted into a typed instance. A field that is reported as
unsupported is one of a reachable model. -/
theorem Document.yields_instanceOfTree (depth : Nat) (t : Json.Tree) :
    Yields (fun i => s.WellFormed → i.Typed s m) (s.Blames m) (instanceOfTree s depth m t) :=
  (yields_ofTree t).bind fun r _ => yields_ofRecord m r

namespace Schema

/-- Writing a record of `m`, or reading one, may end in the error. -/
inductive Fails (s : Schema) (m : ModelId) (e : ModelError) : Prop
  | binaryWrite {r : Record} {q q' : Queue} : r.model = m →
    Binary.write s r q = .error e q' → Fails s m e
  | binaryEncode {r : Record} {q q' : Queue} : r.model = m →
    Binary.encode s r q = .error e q' → Fails s m e
  | binaryRecord {limits : Binary.Limits} {c c' : Cursor} :
    Binary.readRecord s limits m c = .error e c' → Fails s m e
  | binaryInstance {limits : Binary.Limits} {c c' : Cursor} :
    Binary.readAll s limits m c = .error e c' → Fails s m e
  | documentWrite {r : Record} {d d' : Json.Draft} : r.model = m →
    Document.write s r d = .error e d' → Fails s m e
  | documentText {r : Record} : r.model = m → Document.ofRecord s r = .error e → Fails s m e
  | documentRecord {options : Document.Options} {p p' : Json.Pull} :
    Document.readRecord s options m p = .error e p' → Fails s m e
  | documentInstance {options : Document.Options} {p p' : Json.Pull} :
    Document.readAll s options m p = .error e p' → Fails s m e
  | treeRecord {depth : Nat} {t : Json.Tree} : Document.ofTree s depth m t = .error e → Fails s m e
  | treeInstance {depth : Nat} {t : Json.Tree} :
    Document.instanceOfTree s depth m t = .error e → Fails s m e

variable {e : ModelError}

/-- Whatever read or write fails, a field that it reports as unsupported is one of a reachable
model. -/
theorem Fails.blames (h : s.Fails m e) : s.Blames m e := by
  cases h with
  | @binaryWrite r _ _ hr h => exact hr ▸ (Binary.yields_write r).error h
  | @binaryEncode r q _ hr h =>
    rw [Binary.encode] at h
    split at h
    · cases h
    · next e' q' hwrite =>
      cases h
      exact hr ▸ (Binary.yields_write r).error hwrite
  | binaryRecord h => exact (Binary.yields_readLevels _ .refl).error h
  | binaryInstance h => exact (Binary.yields_readAll _).error h
  | @documentWrite r _ _ hr h => exact hr ▸ (Document.yields_write r).error h
  | @documentText r hr h =>
    rw [Document.ofRecord] at h
    split at h
    · next d hwrite =>
      cases htext : d.text with
      | ok text => cases htext ▸ h
      | error e' =>
        rw [htext] at h
        cases h
        rintro _ _ ⟨⟩
    · next e' d hwrite =>
      cases h
      exact hr ▸ (Document.yields_write r).error hwrite
  | documentRecord h => exact Document.yields_readRecord.error h
  | documentInstance h => exact (Document.yields_readAll _).error h
  | treeRecord h => exact (Document.yields_ofTree _).error h
  | treeInstance h => exact (Document.yields_instanceOfTree _ _).error h

/-- The check succeeds just if all that is reached is supported. It fails with the first unsupported
field of a model that is reached. Once it has succeeded, no unsupported field is ever met. -/
theorem validate_decides_support (s : Schema) (m : ModelId) :
    (s.validate m = .ok () ↔ ∀ n, s.Reaches m n → s.Supported n) ∧
    (∀ e, s.validate m = .error e → ∃ n d, s.Reaches m n ∧ s.FirstUnsupported n d ∧
      e = .unsupportedField ⟨s.name n, d.name⟩ (d.shape.text s)) ∧
    (s.validate m = .ok () → ∀ e, s.Fails m e → ∀ site shape, e ≠ .unsupportedField site shape) := by
  refine ⟨validate_eq_ok_iff, fun e he => ?_, fun hvalid e he => he.blames.ne hvalid⟩
  obtain ⟨n, hn, hcolumns⟩ := exists_of_validate_error he
  obtain ⟨d, hd, rfl⟩ := exists_of_columns_error hcolumns
  exact ⟨n, d, hn, hd, rfl⟩

/-- Nodes reach themselves, and the check ends all the same. -/
theorem validate_decides_support_nodes : nodes.Supported ⟨0⟩ ∧
    ∀ e, nodes.Fails ⟨0⟩ e → ∀ site shape, e ≠ .unsupportedField site shape := by
  obtain ⟨hiff, -, hnever⟩ := validate_decides_support nodes ⟨0⟩
  exact ⟨hiff.1 validate_nodes ⟨0⟩ .refl, hnever validate_nodes⟩

end Schema

end Wireform
