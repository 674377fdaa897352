import Wireform.Binary.Codec
import Wireform.Binary.Encoder
import Wireform.Proofs.Binary.Failures

/-!
# Encoders without a memory

Whatever an encoder went through, a write appends what the record alone decides, and `encode` gives
what a new encoder gives (`encode_of_used`). Each stepwise write emits what `Binary.record` says and
its like, from every queue whose pending bytes lie within its storage, and no use of an encoder leaves
another queue behind.
-/

namespace Wireform

namespace Emission

variable {ε ε' : Type}

theorem mapFailure_append (f : ε → ε') (a b : Emission ε) :
    (a ++ b).mapFailure f = a.mapFailure f ++ b.mapFailure f := by
  obtain ⟨_, _ | e⟩ := a <;> rfl

/-- The result of sending something out, with the queue behind it. -/
def result (a : Emission ε) (q : Queue) : EStateM.Result ε Queue Unit :=
  match a.failure with
  | none => .ok () q
  | some e => .error e q

/-- What is given to whoever asked for all that is sent out. -/
def made (a : Emission ε) : Except ε (List UInt8) :=
  match a.failure with
  | none => .ok a.bytes
  | some e => .error e

theorem after_result (a : Emission ε) (q : Queue) : Step.after (a.result q) = q := by
  obtain ⟨_, _ | e⟩ := a <;> rfl

end Emission

namespace Binary.Encoder

variable {s : Schema} {a b : Emission ModelError} {x : Write Unit} {q : Queue}

/-! ## What a write emits -/

/-- The write puts the bytes of `a` behind what is pending and ends as `a` does. -/
def Emits (x : Write Unit) (a : Emission ModelError) : Prop :=
  ∀ q : Queue, q.Sound →
    ∃ q' : Queue, q'.Sound ∧ q'.pending = q.pending ++ a.bytes ∧ x q = a.result q'

theorem emits_nothing : Emits (pure ()) (.of []) := fun q hq =>
  ⟨q, hq, (List.append_nil _).symm, rfl⟩

theorem emits_put (bytes : List UInt8) : Emits (modify fun q => q.put bytes) (.of bytes) :=
  fun _ hq => ⟨_, Queue.sound_put hq bytes, Queue.pending_put hq bytes, rfl⟩

theorem emits_throw (e : ModelError) : Emits (throw e) (.fail e) := fun q hq =>
  ⟨q, hq, (List.append_nil _).symm, rfl⟩

/-- A write does not go on behind a failure. -/
theorem Emits.append {y : Write Unit} (hx : Emits x a) (hy : Emits y b) :
    Emits (do x; y) (a ++ b) := by
  intro q hq
  obtain ⟨q₁, hq₁, hpending₁, hx⟩ := hx q hq
  obtain ⟨bytes, _ | e⟩ := a
  · obtain ⟨q₂, hq₂, hpending₂, hy⟩ := hy q₁ hq₁
    refine ⟨q₂, hq₂, ?_, ?_⟩
    · rw [hpending₂, hpending₁]
      exact List.append_assoc _ _ _
    · rw [Step.bind_apply, hx]
      exact hy
  · refine ⟨q₁, hq₁, hpending₁, ?_⟩
    rw [Step.bind_apply, hx]
    rfl

/-- Writes in a row emit what they emit one by one. -/
theorem Emits.forM {α : Type} {f : α → Write Unit} {g : α → Emission ModelError} {xs : List α}
    (h : ∀ x ∈ xs, Emits (f x) (g x)) : Emits (xs.forM f) (.concat (xs.map g)) := by
  induction xs with
  | nil => exact emits_nothing
  | cons x xs ih =>
    exact (h x List.mem_cons_self).append (ih fun y hy => h y (List.mem_cons_of_mem _ hy))

/-! ## Numbers and texts -/

theorem emits_byte (n : UInt8) : Emits (modify fun q => q.putUInt8 n) (.of [n]) := by
  have hword : Word.ofUInt8 n = [n] := by simp [Word.ofUInt8, Word.toBytes, Word.size]
  rw [← hword]
  exact emits_put _

theorem emits_flag (b : Bool) : Emits (flag b) (.of (Binary.flag b)) := emits_byte _

theorem emits_varint (n : Nat) : Emits (varint n) (.of (Varint.encode n)) := by
  induction n using Varint.encode.induct with
  | case1 n h =>
    rw [varint, if_pos h, Varint.encode, if_pos h]
    exact emits_byte _
  | case2 n h ih =>
    rw [varint, if_neg h, Varint.encode, if_neg h]
    exact (emits_byte _).append ih

theorem emits_length (n : Nat) : Emits (length n) (ofBuffer (Binary.length n)) := by
  rw [length, Binary.length]
  split
  · exact emits_varint n
  · exact emits_throw _

theorem emits_text (t : String) : Emits (text t) (ofBuffer (Binary.text t)) := by
  rw [Binary.text, ofBuffer, Emission.mapFailure_append]
  exact (emits_length _).append (emits_put _)

theorem emits_count (n : Nat) : Emits (count n) (ofBuffer (Binary.count n)) := by
  rw [count, Binary.count]
  split
  · next h =>
    have hword : Word.ofInt32 (Int32.ofNat n) = Word.toBytes 4 n := by
      have hsize : n < UInt32.size := Nat.lt_trans h (by decide)
      rw [Word.ofInt32, Int32.toUInt32_ofNat', UInt32.toNat_ofNat_of_lt' hsize]
    rw [← hword]
    exact emits_put _
  · exact emits_throw _

theorem emits_duration (d : Duration) : Emits (duration d) (.of (Binary.duration d)) :=
  (emits_varint _).append (emits_byte _)

/-! ## Values -/

variable {site : Site} {tag : Tag} {v : Value} {items : List Value}

theorem emits_mismatch (v : Value) (site : Site) (tag : Tag) :
    Emits (mismatch s v site tag) (Binary.mismatch s v site tag) := emits_throw _

/-- An element of a list is written as it is on its own, except for the tag that an error names. -/
theorem emits_elements {one list : Tag} (h : ∀ v ∈ items,
    Emits ((format s).value v site one) ((Binary.format s).value v site one)) :
    Emits ((format s).elements items site one list)
      ((Binary.format s).elements items site one list) := by
  induction items with
  | nil => exact emits_nothing
  | cons v items ih =>
    obtain ⟨hv, hitems⟩ := List.forall_mem_cons.1 h
    rw [Format.elements, Format.elements]
    split
    · exact hv.append (ih hitems)
    · exact emits_mismatch _ _ _

theorem emits_columns {r : Record}
    (h : ∀ v, ∀ c : Column, r.get c.name = some v →
      Emits ((format s).value v ⟨s.name r.model, c.name⟩ c.tag)
        ((Binary.format s).value v ⟨s.name r.model, c.name⟩ c.tag)) :
    Emits (write s r) (record s r) := by
  rw [write]
  change Emits (columns s r.model ((format s).writings r.entries)) _
  cases hcs : s.columns r.model with
  | error e =>
    rw [columns, hcs, record_of_error s hcs]
    exact emits_throw e
  | ok cs =>
    rw [columns, hcs, record_eq s hcs]
    refine Emits.forM fun c _ => ?_
    rw [column_writings]
    cases hv : r.get c.name with
    | none => exact emits_flag false
    | some v => exact (emits_flag true).append (h v c hv)

/-- The value is emitted as it is spelled, up to the first failure. -/
theorem emits_value (v : Value) (site : Site) (tag : Tag) :
    Emits ((format s).value v site tag) ((Binary.format s).value v site tag) := by
  induction v, tag using Value.writing_induction generalizing site with
  | mismatch v tag hsuits =>
    rw [Format.value_of_not_suits _ hsuits, Format.value_of_not_suits _ hsuits]
    exact emits_mismatch _ _ _
  | bool b => exact emits_flag b
  | str t => exact emits_text t
  | zone z => exact emits_text z.text
  | int | long => exact emits_put _
  | duration d => exact emits_duration d
  | calendar u => exact emits_varint u.ordinal
  | strList items ih => exact (emits_length _).append (emits_elements fun v hv => ih v hv site)
  | modelList m items ih => exact (emits_count _).append (emits_elements fun v hv => ih v hv site)
  | model r ih =>
    rw [Format.value_model, Format.value_model]
    exact emits_columns fun v c hv => ih c.name v c.tag hv _

/-- A record is emitted as it is spelled, up to the first failure. -/
theorem emits_write (s : Schema) (r : Record) : Emits (write s r) (record s r) :=
  emits_columns fun v _ _ => emits_value v _ _

/-- A write that puts all of its bytes at once emits the same. -/
theorem emits_into (a : Emission ModelError) : Emits a.into a := fun _ hq =>
  ⟨_, Queue.sound_put hq _, Queue.pending_put hq _, rfl⟩

/-! ## Whole payloads -/

/-- The queue is reset first, so what it was does not matter. -/
theorem encode_eq (s : Schema) (r : Record) (q : Queue) :
    ∃ q' : Queue, q'.Sound ∧ q'.pending = [] ∧ encode s r q =
      match (record s r).made with
      | .ok bytes => .ok bytes q'
      | .error e => .error e q' := by
  obtain ⟨q', hq', hpending, hwrite⟩ := emits_write s r q.reset q.sound_reset
  refine ⟨q'.flush.2, Queue.sound_flush hq', Queue.pending_flush q', ?_⟩
  rw [Queue.pending_reset, List.nil_append] at hpending
  rw [encode, hwrite, Emission.after_result, Queue.flush, hpending]
  obtain ⟨bytes, _ | e⟩ := record s r <;> rfl

theorem outcome_encode (s : Schema) (r : Record) (q : Queue) :
    Step.outcome (encode s r q) = (record s r).made := by
  obtain ⟨q', -, -, hencode⟩ := encode_eq s r q
  rw [hencode]
  cases (record s r).made <;> rfl

/-- Nothing is pending after an encoding, successful or not. -/
theorem pending_encode (s : Schema) (r : Record) (q : Queue) :
    (Step.after (encode s r q)).pending = [] := by
  obtain ⟨q', -, hpending, hencode⟩ := encode_eq s r q
  rw [hencode]
  cases (record s r).made <;> exact hpending

theorem sound_encode (s : Schema) (r : Record) (q : Queue) :
    (Step.after (encode s r q)).Sound := by
  obtain ⟨q', hsound, -, hencode⟩ := encode_eq s r q
  rw [hencode]
  cases (record s r).made <;> exact hsound

/-- The bytes of a record are those that are emitted for it. -/
theorem bytes_eq_made (s : Schema) (r : Record) : bytes s r = (record s r).made := by
  rw [bytes, Binary.encode, Binary.write, Emission.into, Emission.made]
  obtain ⟨bytes, _ | e⟩ := record s r
  · have hpending : (Queue.empty.reset.put bytes).pending = bytes := by
      rw [Queue.pending_put (Queue.sound_reset _), Queue.pending_reset, List.nil_append]
    simp [Step.outcome, Queue.flush, hpending]
  · rfl

/-! ## Histories -/

theorem Emits.sound (h : Emits x a) (hq : q.Sound) : (Step.after (x q)).Sound := by
  obtain ⟨q', hq', -, hx⟩ := h q hq
  rwa [hx, Emission.after_result]

/-- No use leaves bytes pending that lie outside the storage. -/
theorem Use.sound_apply (hq : q.Sound) (use : Use) : (use.apply s q).Sound := by
  cases use with
  | reserve n => exact Queue.sound_reserve hq n
  | put bytes => exact Queue.sound_put hq bytes
  | flush => exact Queue.sound_flush hq
  | reset => exact Queue.sound_reset q
  | varint n => exact (emits_varint n).sound hq
  | length n => exact (emits_length n).sound hq
  | text t => exact (emits_text t).sound hq
  | write r => exact (emits_write s r).sound hq
  | encode r => exact sound_encode s r q

/-- No use of an encoder makes its queue unsound. -/
theorem sound_used (s : Schema) (n : Nat) (uses : List Use) : (used s n uses).Sound := by
  rw [used]
  generalize Queue.withRoom n = q, Queue.sound_withRoom n = hq
  induction uses generalizing q with
  | nil => exact hq
  | cons use uses ih => exact ih _ (use.sound_apply hq)

/-- The write leaves the bytes that are made behind those that were pending, or fails as they fail to
be made; what was pending is still pending in front of the rest. -/
def Appends (x : Write Unit) (made : Except ModelError (List UInt8)) (q : Queue) : Prop :=
  match made with
  | .ok bytes => ∃ q' : Queue, x q = .ok () q' ∧ q'.pending = q.pending ++ bytes
  | .error e => ∃ q' : Queue, x q = .error e q' ∧ q.pending <+: q'.pending

theorem Emits.appends (h : Emits x a) (hq : q.Sound) : Appends x a.made q := by
  obtain ⟨q', -, hpending, hx⟩ := h q hq
  obtain ⟨bytes, _ | e⟩ := a
  · exact ⟨q', hx, hpending⟩
  · exact ⟨q', hx, bytes, hpending.symm⟩

/-- An encoder gives what a new one gives, which are the bytes of the record, and leaves nothing
pending, whatever it was used for before; what is written to a queue in use goes behind the bytes that
are pending there. -/
theorem encode_of_used (s : Schema) (n : Nat) (uses : List Use) (r : Record) :
    let q := used s n uses
    Step.outcome (encode s r q) = Step.outcome (encode s r .empty) ∧
    Step.outcome (encode s r .empty) = Binary.bytes s r ∧
    (Step.after (encode s r q)).pending = [] ∧
    Appends (write s r) (Step.outcome (encode s r .empty)) q ∧
    ∀ (codec : Codec) (i : Instance), Appends (codec.write i) (codec.toBytes i) q := by
  have hq := sound_used s n uses
  refine ⟨?_, ?_, pending_encode s r _, ?_, fun codec i => ?_⟩
  · rw [outcome_encode, outcome_encode]
  · rw [outcome_encode, bytes_eq_made]
  · rw [outcome_encode]
    exact (emits_write s r).appends hq
  · rw [Codec.toBytes, bytes_eq_made]
    exact (emits_into _).appends hq

end Binary.Encoder

end Wireform
