import Wireform.Binary.Codec
import Wireform.Proofs.Binary.Consumption
import Wireform.Proofs.Value.Normal

/-!
# What is accepted as a record

The bytes of which a record was read spell the record, and the record keeps the limits
(`reads_readLevels`). They alone decide: the same bytes give the same record wherever they stand and
whatever follows them, and no beginning of them gives any (`accepted_bytes_decide`).
-/

namespace Wireform.Binary

variable {s : Schema} {limits : Limits} {site : Site} {levels bound : Nat}
  {nested : ModelId → Read Record}

/-- The pieces spell the value, and it keeps what is left of the limits. -/
abbrev Accepts (s : Schema) (levels bound : Nat) (tag : Tag) (v : Value) (ps : List Piece) : Prop :=
  Spelled s tag v ps ∧ v.Within levels bound

theorem Accepts.of_scalar {tag : Tag} {v : Value} {ps : List Piece}
    (h : Spelled s tag v ps) (hscalar : v.isCompound = false) (hlen : v.length ≤ bound) :
    Accepts s levels bound tag v ps :=
  ⟨h, (Value.within_scalar hscalar).2 hlen⟩

/-- A value is read exactly from its spellings within the limits, if nested records are. -/
theorem reads_value {tag : Tag} (h : ∀ m, Reads (nested m) fun r =>
      Accepts s levels limits.length (.model m) (.model r)) :
    Reads (readValue limits nested site tag) (Accepts s levels limits.length tag) := by
  have hstr : Reads (.str <$> readText limits site) (Accepts s levels limits.length .str) := by
    refine .map (reads_text.mono ?_)
    rintro t _ ⟨hlimit, x, hx, rfl⟩
    exact .of_scalar (.str hx) rfl hlimit
  cases tag with
  | bool =>
    refine .map (reads_flag.mono ?_)
    rintro b _ rfl
    exact .of_scalar (.bool b) rfl (Nat.zero_le _)
  | str => exact hstr
  | int =>
    refine .map (reads_int32.mono ?_)
    rintro n _ rfl
    exact .of_scalar (.int n) rfl (Nat.zero_le _)
  | long =>
    refine .map (reads_int64.mono ?_)
    rintro n _ rfl
    exact .of_scalar (.long n) rfl (Nat.zero_le _)
  | duration =>
    refine .map (reads_duration.mono ?_)
    rintro d _ ⟨x, hx, rfl⟩
    exact .of_scalar (.duration hx) rfl (Nat.zero_le _)
  | calendar =>
    refine .map (reads_calendar.mono ?_)
    rintro u _ ⟨x, hx, rfl⟩
    exact .of_scalar (.calendar hx) rfl (Nat.zero_le _)
  | zone =>
    refine .map (reads_zone.mono ?_)
    rintro z _ ⟨hlimit, x, hx, rfl⟩
    exact .of_scalar (.zone hx) rfl hlimit
  | strList =>
    refine reads_varint.bind ?_
    rintro n _ ⟨x, hx, rfl⟩
    refine reads_checkLength.bind ?_
    rintro _ _ ⟨hlimit, rfl⟩
    refine .map ((hstr.times n).mono ?_)
    rintro _ _ ⟨rows, rfl, rfl, rfl, hrows⟩
    refine ⟨.strList hx fun row hrow => (hrows row hrow).1, Value.within_list.2 ⟨?_, ?_⟩⟩
    · rwa [List.length_map]
    · exact List.forall_mem_map.2 fun row hrow => (hrows row hrow).2
  | modelList m =>
    refine reads_count.bind ?_
    rintro n _ ⟨hlimit, hlt, rfl⟩
    refine .map ((Reads.times (.map (h m)) n).mono ?_)
    rintro _ _ ⟨rows, rfl, rfl, rfl, hrows⟩
    refine ⟨.modelList hlt fun row hrow => (hrows row hrow).1, Value.within_list.2 ⟨?_, ?_⟩⟩
    · rwa [List.length_map]
    · exact List.forall_mem_map.2 fun row hrow => (hrows row hrow).2
  | model m => exact .map (h m)

/-- What the row has, if anything, is accepted under the tag of its column. -/
def AcceptsRow (s : Schema) (levels bound : Nat) (row : Row) : Prop :=
  ∀ v ps, row.content = some (v, ps) → Accepts s levels bound row.column.tag v ps

theorem reads_entry {m : ModelId} (h : ∀ m, Reads (nested m) fun r =>
      Accepts s levels limits.length (.model m) (.model r)) (c : Column) :
    Reads (readEntry s limits nested m c) fun e ps => ∃ row : Row, row.column = c ∧
      AcceptsRow s levels limits.length row ∧ e = row.entry ∧ ps = row.pieces := by
  refine reads_flag.bind ?_
  rintro present _ rfl
  cases present with
  | false => exact .pure ⟨⟨c, none⟩, rfl, nofun, rfl, rfl⟩
  | true =>
    refine (reads_value h).bind fun v ps hv => .pure ⟨⟨c, some (v, ps)⟩, rfl, ?_, rfl, ?_⟩
    · rintro _ _ ⟨⟩
      exact hv
    · rw [List.append_nil]
      rfl

/-- Rows within the limits are a record within one level more. -/
theorem accepts_rows {m : ModelId} {rows : List Row} (hcs : s.columns m = .ok (rows.map Row.column))
    (h : ∀ row ∈ rows, AcceptsRow s levels bound row) :
    Accepts s (levels + 1) bound (.model m) (.model ⟨m, rows.map Row.entry⟩)
      (rows.flatMap Row.pieces) := by
  refine ⟨.model hcs fun row hrow v ps hv => (h row hrow v ps hv).1, ?_⟩
  refine Value.within_model.2 fun name v hv => ?_
  obtain ⟨row, hrow, he⟩ := List.mem_map.1 hv
  obtain ⟨⟨w, ps⟩, hcontent, rfl⟩ := Option.map_eq_some_iff.1 (Prod.mk.inj he).2
  exact (h row hrow w ps hcontent).2

/-- The invariant of the recursion through nested records: what is read is spelled as it has to be
and needs no more levels than are left. -/
theorem reads_readLevels (levels : Nat) (m : ModelId) :
    Reads (readLevels s limits levels m) fun r =>
      Accepts s levels limits.length (.model m) (.model r) := by
  induction levels generalizing m with
  | zero => exact .throw
  | succ levels ih =>
    refine (Reads.ofExcept (R := fun cs ps => s.columns m = .ok cs ∧ ps = [])
      fun cs hcs => ⟨hcs, rfl⟩).bind ?_
    rintro cs _ ⟨hcs, rfl⟩
    refine (Reads.mapM (reads_entry ih) cs).bind ?_
    rintro _ _ ⟨rows, rfl, hrows, rfl, rfl⟩
    refine .pure ?_
    rw [List.nil_append, List.append_nil]
    exact accepts_rows hcs hrows

/-! ## Whole inputs -/

theorem atEnd_iff {c : Cursor} : c.atEnd = true ↔ c.left = [] := by
  rw [← List.length_eq_zero_iff, c.length_left, Cursor.atEnd, Cursor.size, decide_eq_true_iff]
  omega

theorem readAll_apply {m : ModelId} (c : Cursor) :
    readAll s limits m c = match readInstance s limits m c with
      | .ok i c' =>
        if c'.atEnd then .ok i c'
        else .error (.invalidValue ⟨s.name m, ""⟩ (.trailingBytes c'.size)) c'
      | .error e c' => .error e c' := by
  rw [readAll, Step.bind_apply]
  cases readInstance s limits m c with
  | error e c' => rfl
  | ok i c' =>
    simp only [Step.bind_apply, Step.get_apply]
    split <;> rfl

/-- An input that has been read to its end is accepted. -/
theorem decode_of_readInstance {m : ModelId} {bs : List UInt8} {i : Instance} {c : Cursor}
    (h : readInstance s limits m (.ofBytes bs) = .ok i c) (hleft : c.left = []) :
    decode s limits m bs = .ok i := by
  rw [decode, readAll_apply, h]
  dsimp only
  rw [if_pos (atEnd_iff.2 hleft)]
  rfl

theorem reads_readInstance {m : ModelId} : Reads (readInstance s limits m) fun _ _ => True :=
  (reads_readLevels (limits.depth + 1) m).bind fun _ _ _ => .ofExcept fun _ _ => trivial

/-- An input that is accepted as a whole has been consumed to its last byte. -/
theorem consumes_of_decode {m : ModelId} {bs : List UInt8} {i : Instance}
    (h : decode s limits m bs = .ok i) : Consumes (readInstance s limits m) bs i := by
  rw [decode, readAll_apply] at h
  split at h
  · next i' c' hread =>
    obtain ⟨ps, rest, hleft, hconsumes, -⟩ := reads_readInstance hread
    cases hread.symm.trans (hconsumes.takes hleft)
    split at h
    · next hend =>
      cases h
      rw [atEnd_iff, Cursor.left_advance_append hleft] at hend
      rw [Cursor.left_ofBytes, hend, List.append_nil] at hleft
      rwa [hleft]
    · cases h
  · cases h

/-- What is read from some bytes is read from them wherever they stand, whatever follows, and is
missed as soon as they are cut short. So no input that is accepted as a whole goes on as another. -/
theorem accepted_bytes_decide (s : Schema) (limits : Limits) (m : ModelId) :
    (∀ c r c', readRecord s limits m c = .ok r c' →
      ∃ bs rest, c.left = bs ++ rest ∧ c' = c.advance bs.length ∧
        (∀ d rest', d.left = bs ++ rest' →
          readRecord s limits m d = .ok r (d.advance bs.length)) ∧
        ∀ d missing, d.left ++ missing = bs → missing ≠ [] →
          ∃ d', readRecord s limits m d = .error (.buffer .endOfBuffer) d') ∧
    ∀ bs i, decode s limits m bs = .ok i →
      (∀ front missing, front ++ missing = bs → missing ≠ [] →
        decode s limits m front = .error (.buffer .endOfBuffer)) ∧
      ∀ extra, extra ≠ [] → decode s limits m (bs ++ extra) =
        .error (.invalidValue ⟨s.name m, ""⟩ (.trailingBytes extra.length)) := by
  constructor
  · intro c r c' h
    obtain ⟨ps, rest, hleft, hconsumes, -⟩ := reads_readLevels (limits.depth + 1) m h
    cases h.symm.trans (hconsumes.takes hleft)
    exact ⟨_, rest, hleft, rfl, fun d rest' => @hconsumes.takes d rest',
      fun d missing => @hconsumes.cut d missing⟩
  · intro bs i h
    have hconsumes := consumes_of_decode h
    refine ⟨fun front missing hbs hne => ?_, fun extra hne => ?_⟩
    · rw [← Cursor.left_ofBytes front] at hbs
      obtain ⟨d, hd⟩ := hconsumes.cut hbs hne
      rw [decode, readAll_apply, hd]
      rfl
    · have hleft := Cursor.left_ofBytes (bs ++ extra)
      have hextra := Cursor.left_advance_append hleft
      rw [decode, readAll_apply, hconsumes.takes hleft]
      dsimp only
      rw [if_neg (by rwa [atEnd_iff, hextra]), ← Cursor.length_left, hextra]
      rfl

theorem accepted_bytes_decide_nodes :
    readRecord .nodes ⟨1, 2⟩ ⟨0⟩ (.ofBytes [1, 0, 0, 0, 1, 0, 0, 1, 2, 0xC3, 0xA9]) =
        .ok (RecordOf.family.normal .nodes)
          ((Cursor.ofBytes [1, 0, 0, 0, 1, 0, 0, 1, 2, 0xC3, 0xA9]).advance 11) ∧
      decode .nodes ⟨1, 2⟩ ⟨0⟩ [1, 0, 0, 0, 1, 0, 0, 1, 2] = .error (.buffer .endOfBuffer) ∧
      decode .nodes ⟨1, 2⟩ ⟨0⟩ [1, 0, 0, 0, 1, 0, 0, 1, 2, 0xC3, 0xA9, 1] =
        .error (.invalidValue ⟨"Node", ""⟩ (.trailingBytes 1)) := by
  obtain ⟨i, hi⟩ : ∃ i, decode .nodes ⟨1, 2⟩ ⟨0⟩
      [1, 0, 0, 0, 1, 0, 0, 1, 2, 0xC3, 0xA9] = .ok i := ⟨_, rfl⟩
  obtain ⟨hcut, hextra⟩ := (accepted_bytes_decide .nodes ⟨1, 2⟩ ⟨0⟩).2 _ i hi
  exact ⟨rfl, hcut _ [0xC3, 0xA9] rfl (List.cons_ne_nil _ _), hextra [1] (List.cons_ne_nil _ _)⟩

end Wireform.Binary
