import Wireform.Proofs.Binary.Acceptance
import Wireform.Proofs.Binary.Stream
import Wireform.Proofs.Schema.Declared

/-!
# Writing again what was read

Whatever bytes a record was read from, writing it gives them back with every number in its least
form, and nothing else can differ (`rewritten_bytes`). So the bytes that are written are a spelling of
the same record, they are no longer than those that were read, and they are the same ones just if no
number among these had a group to spare.
-/

namespace Wireform

namespace Emission

theorem concat_of {ε α : Type} {E : α → Emission ε} {out : α → List UInt8} {xs : List α}
    (h : ∀ x ∈ xs, E x = .of (out x)) : concat (xs.map E) = .of (xs.flatMap out) := by
  induction xs with
  | nil => rfl
  | cons x xs ih =>
    obtain ⟨hx, hxs⟩ := List.forall_mem_cons.1 h
    rw [List.map_cons, concat, hx, ih hxs, List.flatMap_cons]
    rfl

end Emission

namespace Binary

variable {s : Schema} {limits : Limits} {root m : ModelId} {site : Site} {tag : Tag} {v : Value}
  {ps : List Piece}

/-- A record that lists its columns one by one has for each of them what stands there. -/
theorem get_entry {rows : List Row} (hcs : s.columns m = .ok (rows.map Row.column))
    (hdistinct : ((s.catalog m).map FieldDecl.name).Nodup) {row : Row} (hrow : row ∈ rows) :
    RecordOf.get ⟨m, rows.map Row.entry⟩ row.column.name = row.content.map Prod.fst := by
  have hnames : (rows.map Row.entry).map Prod.fst = (s.catalog m).map FieldDecl.name := by
    rw [← Schema.map_name_columns hcs, List.map_map, List.map_map]
    rfl
  have hlookup := lookup_of_mem (by rwa [hnames]) (List.mem_map_of_mem (f := Row.entry) hrow)
  rw [RecordOf.get, hlookup]
  rfl

/-! ## Writing -/

theorem ofBuffer_length {n : Nat} {x : Varint.Spelling} (h : x.Gives Varint.short n) :
    ofBuffer (length n) = .of (Varint.encode x.number) := by
  have hlt : n < Word.size 4 := h.lt
  rw [length, if_pos hlt, h.number]
  rfl

theorem ofBuffer_text {t : String} {x : Varint.Spelling}
    (h : x.Gives Varint.short t.utf8ByteSize) :
    ofBuffer (text t) = .of ([.varint x, .plain (Utf8.encode t)].flatMap Piece.least) := by
  have hlt : t.utf8ByteSize < Word.size 4 := h.lt
  rw [text, length, if_pos hlt, List.flatMap_cons, List.flatMap_singleton, Piece.least,
    Piece.least, h.number]
  rfl

section
variable (hdistinct : ∀ n, s.Reaches root n → ((s.catalog n).map FieldDecl.name).Nodup)
  (hreach : ∀ n, tag.nested? = some n → s.Reaches root n)
include hdistinct hreach

theorem Spelled.fits (h : Spelled s tag v ps) : Value.Fits s tag v := by
  induction h with
  | bool b => exact .bool b
  | str => exact .str _
  | int n => exact .int n
  | long n => exact .long n
  | duration => exact .duration _
  | calendar => exact .calendar _
  | zone => exact .zone _
  | strList _ _ ih =>
    exact .strList (List.forall_mem_map.2 fun row hrow => ih row hrow nofun)
  | modelList _ _ ih =>
    exact .modelList (List.forall_mem_map.2 fun row hrow => ih row hrow hreach)
  | @model m rows hcs hrows ih =>
    refine .model (r := ⟨m, rows.map Row.entry⟩) fun cs hcs' c hc v hv => ?_
    cases hcs.symm.trans hcs'
    obtain ⟨row, hrow, rfl⟩ := List.mem_map.1 hc
    rw [get_entry hcs (hdistinct m (hreach m rfl)) hrow] at hv
    obtain ⟨⟨w, qs⟩, hcontent, rfl⟩ := Option.map_eq_some_iff.1 hv
    exact ih row hrow w qs hcontent fun n hn => (hreach m rfl).column hcs hc hn

/-- A record that was read is in normal form. -/
theorem Spelled.normal_eq (h : Spelled s tag v ps) : v.normal s = v := by
  have hitems {rows : List (Value × List Piece)} (h : ∀ row ∈ rows, row.1.normal s = row.1) :
      Value.normal s (.list (rows.map Prod.fst)) = .list (rows.map Prod.fst) := by
    rw [Value.normal_list, List.map_map]
    exact congrArg Value.list (List.map_congr_left h)
  induction h with
  | strList _ _ ih => exact hitems fun row hrow => ih row hrow nofun
  | modelList _ _ ih => exact hitems fun row hrow => ih row hrow hreach
  | @model m rows hcs hrows ih =>
    have hentries := RecordOf.entries_normal (r := ⟨m, rows.map Row.entry⟩) hcs
    rw [List.map_map] at hentries
    rw [Value.normal_model]
    refine congrArg (fun es => Value.model ⟨m, es⟩) (hentries.trans ?_)
    refine List.map_congr_left fun row hrow => ?_
    rw [Function.comp_apply, get_entry hcs (hdistinct m (hreach m rfl)) hrow, Row.entry]
    cases hcontent : row.content with
    | none => rfl
    | some found =>
      have hnormal := ih row hrow found.1 found.2 hcontent fun n hn =>
        (hreach m rfl).column hcs (List.mem_map_of_mem hrow) hn
      rw [Option.map_some, Option.map_some, hnormal]
  | _ => rfl

/-- Writing puts every number in its least form and leaves all else as it was. -/
theorem Spelled.value_eq (h : Spelled s tag v ps) :
    (format s).value v site tag = .of (ps.flatMap Piece.least) := by
  induction h generalizing site with
  | bool | int | long => simp [Format.value, format, Piece.least]
  | str hx => exact ofBuffer_text hx
  | duration hx =>
    rw [List.flatMap_cons, List.flatMap_singleton, Piece.least, Piece.least, hx.number]
    rfl
  | calendar hx => simp [Format.value, format, Piece.least, hx.number]
  | zone hx => exact ofBuffer_text hx
  | @strList rows x hx hrows ih =>
    have hnone : ∀ n, Tag.str.nested? = some n → s.Reaches root n := by rintro _ ⟨⟩
    have hfits : ∀ v ∈ rows.map Prod.fst, Value.Fits s .str v :=
      List.forall_mem_map.2 fun row hrow => (hrows row hrow).fits hdistinct hnone
    have helements : (format s).elements (rows.map Prod.fst) site .str .strList =
        .of (rows.flatMap fun row => row.2.flatMap Piece.least) := by
      rw [elements_eq hfits, List.map_map]
      exact Emission.concat_of fun row hrow => ih row hrow hnone
    rw [value_texts, List.length_map, ofBuffer_length hx, helements, List.flatMap_cons,
      List.flatMap_assoc]
    rfl
  | @modelList m rows hlt hrows ih =>
    have hfits : ∀ v ∈ rows.map Prod.fst, Value.Fits s (.model m) v :=
      List.forall_mem_map.2 fun row hrow => (hrows row hrow).fits hdistinct hreach
    have helements : (format s).elements (rows.map Prod.fst) site (.model m) (.modelList m) =
        .of (rows.flatMap fun row => row.2.flatMap Piece.least) := by
      rw [elements_eq hfits, List.map_map]
      exact Emission.concat_of fun row hrow => ih row hrow hreach
    rw [value_models, List.length_map, count, if_pos hlt, helements, List.flatMap_cons,
      List.flatMap_assoc]
    rfl
  | @model m rows hcs hrows ih =>
    rw [Format.value_model _ ⟨m, rows.map Row.entry⟩, ← record, record_eq s hcs, List.map_map, List.flatMap_assoc]
    refine Emission.concat_of fun row hrow => ?_
    rw [Function.comp_apply, get_entry hcs (hdistinct m (hreach m rfl)) hrow, Row.pieces]
    cases hcontent : row.content with
    | none => rfl
    | some found =>
      dsimp only [Option.map_some]
      rw [ih row hrow found.1 found.2 hcontent fun n hn =>
        (hreach m rfl).column hcs (List.mem_map_of_mem hrow) hn]
      rfl

end

/-! ## Reading and writing -/

/-- Whatever a record of a checked model was read from, what is written for it is read again as the
same record, and is no longer. It is the very same just if every number in what was read had its
least form. -/
theorem rewritten_bytes {c c' : Cursor} {r : Record} (hvalid : s.validate m = .ok ())
    (hdistinct : ∀ n, s.Reaches m n → ((s.catalog n).map FieldDecl.name).Nodup)
    (h : readRecord s limits m c = .ok r c') :
    ∃ consumed rest bs, c.left = consumed ++ rest ∧ c' = c.advance consumed.length ∧
      bytes s r = .ok bs ∧ bs.length ≤ consumed.length ∧
      (∃ d, readRecord s limits m (.ofBytes bs) = .ok r d ∧ d.left = []) ∧
      (∃ ps, Spelled s (.model m) (.model r) ps ∧ ps.flatMap Piece.bytes = consumed) ∧
      ∀ ps, Spelled s (.model m) (.model r) ps → ps.flatMap Piece.bytes = consumed →
        (bs = consumed ↔ ∀ x, .varint x ∈ ps → Varint.Minimal x.groups) := by
  obtain ⟨ps, rest, hleft, hconsumes, hspelled, hwithin⟩ :=
    reads_readLevels (limits.depth + 1) m h
  cases h.symm.trans (hconsumes.takes hleft)
  have hreach (n : ModelId) (hn : (Tag.model m).nested? = some n) : s.Reaches m n := by
    cases hn
    exact .refl
  have hfits := hspelled.fits hdistinct hreach
  obtain ⟨_, ⟨⟩, rfl⟩ := hfits.eq_model
  have hnormal : r.normal s = r := by
    have hvalue := hspelled.normal_eq hdistinct hreach
    rw [Value.normal_model] at hvalue
    exact Value.model.inj hvalue
  have hbytes {qs : List Piece} (hqs : Spelled s (.model r.model) (.model r) qs) :
      bytes s r = .ok (qs.flatMap Piece.least) := by
    rw [bytes_eq_ok, record, ← Format.value_model _ r ⟨"", ""⟩, hqs.value_eq hdistinct hreach]
  have hdepth : (r.normal s).depth ≤ limits.depth := by
    rw [hnormal]
    exact Nat.le_of_succ_le_succ hwithin.1
  have hextent : (r.normal s).extent ≤ limits.length := by
    rw [hnormal]
    exact hwithin.2
  have hread := readRecord_bytes ⟨hvalid, hdistinct, hfits⟩ hdepth hextent (hbytes hspelled)
  rw [hnormal] at hread
  refine ⟨_, rest, _, hleft, rfl, hbytes hspelled, Piece.length_flatMap_least_le ps, hread,
    ⟨ps, hspelled, rfl⟩, fun qs hqs heq => ?_⟩
  rw [← heq, Except.ok.inj ((hbytes hspelled).symm.trans (hbytes hqs))]
  exact Piece.flatMap_least_eq_iff qs

/-- The length of the label has a group to spare. -/
theorem rewritten_bytes_nodes :
    Schema.nodes.validate ⟨0⟩ = .ok () ∧
    (∀ n, Schema.nodes.Reaches ⟨0⟩ n → ((Schema.nodes.catalog n).map FieldDecl.name).Nodup) ∧
    readRecord .nodes ⟨1, 2⟩ ⟨0⟩ (.ofBytes [1, 0, 0, 0, 1, 0, 0, 1, 0x82, 0, 0xC3, 0xA9]) =
      .ok (RecordOf.family.normal .nodes)
        ((Cursor.ofBytes [1, 0, 0, 0, 1, 0, 0, 1, 0x82, 0, 0xC3, 0xA9]).advance 12) ∧
    ∃ bs, bytes .nodes (RecordOf.family.normal .nodes) = .ok bs ∧ bs.length ≤ 12 ∧
      ∃ d, readRecord .nodes ⟨1, 2⟩ ⟨0⟩ (.ofBytes bs) = .ok (RecordOf.family.normal .nodes) d ∧
        d.left = [] := by
  have hread : readRecord .nodes ⟨1, 2⟩ ⟨0⟩
      (.ofBytes [1, 0, 0, 0, 1, 0, 0, 1, 0x82, 0, 0xC3, 0xA9]) =
    .ok (RecordOf.family.normal .nodes)
      ((Cursor.ofBytes [1, 0, 0, 0, 1, 0, 0, 1, 0x82, 0, 0xC3, 0xA9]).advance 12) := rfl
  obtain ⟨consumed, rest, bs, -, hpos, hbytes, hlen, hagain, -⟩ :=
    rewritten_bytes validate_nodes wellTyped_family.distinct hread
  have hconsumed : 0 + 12 = 0 + consumed.length := congrArg Cursor.pos hpos
  exact ⟨validate_nodes, wellTyped_family.distinct, hread, bs, hbytes, by omega, hagain⟩

end Binary

end Wireform
