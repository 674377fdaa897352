import Wireform.Proofs.Binary.Acceptance
import Wireform.Proofs.Instance.Decoding
import Wireform.Proofs.Instance.Equality

/-!
# Records that are converted

A record becomes an instance by assigning its entries in turn, so the last that is present counts.
What is written is the first entry of each column. Where the two are the same, in the record and in
those found within it, the instance that is read from the bytes of the record equals the one that
the record is converted to (`exists_decode_equal`).
-/

namespace Wireform

/-- Whatever is repeated, the first entry of a column is the last that is present. -/
def RecordOf.Unambiguous (s : Schema) (r : Record) : Prop :=
  ∀ d ∈ s.catalog r.model, r.get d.name = lastPresent r.entries d.name

variable {s : Schema} {root : ModelId} {site : Site} {shape : Shape} {tag : Tag} {v : Value}
  {items : List Value} {i : Instance} {r : Record}

namespace Value

/-! ## Values that are converted -/

/-- Whatever cell the value becomes, it holds the value as it is written, with its gaps filled. -/
def Keeps (s : Schema) (v : Value) (shape : Shape) : Prop :=
  ∀ site c, v.cell s site shape = .ok c → c.value s = some ((v.normal s).filled s)

theorem Keeps.of_present (h : shape.present.tag? = some tag) (hv : v.Keeps s shape.present) :
    v.Keeps s shape := by
  intro site c hc
  rw [cell_of_present h] at hc
  obtain ⟨c', hc', rfl⟩ := map_ok_iff.1 hc
  exact (Shape.value_wrap s shape c').trans (hv site c' hc')

/-- Items that keep their values in conversion keep them in a list. -/
theorem itemValues_of_cells {item : Shape} (h : ∀ v ∈ items, v.Keeps s item) {cs : List Cell}
    (hcs : cells s items site item = .ok cs) :
    Cell.itemValues s cs = items.map fun v => (v.normal s).filled s := by
  induction items generalizing cs with
  | nil =>
    cases hcs
    rfl
  | cons v items ih =>
    obtain ⟨hv, hrest⟩ := List.forall_mem_cons.1 h
    obtain ⟨c, hc, hcs⟩ := bind_ok_iff.1 hcs
    obtain ⟨cs', hcs', hcs⟩ := bind_ok_iff.1 hcs
    cases hcs
    rw [Cell.itemValues, hv site c hc, ih hrest hcs']
    rfl

/-- A list keeps its value in conversion if its items do. -/
theorem Keeps.list {item : Shape} (h : ∀ v ∈ items, v.Keeps s item) :
    (Value.list items).Keeps s (.list item) := by
  intro site c hc
  rw [cell_list] at hc
  obtain ⟨cs, hcs, rfl⟩ := map_ok_iff.1 hc
  rw [Cell.value, itemValues_of_cells h hcs, normal_list, filled_list, List.map_map]
  rfl

/-- A new instance with the entries of a record shows the record as it is written, with its gaps
filled. -/
theorem record_of_instanceWith (hdistinct : s.Distinct r.model) (habsent : s.StartsAbsent r.model)
    {cs : List Column} (hcs : s.columns r.model = .ok cs)
    (hkeeps : ∀ c ∈ cs, ∀ v, r.get c.name = some v → v.Keeps s c.tag.shape)
    (hrepeats : r.Unambiguous s)
    (h : instanceWith s r.model r.model (conversions s r.entries) = .ok i) :
    i.record s = (r.normal s).filled s := by
  rw [instanceWith, if_pos rfl] at h
  obtain ⟨hmodel, hshows⟩ := shows_of_initial hdistinct h
  rw [InstanceOf.record, hmodel, RecordOf.filled, RecordOf.normal]
  congr 1
  rw [List.map_map]
  refine List.map_congr_left fun d hd => congrArg (Prod.mk d.name) ?_
  have hshow := hshows d hd
  rw [Shows, ← hrepeats d hd] at hshow
  change i.get s d.name =
    RecordOf.filledEntry s r.model (d.name, (r.get d.name).map (Value.normal s))
  cases hget : r.get d.name with
  | none =>
    rw [hget] at hshow
    exact hshow.trans (default?_eq_get_initial hdistinct habsent hd).symm
  | some v =>
    rw [hget] at hshow
    obtain ⟨site, c, hc, hvalue⟩ := hshow
    obtain ⟨column, hcolumn, hname, htag⟩ := Schema.exists_column_of_mem_catalog hcs hd
    have hkeep : v.Keeps s d.shape := by
      refine .of_present htag ?_
      rw [Shape.eq_of_tag? htag]
      exact hkeeps column hcolumn v (hname ▸ hget)
    exact hvalue.trans (hkeep site c hc)

/-- The invariant of the recursion through nested records: they are of models that are reached, they
can be encoded and nothing in them is ambiguous. -/
theorem Encodable.keeps (hdistinct : ∀ n, s.Reaches root n → s.Distinct n)
    (habsent : ∀ n, s.Reaches root n → s.StartsAbsent n) (h : v.Encodable s tag)
    (hreach : ∀ n, tag.nested? = some n → s.Reaches root n)
    (hrepeats : ∀ k : Record, Under s (.model k.model) (.model k) tag v → k.Unambiguous s) :
    v.Keeps s tag.shape := by
  obtain ⟨hfits, hsupported⟩ := h
  induction hfits with
  | bool | str | int | long | duration | calendar | zone =>
    rintro _ _ ⟨⟩
    rfl
  | strList _ ih =>
    exact .list fun v hv => ih v hv nofun (fun k hk => hrepeats k (hk.text hv))
      fun k hk => hsupported k (hk.text hv)
  | modelList _ ih =>
    exact .list fun v hv => ih v hv hreach (fun k hk => hrepeats k (hk.item hv))
      fun k hk => hsupported k (hk.item hv)
  | @model r _ ih =>
    have hr : s.Reaches root r.model := hreach _ rfl
    obtain ⟨cs, hcs⟩ := Schema.supported_iff.1 (hsupported r .self)
    have hkeeps : ∀ c ∈ cs, ∀ v, r.get c.name = some v → v.Keeps s c.tag.shape :=
      fun c hc v hv => ih cs hcs c hc v hv (fun k hk => hr.column hcs hc hk)
        (fun k hk => hrepeats k (hk.of_column hcs hc hv))
        fun k hk => hsupported k (hk.of_column hcs hc hv)
    intro site c hc
    rw [Tag.shape, cell_model] at hc
    obtain ⟨i, hi, rfl⟩ := map_ok_iff.1 hc
    have hrecord : i.record s = (r.normal s).filled s :=
      record_of_instanceWith (hdistinct _ hr) (habsent _ hr) hcs hkeeps (hrepeats r .self) hi
    rw [InstanceOf.value_model, normal_model, filled_model, hrecord]

end Value

/-! ## Converted and decoded -/

namespace RecordOf

/-- Where nothing is ambiguous, the instance that a record is converted to shows the record as it is
written, with its gaps filled. -/
theorem Encodable.record_eq (hdistinct : ∀ n, s.Reaches r.model n → s.Distinct n)
    (habsent : ∀ n, s.Reaches r.model n → s.StartsAbsent n) (h : r.Encodable s)
    (hrepeats : ∀ k : Record, Value.Under s (.model k.model) (.model k) (.model r.model) (.model r) →
      k.Unambiguous s)
    (hi : InstanceOf.ofRecord s r.model r = .ok i) : i.record s = (r.normal s).filled s := by
  have hcell : (Value.model r).cell s ⟨"", ""⟩ (.model r.model) = .ok (.model i) := by
    rw [Value.cell_model]
    exact map_ok_iff.2 ⟨i, hi, rfl⟩
  have hvalue := Value.Encodable.keeps hdistinct habsent h (fun _ => .of_nested) hrepeats _ _ hcell
  rw [InstanceOf.value_model, Value.normal_model, Value.filled_model] at hvalue
  exact Value.model.inj (Option.some.inj hvalue)

/-- What has been written for a record that can be converted is decoded, and the instance shows the
record as it was written. It equals the one that the record is converted to, unless an entry that is
repeated says something else the last time, in the record or in one found within it. -/
theorem exists_decode_equal {limits : Binary.Limits} {bs : List UInt8}
    (hdistinct : ∀ n, s.Reaches r.model n → s.Distinct n)
    (habsent : ∀ n, s.Reaches r.model n → s.StartsAbsent n)
    (hi : InstanceOf.ofRecord s r.model r = .ok i) (hbs : Binary.bytes s r = .ok bs)
    (hdepth : (r.normal s).depth ≤ limits.depth) (hextent : (r.normal s).extent ≤ limits.length) :
    ∃ j, Binary.decode s limits r.model bs = .ok j ∧ j.record s = (r.normal s).filled s ∧
      ((∀ k : Record, Value.Under s (.model k.model) (.model k) (.model r.model) (.model r) →
        k.Unambiguous s) → i.equal s j = true) := by
  have hencodable : r.Encodable s := Binary.encodable_of_bytes hbs
  have hleft : (Cursor.ofBytes bs).left = bs ++ [] := by
    rw [Cursor.left_ofBytes, List.append_nil]
  have hread : Binary.readRecord s limits r.model (.ofBytes bs) =
      .ok (r.normal s) ((Cursor.ofBytes bs).advance bs.length) :=
    Binary.takes_encodable hencodable hdepth hextent hbs hleft
  obtain ⟨j, hj, hrecord⟩ :=
    (Decoded.binary hread).regular.exists_ofRecord hdistinct habsent
  have hinstance : Binary.readInstance s limits r.model (.ofBytes bs) =
      .ok j ((Cursor.ofBytes bs).advance bs.length) := by
    rw [Binary.readInstance, Step.bind_apply, hread]
    exact Step.ofExcept_eq_ok.2 ⟨hj, rfl⟩
  refine ⟨j, Binary.decode_of_readInstance hinstance (Cursor.left_advance_append hleft), hrecord,
    fun hrepeats => ?_⟩
  have hconverted : i.record s = (r.normal s).filled s :=
    hencodable.record_eq hdistinct habsent hrepeats hi
  exact InstanceOf.equal_iff.2 (hconverted.trans hrecord.symm)

/-- A node whose label is repeated without a value. -/
def unlabelled : Record :=
  ⟨⟨0⟩, [("label", some (.str "a")), ("label", none)]⟩

/-- A node whose label comes before and after its child. -/
def relabelled : Record :=
  ⟨⟨0⟩, [("label", some (.str "b")), ("children", some (.list [.model unlabelled])),
    ("label", some (.str "b"))]⟩

theorem unambiguous_relabelled {k : Record}
    (h : Value.Under Schema.nodes (.model k.model) (.model k) (.model ⟨0⟩) (.model relabelled)) :
    k.Unambiguous Schema.nodes := by
  have hchild (h : Value.Under Schema.nodes (.model k.model) (.model k) (.model ⟨0⟩)
      (.model unlabelled)) : k.Unambiguous Schema.nodes := by
    obtain ⟨-, hself⟩ | ⟨c, hc, w, hw, h⟩ :=
      Value.Under.model_cases (r := unlabelled) h columns_nodes
    · cases hself
      unfold Unambiguous
      decide
    · simp only [List.mem_cons, List.not_mem_nil, or_false] at hc
      obtain rfl | rfl := hc <;> cases hw
      cases h
  obtain ⟨-, hself⟩ | ⟨c, hc, w, hw, h⟩ := Value.Under.model_cases (r := relabelled) h columns_nodes
  · cases hself
    unfold Unambiguous
    decide
  · simp only [List.mem_cons, List.not_mem_nil, or_false] at hc
    obtain rfl | rfl := hc <;> cases hw
    · cases h with
      | item h hmem =>
        cases List.mem_singleton.1 hmem
        exact hchild h
    · cases h

theorem exists_decode_equal_relabelled :
    Binary.bytes Schema.nodes relabelled = .ok [1, 0, 0, 0, 1, 0, 1, 1, 97, 1, 1, 98] ∧
    ∃ i j, InstanceOf.ofRecord Schema.nodes ⟨0⟩ relabelled = .ok i ∧
      Binary.decode Schema.nodes ⟨1, 1⟩ ⟨0⟩ [1, 0, 0, 0, 1, 0, 1, 1, 97, 1, 1, 98] = .ok j ∧
      i.equal Schema.nodes j = true := by
  have hbytes : Binary.bytes Schema.nodes relabelled =
      .ok [1, 0, 0, 0, 1, 0, 1, 1, 97, 1, 1, 98] :=
    (Binary.bytes_eq_ok _).2 (by decide +kernel)
  obtain ⟨i, hi⟩ : ∃ i, InstanceOf.ofRecord Schema.nodes ⟨0⟩ relabelled = .ok i := ⟨_, rfl⟩
  have hdepth : (relabelled.normal Schema.nodes).depth ≤ (⟨1, 1⟩ : Binary.Limits).depth := by decide
  have hextent : (relabelled.normal Schema.nodes).extent ≤ (⟨1, 1⟩ : Binary.Limits).length := by
    decide
  obtain ⟨j, hj, -, hequal⟩ := exists_decode_equal (fun n _ => Schema.distinct_nodes n)
    (fun n _ => Schema.startsAbsent_nodes n) hi hbytes hdepth hextent
  exact ⟨hbytes, i, j, hi, hj, hequal fun _ => unambiguous_relabelled⟩

/-- A node with two labels becomes an instance with the second, and is written with the first. -/
theorem decode_unequal_of_repeated :
    let r : Record := ⟨⟨0⟩, [("label", some (.str "a")), ("label", some (.str "b"))]⟩
    (∀ n, Schema.nodes.StartsAbsent n) ∧
      (r.normal Schema.nodes).depth ≤ 0 ∧ (r.normal Schema.nodes).extent ≤ 1 ∧
      ∃ bs i j, InstanceOf.ofRecord Schema.nodes ⟨0⟩ r = .ok i ∧
        Binary.bytes Schema.nodes r = .ok bs ∧
        Binary.decode Schema.nodes ⟨0, 1⟩ ⟨0⟩ bs = .ok j ∧ i.equal Schema.nodes j = false :=
  ⟨Schema.startsAbsent_nodes, by decide, by decide, [0, 1, 1, 97], _, _, rfl,
    (Binary.bytes_eq_ok _).2 (by decide +kernel), rfl, by decide⟩

end RecordOf

end Wireform
