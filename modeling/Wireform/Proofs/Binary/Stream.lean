import Wireform.Proofs.Binary.Failures
import Wireform.Proofs.Binary.Takes

/-!
# Streams of binary records

Well-typed records that are written one after the other are read back in their normal form, one
after the other, whatever bytes follow (`read_stream`). The format has no names and no frames, so
this rests on each read taking just what the write of the same field sent out: `Recovers` joins an
emission with the read that takes it, and follows both through columns, lists and nested records.

A length has 32 bits in the format, and 31 where it counts models; the writer refuses longer ones,
also where the limits of the reader would allow them (`long_label_overflows`).
-/

namespace Wireform.Binary

open Value (Fits)

variable {α β : Type} {p q : Prop} {e e' : Emission ModelError} {x : Read α} {a : α} {b : β}

/-- If `p` holds then `x` takes what has been emitted and gives `a`; otherwise a length was too
large for its field, and the emission ended there. -/
structure Recovers (p : Prop) (e : Emission ModelError) (x : Read α) (a : α) : Prop where
  taken : p → ∃ bytes, e = .of bytes ∧ Takes x bytes a
  overflow : ¬ p → ∃ bytes, e = ⟨bytes, some (.buffer .overflow)⟩

namespace Recovers

theorem of {bytes : List UInt8} (h : Takes x bytes a) : Recovers True (.of bytes) x a :=
  ⟨fun _ => ⟨bytes, rfl, h⟩, fun hp => (hp trivial).elim⟩

theorem congr (h : Recovers p e x a) (hpq : q ↔ p) : Recovers q e x a := by
  rwa [← hpq] at h

theorem map (f : α → β) (h : Recovers p e x a) : Recovers p e (f <$> x) (f a) := by
  refine ⟨fun hp => ?_, h.overflow⟩
  obtain ⟨bytes, he, hx⟩ := h.taken hp
  exact ⟨bytes, he, hx.map f⟩

/-- What is written in two parts is recovered by reading in two parts. -/
theorem append {f : α → Read β} (h : Recovers p e x a) (h' : Recovers q e' (f a) b) :
    Recovers (p ∧ q) (e ++ e') (x >>= f) b := by
  constructor
  · rintro ⟨hp, hq⟩
    obtain ⟨bytes, rfl, hx⟩ := h.taken hp
    obtain ⟨bytes', rfl, hf⟩ := h'.taken hq
    exact ⟨bytes ++ bytes', rfl, hx.bind hf⟩
  · intro hpq
    by_cases hp : p
    · obtain ⟨bytes, rfl, -⟩ := h.taken hp
      obtain ⟨bytes', rfl⟩ := h'.overflow fun hq => hpq ⟨hp, hq⟩
      exact ⟨bytes ++ bytes', rfl⟩
    · obtain ⟨bytes, rfl⟩ := h.overflow hp
      exact ⟨bytes, rfl⟩

/-- Nothing more need be written for what is read without taking anything. -/
theorem bind_pure {f : α → Read β} (h : Recovers p e x a) (hf : Takes (f a) [] b) :
    Recovers p e (x >>= f) b := by
  have happend := h.append (of hf)
  rw [Emission.append_of_nil] at happend
  exact happend.congr (and_iff_left trivial).symm

/-- Nor before it. -/
theorem pure_bind {f : α → Read β} (hx : Takes x [] a) (h : Recovers p e (f a) b) :
    Recovers p e (x >>= f) b := by
  obtain ⟨bytes, failure⟩ := e
  exact .congr (.append (.of hx) h) (and_iff_right trivial).symm

variable {γ : Type} {cs : List γ} {P : γ → Prop} {E : γ → Emission ModelError} {A : γ → α}

theorem mapM {X : γ → Read α} (h : ∀ c ∈ cs, Recovers (P c) (E c) (X c) (A c)) :
    Recovers (∀ c ∈ cs, P c) (.concat (cs.map E)) (cs.mapM X) (cs.map A) := by
  induction cs with
  | nil => exact (of (.pure [])).congr (by simp)
  | cons c cs ih =>
    rw [List.mapM_cons, List.map_cons, Emission.concat]
    have htail := ih fun c' hc' => h c' (List.mem_cons_of_mem _ hc')
    exact .congr (.append (h c List.mem_cons_self) (.bind_pure htail (.pure _)))
      List.forall_mem_cons

theorem times (h : ∀ c ∈ cs, Recovers (P c) (E c) x (A c)) :
    Recovers (∀ c ∈ cs, P c) (.concat (cs.map E)) (Step.times cs.length x) (cs.map A) := by
  induction cs with
  | nil => exact (of (.pure [])).congr (by simp)
  | cons c cs ih =>
    rw [List.length_cons, Step.times_succ, List.map_cons, Emission.concat]
    have htail := ih fun c' hc' => h c' (List.mem_cons_of_mem _ hc')
    exact .congr (.append (h c List.mem_cons_self) (.bind_pure htail (.pure _)))
      List.forall_mem_cons

end Recovers

/-! ## Lengths -/

variable {s : Schema} {limits : Limits} {site : Site}

theorem recovers_of_length {n bound : Nat} {bytes : List UInt8} {e : Emission BufferError}
    {x : Read α} (he : e = if n < bound then .of bytes else .fail .overflow)
    (hx : n < bound → Takes x bytes a) : Recovers (n < bound) (ofBuffer e) x a := by
  subst he
  constructor
  · intro hn
    rw [if_pos hn]
    exact ⟨bytes, rfl, hx hn⟩
  · intro hn
    rw [if_neg hn]
    exact ⟨[], rfl⟩

theorem recovers_text {t : String} {x : Read α}
    (hx : t.utf8ByteSize < Word.size 4 →
      Takes x (Varint.encode t.utf8ByteSize ++ Utf8.encode t) a) :
    Recovers (t.utf8ByteSize < Word.size 4) (ofBuffer (text t)) x a := by
  refine recovers_of_length ?_ hx
  rw [text, length]
  split <;> rfl

theorem recovers_count {n : Nat} (hn : n ≤ limits.length) :
    Recovers (n < Word.size 4 / 2) (ofBuffer (count n)) (readCount limits site) n :=
  recovers_of_length rfl fun hlt => takes_count hlt hn site

/-! ## Values -/

theorem recovers_scalar {v : Value} {bytes : List UInt8} {x : Read Value} (hx : Takes x bytes v)
    (hscalar : v.isCompound = false) (hlen : v.length = 0) :
    Recovers v.Storable (.of bytes) x v := by
  refine .congr (.of hx) ((Value.storable_scalar hscalar).trans (iff_true_intro ?_))
  rw [hlen]
  decide

/-- A list is written as its elements are, one after the other, if all are of the type asked for. -/
theorem elements_eq {items : List Value} {one list : Tag} (h : ∀ v ∈ items, Fits s one v) :
    (format s).elements items site one list =
      .concat (items.map fun v => (format s).value v site one) := by
  induction items with
  | nil => rfl
  | cons v items ih =>
    obtain ⟨hv, hitems⟩ := List.forall_mem_cons.1 h
    rw [Format.elements, if_pos hv.suits, ih hitems]
    rfl

/-- The length of a list of texts has all its 32 bits. -/
theorem lengthBound_texts {items : List Value} (h : ∀ v ∈ items, Fits s .str v) :
    (Value.list (items.map (Value.normal s))).lengthBound = Word.size 4 := by
  refine if_neg fun hany => ?_
  obtain ⟨w, hw, hmodel⟩ := List.any_eq_true.1 hany
  obtain ⟨v, hv, rfl⟩ := List.mem_map.1 hw
  obtain ⟨t, rfl⟩ := (h v hv).eq_str
  cases hmodel

/-- That of a list of models has a sign. -/
theorem length_lt_lengthBound_models {m : ModelId} {items : List Value}
    (h : ∀ v ∈ items, Fits s (.model m) v) :
    items.length < (Value.list (items.map (Value.normal s))).lengthBound ↔
      items.length < Word.size 4 / 2 := by
  cases items with
  | nil => exact iff_of_true (Word.size_pos 4) (by decide)
  | cons v items =>
    obtain ⟨r, rfl, rfl⟩ := (h v List.mem_cons_self).eq_model
    rw [Value.lengthBound, if_pos]
    rw [List.map_cons, Value.normal_model, List.any_cons, Value.isModel, Bool.true_or]

section
variable {levels : Nat}

/-- A column of a record: the flag, and the value if there is one. -/
theorem recovers_entry {nested : ModelId → Read Record} {r : Record} {c : Column}
    (h : ∀ v, r.get c.name = some v → Recovers (v.normal s).Storable
      ((format s).value v ⟨s.name r.model, c.name⟩ c.tag)
      (readValue limits nested ⟨s.name r.model, c.name⟩ c.tag) (v.normal s)) :
    Recovers (∀ v, r.get c.name = some v → (v.normal s).Storable)
      (match r.get c.name with
        | none => .of (flag false)
        | some v => .of (flag true) ++ (format s).value v ⟨s.name r.model, c.name⟩ c.tag)
      (readEntry s limits nested r.model c) (c.name, (r.get c.name).map (Value.normal s)) := by
  cases hv : r.get c.name with
  | none =>
    exact .congr (.bind_pure (.of (takes_flag _ false)) (.pure _)) (by simp)
  | some v =>
    exact .congr (.append (.of (takes_flag _ true)) (.bind_pure (h v hv) (.pure _))) (by simp)

/-- What the columns of a record hold can be written just if the normal form can. -/
theorem storable_normal_iff {r : Record} {cs : List Column} (hcs : s.columns r.model = .ok cs) :
    (r.normal s).Storable ↔ ∀ c ∈ cs, ∀ v, r.get c.name = some v → (v.normal s).Storable := by
  rw [Value.storable_record, RecordOf.entries_normal hcs]
  constructor
  · intro h c hc v hv
    refine h c.name _ (List.mem_map.2 ⟨c, hc, ?_⟩)
    rw [hv, Option.map_some]
  · intro h name v hv
    obtain ⟨c, hc, he⟩ := List.mem_map.1 hv
    obtain ⟨w, hw, rfl⟩ := Option.map_eq_some_iff.1 (Prod.mk.inj he).2
    exact h c hc w hw

/-- A record is recovered if the values of its columns are. -/
theorem recovers_record {r : Record} {cs : List Column} (hcs : s.columns r.model = .ok cs)
    (h : ∀ c ∈ cs, ∀ v, r.get c.name = some v → Recovers (v.normal s).Storable
      ((format s).value v ⟨s.name r.model, c.name⟩ c.tag)
      (readValue limits (readLevels s limits levels) ⟨s.name r.model, c.name⟩ c.tag)
      (v.normal s)) :
    Recovers (r.normal s).Storable (record s r) (readLevels s limits (levels + 1) r.model)
      (r.normal s) := by
  rw [record_eq s hcs]
  have hnormal : r.normal s =
      ⟨r.model, cs.map fun c => (c.name, (r.get c.name).map (Value.normal s))⟩ := by
    rw [← RecordOf.entries_normal hcs]
    rfl
  have hread := Recovers.mapM fun c hc => recovers_entry (h c hc)
  refine .congr (.append (.of (.of_except hcs)) (.bind_pure hread ?_)) ?_
  · rw [hnormal]
    exact .pure _
  · rw [true_and, storable_normal_iff hcs]

/-- What bounds a list bounds its length and its elements, so they are read back one by one. -/
theorem recovers_elements {x : Read Value} {E : Value → Emission ModelError} {items : List Value}
    (h : ∀ v ∈ items, (v.normal s).depth ≤ levels → (v.normal s).extent ≤ limits.length →
      Recovers (v.normal s).Storable (E v) x (v.normal s))
    (hdepth : (Value.list (items.map (Value.normal s))).depth ≤ levels)
    (hextent : (Value.list (items.map (Value.normal s))).extent ≤ limits.length) :
    items.length ≤ limits.length ∧
      Recovers (∀ v ∈ items, (v.normal s).Storable) (.concat (items.map E))
        (Step.times items.length x) (items.map (Value.normal s)) := by
  have hlength := Nat.le_trans (Value.length_le_extent _) hextent
  rw [Value.length, List.length_map] at hlength
  refine ⟨hlength, .times fun v hv => ?_⟩
  have hmem : v.normal s ∈ items.map (Value.normal s) := List.mem_map_of_mem hv
  apply h v hv
  · exact Nat.le_trans (Value.depth_le_of_mem hmem) hdepth
  · exact Nat.le_trans (Value.extent_le_of_mem hmem) hextent

/-- The invariant of the recursion through nested records: while the limits are kept, a value that
can be encoded is read back in its normal form. -/
theorem recovers_value {v : Value} {tag : Tag} (h : v.Encodable s tag)
    (hdepth : (v.normal s).depth ≤ levels) (hextent : (v.normal s).extent ≤ limits.length) :
    Recovers (v.normal s).Storable ((format s).value v site tag)
      (readValue limits (readLevels s limits levels) site tag) (v.normal s) := by
  obtain ⟨hfits, hsupported⟩ := h
  induction hfits generalizing site levels with
  | bool b => exact recovers_scalar ((takes_flag site b).map Value.bool) rfl rfl
  | str t =>
    have hlen : t.utf8ByteSize ≤ limits.length :=
      Nat.le_trans (Value.length_le_extent (.str t)) hextent
    have hread := recovers_text fun hlt => takes_text hlt hlen site
    exact .congr (hread.map Value.str) (Value.storable_scalar rfl)
  | int n => exact recovers_scalar ((takes_int32 n.toUInt32).map Value.int) rfl rfl
  | long n => exact recovers_scalar ((takes_int64 n).map Value.long) rfl rfl
  | duration d =>
    exact recovers_scalar ((takes_duration d site).map Value.duration) rfl rfl
  | calendar u =>
    exact recovers_scalar ((takes_calendar u site).map Value.calendar) rfl rfl
  | zone z =>
    have hlen : z.text.utf8ByteSize ≤ limits.length :=
      Nat.le_trans (Value.length_le_extent (.zone z)) hextent
    have hread := recovers_text fun hlt => takes_zone hlt hlen site
    exact .congr (hread.map Value.zone) (Value.storable_scalar rfl)
  | @strList items hitems ih =>
    rw [Value.normal_list] at hdepth hextent ⊢
    obtain ⟨hlen, hread⟩ := recovers_elements (fun v hv hdepth hextent =>
      ih v hv hdepth hextent fun r hr => hsupported r (hr.text hv)) hdepth hextent
    have hcount : Recovers (items.length < Word.size 4) (ofBuffer (length items.length))
        (varint Varint.short site) items.length :=
      recovers_of_length rfl fun hlt => takes_short hlt site
    rw [value_texts, elements_eq hitems]
    have hcheck := takes_checkLength hlen site
    refine .congr (.append hcount (.pure_bind hcheck (hread.map Value.list))) ?_
    rw [Value.storable_list, lengthBound_texts hitems, List.length_map, List.forall_mem_map]
  | @modelList m items hitems ih =>
    rw [Value.normal_list] at hdepth hextent ⊢
    obtain ⟨hlen, hread⟩ := recovers_elements (fun v hv hdepth hextent =>
      ih v hv hdepth hextent fun r hr => hsupported r (hr.item hv)) hdepth hextent
    rw [value_models, elements_eq hitems]
    refine .congr (.append (recovers_count hlen) (hread.map Value.list)) ?_
    rw [Value.storable_list, List.length_map, length_lt_lengthBound_models hitems,
      List.forall_mem_map]
  | @model r hcols ih =>
    obtain ⟨cs, hcs⟩ := Schema.supported_iff.1 (hsupported r .self)
    rw [Value.normal_model] at hdepth hextent ⊢
    rw [Value.depth_model] at hdepth
    obtain ⟨levels, rfl⟩ : ∃ k, levels = k + 1 := ⟨levels - 1, by omega⟩
    rw [Format.value_model]
    refine (recovers_record hcs fun c hc v hv => ?_).map Value.model
    have hentry := RecordOf.mem_entries_normal hcs hc hv
    exact ih cs hcs c hc v hv
      (Nat.le_trans (Value.depth_le_of_entry hentry) (Nat.le_of_succ_le_succ hdepth))
      (Nat.le_trans (Value.extent_le_of_entry hentry) hextent)
      fun k hk => hsupported k (hk.of_column hcs hc hv)

end

/-! ## Streams -/

/-- A record that can be encoded and keeps the limits is read back in its normal form. -/
theorem recovers_encodable {r : Record} (h : r.Encodable s)
    (hdepth : (r.normal s).depth ≤ limits.depth) (hextent : (r.normal s).extent ≤ limits.length) :
    Recovers (r.normal s).Storable (record s r) (readRecord s limits r.model) (r.normal s) := by
  obtain ⟨cs, hcs, hcolumns⟩ := Value.encodable_model.1 h
  refine recovers_record hcs fun c hc v hv => ?_
  have hentry := RecordOf.mem_entries_normal hcs hc hv
  exact recovers_value (hcolumns c hc v hv)
    (Nat.le_trans (Value.depth_le_of_entry hentry) hdepth)
    (Nat.le_trans (Value.extent_le_of_entry hentry) hextent)

/-- A well-typed record that keeps the limits is read back in its normal form. -/
theorem recovers_wellTyped {r : Record} (h : r.WellTyped s)
    (hdepth : (r.normal s).depth ≤ limits.depth) (hextent : (r.normal s).extent ≤ limits.length) :
    Recovers (r.normal s).Storable (record s r) (readRecord s limits r.model) (r.normal s) :=
  recovers_encodable h.encodable hdepth hextent

/-- A well-typed record has a binary form just if every length has room in its field. -/
theorem exists_bytes_iff {r : Record} (h : r.WellTyped s) :
    (∃ bs, bytes s r = .ok bs) ↔ (r.normal s).Storable := by
  let least : Limits := ⟨(r.normal s).depth, (r.normal s).extent⟩
  have hread : Recovers (r.normal s).Storable (record s r) (readRecord s least r.model)
      (r.normal s) := recovers_wellTyped h (Nat.le_refl _) (Nat.le_refl _)
  constructor
  · rintro ⟨bs, hbs⟩
    by_contra hstore
    obtain ⟨bs', he⟩ := hread.overflow hstore
    cases he.symm.trans ((bytes_eq_ok s).1 hbs)
  · intro hstore
    obtain ⟨bs, he, -⟩ := hread.taken hstore
    exact ⟨bs, (bytes_eq_ok s).2 he⟩

/-- What has been written for a record that can be encoded is read back in its normal form, whatever
follows. -/
theorem takes_encodable {r : Record} {bs : List UInt8} (h : r.Encodable s)
    (hdepth : (r.normal s).depth ≤ limits.depth) (hextent : (r.normal s).extent ≤ limits.length)
    (hbs : bytes s r = .ok bs) : Takes (readRecord s limits r.model) bs (r.normal s) := by
  have hread := recovers_encodable h hdepth hextent
  have hrecord := (bytes_eq_ok s).1 hbs
  by_cases hstore : (r.normal s).Storable
  · obtain ⟨bs', he, htakes⟩ := hread.taken hstore
    cases he.symm.trans hrecord
    exact htakes
  · obtain ⟨bs', he⟩ := hread.overflow hstore
    cases he.symm.trans hrecord

/-- The bytes of a well-typed record are read back in its normal form, whatever follows. -/
theorem takes_bytes {r : Record} {bs : List UInt8} (h : r.WellTyped s)
    (hdepth : (r.normal s).depth ≤ limits.depth) (hextent : (r.normal s).extent ≤ limits.length)
    (hbs : bytes s r = .ok bs) : Takes (readRecord s limits r.model) bs (r.normal s) :=
  takes_encodable h.encodable hdepth hextent hbs

/-- On their own they are read to the last byte. -/
theorem readRecord_bytes {r : Record} {bs : List UInt8} (h : r.WellTyped s)
    (hdepth : (r.normal s).depth ≤ limits.depth) (hextent : (r.normal s).extent ≤ limits.length)
    (hbs : bytes s r = .ok bs) :
    ∃ c, readRecord s limits r.model (.ofBytes bs) = .ok (r.normal s) c ∧ c.left = [] := by
  have hleft : (Cursor.ofBytes bs).left = bs ++ [] := by
    rw [Cursor.left_ofBytes, List.append_nil]
  exact ⟨_, takes_bytes h hdepth hextent hbs hleft, Cursor.left_advance_append hleft⟩

/-- Writing records one after the other appends what they send out to what is pending, up to the
first failure. -/
theorem forM_write (rs : List Record) {q : Queue} (hq : q.Sound) :
    ∃ q', q'.Sound ∧ q'.pending = q.pending ++ (Emission.concat (rs.map (record s))).bytes ∧
      rs.forM (write s) q = match (Emission.concat (rs.map (record s))).failure with
        | none => .ok () q'
        | some e => .error e q' := by
  induction rs generalizing q with
  | nil => exact ⟨q, hq, (List.append_nil _).symm, rfl⟩
  | cons r rs ih =>
    have hcons : (r :: rs).forM (write s) q = (write s r >>= fun _ => rs.forM (write s)) q := rfl
    rw [List.map_cons, Emission.concat, hcons, Step.bind_apply, write, Emission.into]
    obtain ⟨bytes, _ | e⟩ := record s r
    · obtain ⟨q', hq', hpending, hrun⟩ := ih (Queue.sound_put hq bytes)
      refine ⟨q', hq', ?_, hrun⟩
      rw [hpending, Queue.pending_put hq, List.append_assoc]
      rfl
    · exact ⟨q.put bytes, Queue.sound_put hq bytes, Queue.pending_put hq bytes, rfl⟩

/-- Well-typed records that keep the limits, written one after the other, are read back in their
normal form one after the other, wherever the bytes stand and whatever follows them. They are
written unless a length has no room in its field, which limits below `2 ^ 31` rule out. -/
theorem read_stream {rs : List Record} (htyped : ∀ r ∈ rs, r.WellTyped s)
    (hdepth : ∀ r ∈ rs, (r.normal s).depth ≤ limits.depth)
    (hextent : ∀ r ∈ rs, (r.normal s).extent ≤ limits.length) {q : Queue} (hq : q.Sound) :
    (limits.length < Word.size 4 / 2 ∨ (∀ r ∈ rs, (r.normal s).Storable) → ∃ bytes q',
      rs.forM (write s) q = .ok () q' ∧ q'.pending = q.pending ++ bytes ∧
      ∀ (t : List UInt8) (c : Cursor), c.left = bytes ++ t →
        (rs.map RecordOf.model).mapM (readRecord s limits) c =
            .ok (rs.map (RecordOf.normal s)) (c.advance bytes.length) ∧
          (c.advance bytes.length).left = t) ∧
    ((∃ r ∈ rs, ¬ (r.normal s).Storable) →
      ∃ q', rs.forM (write s) q = .error (.buffer .overflow) q') := by
  have hread := Recovers.mapM fun r hr =>
    recovers_wellTyped (htyped r hr) (hdepth r hr) (hextent r hr)
  obtain ⟨q', -, hpending, hrun⟩ := forM_write (s := s) rs hq
  constructor
  · intro h
    have hstore : ∀ r ∈ rs, (r.normal s).Storable := by
      rcases h with hlimit | hstore
      · exact fun r hr =>
          Value.storable_of_extent_lt (Nat.lt_of_le_of_lt (hextent r hr) hlimit)
      · exact hstore
    obtain ⟨bytes, he, htake⟩ := hread.taken hstore
    rw [he] at hpending hrun
    refine ⟨bytes, q', hrun, hpending, fun t c hc => ⟨?_, Cursor.left_advance_append hc⟩⟩
    rw [List.mapM_map]
    exact htake hc
  · intro hstore
    obtain ⟨bytes, he⟩ := hread.overflow (by simpa using hstore)
    rw [he] at hrun
    exact ⟨q', hrun⟩

theorem read_stream_family :
    RecordOf.family.WellTyped Schema.nodes ∧
    (RecordOf.family.normal Schema.nodes).depth ≤ 1 ∧
    (RecordOf.family.normal Schema.nodes).extent ≤ 2 ∧
    ∃ bytes q', [RecordOf.family, RecordOf.family].forM (write Schema.nodes) .empty = .ok () q' ∧
      q'.pending = bytes ∧ ∀ (t : List UInt8) (c : Cursor), c.left = bytes ++ t →
        [⟨0⟩, ⟨0⟩].mapM (readRecord Schema.nodes ⟨1, 2⟩) c =
            .ok [RecordOf.family.normal Schema.nodes, RecordOf.family.normal Schema.nodes]
              (c.advance bytes.length) ∧
          (c.advance bytes.length).left = t := by
  have hdepth : (RecordOf.family.normal Schema.nodes).depth ≤ (⟨1, 2⟩ : Limits).depth := by decide
  have hextent : (RecordOf.family.normal Schema.nodes).extent ≤ (⟨1, 2⟩ : Limits).length := by
    decide
  have hboth {P : Record → Prop} (h : P RecordOf.family) :
      ∀ r ∈ [RecordOf.family, RecordOf.family], P r := by simpa using h
  exact ⟨wellTyped_family, hdepth, hextent,
    (read_stream (hboth wellTyped_family) (hboth hdepth) (hboth hextent)
      (Queue.sound_withRoom 1024)).1 (.inl (by decide))⟩

/-- Limits that allow a length beyond the 32 bits of its field do not make room for it: the label is
refused. -/
theorem long_label_overflows :
    let r := RecordOf.leaf (String.ofList (List.replicate (Word.size 4) 'a'))
    let limits : Limits := ⟨64, Word.size 4⟩
    r.WellTyped Schema.nodes ∧ (r.normal Schema.nodes).depth ≤ limits.depth ∧
    (r.normal Schema.nodes).extent ≤ limits.length ∧
    ∃ q', [r].forM (write Schema.nodes) .empty = .error (.buffer .overflow) q' := by
  have hsize := RecordOf.utf8ByteSize_replicate (Word.size 4)
  generalize String.ofList (List.replicate (Word.size 4) 'a') = label at hsize
  have htyped := RecordOf.wellTyped_leaf label
  obtain ⟨hdepth, hextent⟩ := RecordOf.within_leaf label
  rw [Value.depth_model] at hdepth
  rw [hsize] at hextent
  have hdepth : ((RecordOf.leaf label).normal Schema.nodes).depth ≤ 64 := by omega
  refine ⟨htyped, hdepth, hextent, ?_⟩
  have hstore : ¬ ((RecordOf.leaf label).normal Schema.nodes).Storable := by
    rw [RecordOf.storable_leaf, hsize]
    decide
  have hread : Recovers _ _ (readRecord Schema.nodes ⟨64, Word.size 4⟩ _) _ :=
    recovers_wellTyped htyped hdepth hextent
  obtain ⟨bytes, he⟩ := hread.overflow hstore
  obtain ⟨q', -, -, hrun⟩ :=
    forM_write (s := Schema.nodes) [RecordOf.leaf label] (Queue.sound_withRoom 1024)
  rw [List.map_singleton, Emission.concat, he] at hrun
  exact ⟨q', hrun⟩

end Wireform.Binary
