import Wireform.Proofs.Document.Reading
import Wireform.Proofs.Document.Writing

/-!
# Documents written and read back

The tree that is written for a well-typed record is read as the normal form of the record
(`ofTree_tree`), and it suits the readers of documents in both orders (`suits_tree`). Main
statement: what is written is a complete text that is read back in its normal form, up to the end of
the text (`read_written`).
-/

namespace Wireform.Document

open Json (Pull Tree)
open Value (Fits)

variable {s : Schema} {site : Site} {m root : ModelId} {v : Value} {tag : Tag} {r : Record}
  {cs : List Column} {depth levels : Nat}

/-! ## Reading the tree -/

/-- A value is never written as null, which would stand for none. -/
theorem tree_ne_null (h : Fits s tag v) : (v.normal s).tree ≠ .null := by
  intro hnull
  cases h with
  | strList | modelList =>
    rw [Value.normal_list, Value.tree_list] at hnull
    cases hnull
  | model =>
    rw [Value.normal_model, Value.tree_model] at hnull
    cases hnull
  | _ => cases hnull

theorem integer?_text (n : Int64) : Tree.integer? (Decimal.text n.toInt) = some n := by
  rw [Tree.integer?, if_neg (Json.Grammar.text_ne_negZero _), Decimal.text, String.toList_ofList,
    Decimal.int?_ofInt]
  exact Decimal.int64?_toInt n

theorem treeDuration_tree (d : Duration) :
    treeDuration site [("magnitude", .number (Decimal.text d.magnitude.toInt)),
      ("unit", .string d.unit.name)] = .ok d :=
  treeDuration_eq_ok.2 ⟨integer?_text d.magnitude, DurationUnit.ofName?_name d.unit⟩

theorem treeContent_of_ne_null {nested : ObjectReading} {c : Column} {t : Tree} (h : t ≠ .null) :
    treeContent s nested m c t = some <$> treeValue s nested ⟨s.name m, c.name⟩ c.tag t := by
  cases t with
  | null => exact (h rfl).elim
  | _ => rfl

theorem mapM_tree {items : List Value} {read : Tree → Except ModelError Value}
    (h : ∀ v ∈ items, read (v.normal s).tree = .ok (v.normal s)) :
    ((items.map (Value.normal s)).map Value.tree).mapM read =
      .ok (items.map (Value.normal s)) := by
  rw [List.map_map, List.mapM_map]
  exact mapM_ok h

/-- An element that is a model is read like any other. -/
theorem treeModel_of_treeValue {nested : ObjectReading} {t : Tree}
    (h : treeValue s nested site (.model m) t = .ok v) : treeModel s nested site m t = .ok v := by
  cases t with
  | object members => exact h
  | _ => cases h

theorem map_fst_members (hcs : s.columns r.model = .ok cs) :
    (r.normal s).members.map Prod.fst = cs.map Column.name := by
  rw [RecordOf.members_normal hcs, List.map_map]
  rfl

/-- The members of a record are converted into its normal form. -/
theorem ofMembers_members (hcs : s.columns r.model = .ok cs) (hnames : (cs.map Column.name).Nodup)
    (h : ∀ c ∈ cs, ∀ v, r.get c.name = some v → Fits s c.tag v ∧
      treeValue s (ofMembers s depth levels) ⟨s.name r.model, c.name⟩ c.tag (v.normal s).tree =
        .ok (v.normal s)) :
    ofMembers s depth (levels + 1) r.model (r.normal s).members = .ok (r.normal s) := by
  have hentry : ∀ c ∈ cs, treeEntry s (ofMembers s depth levels) r.model (r.normal s).members c =
      .ok (c.name, (r.get c.name).map (Value.normal s)) := by
    intro c hc
    have hmem : (c.name, ((r.get c.name).map (Value.normal s)).elim .null Value.tree) ∈
        (r.normal s).members := by
      rw [RecordOf.members_normal hcs]
      exact List.mem_map_of_mem hc
    rw [treeEntry_eq, columnEntry, member?_of_mem (map_fst_members hcs ▸ hnames) hmem]
    cases hv : r.get c.name with
    | none => rfl
    | some v =>
      obtain ⟨hfits, hvalue⟩ := h c hc v hv
      dsimp only [Option.map_some, Option.elim_some]
      rw [treeContent_of_ne_null (tree_ne_null hfits), hvalue]
      rfl
  rw [ofMembers, hcs]
  change (cs.mapM _ >>= fun entries => Except.ok (RecordOf.mk r.model entries)) = _
  rw [mapM_ok hentry, ← RecordOf.entries_normal hcs]
  rfl

/-- The invariant of the recursion through nested records: while they have columns of distinct
names, and the depth is kept, the tree of a normal form is read as that normal form. -/
theorem treeValue_tree (hvalid : ∀ n, s.Reaches root n → ∃ cs, s.columns n = .ok cs)
    (hnames : ∀ n, s.Reaches root n → ((s.catalog n).map FieldDecl.name).Nodup) (h : Fits s tag v)
    (hreach : ∀ n, tag.nested? = some n → s.Reaches root n)
    (hdepth : (v.normal s).depth ≤ levels) :
    treeValue s (ofMembers s depth levels) site tag (v.normal s).tree = .ok (v.normal s) := by
  induction h generalizing site levels with
  | bool b => rfl
  | str t => rfl
  | int n =>
    have hvalue : Tree.integer? (Decimal.text n.toInt) = some n.toInt64 := by
      rw [← Int32.toInt_toInt64]
      exact integer?_text n.toInt64
    change treeValue s _ site .int (.number (Decimal.text n.toInt)) = .ok (.int n)
    rw [treeValue, hvalue]
    dsimp only
    rw [treeInt, Int32.toInt_toInt64, Decimal.int32?_toInt]
    rfl
  | long n =>
    change treeValue s _ site .long (.number (Decimal.text n.toInt)) = .ok (.long n)
    rw [treeValue, integer?_text]
  | duration d =>
    change Value.duration <$> treeDuration site _ = _
    rw [treeDuration_tree]
    rfl
  | calendar u =>
    change Value.calendar <$> required site _ (CalendarUnit.ofName? u.name) = _
    rw [CalendarUnit.ofName?_name]
    rfl
  | zone z =>
    change Value.zone <$> required site _ (ZoneId.ofText? z.text) = _
    rw [ZoneId.ofText?_text]
    rfl
  | @strList items hitems ih =>
    rw [Value.normal_list, Value.tree_list]
    change Value.list <$> ((items.map (Value.normal s)).map Value.tree).mapM (treeText s site) = _
    have hitem : ∀ v ∈ items, treeText s site (v.normal s).tree = .ok (v.normal s) := by
      intro v hv
      obtain ⟨t, rfl⟩ := (hitems v hv).eq_str
      rfl
    rw [mapM_tree hitem]
    rfl
  | @modelList n items hitems ih =>
    rw [Value.normal_list] at hdepth ⊢
    rw [Value.tree_list]
    change Value.list <$> ((items.map (Value.normal s)).map Value.tree).mapM
      (treeModel s (ofMembers s depth levels) site n) = _
    have hitem : ∀ v ∈ items, treeModel s (ofMembers s depth levels) site n (v.normal s).tree =
        .ok (v.normal s) := by
      intro v hv
      apply treeModel_of_treeValue
      apply ih v hv hreach
      exact Nat.le_trans (Value.depth_le_of_mem (List.mem_map_of_mem hv)) hdepth
    rw [mapM_tree hitem]
    rfl
  | @model r hcols ih =>
    obtain ⟨cs, hcs⟩ := hvalid _ (hreach _ rfl)
    rw [Value.normal_model, Value.depth_model] at hdepth
    obtain ⟨levels, rfl⟩ : ∃ k, levels = k + 1 := ⟨levels - 1, by omega⟩
    rw [Value.normal_model, Value.tree_model]
    change Value.model <$> ofMembers s depth (levels + 1) r.model (r.normal s).members = _
    rw [ofMembers_members hcs (Schema.map_name_columns hcs ▸ hnames _ (hreach _ rfl))]
    · rfl
    · intro c hc v hv
      have hentry := RecordOf.mem_entries_normal hcs hc hv
      refine ⟨hcols cs hcs c hc v hv, ih cs hcs c hc v hv ?_ ?_⟩
      · intro k hk
        exact (hreach _ rfl).column hcs hc hk
      · exact Nat.le_trans (Value.depth_le_of_entry hentry) (Nat.le_of_succ_le_succ hdepth)

/-- The tree of a well-typed record is read as the normal form of the record. -/
theorem ofTree_tree (h : r.WellTyped s) (hdepth : (r.normal s).depth ≤ depth) :
    ofTree s depth r.model (r.normal s).tree = .ok (r.normal s) := by
  have hreach (n : ModelId) (hn : (Tag.model r.model).nested? = some n) : s.Reaches r.model n := by
    cases hn
    exact .refl
  have hlevels : ((Value.model r).normal s).depth ≤ depth + 1 := by
    rw [Value.normal_model, Value.depth_model]
    exact Nat.succ_le_succ hdepth
  have hvalue : treeValue s (ofMembers s depth (depth + 1)) ⟨"", ""⟩ (.model r.model)
      ((Value.model r).normal s).tree = .ok ((Value.model r).normal s) :=
    treeValue_tree (fun n hn => Schema.columns_of_validate h.valid hn) h.distinct h.fits hreach
      hlevels
  rw [Value.normal_model, Value.tree_model] at hvalue
  change Value.model <$> ofMembers s depth (depth + 1) r.model (r.normal s).members = _ at hvalue
  rw [RecordOf.tree, ofTree]
  cases hread : ofMembers s depth (depth + 1) r.model (r.normal s).members with
  | ok r' =>
    rw [hread] at hvalue
    cases hvalue
    rfl
  | error e =>
    rw [hread] at hvalue
    cases hvalue

/-! ## Where the values stand -/

/-- Everything that is read from the tree is `null` or the tree of a normal form. -/
theorem eq_tree_of_stands {u : Tree} (h : r.WellTyped s)
    (hstands : Stands s r.model (r.normal s).tree tag u) :
    u = .null ∨ ∃ v, Fits s tag v ∧ u = (v.normal s).tree := by
  induction hstands with
  | root => exact .inr ⟨.model r, h.fits, by rw [Value.normal_model, Value.tree_model]⟩
  | @column n members cs c u hstands hcs hc hmem ih =>
    rcases ih with hnull | ⟨v, hfits, htree⟩
    · cases hnull
    obtain ⟨r', rfl, rfl⟩ := hfits.eq_model
    rw [Value.normal_model, Value.tree_model, RecordOf.tree] at htree
    obtain rfl := Tree.object.inj htree
    rw [RecordOf.members_normal hcs] at hmem
    obtain ⟨c', hc', he⟩ := List.mem_map.1 hmem
    obtain ⟨hname, hu⟩ := Prod.mk.inj he
    rw [hname] at hu
    cases hv : r'.get c.name with
    | none =>
      rw [hv] at hu
      exact .inl hu.symm
    | some v =>
      rw [hv] at hu
      exact .inr ⟨v, hfits.of_model hcs hc hv, hu.symm⟩
  | @element n items u hstands hmem ih =>
    rcases ih with hnull | ⟨v, hfits, htree⟩
    · cases hnull
    cases hfits with
    | modelList hitems =>
      rw [Value.normal_list, Value.tree_list] at htree
      obtain rfl := Tree.array.inj htree
      obtain ⟨w, hw, rfl⟩ := List.mem_map.1 hmem
      obtain ⟨v, hv, rfl⟩ := List.mem_map.1 hw
      exact .inr ⟨v, hitems v hv, rfl⟩

/-- What has been written suits the readers in both orders. -/
theorem suits_tree (h : r.WellTyped s) (order : Order) :
    Suits s order r.model (r.normal s).tree := by
  have hnumber (n : Int) : Tree.number "-0" ≠ .number (Decimal.text n) := by
    intro hzero
    exact Json.Grammar.text_ne_negZero n (Tree.number.inj hzero).symm
  constructor
  case members =>
    intro n members cs hstands hcs
    have hnames : (cs.map Column.name).Nodup :=
      Schema.map_name_columns hcs ▸ h.distinct _ (hstands.reaches rfl)
    rcases eq_tree_of_stands h hstands with hnull | ⟨v, hfits, htree⟩
    · cases hnull
    obtain ⟨r', rfl, rfl⟩ := hfits.eq_model
    rw [Value.normal_model, Value.tree_model, RecordOf.tree] at htree
    obtain rfl := Tree.object.inj htree
    have hsame := map_fst_members hcs
    exact ⟨hsame ▸ hnames, hnames, fun _ => hsame.symm⟩
  case int =>
    intro hstands
    rcases eq_tree_of_stands h hstands with hnull | ⟨v, hfits, htree⟩
    · cases hnull
    cases hfits
    exact hnumber _ htree
  case long =>
    intro hstands
    rcases eq_tree_of_stands h hstands with hnull | ⟨v, hfits, htree⟩
    · cases hnull
    cases hfits
    exact hnumber _ htree
  case duration =>
    intro members hstands
    rcases eq_tree_of_stands h hstands with hnull | ⟨v, hfits, htree⟩
    · cases hnull
    cases hfits
    obtain rfl := Tree.object.inj htree
    have hkeys : ["magnitude", "unit"].Nodup := by decide
    refine ⟨hkeys, fun name u hu => ?_⟩
    simp only [List.mem_cons, List.not_mem_nil, or_false, Prod.mk.injEq] at hu
    rcases hu with ⟨rfl, rfl⟩ | ⟨rfl, -⟩
    · exact .inl ⟨rfl, (hnumber _).symm⟩
    · exact .inr rfl

/-! ## Reading what was written -/

/-- What is written for a well-typed record is a complete text, and in both orders it is read back
in its normal form and then to the end. -/
theorem read_written (h : r.WellTyped s) (hdepth : (r.normal s).depth ≤ depth) :
    ∃ d text, write s r .empty = .ok () d ∧ d.isComplete = true ∧ d.text = .ok text ∧
      ∀ order, ∃ p q, readRecord s ⟨order, depth⟩ r.model (.ofText text) = .ok (r.normal s) p ∧
        Pull.next p = .ok none q := by
  obtain ⟨d, hdraft, hcomplete, htext⟩ := Json.Draft.text_scalar (r.normal s).tree.compact
  refine ⟨d, _, ?_, hcomplete, htext, fun order => ?_⟩
  · rw [write_eq h, draft, Step.adaptExcept_apply, hdraft]
  have hspells : Json.Grammar.Text .standard (r.normal s).tree
      (String.ofList (r.normal s).tree.compact).toList := by
    rw [String.toList_ofList]
    apply Json.Grammar.text_compact
    rw [← Value.tree_model]
    exact Value.spelled_tree _
  obtain ⟨p, q, hruns, hend⟩ := Pull.runs_text hspells
  have hagrees := agrees_record ⟨order, depth⟩ (suits_tree h order) rfl hruns
  exact ⟨p, q, hagrees.ok _ (ofTree_tree h hdepth), hend⟩

theorem read_written_family :
    RecordOf.family.WellTyped Schema.nodes ∧ (RecordOf.family.normal Schema.nodes).depth ≤ 1 ∧
    ∃ d text, write Schema.nodes RecordOf.family .empty = .ok () d ∧ d.isComplete = true ∧
      d.text = .ok text ∧ ∀ order, ∃ p q,
        readRecord Schema.nodes ⟨order, 1⟩ ⟨0⟩ (.ofText text) =
          .ok (RecordOf.family.normal Schema.nodes) p ∧ Pull.next p = .ok none q := by
  have hdepth : (RecordOf.family.normal Schema.nodes).depth ≤ 1 := by decide
  exact ⟨wellTyped_family, hdepth, read_written wellTyped_family hdepth⟩

end Wireform.Document
