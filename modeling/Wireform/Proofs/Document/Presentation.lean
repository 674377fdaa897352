import Wireform.Proofs.Document.Reading

/-!
# Presentation

The same document can be written in many ways: with other blanks and escapes, with the members of
an object in another order, with members that no model knows, with `null` or nothing where a field
is absent. `Variant` says that two trees differ in no more than that. Main statement: where no name
is repeated, such documents are read alike by names, from their texts and from their trees
(`byName_iff_of_variant`).
-/

namespace Wireform.Document

open Json (Pull Tree)
open Json.Grammar (Text)

/-- Some member of that name is not `null`. -/
def Holds (members : List (String × Tree)) (name : String) : Prop :=
  ∃ t, (name, t) ∈ members ∧ t ≠ .null

/-- What the elements of an array are read under, if they are read as records. -/
def elementTag? : Option Tag → Option Tag
  | some (.modelList n) => some (.model n)
  | _ => none

/-- Where the trees are read under the tag, they differ only in how they present what is read. Under
no tag they differ only in the order of members; blanks and escapes do not occur in trees. -/
inductive Variant (s : Schema) : Option Tag → Tree → Tree → Prop
  | same (o : Option Tag) (t : Tree) : Variant s o t t
  | array {o : Option Tag} {items items' : List Tree} : items.length = items'.length →
    (∀ t u, (t, u) ∈ items.zip items' → Variant s (elementTag? o) t u) →
    Variant s o (.array items) (.array items')
  /-- The members stand in another order. -/
  | object {o : Option Tag} {members members' : List (String × Tree)} :
    (∀ n, o ≠ some (.model n)) → (members.map Prod.fst).Perm (members'.map Prod.fst) →
    (∀ name t u, (name, t) ∈ members → (name, u) ∈ members' → Variant s none t u) →
    Variant s o (.object members) (.object members')
  /-- An object that is read as a record: besides their order, nothing is said of members outside
  of the catalog, and `null` is no more than a missing member. -/
  | record {n : ModelId} {members members' : List (String × Tree)} :
    (∀ d ∈ s.catalog n, Holds members d.name ↔ Holds members' d.name) →
    (∀ cs, s.columns n = .ok cs → ∀ c ∈ cs, ∀ t u, (c.name, t) ∈ members →
      (c.name, u) ∈ members' → t ≠ .null → u ≠ .null → Variant s (some c.tag) t u) →
    Variant s (some (.model n)) (.object members) (.object members')

/-- No object in the tree has two members of one name. -/
def KeysDistinct (t : Tree) : Prop :=
  ∀ members, (Tree.object members).Within t → (members.map Prod.fst).Nodup

variable {s : Schema} {root m : ModelId} {t u : Tree} {members members' : List (String × Tree)}
  {items : List Tree} {name : String} {content : Content} {c : Column}

theorem KeysDistinct.self (h : KeysDistinct (.object members)) : (members.map Prod.fst).Nodup :=
  h members .self

theorem KeysDistinct.member (h : KeysDistinct (.object members)) (hmem : (name, t) ∈ members) :
    KeysDistinct t := fun _ hw => h _ (hw.member hmem)

theorem KeysDistinct.item (h : KeysDistinct (.array items)) (hmem : t ∈ items) :
    KeysDistinct t := fun _ hw => h _ (hw.item hmem)

/-- Objects that have the same values for the names of the catalog are alike. So the members of an
object may stand in any order, others may come and go, and so may `null`. -/
theorem Variant.of_mem_iff {n : ModelId} (hkeys : (members.map Prod.fst).Nodup)
    (h : ∀ d ∈ s.catalog n, ∀ t, t ≠ .null → ((d.name, t) ∈ members ↔ (d.name, t) ∈ members')) :
    Variant s (some (.model n)) (.object members) (.object members') := by
  refine .record (fun d hd => exists_congr fun t => ?_) fun cs hcs c hc t u ht hu _ hne => ?_
  · exact and_congr_left fun hne => h d hd t hne
  · obtain ⟨d, hd, hname, -⟩ := Schema.exists_decl_of_mem_columns hcs hc
    rw [hname] at ht hu
    cases (member?_of_mem hkeys ht).symm.trans (member?_of_mem hkeys ((h d hd u hne).2 hu))
    exact .same _ t

/-! ## Members that are looked up -/

theorem columnEntry_of_not_holds (hnull : content c .null = .ok none)
    (h : ¬ Holds members c.name) : columnEntry content members c = .ok (c.name, none) := by
  rw [columnEntry]
  cases hmember : Tree.member? members c.name with
  | none => rfl
  | some t =>
    have ht : t = .null := by
      by_contra hne
      exact h ⟨t, mem_of_member? hmember, hne⟩
    dsimp only
    rw [ht, hnull]
    rfl

/-- An entry depends only on whether there is a value, and on what is read from it. -/
theorem columnEntry_iff (hkeys : (members.map Prod.fst).Nodup)
    (hkeys' : (members'.map Prod.fst).Nodup) (hnull : content c .null = .ok none)
    (hholds : Holds members c.name ↔ Holds members' c.name)
    (hcontent : ∀ t u, (c.name, t) ∈ members → (c.name, u) ∈ members' → t ≠ .null → u ≠ .null →
      ∀ o, content c t = .ok o ↔ content c u = .ok o) (entry : String × Option Value) :
    columnEntry content members c = .ok entry ↔ columnEntry content members' c = .ok entry := by
  by_cases h : Holds members c.name
  · obtain ⟨t, ht, hne⟩ := h
    obtain ⟨u, hu, hne'⟩ := hholds.1 ⟨t, ht, hne⟩
    rw [columnEntry, columnEntry, member?_of_mem hkeys ht, member?_of_mem hkeys' hu]
    exact map_ok_congr (hcontent t u ht hu hne hne') _ entry
  · rw [columnEntry_of_not_holds hnull h, columnEntry_of_not_holds hnull (mt hholds.2 h)]

/-- What is made of scalars alone is made of the member of some name, whatever the order. -/
theorem bind_member?_eq {α : Type} {f : Tree → Option α} (harray : ∀ items, f (.array items) = none)
    (hobject : ∀ members, f (.object members) = none) (hkeys : (members.map Prod.fst).Nodup)
    (hkeys' : (members'.map Prod.fst).Nodup)
    (hperm : (members.map Prod.fst).Perm (members'.map Prod.fst))
    (h : ∀ name t u, (name, t) ∈ members → (name, u) ∈ members' → Variant s none t u)
    (name : String) : (Tree.member? members name).bind f = (Tree.member? members' name).bind f := by
  by_cases hname : name ∈ members.map Prod.fst
  · obtain ⟨⟨_, t⟩, ht, rfl⟩ := List.mem_map.1 hname
    obtain ⟨⟨_, u⟩, hu, heq⟩ := List.mem_map.1 (hperm.mem_iff.1 hname)
    cases heq
    rw [member?_of_mem hkeys ht, member?_of_mem hkeys' hu, Option.bind_some, Option.bind_some]
    cases h _ t u ht hu with
    | same => rfl
    | array => rw [harray, harray]
    | object => rw [hobject, hobject]
  · rw [member?_eq_none hname, member?_eq_none (mt hperm.mem_iff.2 hname)]

/-! ## Readings by names -/

/-- What a member has for a column, given how values are read. -/
def memberContent (s : Schema) (value : Site → Tag → Tree → Except ModelError Value) (m : ModelId) :
    Content := fun c t =>
  match t with
  | .null => .ok none
  | t => some <$> value ⟨s.name m, c.name⟩ c.tag t

/-- Values and records are read by names, whatever is made of numbers. -/
structure ReadsByName (s : Schema)
    (value : ObjectReading → Site → Tag → Tree → Except ModelError Value)
    (levels : Nat → ObjectReading) : Prop where
  array (nested : ObjectReading) (site : Site) (tag : Tag) (items : List Tree) :
    value nested site tag (.array items) = treeValue s nested site tag (.array items)
  object (nested : ObjectReading) (site : Site) (tag : Tag) (members : List (String × Tree)) :
    tag ≠ .duration → value nested site tag (.object members) =
      treeValue s nested site tag (.object members)
  duration (nested : ObjectReading) (site : Site) {members members' : List (String × Tree)} :
    (members.map Prod.fst).Nodup → (members'.map Prod.fst).Nodup →
    (members.map Prod.fst).Perm (members'.map Prod.fst) →
    (∀ name t u, (name, t) ∈ members → (name, u) ∈ members' → Variant s none t u) →
    ∀ v, value nested site .duration (.object members) = .ok v ↔
      value nested site .duration (.object members') = .ok v
  record {k : Nat} {n : ModelId} {members : List (String × Tree)} :
    (members.map Prod.fst).Nodup → ((s.catalog n).map FieldDecl.name).Nodup →
    ∀ r, levels k n members = .ok r ↔ ∃ j cs entries, k = j + 1 ∧ s.columns n = .ok cs ∧
      cs.mapM (columnEntry (memberContent s (value (levels j)) n) members) = .ok entries ∧
      r = ⟨n, entries⟩

section
variable {value : ObjectReading → Site → Tag → Tree → Except ModelError Value}
  {levels : Nat → ObjectReading}

/-- Trees that differ only in presentation are read alike, wherever they stand. -/
theorem ReadsByName.value_iff (h : ReadsByName s value levels)
    (hnames : ∀ n, s.Reaches root n → ((s.catalog n).map FieldDecl.name).Nodup) {o : Option Tag}
    (hvariant : Variant s o t u) {tag : Tag} (ho : o = some tag)
    (hreach : ∀ n, tag.nested? = some n → s.Reaches root n) (ht : KeysDistinct t)
    (hu : KeysDistinct u) (k : Nat) (site : Site) (v : Value) :
    value (levels k) site tag t = .ok v ↔ value (levels k) site tag u = .ok v := by
  induction hvariant generalizing tag k site v with
  | same => exact Iff.rfl
  | @array o items items' hlength hitems ih =>
    subst ho
    rw [h.array, h.array]
    cases tag with
    | strList =>
      refine map_ok_congr (mapM_ok_congr_forall₂ ?_) _ v
      refine List.forall₂_iff_zip.2 ⟨hlength, fun {t u} hmem v => ?_⟩
      cases hitems t u hmem with
      | same => exact Iff.rfl
      | array | object => exact ⟨nofun, nofun⟩
    | modelList n =>
      refine map_ok_congr (mapM_ok_congr_forall₂ ?_) _ v
      refine List.forall₂_iff_zip.2 ⟨hlength, fun {t u} hmem v => ?_⟩
      obtain ⟨htmem, humem⟩ := List.of_mem_zip hmem
      have hiff := ih t u hmem rfl hreach (ht.item htmem) (hu.item humem) k site v
      cases hitems t u hmem with
      | same => exact Iff.rfl
      | array => exact ⟨nofun, nofun⟩
      | object hne => exact (hne n rfl).elim
      | record =>
        rw [h.object _ _ (.model n) _ nofun, h.object _ _ (.model n) _ nofun] at hiff
        exact hiff
    | _ => exact Iff.rfl
  | @object o members members' hne hperm hmembers =>
    subst ho
    by_cases htag : tag = .duration
    · subst htag
      exact h.duration _ _ ht.self hu.self hperm hmembers v
    · rw [h.object _ _ _ _ htag, h.object _ _ _ _ htag]
      cases tag with
      | duration => exact (htag rfl).elim
      | model n => exact (hne n rfl).elim
      | _ => exact Iff.rfl
  | @record n members members' hholds hmembers ih =>
    cases ho
    have hn : s.Reaches root n := hreach n rfl
    rw [h.object _ _ (.model n) _ nofun, h.object _ _ (.model n) _ nofun]
    refine map_ok_congr (fun r => ?_) _ v
    rw [h.record ht.self (hnames n hn), h.record hu.self (hnames n hn)]
    refine exists_congr fun j => exists_congr fun cs => exists_congr fun entries => ?_
    refine and_congr_right fun _ => and_congr_right fun hcs => and_congr_left fun _ => ?_
    refine mapM_ok_congr (fun c hc => ?_) entries
    obtain ⟨d, hd, hname, -⟩ := Schema.exists_decl_of_mem_columns hcs hc
    refine columnEntry_iff ht.self hu.self rfl (hname ▸ hholds d hd) fun t u htmem humem hne
      hne' o => ?_
    have hiff (site : Site) := ih cs hcs c hc t u htmem humem hne hne' rfl
      (fun k hk => hn.column hcs hc hk) (ht.member htmem) (hu.member humem) j site
    cases t with
    | null => exact (hne rfl).elim
    | _ =>
      cases u with
      | null => exact (hne' rfl).elim
      | _ => exact map_ok_congr (hiff _) _ o

end

theorem textContent_eq (nested : ObjectReading) (m : ModelId) :
    textContent s nested m = memberContent s (textValue s nested) m := by
  funext c t
  cases t <;> rfl

theorem treeContent_eq (nested : ObjectReading) (m : ModelId) :
    treeContent s nested m = memberContent s (treeValue s nested) m := by
  funext c t
  cases t <;> rfl

/-- By name a text is read as the relation says. -/
theorem readsByName_text (depth : Nat) :
    ReadsByName s (textValue s) (textLevels s ⟨.byName, depth⟩) where
  array _ _ tag _ := by cases tag <;> rfl
  object _ _ tag _ htag := by
    cases tag with
    | duration => exact (htag rfl).elim
    | _ => rfl
  duration nested site members members' hkeys hkeys' hperm hmembers v := by
    refine map_ok_congr (fun d => ?_) _ v
    have hmagnitude := bind_member?_eq (f := magnitude?) (fun _ => rfl) (fun _ => rfl) hkeys hkeys'
      hperm hmembers "magnitude"
    have hunit := bind_member?_eq (f := unit?) (fun _ => rfl) (fun _ => rfl) hkeys hkeys' hperm
      hmembers "unit"
    rw [foldlM_duration_iff hkeys, foldlM_duration_iff hkeys', hmagnitude, hunit]
    simp only [hperm.mem_iff]
  record {k n members} hkeys hnames r := by
    cases k with
    | zero => exact ⟨nofun, fun ⟨_, _, _, hk, _⟩ => nomatch hk⟩
    | succ k =>
      have hentries {cs : List Column} (hcs : s.columns n = .ok cs)
          (entries : List (String × Option Value)) :
          textByName s (textContent s (textLevels s ⟨.byName, depth⟩ k) n) n cs members =
              .ok entries ↔
            cs.mapM (columnEntry (textContent s (textLevels s ⟨.byName, depth⟩ k) n) members) =
              .ok entries :=
        textByName_ok_iff hkeys (Schema.map_name_columns hcs ▸ hnames) entries
      rw [textLevels, bind_ok_iff]
      constructor
      · rintro ⟨cs, hcs, h⟩
        obtain ⟨entries, hread, hr⟩ := bind_ok_iff.1 h
        cases hr
        exact ⟨k, cs, entries, rfl, hcs, textContent_eq _ n ▸ (hentries hcs entries).1 hread, rfl⟩
      · rintro ⟨_, cs, entries, ⟨⟩, hcs, h, rfl⟩
        rw [← textContent_eq, ← hentries hcs] at h
        exact ⟨cs, hcs, bind_ok_iff.2 ⟨entries, h, rfl⟩⟩

/-- A tree is converted as the relation says. -/
theorem readsByName_tree (depth : Nat) :
    ReadsByName s (treeValue s) (ofMembers s depth) where
  array _ _ _ _ := rfl
  object _ _ _ _ _ := rfl
  duration nested site members members' hkeys hkeys' hperm hmembers v := by
    refine map_ok_congr (fun d => ?_) _ v
    have hmagnitude := bind_member?_eq (f := Tree.int?) (fun _ => rfl) (fun _ => rfl) hkeys hkeys'
      hperm hmembers "magnitude"
    have hunit := bind_member?_eq (f := unit?) (fun _ => rfl) (fun _ => rfl) hkeys hkeys' hperm
      hmembers "unit"
    rw [treeDuration_eq_ok, treeDuration_eq_ok, hmagnitude, hunit]
  record {k n members} hkeys hnames r := by
    cases k with
    | zero => exact ⟨nofun, fun ⟨_, _, _, hk, _⟩ => nomatch hk⟩
    | succ k =>
      have hentries (cs : List Column) : cs.mapM (treeEntry s (ofMembers s depth k) n members) =
          cs.mapM
            (columnEntry (memberContent s (treeValue s (ofMembers s depth k)) n) members) := by
        rw [← treeContent_eq]
        exact mapM_congr fun c _ => treeEntry_eq c
      rw [ofMembers, bind_ok_iff]
      constructor
      · rintro ⟨cs, hcs, h⟩
        obtain ⟨entries, hread, hr⟩ := bind_ok_iff.1 h
        cases hr
        exact ⟨k, cs, entries, rfl, hcs, hentries cs ▸ hread, rfl⟩
      · rintro ⟨_, cs, entries, ⟨⟩, hcs, h, rfl⟩
        exact ⟨cs, hcs, bind_ok_iff.2 ⟨entries, (hentries cs).trans h, rfl⟩⟩

/-! ## Documents -/

theorem ofTree_ok_iff {depth : Nat} {r : Record} (site : Site) :
    ofTree s depth m t = .ok r ↔
      treeValue s (ofMembers s depth (depth + 1)) site (.model m) t = .ok (.model r) := by
  cases t with
  | object members => exact map_model_ok_iff.symm
  | _ => exact ⟨nofun, nofun⟩

/-- Two documents without repeated names that differ only in presentation are both refused by names
or read as the same record, from their texts and from their trees. -/
theorem byName_iff_of_variant
    (hnames : ∀ n, s.Reaches m n → ((s.catalog n).map FieldDecl.name).Nodup) {text text' : String}
    (htext : Text .standard t text.toList) (htext' : Text .standard u text'.toList)
    (ht : KeysDistinct t) (hu : KeysDistinct u) (h : Variant s (some (.model m)) t u) (depth : Nat)
    (r : Record) :
    ((∃ p, readRecord s ⟨.byName, depth⟩ m (.ofText text) = .ok r p) ↔
      ∃ p, readRecord s ⟨.byName, depth⟩ m (.ofText text') = .ok r p) ∧
    (ofTree s depth m t = .ok r ↔ ofTree s depth m u = .ok r) := by
  have hreach : ∀ n, (Tag.model m).nested? = some n → s.Reaches m n := fun _ => .of_nested
  let site : Site := ⟨"", ""⟩
  constructor
  · obtain ⟨q, -, hruns, -⟩ := Pull.runs_text htext
    obtain ⟨q', -, hruns', -⟩ := Pull.runs_text htext'
    rw [(agrees_textRecord ⟨.byName, depth⟩ rfl hruns).iff,
      (agrees_textRecord ⟨.byName, depth⟩ rfl hruns').iff, textRecord_ok_iff site,
      textRecord_ok_iff site]
    exact (readsByName_text depth).value_iff hnames h rfl hreach ht hu _ _ _
  · rw [ofTree_ok_iff site, ofTree_ok_iff site]
    exact (readsByName_tree depth).value_iff hnames h rfl hreach ht hu _ _ _

/-- The tree of a family with its members in another order. An unknown member is missing and others
are there, one of them in the child, where `null` stands for the label. -/
def rearrangedTree : Tree :=
  .object [("more", .object [("b", .null), ("a", .array [])]),
    ("children", .array [.object [("label", .null), ("more", .bool true)]]), ("label", .string "é")]

theorem within_rearrangedTree {w : Tree} (h : w.Within rearrangedTree) :
    w = rearrangedTree ∨ w = .object [("b", .null), ("a", .array [])] ∨ w = .null ∨
      w = .array [] ∨ w = .array [.object [("label", .null), ("more", .bool true)]] ∨
      w = .object [("label", .null), ("more", .bool true)] ∨ w = .bool true ∨
      w = .string "é" := by
  simp [rearrangedTree, Tree.within_scalar, Tree.within_array, Tree.within_object] at h ⊢
  tauto

theorem variant_rearrangedTree :
    Variant Schema.nodes (some (.model ⟨0⟩)) familyTree rearrangedTree := by
  have hnames : ∀ d ∈ Schema.nodes.catalog ⟨0⟩, d.name = "children" ∨ d.name = "label" := by decide
  have hchild : Variant Schema.nodes (some (.model ⟨0⟩)) (.object [])
      (.object [("label", .null), ("more", .bool true)]) := by
    refine .of_mem_iff List.nodup_nil fun d hd t hne => ?_
    rcases hnames d hd with hname | hname <;> simp [hname, hne]
  refine .record (fun d hd => ?_) fun cs hcs c hc t u ht hu _ _ => ?_
  · rcases hnames d hd with hname | hname <;> simp [Holds, hname]
  · cases columns_nodes.symm.trans hcs
    simp only [List.mem_cons, List.not_mem_nil, or_false] at hc
    rcases hc with rfl | rfl <;> simp at ht hu <;> subst ht hu
    · refine .array rfl fun t u hmem => ?_
      cases List.mem_singleton.1 hmem
      exact hchild
    · exact .same _ _

theorem byName_iff_of_variant_family :
    (∃ p, readRecord Schema.nodes ⟨.byName, 1⟩ ⟨0⟩ (.ofText (String.ofList familyTree.compact)) =
        .ok (RecordOf.family.normal Schema.nodes) p) ∧
      (∃ p, readRecord Schema.nodes ⟨.byName, 1⟩ ⟨0⟩
          (.ofText (String.ofList rearrangedTree.compact)) =
        .ok (RecordOf.family.normal Schema.nodes) p) ∧
      ofTree Schema.nodes 1 ⟨0⟩ rearrangedTree = .ok (RecordOf.family.normal Schema.nodes) := by
  have htext' : Text .standard rearrangedTree (String.ofList rearrangedTree.compact).toList := by
    rw [String.toList_ofList]
    refine Json.Grammar.text_compact fun w hw => ?_
    rcases within_rearrangedTree hw with h | h | h | h | h | h | h | h <;> cases h
  have hkeys : KeysDistinct familyTree := by
    intro members h
    rcases within_familyTree h with h | h | h | h | h | h <;> cases h <;> decide
  have hkeys' : KeysDistinct rearrangedTree := by
    intro members h
    rcases within_rearrangedTree h with h | h | h | h | h | h | h | h <;> cases h <;> decide
  obtain ⟨htexts, htrees⟩ := byName_iff_of_variant wellTyped_family.distinct text_familyTree
    htext' hkeys hkeys' variant_rearrangedTree 1 (RecordOf.family.normal Schema.nodes)
  obtain ⟨q, -, hruns, -⟩ := Pull.runs_text text_familyTree
  have hread := (agrees_textRecord (s := Schema.nodes) (m := ⟨0⟩) ⟨.byName, 1⟩ rfl hruns).ok _ rfl
  exact ⟨⟨q, hread⟩, htexts.1 ⟨q, hread⟩, htrees.1 ofTree_familyTree⟩

end Wireform.Document
