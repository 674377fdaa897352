import Wireform.Proofs.Document.Texts
import Wireform.Proofs.Json.Compact
import Wireform.Proofs.Value.Normal

/-!
# Reading documents and reading trees

Where the members of every object stand in the order of the catalog, it makes no difference in which
order they are read (`textLevels_canonical_eq`). A document is read from its text as the tree that the
text spells is read, in either order, as long as the tree suits both readers (`agrees_record`): no
name is repeated where an object is read, a zero with a sign is no whole number, and a duration has
no other members. Main statement: by names, the two readers succeed on the same texts and with the
same records (`byName_iff_tree`).
-/

namespace Wireform.Document

open Json (Pull Tree)
open Json.Grammar (Text)
open Json.Pull (Runs)

/-- `Stands s m t tag u`: where the tree `t` is read as a record of `m`, the tree `u` within it is
what is read under the tag. -/
inductive Stands (s : Schema) (m : ModelId) (t : Tree) : Tag → Tree → Prop
  | root : Stands s m t (.model m) t
  | column {n : ModelId} {members : List (String × Tree)} {cs : List Column} {c : Column}
    {u : Tree} : Stands s m t (.model n) (.object members) → s.columns n = .ok cs → c ∈ cs →
    (c.name, u) ∈ members → Stands s m t c.tag u
  | element {n : ModelId} {items : List Tree} {u : Tree} :
    Stands s m t (.modelList n) (.array items) → u ∈ items → Stands s m t (.model n) u

theorem Stands.within {s : Schema} {m : ModelId} {t u : Tree} {tag : Tag}
    (h : Stands s m t tag u) : u.Within t := by
  induction h with
  | root => exact .self
  | column _ _ _ hmem ih => exact (Tree.Within.self.member hmem).trans ih
  | element _ hmem ih => exact (Tree.Within.self.item hmem).trans ih

/-- Where an object is read as a record, its model is one that the outermost leads to. -/
theorem Stands.reaches {s : Schema} {m n : ModelId} {t u : Tree} {tag : Tag}
    (h : Stands s m t tag u) (hn : tag.nested? = some n) : s.Reaches m n := by
  induction h generalizing n with
  | root =>
    cases hn
    exact .refl
  | column _ hcs hc _ ih => exact (ih rfl).column hcs hc hn
  | element _ _ ih =>
    cases hn
    exact ih rfl

/-- What the readers make of a tree is the same wherever they look. -/
structure Suits (s : Schema) (order : Order) (m : ModelId) (t : Tree) : Prop where
  members {n : ModelId} {members : List (String × Tree)} {cs : List Column} :
    Stands s m t (.model n) (.object members) → s.columns n = .ok cs →
    (members.map Prod.fst).Nodup ∧ (cs.map Column.name).Nodup ∧
      (order = .canonical → cs.map Column.name = members.map Prod.fst)
  int : ¬ Stands s m t .int (.number "-0")
  long : ¬ Stands s m t .long (.number "-0")
  duration {members : List (String × Tree)} : Stands s m t .duration (.object members) →
    (members.map Prod.fst).Nodup ∧ ∀ name u, (name, u) ∈ members →
      (name = "magnitude" ∧ u ≠ .number "-0") ∨ name = "unit"

variable {s : Schema} {order : Order} {depth : Nat} {m n : ModelId} {root t u : Tree} {tag : Tag}
  {site : Site} {p q : Pull} {cs : List Column} {members : List (String × Tree)}
  {tree tree' : ObjectReading} {content : Content}

/-! ## Members in the order of the catalog -/

theorem fill_append {done rest : List Slot} {name : String}
    (h : ∀ slot ∈ done, slot.column.name ≠ name) (v : Option Value) :
    Slot.fill name v (done ++ rest) = done ++ Slot.fill name v rest := by
  induction done with
  | nil => rfl
  | cons slot done ih =>
    obtain ⟨hslot, hdone⟩ := List.forall_mem_cons.1 h
    rw [List.cons_append, Slot.fill, if_neg hslot, ih hdone, List.cons_append]

/-- Each member fills the first of the columns that are left. -/
theorem foldlM_fillFrom {done : List Slot} (hsame : members.map Prod.fst = cs.map Column.name)
    (hnames : (done.map (fun slot => slot.column.name) ++ cs.map Column.name).Nodup) :
    (List.map Slot.entry <$> members.foldlM (fillFrom s content m)
        (done ++ cs.map fun c => ⟨c, none⟩)) =
      (done.map Slot.entry ++ ·) <$> textInOrder s content m cs members := by
  induction cs generalizing done members with
  | nil =>
    obtain rfl := List.map_eq_nil_iff.1 hsame
    change Except.ok ((done ++ []).map Slot.entry) = Except.ok (done.map Slot.entry ++ [])
    rw [List.append_nil, List.append_nil]
  | cons c cs ih =>
    obtain ⟨⟨name, u⟩, members, rfl, hname, hrest⟩ := List.map_eq_cons_iff.1 hsame
    obtain rfl : name = c.name := hname
    have hdone : ∀ slot ∈ done, slot.column.name ≠ c.name := by
      intro slot hslot
      exact (List.nodup_append.1 hnames).2.2 _ (List.mem_map_of_mem hslot) _ List.mem_cons_self
    have hfind : ((done ++ (c :: cs).map fun c => (⟨c, none⟩ : Slot)).find?
        fun slot => slot.column.name = c.name) = some ⟨c, none⟩ := by
      rw [List.find?_append, List.find?_eq_none.2 (by simpa using hdone), Option.none_or]
      exact List.find?_cons_of_pos (decide_eq_true rfl)
    rw [List.foldlM_cons, fillFrom, hfind, textInOrder, textNext, if_pos rfl]
    dsimp only
    cases content c u with
    | error e => rfl
    | ok v =>
      have hfill : Slot.fill c.name v (done ++ ⟨c, none⟩ :: cs.map fun c => ⟨c, none⟩) =
          (done ++ [⟨c, some v⟩]) ++ cs.map fun c => ⟨c, none⟩ := by
        rw [fill_append hdone, Slot.fill, if_pos rfl, List.append_assoc, List.singleton_append]
      have hrec := @ih members (done ++ [⟨c, some v⟩]) hrest (by
        rw [List.map_append, List.append_assoc]
        exact hnames)
      change List.map Slot.entry <$> members.foldlM (fillFrom s content m)
          (Slot.fill c.name v (done ++ ⟨c, none⟩ :: cs.map fun c => ⟨c, none⟩)) =
        (done.map Slot.entry ++ ·) <$> ((c.name, v) :: ·) <$> textInOrder s content m cs members
      rw [hfill, hrec, List.map_append, Functor.map_map]
      congr 1
      funext entries
      rw [List.append_assoc]
      rfl

/-- Members in the order of the columns are read by name as they are in canonical order. -/
theorem textByName_eq_textInOrder (hsame : members.map Prod.fst = cs.map Column.name)
    (hnames : (cs.map Column.name).Nodup) :
    textByName s content m cs members = textInOrder s content m cs members := by
  have hfold := @foldlM_fillFrom s m cs members content [] hsame hnames
  exact hfold.trans (id_map _)

theorem textInOrder_congr {content content' : Content}
    (h : ∀ c ∈ cs, ∀ u, (c.name, u) ∈ members → content c u = content' c u) :
    textInOrder s content m cs members = textInOrder s content' m cs members := by
  induction cs generalizing members with
  | nil => cases members <;> rfl
  | cons c cs ih =>
    cases members with
    | nil => rfl
    | cons member members =>
      obtain ⟨hc, hcs⟩ := List.forall_mem_cons.1 h
      have hnext : textNext s content m c member = textNext s content' m c member := by
        obtain ⟨name, u⟩ := member
        rw [textNext, textNext]
        split
        · next hname => rw [hc u (by rw [← hname]; exact List.mem_cons_self)]
        · rfl
      rw [textInOrder, textInOrder, hnext,
        ih fun d hd u hu => hcs d hd u (List.mem_cons_of_mem _ hu)]

/-- A value depends on how records are read only where objects within it are read as records. -/
theorem textValue_congr (h : ∀ n members, Stands s m root (.model n) (.object members) →
    tree n members = tree' n members) (hstands : Stands s m root tag t) :
    textValue s tree site tag t = textValue s tree' site tag t := by
  cases tag with
  | model n =>
    cases t with
    | object members => exact congrArg (Value.model <$> ·) (h n members hstands)
    | _ => rfl
  | modelList n =>
    cases t with
    | array items =>
      refine congrArg (Value.list <$> ·) (mapM_congr fun t ht => ?_)
      cases t with
      | object members => exact congrArg (Value.model <$> ·) (h n members (.element hstands ht))
      | _ => rfl
    | _ => rfl
  | _ => cases t <;> rfl

/-- Where the members are the columns one by one, they are read alike in both orders. -/
theorem textLevels_canonical_eq (h : ∀ n members cs, Stands s m root (.model n) (.object members) →
      s.columns n = .ok cs → members.map Prod.fst = cs.map Column.name ∧
        (cs.map Column.name).Nodup)
    (levels : Nat) (hstands : Stands s m root (.model n) (.object members)) :
    textLevels s ⟨.canonical, depth⟩ levels n members =
      textLevels s ⟨.byName, depth⟩ levels n members := by
  induction levels generalizing n members with
  | zero => rfl
  | succ levels ih =>
    rw [textLevels, textLevels]
    cases hcs : s.columns n with
    | error e => rfl
    | ok cs =>
      obtain ⟨hsame, hnodup⟩ := h n members cs hstands hcs
      let canonical := textLevels s ⟨.canonical, depth⟩ levels
      let byName := textLevels s ⟨.byName, depth⟩ levels
      have hentries : textInOrder s (textContent s canonical n) n cs members =
          textByName s (textContent s byName n) n cs members := by
        rw [textByName_eq_textInOrder hsame hnodup]
        refine textInOrder_congr fun c hc u hu => ?_
        have hvalue (site : Site) :
            textValue s canonical site c.tag u = textValue s byName site c.tag u :=
          textValue_congr (fun n members hstands => ih hstands) (.column hstands hcs hc hu)
        cases u with
        | null => rfl
        | _ => exact congrArg (some <$> ·) (hvalue _)
      exact congrArg (fun entries => RecordOf.mk n <$> entries) hentries

/-! ## What suits both readers -/

theorem int32?_eq (n : Int) : Decimal.int32? n =
    (Decimal.int64? n).bind fun k => Decimal.int32? k.toInt := by
  cases h : Decimal.int64? n with
  | some k =>
    rw [Decimal.int64?] at h
    split at h
    · next hk =>
      cases h
      rw [Option.bind_some, hk]
    · cases h
  | none =>
    rw [Option.bind_none]
    cases h' : Decimal.int32? n with
    | none => rfl
    | some k =>
      rw [Decimal.int32?] at h'
      split at h'
      · next hk =>
        rw [← hk, ← Int32.toInt_toInt64, Decimal.int64?_toInt] at h
        cases h
      · cases h'

/-- A number of 32 bits is one of 64 bits that fits. -/
theorem textInt_iff {spelling : String} (hzero : spelling ≠ "-0") (v : Value) :
    textValue s tree site .int (.number spelling) = .ok v ↔
      treeValue s tree' site .int (.number spelling) = .ok v := by
  rw [textValue, treeValue, Tree.integer?, if_neg hzero]
  cases Decimal.int? spelling.toList with
  | none => exact ⟨nofun, nofun⟩
  | some n =>
    rw [Option.bind_some, Option.bind_some, int32?_eq]
    cases Decimal.int64? n with
    | none => exact ⟨nofun, nofun⟩
    | some k =>
      rw [Option.bind_some]
      dsimp only
      rw [treeInt]
      cases Decimal.int32? k.toInt with
      | none => exact ⟨nofun, nofun⟩
      | some l => exact Iff.rfl

theorem textLong_iff {spelling : String} (hzero : spelling ≠ "-0") (v : Value) :
    textValue s tree site .long (.number spelling) = .ok v ↔
      treeValue s tree' site .long (.number spelling) = .ok v := by
  rw [textValue, treeValue, Tree.integer?, if_neg hzero]
  cases (Decimal.int? spelling.toList).bind Decimal.int64? with
  | none => exact ⟨nofun, nofun⟩
  | some n => exact Iff.rfl

/-- A value of a suitable text is read as it is converted from the tree. -/
theorem textValue_iff (hsuits : Suits s order m root)
    (h : ∀ n members, Stands s m root (.model n) (.object members) →
      ∀ r, tree n members = .ok r ↔ tree' n members = .ok r)
    (hstands : Stands s m root tag t) (v : Value) :
    textValue s tree site tag t = .ok v ↔ treeValue s tree' site tag t = .ok v := by
  cases tag with
  | int =>
    cases t with
    | number spelling => exact textInt_iff (by rintro rfl; exact hsuits.int hstands) v
    | _ => exact Iff.rfl
  | long =>
    cases t with
    | number spelling => exact textLong_iff (by rintro rfl; exact hsuits.long hstands) v
    | _ => exact Iff.rfl
  | duration =>
    cases t with
    | object members =>
      obtain ⟨hkeys, honly⟩ := hsuits.duration hstands
      exact map_ok_congr (collect_duration hkeys honly) _ v
    | _ => exact Iff.rfl
  | model n =>
    cases t with
    | object members => exact map_ok_congr (h n members hstands) _ v
    | _ => exact Iff.rfl
  | modelList n =>
    cases t with
    | array items =>
      refine map_ok_congr (mapM_ok_congr fun t ht => ?_) _ v
      cases t with
      | object members => exact map_ok_congr (h n members (.element hstands ht)) _
      | _ => exact fun _ => Iff.rfl
    | _ => exact Iff.rfl
  | _ => cases t <;> exact Iff.rfl

theorem textContent_iff {c : Column} (hsuits : Suits s order m root)
    (h : ∀ n members, Stands s m root (.model n) (.object members) →
      ∀ r, tree n members = .ok r ↔ tree' n members = .ok r)
    (hstands : Stands s m root c.tag u) (o : Option Value) :
    textContent s tree n c u = .ok o ↔ treeContent s tree' n c u = .ok o := by
  cases u with
  | null => exact Iff.rfl
  | _ => exact map_ok_congr (textValue_iff hsuits h hstands) _ o

/-- Filling the columns one member at a time comes to looking each of them up. -/
theorem textByName_iff (hsuits : Suits s order m root)
    (h : ∀ n members, Stands s m root (.model n) (.object members) →
      ∀ r, tree n members = .ok r ↔ tree' n members = .ok r)
    (hstands : Stands s m root (.model n) (.object members)) (hcs : s.columns n = .ok cs)
    (entries : List (String × Option Value)) :
    textByName s (textContent s tree n) n cs members = .ok entries ↔
      cs.mapM (treeEntry s tree' n members) = .ok entries := by
  obtain ⟨hkeys, hnames, -⟩ := hsuits.members hstands hcs
  rw [textByName_ok_iff hkeys hnames]
  refine mapM_ok_congr (fun c hc entry => ?_) entries
  rw [treeEntry_eq, columnEntry, columnEntry]
  cases hmember : Tree.member? members c.name with
  | none => exact Iff.rfl
  | some u =>
    have hu : Stands s m root c.tag u := .column hstands hcs hc (mem_of_member? hmember)
    exact map_ok_congr (textContent_iff hsuits h hu) _ entry

/-- By names, members are read as the reader of trees reads them. -/
theorem textLevels_iff (hsuits : Suits s .byName m root) (levels : Nat)
    (hstands : Stands s m root (.model n) (.object members)) (r : Record) :
    textLevels s ⟨.byName, depth⟩ levels n members = .ok r ↔
      ofMembers s depth levels n members = .ok r := by
  induction levels generalizing n members r with
  | zero => constructor <;> rintro ⟨⟩
  | succ levels ih =>
    rw [textLevels, ofMembers]
    cases hcs : s.columns n with
    | error e => constructor <;> rintro ⟨⟩
    | ok cs =>
      exact bind_ok_congr (textByName_iff hsuits (fun n members hstands r => ih hstands r) hstands
        hcs) (fun _ _ _ => Iff.rfl) r

/-- A record of a suitable text is read as it is converted from the tree. -/
theorem textRecord_iff (options : Options) (hsuits : Suits s options.order m t) (r : Record) :
    textRecord s options m t = .ok r ↔ ofTree s options.depth m t = .ok r := by
  cases t with
  | object members =>
    obtain ⟨order, depth⟩ := options
    cases order with
    | byName => exact textLevels_iff hsuits _ .root r
    | canonical =>
      have hbyName : Suits s .byName m (.object members) :=
        { hsuits with
          members := fun hstands hcs => ⟨(hsuits.members hstands hcs).1,
            (hsuits.members hstands hcs).2.1, nofun⟩ }
      rw [textRecord, textLevels_canonical_eq (fun n members cs hstands hcs =>
        ⟨((hsuits.members hstands hcs).2.2 rfl).symm, (hsuits.members hstands hcs).2.1⟩) _ .root]
      exact textLevels_iff hbyName _ .root r
  | _ => exact ⟨nofun, nofun⟩

/-- A text that suits the readers is read as the tree that it spells. -/
theorem agrees_record (options : Options) (hsuits : Suits s options.order m t)
    (hcurrent : p.current = none) (hruns : Runs p t.events q) :
    Agrees (ofTree s options.depth m t) (readRecord s options m p) q :=
  (agrees_textRecord options hcurrent hruns).congr (textRecord_iff options hsuits)

/-! ## Reading by names -/

/-- A text for a node with one child; its members are out of order, and one is unknown. -/
def familyTree : Tree :=
  .object [("label", .string "é"), ("unknown", .array [.null]), ("children", .array [.object []])]

theorem ofTree_familyTree :
    ofTree Schema.nodes 1 ⟨0⟩ familyTree = .ok (RecordOf.family.normal Schema.nodes) := rfl

theorem within_familyTree {u : Tree} (h : u.Within familyTree) :
    u = familyTree ∨ u = .string "é" ∨ u = .array [.null] ∨ u = .null ∨
      u = .array [.object []] ∨ u = .object [] := by
  simpa [familyTree, Tree.within_scalar, Tree.within_array, Tree.within_object, or_assoc] using h

theorem text_familyTree : Text .standard familyTree (String.ofList familyTree.compact).toList := by
  rw [String.toList_ofList]
  refine Json.Grammar.text_compact fun w hw => ?_
  rcases within_familyTree hw with h | h | h | h | h | h <;> cases h

theorem tag_ne_duration_of_nodes {t u : Tree} {tag : Tag} (h : Stands Schema.nodes ⟨0⟩ t tag u) :
    tag ≠ .duration := by
  cases h with
  | root => exact nofun
  | element => exact nofun
  | @column n _ cs c _ _ hcs hc _ =>
    have hcatalog : ∀ d ∈ Schema.nodes.catalog n, d.shape.present.tag? ≠ some .duration := by
      obtain ⟨_ | n⟩ := n
      · decide
      · simp [Schema.catalog_eq_nil, Schema.nodes]
    intro htag
    obtain ⟨d, hd, -, ht⟩ := Schema.exists_decl_of_mem_columns hcs hc
    exact hcatalog d hd (htag ▸ ht)

/-- By names, a document is read just if the tree that its text spells is, and what is read is the
same. -/
theorem byName_iff_tree {depth : Nat} {text : String}
    (hnames : ∀ n, s.Reaches m n → ((s.catalog n).map FieldDecl.name).Nodup)
    (htext : Text .standard t text.toList)
    (hkeys : ∀ members, (Tree.object members).Within t → (members.map Prod.fst).Nodup)
    (hint : ¬ Stands s m t .int (.number "-0")) (hlong : ¬ Stands s m t .long (.number "-0"))
    (hduration : ∀ members, Stands s m t .duration (.object members) → ∀ name u,
      (name, u) ∈ members → (name = "magnitude" ∧ u ≠ .number "-0") ∨ name = "unit")
    (r : Record) :
    (∃ p, readRecord s ⟨.byName, depth⟩ m (.ofText text) = .ok r p) ↔
      ofTree s depth m t = .ok r := by
  have hsuits : Suits s .byName m t :=
    { members := fun hstands hcs =>
        ⟨hkeys _ hstands.within, Schema.map_name_columns hcs ▸ hnames _ (hstands.reaches rfl),
          nofun⟩
      int := hint
      long := hlong
      duration := fun hstands => ⟨hkeys _ hstands.within, hduration _ hstands⟩ }
  obtain ⟨q, -, hruns, -⟩ := Pull.runs_text htext
  exact (agrees_record ⟨.byName, depth⟩ hsuits rfl hruns).iff r

theorem byName_iff_tree_family :
    ∃ p, readRecord Schema.nodes ⟨.byName, 1⟩ ⟨0⟩ (.ofText (String.ofList familyTree.compact)) =
      .ok (RecordOf.family.normal Schema.nodes) p := by
  have hkeys (members : List (String × Tree)) (h : (Tree.object members).Within familyTree) :
      (members.map Prod.fst).Nodup := by
    rcases within_familyTree h with h | h | h | h | h | h <;> cases h <;> decide
  have hzero : ¬ (Tree.number "-0").Within familyTree := by
    intro h
    rcases within_familyTree h with h | h | h | h | h | h <;> cases h
  exact (byName_iff_tree wellTyped_family.distinct text_familyTree hkeys (fun h => hzero h.within)
    (fun h => hzero h.within) (fun _ h => (tag_ne_duration_of_nodes h rfl).elim) _).2
    ofTree_familyTree

end Wireform.Document
