import Wireform.Proofs.Document.Extent
import Wireform.Proofs.Document.Formats

/-!
# The two orders of members

In canonical order a text is read just if it is read by names and every object that is read as a
record has the names of the catalog for keys, one by one and in that order. The records are the
same then, and so is what is left of the text (`canonical_iff_byName`).
-/

namespace Wireform.Document

open Json (Pull Tree)
open Json.Pull (Runs)

/-- Every object that is read as a record has just the names of the catalog for keys, in order. -/
def InOrder (s : Schema) (m : ModelId) (t : Tree) : Prop :=
  ∀ n members, Stands s m t (.model n) (.object members) →
    members.map Prod.fst = (s.catalog n).map FieldDecl.name

variable {s : Schema} {depth levels : Nat} {m n : ModelId} {t u : Tree} {tag : Tag}
  {p q : Pull} {cs : List Column} {members : List (String × Tree)} {content : Content} {r : Record}

/-! ## What is read in order -/

/-- The member has the name of the column and a value that is read for it. -/
def Content.Reads (content : Content) (c : Column) (member : String × Tree) : Prop :=
  member.1 = c.name ∧ ∃ o, content c member.2 = .ok o

/-- Members that are read in order are the columns one by one. -/
theorem forall₂_of_textInOrder {entries : List (String × Option Value)}
    (h : textInOrder s content m cs members = .ok entries) :
    List.Forall₂ content.Reads cs members := by
  induction cs generalizing members entries with
  | nil =>
    cases members with
    | nil => exact .nil
    | cons => cases h
  | cons c cs ih =>
    cases members with
    | nil => cases h
    | cons member members =>
      obtain ⟨entry, hentry, h⟩ := bind_ok_iff.1 h
      obtain ⟨rest, hrest, -⟩ := map_ok_iff.1 h
      rw [textNext] at hentry
      split at hentry
      · next hname =>
        obtain ⟨o, ho, -⟩ := map_ok_iff.1 hentry
        exact .cons ⟨hname, o, ho⟩ (ih hrest)
      · cases hentry

theorem forall₂_of_textLevels
    (h : textLevels s ⟨.canonical, depth⟩ levels n members = .ok r) :
    ∃ rest cs, s.columns n = .ok cs ∧ List.Forall₂
      (textContent s (textLevels s ⟨.canonical, depth⟩ rest) n).Reads cs members := by
  cases levels with
  | zero => cases h
  | succ rest =>
    obtain ⟨cs, hcs, h⟩ := bind_ok_iff.1 h
    obtain ⟨entries, hentries, -⟩ := bind_ok_iff.1 h
    exact ⟨rest, cs, hcs, forall₂_of_textInOrder hentries⟩

/-- A member with the name of a column is read for that column. -/
theorem exists_of_mem_members {c : Column} (hnames : (cs.map Column.name).Nodup)
    (h : List.Forall₂ content.Reads cs members) (hc : c ∈ cs) (hu : (c.name, u) ∈ members) :
    ∃ o, content c u = .ok o := by
  obtain ⟨d, hd, hname, hread⟩ := exists_of_forall₂ h.flip hu
  cases List.inj_on_of_nodup_map hnames hc hd hname
  exact hread

/-- Where an object is read in order, every tree that stands for a value within it is `null` or
gives a value. -/
theorem exists_of_stands (hnames : ∀ n, s.Reaches m n → ((s.catalog n).map FieldDecl.name).Nodup)
    (h : textLevels s ⟨.canonical, depth⟩ levels m members = .ok r)
    (hstands : Stands s m (.object members) tag u) :
    u = .null ∨ ∃ rest site v,
      textValue s (textLevels s ⟨.canonical, depth⟩ rest) site tag u = .ok v := by
  -- On the way to the tree every object has been read, and so have the members that were taken.
  induction hstands with
  | root => exact .inr ⟨levels, ⟨"", ""⟩, .model r, map_ok_iff.2 ⟨r, h, rfl⟩⟩
  | @column n _ cs c u hstands hcs hc hu ih =>
    obtain hnull | ⟨rest, site, v, hv⟩ := ih
    · cases hnull
    obtain ⟨r, hr, -⟩ := map_ok_iff.1 hv
    obtain ⟨rest, cs', hcs', hmembers⟩ := forall₂_of_textLevels hr
    cases hcs.symm.trans hcs'
    have hnodup : (cs.map Column.name).Nodup :=
      Schema.map_name_columns hcs ▸ hnames n (hstands.reaches rfl)
    obtain ⟨o, ho⟩ := exists_of_mem_members hnodup hmembers hc hu
    cases u with
    | null => exact .inl rfl
    | _ =>
      obtain ⟨v, hv, -⟩ := map_ok_iff.1 ho
      exact .inr ⟨rest, _, v, hv⟩
  | @element n items u hstands hu ih =>
    obtain hnull | ⟨rest, site, v, hv⟩ := ih
    · cases hnull
    obtain ⟨vs, hvs, -⟩ := map_ok_iff.1 hv
    obtain ⟨v, hv⟩ := exists_ok_of_mapM_ok hvs hu
    cases u with
    | object members => exact .inr ⟨rest, site, v, hv⟩
    | _ => cases hv

/-- A tree that is read in canonical order is in that order. -/
theorem inOrder_of_textLevels
    (hnames : ∀ n, s.Reaches m n → ((s.catalog n).map FieldDecl.name).Nodup)
    (h : textLevels s ⟨.canonical, depth⟩ levels m members = .ok r) :
    InOrder s m (.object members) := by
  intro n members hstands
  obtain hnull | ⟨rest, site, v, hv⟩ := exists_of_stands hnames h hstands
  · cases hnull
  obtain ⟨r, hr, -⟩ := map_ok_iff.1 hv
  obtain ⟨_, cs, hcs, hmembers⟩ := forall₂_of_textLevels hr
  have hcolumns : members.map Prod.fst = cs.map Column.name :=
    map_eq_map_iff.2 (hmembers.imp fun _ _ hc => hc.1)
  exact hcolumns.trans (Schema.map_name_columns hcs)

/-! ## Reading in order and by names -/

/-- What is read, and where it stops, is told by the tree that the read takes up. -/
theorem readRecord_eq_ok_iff {options : Options} (hcurrent : p.current = none)
    (hruns : Runs p t.events q) :
    readRecord s options m p = .ok r q ↔ textRecord s options m t = .ok r := by
  have hagrees := agrees_textRecord (s := s) (m := m) options hcurrent hruns
  exact ⟨fun h => (hagrees.iff r).1 ⟨q, h⟩, hagrees.ok r⟩

/-- A read that succeeds takes up exactly one tree. -/
theorem exists_iff_of_readRecord {options : Options} (hcurrent : p.current = none)
    (h : readRecord s options m p = .ok r q) : ∃ t, ∀ u : Tree, Runs p u.events q ↔ u = t := by
  obtain ⟨t, ht⟩ := exists_of_readRecord hcurrent h
  refine ⟨t, fun u => ⟨fun hu => hu.tree_unique ht, ?_⟩⟩
  rintro rfl
  exact ht

theorem textRecord_canonical_iff
    (hnames : ∀ n, s.Reaches m n → ((s.catalog n).map FieldDecl.name).Nodup) :
    textRecord s ⟨.canonical, depth⟩ m t = .ok r ↔
      textRecord s ⟨.byName, depth⟩ m t = .ok r ∧ InOrder s m t := by
  cases t with
  | object members =>
    have hread (horder : InOrder s m (.object members)) :
        textRecord s ⟨.canonical, depth⟩ m (.object members) =
          textRecord s ⟨.byName, depth⟩ m (.object members) := by
      refine textLevels_canonical_eq (fun n members cs hstands hcs => ?_) _ .root
      rw [Schema.map_name_columns hcs]
      exact ⟨horder n members hstands, hnames n (hstands.reaches rfl)⟩
    constructor
    · intro h
      have horder := inOrder_of_textLevels hnames h
      exact ⟨hread horder ▸ h, horder⟩
    · rintro ⟨h, horder⟩
      exact (hread horder).trans h
  | _ => exact ⟨nofun, nofun⟩

/-- A text is read in canonical order just if it is read by names and the members of every object
in it that is read as a record are those of the catalog, in its order. What is read and what is
left of the text are the same in both orders, and what has been read is one tree. -/
theorem canonical_iff_byName
    (hnames : ∀ n, s.Reaches m n → ((s.catalog n).map FieldDecl.name).Nodup) (depth : Nat)
    (text : String) :
    (∀ order r q, readRecord s ⟨order, depth⟩ m (.ofText text) = .ok r q →
      ∃ t, ∀ u : Tree, Runs (.ofText text) u.events q ↔ u = t) ∧
    ∀ r q, readRecord s ⟨.canonical, depth⟩ m (.ofText text) = .ok r q ↔
      readRecord s ⟨.byName, depth⟩ m (.ofText text) = .ok r q ∧
        ∀ t, Runs (.ofText text) t.events q → InOrder s m t := by
  refine ⟨fun order r q => exists_iff_of_readRecord rfl, fun r q => ⟨fun h => ?_, ?_⟩⟩
  · obtain ⟨t, ht⟩ := exists_iff_of_readRecord rfl h
    have hruns := (ht t).2 rfl
    have hcanonical := (readRecord_eq_ok_iff rfl hruns).1 h
    obtain ⟨hbyName, horder⟩ := (textRecord_canonical_iff hnames).1 hcanonical
    refine ⟨(readRecord_eq_ok_iff rfl hruns).2 hbyName, fun u hu => ?_⟩
    rwa [(ht u).1 hu]
  · rintro ⟨h, horder⟩
    obtain ⟨t, ht⟩ := exists_iff_of_readRecord rfl h
    have hruns := (ht t).2 rfl
    have hbyName := (readRecord_eq_ok_iff rfl hruns).1 h
    have hcanonical := (textRecord_canonical_iff hnames).2 ⟨hbyName, horder t hruns⟩
    exact (readRecord_eq_ok_iff rfl hruns).2 hcanonical

theorem canonical_iff_byName_family :
    (∃ q, readRecord Schema.nodes ⟨.byName, 1⟩ ⟨0⟩
        (.ofText (String.ofList (RecordOf.family.normal Schema.nodes).tree.compact)) =
          .ok (RecordOf.family.normal Schema.nodes) q) ∧
      (∃ r q, readRecord Schema.nodes ⟨.byName, 1⟩ ⟨0⟩
        (.ofText (String.ofList familyTree.compact)) = .ok r q) ∧
      ∀ r q, readRecord Schema.nodes ⟨.canonical, 1⟩ ⟨0⟩
        (.ofText (String.ofList familyTree.compact)) ≠ .ok r q := by
  have hdepth : (RecordOf.family.normal Schema.nodes).depth ≤ 1 := by decide
  obtain ⟨q, hordered⟩ := readRecord_ofRecord wellTyped_family hdepth .canonical
  obtain ⟨p, -, hruns, -⟩ := Pull.runs_text text_familyTree
  have hagrees := agrees_textRecord (s := Schema.nodes) (m := ⟨0⟩) ⟨.byName, 1⟩ rfl hruns
  have hbyName := hagrees.ok _ rfl
  refine ⟨⟨q, ?_⟩, ⟨_, p, hbyName⟩, fun r q hcanonical => ?_⟩
  · exact (((canonical_iff_byName wellTyped_family.distinct 1 _).2 _ q).1 hordered).1
  · obtain ⟨h, horder⟩ :=
      ((canonical_iff_byName wellTyped_family.distinct 1 _).2 r q).1 hcanonical
    cases h.symm.trans hbyName
    exact absurd (horder familyTree hruns ⟨0⟩ _ .root) (by decide)

end Wireform.Document
