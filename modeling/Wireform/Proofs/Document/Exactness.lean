import Wireform.Proofs.Binary.Acceptance
import Wireform.Proofs.Document.Formats
import Wireform.Proofs.Document.Limits
import Wireform.Proofs.Yields

/-!
# How much room a record needs

What has been written for a well-typed record is read under just those limits that the record keeps,
and it is refused for a limit that it exceeds (`limits_exact`). A record that keeps the limits is read
back; one that does not could be read under wider limits (`Wireform.Proofs.Document.Limits`), but
whatever is read keeps the limits it was read under.
-/

namespace Wireform

namespace Binary

variable {s : Schema} {limits : Limits} {r : Record} {bs rest : List UInt8} {c : Cursor}

theorem Limits.Refuses.of_max {limits least : Limits} {e : ModelError}
    (h : limits.Refuses ⟨max limits.depth least.depth, max limits.length least.length⟩ e) :
    limits.Refuses least e := by
  rcases h with ⟨model, hlt⟩ | ⟨site, hn, hlt⟩
  · dsimp only at hlt
    exact .inl (.intro model (by omega))
  · dsimp only at hlt
    exact .inr (.intro site hn (by omega))

/-- A record that does not keep the limits is refused for one of them. -/
theorem refused_bytes (h : r.WellTyped s) (hbs : bytes s r = .ok bs) (hc : c.left = bs ++ rest)
    (hout : ¬ ((r.normal s).depth ≤ limits.depth ∧ (r.normal s).extent ≤ limits.length)) :
    ∃ e c', readRecord s limits r.model c = .error e c' ∧
      limits.Refuses ⟨(r.normal s).depth, (r.normal s).extent⟩ e := by
  let wider : Limits :=
    ⟨max limits.depth (r.normal s).depth, max limits.length (r.normal s).extent⟩
  have hcurtails : Step.Curtails (limits.Refuses wider) (readRecord s limits r.model)
      (readRecord s wider r.model) :=
    curtails_readRecord (Nat.le_max_left _ _) (Nat.le_max_left _ _) r.model
  have hwider : readRecord s wider r.model c = .ok (r.normal s) (c.advance bs.length) :=
    takes_bytes h (Nat.le_max_right _ _) (Nat.le_max_right _ _) hbs hc
  have hne : readRecord s limits r.model c ≠ .ok (r.normal s) (c.advance bs.length) := by
    intro hread
    obtain ⟨_, -, -, -, -, hwithin⟩ := reads_readLevels (limits.depth + 1) r.model hread
    exact hout ⟨Nat.le_of_succ_le_succ hwithin.1, hwithin.2⟩
  obtain ⟨e, c', he, hrefuses⟩ := hcurtails.refused hwider hne
  exact ⟨e, c', he, hrefuses.of_max⟩

end Binary

namespace Document

open Json (Tree)
open Json.Grammar (Text)

variable {s : Schema} {r : Record} {depth levels : Nat} {site : Site} {m : ModelId}

/-! ## What is read keeps the limit -/

/-- At most `levels` models are open at once in the value that is read. -/
abbrev YieldsDepth (levels : Nat) (x : Except ModelError Value) : Prop :=
  Yields (fun v => v.depth ≤ levels) (fun _ => True) x

theorem yieldsDepth_scalar {α : Type} {f : α → Value} (hf : ∀ a, (f a).depth ≤ levels)
    (x : Except ModelError α) : YieldsDepth levels (f <$> x) := by
  cases x with
  | error e => trivial
  | ok a => exact hf a

theorem yieldsDepth_treeValue {nested : ObjectReading}
    (h : ∀ m members, YieldsDepth levels (.model <$> nested m members)) (tag : Tag) (t : Tree) :
    YieldsDepth levels (treeValue s nested site tag t) := by
  unfold treeValue
  split
  · exact Nat.zero_le _
  · exact Nat.zero_le _
  · split
    · exact yieldsDepth_scalar (fun _ => Nat.zero_le _) _
    · trivial
  · split
    · exact Nat.zero_le _
    · trivial
  · exact yieldsDepth_scalar (fun _ => Nat.zero_le _) _
  · exact yieldsDepth_scalar (fun _ => Nat.zero_le _) _
  · exact yieldsDepth_scalar (fun _ => Nat.zero_le _) _
  · refine (Yields.mapM_all (fun t => ?_) _).map fun _ => Value.depth_list_le.2
    cases t with
    | string t => exact Nat.zero_le _
    | _ => trivial
  · refine (Yields.mapM_all (fun t => ?_) _).map fun _ => Value.depth_list_le.2
    cases t with
    | object members => exact h _ members
    | _ => trivial
  · exact h _ _
  · trivial

theorem yieldsDepth_ofMembers (levels : Nat) (m : ModelId) (members : List (String × Tree)) :
    YieldsDepth levels (.model <$> ofMembers s depth levels m members) := by
  induction levels generalizing m members with
  | zero => trivial
  | succ levels ih =>
    have hentry (c : Column) : Yields (fun e => ∀ v, e.2 = some v → v.depth ≤ levels)
        (fun _ => True) (treeEntry s (ofMembers s depth levels) m members c) := by
      unfold treeEntry
      split
      · exact nofun
      · exact nofun
      · refine (yieldsDepth_treeValue ih c.tag _).bind fun v hv w hw => ?_
        cases hw
        exact hv
    have hrecord : Yields (fun r : Record => r.depth ≤ levels) (fun _ => True)
        (ofMembers s depth (levels + 1) m members) := by
      rw [ofMembers]
      cases s.columns m with
      | error e => trivial
      | ok cs =>
        refine (Yields.mapM_all hentry cs).bind fun entries h => Value.depth_record_le.2 ?_
        exact fun name v hv => h (name, some v) hv v rfl
    exact hrecord.map fun r hr => Nat.succ_le_succ hr

/-- A record made from a tree is no deeper than the limit. -/
theorem depth_le_of_ofTree {t : Tree} (h : ofTree s depth m t = .ok r) : r.depth ≤ depth := by
  cases t with
  | object members =>
    have hdepth : YieldsDepth (depth + 1) (.model <$> ofMembers s depth (depth + 1) m members) :=
      yieldsDepth_ofMembers _ _ _
    have hread : ofMembers s depth (depth + 1) m members = .ok r := h
    rw [hread] at hdepth
    exact Nat.le_of_succ_le_succ hdepth
  | _ => cases h

/-! ## All formats -/

theorem refused_tree (h : r.WellTyped s) (hout : ¬ (r.normal s).depth ≤ depth) :
    ∃ e, ofTree s depth r.model (r.normal s).tree = .error e ∧
      TooDeep depth (r.normal s).depth e := by
  have hcurtails := curtails_ofTree (s := s) (Nat.le_of_not_le hout) r.model (r.normal s).tree
  exact hcurtails.refused (ofTree_tree h (Nat.le_refl _)) fun hread =>
    hout (depth_le_of_ofTree hread)

/-- The text of a record that is too deep is refused with the limit, in both orders. -/
theorem refused_text (h : r.WellTyped s) (hout : ¬ (r.normal s).depth ≤ depth) (order : Order) :
    ∃ e p, readRecord s ⟨order, depth⟩ r.model
      (.ofText (String.ofList (r.normal s).tree.compact)) = .error e p ∧
      TooDeep depth (r.normal s).depth e := by
  have hcurtails := curtails_readRecord (s := s) order (Nat.le_of_not_le hout) r.model
  obtain ⟨p, hp⟩ := readRecord_ofRecord h (Nat.le_refl _) order
  exact hcurtails.refused hp fun hread =>
    hout (depth_le_of_ofTree ((exists_readRecord_iff h order _).1 ⟨p, hread⟩))

/-- The bytes of a well-typed record are read back under all limits that the record keeps, and its
tree and its text in either order under all depths that it keeps. Under any others they are refused
for a limit that the record exceeds. -/
theorem limits_exact (h : r.WellTyped s) :
    (∀ bs, Binary.bytes s r = .ok bs → ∀ (limits : Binary.Limits) (c : Cursor) (rest : List UInt8),
      c.left = bs ++ rest →
      ((r.normal s).depth ≤ limits.depth ∧ (r.normal s).extent ≤ limits.length →
        Binary.readRecord s limits r.model c = .ok (r.normal s) (c.advance bs.length)) ∧
      (¬ ((r.normal s).depth ≤ limits.depth ∧ (r.normal s).extent ≤ limits.length) →
        ∃ e c', Binary.readRecord s limits r.model c = .error e c' ∧
          limits.Refuses ⟨(r.normal s).depth, (r.normal s).extent⟩ e)) ∧
    ∃ text t, ofRecord s r = .ok text ∧ (∀ u, Text .standard u text.toList ↔ u = t) ∧
      ∀ depth,
        ((r.normal s).depth ≤ depth → ofTree s depth r.model t = .ok (r.normal s) ∧
          ∀ order, ∃ p, readRecord s ⟨order, depth⟩ r.model (.ofText text) = .ok (r.normal s) p) ∧
        (¬ (r.normal s).depth ≤ depth →
          (∃ e, ofTree s depth r.model t = .error e ∧ TooDeep depth (r.normal s).depth e) ∧
          ∀ order, ∃ e p, readRecord s ⟨order, depth⟩ r.model (.ofText text) = .error e p ∧
            TooDeep depth (r.normal s).depth e) := by
  have htext := text_tree (r.normal s)
  constructor
  · intro bs hbs limits c rest hc
    exact ⟨fun hin => Binary.takes_bytes h hin.1 hin.2 hbs hc,
      fun hout => Binary.refused_bytes h hbs hc hout⟩
  · refine ⟨_, (r.normal s).tree, ofRecord_eq h, fun u => ⟨fun hu => Tree.tree_unique hu htext, ?_⟩,
      fun depth => ⟨fun hin => ⟨ofTree_tree h hin, readRecord_ofRecord h hin⟩,
        fun hout => ⟨refused_tree h hout, refused_text h hout⟩⟩⟩
    rintro rfl
    exact htext

theorem limits_exact_family :
    RecordOf.family.WellTyped .nodes ∧
    Binary.bytes .nodes RecordOf.family = .ok [1, 0, 0, 0, 1, 0, 0, 1, 2, 0xC3, 0xA9] ∧
    (∃ e c, Binary.readRecord .nodes ⟨1, 1⟩ ⟨0⟩
      (.ofBytes [1, 0, 0, 0, 1, 0, 0, 1, 2, 0xC3, 0xA9]) = .error e c ∧
      Binary.Limits.Refuses ⟨1, 1⟩ ⟨1, 2⟩ e) ∧
    ∃ text t, ofRecord .nodes RecordOf.family = .ok text ∧ Text .standard t text.toList ∧
      (∀ depth, 1 ≤ depth →
        ofTree .nodes depth ⟨0⟩ t = .ok (RecordOf.family.normal .nodes)) ∧
      ∀ order, ∃ e p, readRecord .nodes ⟨order, 0⟩ ⟨0⟩ (.ofText text) = .error e p ∧
        TooDeep 0 1 e := by
  have hbytes : Binary.bytes .nodes RecordOf.family =
      .ok [1, 0, 0, 0, 1, 0, 0, 1, 2, 0xC3, 0xA9] := (Binary.bytes_eq_ok .nodes).2 (by decide +kernel)
  obtain ⟨hbinary, text, t, htext, hspells, hdepth⟩ := limits_exact wellTyped_family
  have hrefused := (hbinary _ hbytes ⟨1, 1⟩ _ [] (Cursor.left_ofBytes _)).2 (by decide)
  exact ⟨wellTyped_family, hbytes, hrefused, text, t, htext, (hspells t).2 rfl,
    fun depth hle => ((hdepth depth).1 hle).1, ((hdepth 0).2 (by decide)).2⟩

end Document

end Wireform
