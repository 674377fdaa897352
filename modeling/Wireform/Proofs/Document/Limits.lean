import Wireform.Document.Read
import Wireform.Document.Tree
import Wireform.Proofs.Binary.Limits
import Wireform.Proofs.Value.Normal

/-!
# Reads under narrower limits

Texts and trees are read under a limit on depth alone. As for bytes (`Wireform.Proofs.Binary.Limits`),
a narrower limit gives the answer of the wider one or refuses what that one lets pass; what is read
need not be well-formed. `limits_curtail` has this for all formats.
-/

namespace Wireform.Document

open Json (Token Tree)

variable {s : Schema} {depth wider : Nat} {site : Site} {Q : ModelError → Prop}

/-! ## Loops -/

section

variable {R : ∀ {α : Type}, Read α → Read α → Prop}

/-- Both loops have the same budget, since it is what is left of the text. -/
theorem related_gather (hR : Congruence Read R) {σ : Type} {last : Token} {atEnd : Read σ}
    {step step' : Token → σ → Read σ} (h : ∀ t found, R (step t found) (step' t found)) (found : σ) :
    R (gather last atEnd step found) (gather last atEnd step' found) := by
  refine hR.bind (hR.refl _) fun p => ?_
  generalize p.budget = budget
  induction budget generalizing found with
  | zero => exact hR.refl _
  | succ budget ih =>
    refine hR.bind (hR.refl _) fun o => ?_
    cases o with
    | none => exact hR.refl _
    | some t =>
      dsimp only
      split
      · exact hR.refl _
      · exact hR.bind (h t found) ih

theorem related_readElements (hR : Congruence Read R) {read read' : Token → Read Value}
    (h : ∀ t, R (read t) (read' t)) : R (readElements read) (readElements read') := by
  refine hR.bind (related_gather hR (fun t _ => ?_) []) fun _ => hR.refl _
  exact hR.bind (h t) fun _ => hR.refl _

end

/-! ## Documents -/

section

variable {nested nested' : ModelId → Read Record}

theorem curtails_readValueFrom (h : ∀ m, Step.Curtails Q (nested m) (nested' m)) (tag : Tag)
    (t : Token) :
    Step.Curtails Q (readValueFrom s nested site tag t) (readValueFrom s nested' site tag t) := by
  cases tag with
  | modelList m =>
    cases t with
    | startArray =>
      refine Step.Curtails.map _ (related_readElements (Step.Curtails.congruence Q) fun t => ?_)
      split
      · exact (h m).map _
      · exact .refl _
    | _ => exact .refl _
  | model m =>
    cases t with
    | startObject => exact (h m).map _
    | _ => exact .refl _
  | _ => cases t <;> exact .refl _

theorem curtails_readValue (h : ∀ m, Step.Curtails Q (nested m) (nested' m)) (tag : Tag) :
    Step.Curtails Q (readValue s nested site tag) (readValue s nested' site tag) := by
  refine (Step.Curtails.refl _).bind fun o => ?_
  split
  · exact .refl _
  · exact .refl _
  · exact (curtails_readValueFrom h tag _).map _

theorem curtails_readCanonical (h : ∀ m, Step.Curtails Q (nested m) (nested' m)) (m : ModelId)
    (columns : List Column) :
    Step.Curtails Q (readCanonical s nested m columns) (readCanonical s nested' m columns) := by
  have hnext (c : Column) : Step.Curtails Q (readNext s nested m c) (readNext s nested' m c) := by
    refine (Step.Curtails.refl _).bind fun o => ?_
    split
    · refine (Step.Curtails.refl _).bind fun name => ?_
      split
      · exact (curtails_readValue h c.tag).bind fun _ => .refl _
      · exact .refl _
    · exact .refl _
  exact (Step.Curtails.mapM hnext columns).bind fun _ => .refl _

theorem curtails_readNamed (h : ∀ m, Step.Curtails Q (nested m) (nested' m)) (m : ModelId)
    (slots : List Slot) :
    Step.Curtails Q (readNamed s nested m slots) (readNamed s nested' m slots) := by
  refine (Step.Curtails.refl _).bind fun name => ?_
  split
  · exact .refl _
  · split
    · exact .refl _
    · exact (curtails_readValue h _).bind fun _ => .refl _

theorem curtails_readByName (h : ∀ m, Step.Curtails Q (nested m) (nested' m)) (m : ModelId)
    (columns : List Column) :
    Step.Curtails Q (readByName s nested m columns) (readByName s nested' m columns) := by
  refine Step.Curtails.bind (related_gather (Step.Curtails.congruence Q) (fun t slots => ?_) _)
    fun _ => .refl _
  split
  · exact curtails_readNamed h m slots
  · exact .refl _

end

theorem curtails_readLevels (order : Order) {more : Nat} (h : wider = depth + more) (levels : Nat)
    (m : ModelId) :
    Step.Curtails (TooDeep depth wider) (readLevels s ⟨order, depth⟩ levels m)
      (readLevels s ⟨order, wider⟩ (levels + more) m) := by
  induction levels generalizing m with
  | zero =>
    obtain _ | more := more
    · rw [readLevels, readLevels, h, Nat.add_zero]
      exact .refl _
    · exact .refuse (.intro (s.name m) (by omega)) _
  | succ levels ih =>
    rw [Nat.succ_add, readLevels, readLevels]
    refine (Step.Curtails.refl _).bind fun columns => ?_
    cases order with
    | canonical => exact (curtails_readCanonical ih m columns).bind fun _ => .refl _
    | byName => exact (curtails_readByName ih m columns).bind fun _ => .refl _

/-- A record is read under a lower depth as under a higher one, or refused. -/
theorem curtails_readRecord (order : Order) (h : depth ≤ wider) (m : ModelId) :
    Step.Curtails (TooDeep depth wider) (readRecord s ⟨order, depth⟩ m)
      (readRecord s ⟨order, wider⟩ m) := by
  obtain ⟨more, hmore⟩ := Nat.exists_eq_add_of_le h
  have hlevels := curtails_readLevels (s := s) order hmore (depth + 1) m
  rw [Nat.add_right_comm, ← hmore] at hlevels
  have hbody (t : Option Token) : Step.Curtails (TooDeep depth wider)
      (if t = some .startObject then readLevels s ⟨order, depth⟩ (depth + 1) m
        else throw (.notAnObject (s.name m) (Token.foundText t)))
      (if t = some .startObject then readLevels s ⟨order, wider⟩ (wider + 1) m
        else throw (.notAnObject (s.name m) (Token.foundText t))) := by
    split
    · exact hlevels
    · exact .refl _
  refine (Step.Curtails.refl _).bind fun p => ?_
  dsimp only
  cases p.current with
  | some t => exact (Step.Curtails.refl _).bind hbody
  | none => exact (Step.Curtails.refl _).bind hbody

/-! ## Trees -/

section

variable {nested nested' : ObjectReading}

theorem curtails_treeValue (h : ∀ m ms, Curtails Q (nested m ms) (nested' m ms)) (tag : Tag)
    (t : Tree) : Curtails Q (treeValue s nested site tag t) (treeValue s nested' site tag t) := by
  cases tag with
  | modelList m =>
    cases t with
    | array items =>
      refine (Curtails.mapM (fun t => ?_) items).map _
      cases t with
      | object ms => exact (h m ms).map _
      | _ => exact .refl _
    | _ => exact .refl _
  | model m =>
    cases t with
    | object ms => exact (h m ms).map _
    | _ => exact .refl _
  | _ => cases t <;> exact .refl _

theorem curtails_treeEntry (h : ∀ m ms, Curtails Q (nested m ms) (nested' m ms)) (m : ModelId)
    (members : List (String × Tree)) (c : Column) :
    Curtails Q (treeEntry s nested m members c) (treeEntry s nested' m members c) := by
  unfold treeEntry
  split
  · exact .refl _
  · exact .refl _
  · exact (curtails_treeValue h c.tag _).bind fun _ => .refl _

end

theorem curtails_ofMembers {more : Nat} (h : wider = depth + more) (levels : Nat) (m : ModelId)
    (members : List (String × Tree)) :
    Curtails (TooDeep depth wider) (ofMembers s depth levels m members)
      (ofMembers s wider (levels + more) m members) := by
  induction levels generalizing m members with
  | zero =>
    obtain _ | more := more
    · rw [ofMembers, ofMembers, h, Nat.add_zero]
      exact .refl _
    · exact .refuse (.intro (s.name m) (by omega)) _
  | succ levels ih =>
    rw [Nat.succ_add, ofMembers, ofMembers]
    refine (Curtails.refl _).bind fun columns => ?_
    exact (Curtails.mapM (curtails_treeEntry ih m members) columns).bind fun _ => .refl _

/-- A tree is converted under a lower depth as under a higher one, or refused. -/
theorem curtails_ofTree (h : depth ≤ wider) (m : ModelId) (t : Tree) :
    Curtails (TooDeep depth wider) (ofTree s depth m t) (ofTree s wider m t) := by
  obtain ⟨more, hmore⟩ := Nat.exists_eq_add_of_le h
  cases t with
  | object members =>
    have hlevels := curtails_ofMembers (s := s) hmore (depth + 1) m members
    rwa [Nat.add_right_comm, ← hmore] at hlevels
  | _ => exact .refl _

/-! ## All formats -/

/-- Under narrower limits a read comes to the same as under the wider ones, with the same record or
failure and up to the same place, or it is refused for a limit of its own. So no answer is lost or
changed when limits are raised. -/
theorem limits_curtail {limits wider : Binary.Limits} (hdepth : limits.depth ≤ wider.depth)
    (hlength : limits.length ≤ wider.length) (m : ModelId) :
    Step.Curtails (limits.Refuses wider) (Binary.readRecord s limits m)
      (Binary.readRecord s wider m) ∧
    (∀ order, Step.Curtails (TooDeep limits.depth wider.depth)
      (readRecord s ⟨order, limits.depth⟩ m) (readRecord s ⟨order, wider.depth⟩ m)) ∧
    (∀ t, Curtails (TooDeep limits.depth wider.depth) (ofTree s limits.depth m t)
      (ofTree s wider.depth m t)) ∧
    (∀ c r c', Binary.readRecord s limits m c = .ok r c' →
      Binary.readRecord s wider m c = .ok r c') ∧
    (∀ order p r p', readRecord s ⟨order, limits.depth⟩ m p = .ok r p' →
      readRecord s ⟨order, wider.depth⟩ m p = .ok r p') ∧
    ∀ t r, ofTree s limits.depth m t = .ok r → ofTree s wider.depth m t = .ok r := by
  have hbinary := Binary.curtails_readRecord (s := s) hdepth hlength m
  have hdocument (order : Order) := curtails_readRecord (s := s) order hdepth m
  have htree (t : Tree) := curtails_ofTree (s := s) hdepth m t
  exact ⟨hbinary, hdocument, htree, fun c r c' => hbinary.ok, fun order p r p' =>
    (hdocument order).ok, fun t r => (htree t).ok⟩

theorem limits_curtail_nodes :
    (⟨0, 1⟩ : Binary.Limits).depth ≤ (⟨1, 2⟩ : Binary.Limits).depth ∧
    (⟨0, 1⟩ : Binary.Limits).length ≤ (⟨1, 2⟩ : Binary.Limits).length ∧
    (∀ c r c', Binary.readRecord .nodes ⟨0, 1⟩ ⟨0⟩ c = .ok r c' →
      Binary.readRecord .nodes ⟨1, 2⟩ ⟨0⟩ c = .ok r c') ∧
    ∀ t, Curtails (TooDeep 0 1) (ofTree .nodes 0 ⟨0⟩ t) (ofTree .nodes 1 ⟨0⟩ t) := by
  have hdepth : (⟨0, 1⟩ : Binary.Limits).depth ≤ (⟨1, 2⟩ : Binary.Limits).depth := by decide
  have hlength : (⟨0, 1⟩ : Binary.Limits).length ≤ (⟨1, 2⟩ : Binary.Limits).length := by decide
  obtain ⟨-, -, htree, hraise, -⟩ := limits_curtail (s := .nodes) hdepth hlength ⟨0⟩
  exact ⟨hdepth, hlength, hraise, htree⟩

end Wireform.Document
