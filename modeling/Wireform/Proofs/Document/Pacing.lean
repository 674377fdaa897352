import Wireform.Document.Read
import Wireform.Proofs.Json.Pacing

/-!
# The pace of a read

Whatever a reader of documents does to a pull comes down to calls of `next` (`paced_readRecord`), so
whatever a caller does with a pull does too (`reaches_called`), and the pace of the pull bounds it.
-/

namespace Wireform.Document

open Json (DocumentError Pull Token)
open Json.Pull (Reaches)

variable {s : Schema} {options : Options} {m : ModelId} {tag : Tag} {site : Site}
  {nested : ModelId → Read Record} {α β σ : Type}

/-! ## Call after call -/

/-- The read comes down to calls of `next`, also if it fails. -/
def Paced (x : Read α) : Prop := Step.Along Reaches x

namespace Paced

variable {x : Read α}

theorem pure (a : α) : Paced (pure a) := Reaches.refl

theorem throw (e : ModelError) : Paced (throw e : Read α) := Reaches.refl

theorem get : Paced get := Reaches.refl

/-- A sequence moves the parser by calls if its parts do. -/
theorem bind (hx : Paced x) {f : α → Read β} (hf : ∀ a, Paced (f a)) : Paced (x >>= f) :=
  Step.Along.bind hx (fun _ _ _ => .trans) hf

theorem map (hx : Paced x) (f : α → β) : Paced (f <$> x) := Step.Along.map hx f

theorem mapM {f : α → Read β} (hf : ∀ a, Paced (f a)) (as : List α) : Paced (as.mapM f) :=
  Step.Along.mapM Reaches.refl (fun _ _ _ => .trans) hf as

theorem ofExcept (x : Except ModelError α) : Paced (Step.ofExcept x) :=
  Step.Along.ofExcept Reaches.refl x

theorem pull {x : Pull.Move α} (hx : Step.Along Reaches x) : Paced (pull x) := by
  intro p
  have hp := hx p
  rw [Document.pull, Step.adaptExcept_apply]
  cases hxp : x p with
  | ok a q | error e q =>
    rw [hxp] at hp
    exact hp

end Paced

theorem paced_next : Paced (pull Pull.next) := .pull Reaches.next

theorem paced_content (get : Pull → Except DocumentError α) (report : DocumentError → ModelError) :
    Paced (content get report) := by
  intro p
  rw [content]
  cases get p with
  | ok a | error e => exact .refl p

theorem paced_currentText : Paced currentText := paced_content _ _

theorem paced_currentName : Paced currentName := .bind .get fun _ => .pure _

theorem paced_unexpectedEnd : Paced (unexpectedEnd : Read α) := .bind .get fun _ => .throw _

section
variable {last : Token} {atEnd : Read σ} {step : Token → σ → Read σ}

/-- A loop moves the parser by calls if its steps do. -/
theorem paced_gatherWithin (hend : Paced atEnd) (hstep : ∀ t found, Paced (step t found))
    (budget : Nat) (found : σ) : Paced (gatherWithin last atEnd step budget found) := by
  induction budget generalizing found with
  | zero => exact hend
  | succ budget ih =>
    refine paced_next.bind fun t => ?_
    split
    · exact hend
    · split
      · exact .pure _
      · exact (hstep _ found).bind ih

theorem paced_gather (hend : Paced atEnd) (hstep : ∀ t found, Paced (step t found)) (found : σ) :
    Paced (gather last atEnd step found) :=
  .bind .get fun p => paced_gatherWithin hend hstep p.budget found

theorem paced_gather_members {step : σ → Read σ} (hstep : ∀ found, Paced (step found)) (found : σ) :
    Paced (gather .endObject (unexpected .fieldName none) (fun t found =>
      if t = .fieldName then step found else unexpected .fieldName (some t)) found) := by
  refine paced_gather (.throw _) (fun t found => ?_) found
  split
  · exact hstep found
  · exact .throw _

end

theorem paced_readDurationMember (found : Option Int64 × Option DurationUnit) :
    Paced (readDurationMember site found) := by
  refine paced_currentName.bind fun key => paced_next.bind fun t => ?_
  split
  · exact (paced_content _ _).bind fun _ => .pure _
  split
  · refine paced_currentText.bind fun name => ?_
    split
    · exact .pure _
    · exact .throw _
  · exact .throw _

theorem paced_readDuration : Paced (readDuration site) := by
  refine (paced_gather_members paced_readDurationMember _).bind fun found => ?_
  split
  · exact .pure _
  · exact .throw _

theorem paced_readCalendar : Paced (readCalendar site) := by
  refine paced_currentText.bind fun name => ?_
  split
  · exact .pure _
  · exact .throw _

theorem paced_readZone : Paced (readZone site) := by
  refine paced_currentText.bind fun id => ?_
  split
  · exact .pure _
  · exact .throw _

theorem paced_readElements {read : Token → Read Value} (hread : ∀ t, Paced (read t)) :
    Paced (readElements read) := by
  refine (paced_gather paced_unexpectedEnd (fun t found => ?_) _).bind fun _ => .pure _
  exact (hread t).bind fun _ => .pure _

theorem paced_text (t : Token) :
    Paced (if t = .string then Value.str <$> currentText else wrongToken s site .strList t) := by
  split
  · exact paced_currentText.map _
  · exact .throw _

theorem paced_model (hnested : ∀ n, Paced (nested n)) (n : ModelId) (t : Token) :
    Paced (if t = .startObject then Value.model <$> nested n
      else wrongToken s site (.modelList n) t) := by
  split
  · exact (hnested n).map _
  · exact .throw _

theorem paced_readValueFrom (hnested : ∀ n, Paced (nested n)) (t : Token) :
    Paced (readValueFrom s nested site tag t) := by
  unfold readValueFrom
  split
  · exact (paced_content _ _).map _
  · exact paced_currentText.map _
  · exact (paced_content _ _).map _
  · exact (paced_content _ _).map _
  · exact paced_readDuration.map _
  · exact paced_readCalendar.map _
  · exact paced_readZone.map _
  · exact (paced_readElements paced_text).map _
  · exact (paced_readElements (paced_model hnested _)).map _
  · exact (hnested _).map _
  · exact .throw _

theorem paced_readValue (hnested : ∀ n, Paced (nested n)) :
    Paced (readValue s nested site tag) := by
  refine paced_next.bind fun t => ?_
  split
  · exact paced_unexpectedEnd
  · exact .pure _
  · exact (paced_readValueFrom hnested _).map _

theorem paced_readNext (hnested : ∀ n, Paced (nested n)) (c : Column) :
    Paced (readNext s nested m c) := by
  refine paced_next.bind fun t => ?_
  split
  · refine paced_currentName.bind fun name => ?_
    split
    · exact (paced_readValue hnested).bind fun _ => .pure _
    · exact .throw _
  · exact .throw _

theorem paced_readCanonical (hnested : ∀ n, Paced (nested n)) (cs : List Column) :
    Paced (readCanonical s nested m cs) := by
  refine (Paced.mapM (paced_readNext hnested) cs).bind fun entries => paced_next.bind fun t => ?_
  split
  · exact .pure _
  · exact paced_currentName.bind fun _ => .throw _
  · exact .throw _

theorem paced_readNamed (hnested : ∀ n, Paced (nested n)) (slots : List Slot) :
    Paced (readNamed s nested m slots) := by
  refine paced_currentName.bind fun name => ?_
  split
  · exact paced_next.bind fun _ => (Paced.pull Pull.reaches_skipChildren).bind fun _ => .pure _
  · split
    · exact .throw _
    · exact (paced_readValue hnested).bind fun _ => .pure _

theorem paced_readByName (hnested : ∀ n, Paced (nested n)) (cs : List Column) :
    Paced (readByName s nested m cs) :=
  (paced_gather_members (paced_readNamed hnested) _).bind fun _ => .pure _

/-- However deep its records nest, a reader moves the parser by calls. -/
theorem paced_readLevels (levels : Nat) (n : ModelId) : Paced (readLevels s options levels n) := by
  induction levels generalizing n with
  | zero => exact .throw _
  | succ levels ih =>
    refine (Paced.ofExcept _).bind fun cs => ?_
    split
    · exact (paced_readCanonical ih cs).bind fun _ => .pure _
    · exact (paced_readByName ih cs).bind fun _ => .pure _

/-- Reading of a record is a number of calls, as far as the parser can tell. -/
theorem paced_readRecord : Paced (readRecord s options m) := by
  refine Paced.get.bind fun p => ?_
  have hrecord (t : Option Token) : Paced (if t = some .startObject then
      readLevels s options (options.depth + 1) m
      else throw (.notAnObject (s.name m) (Token.foundText t))) := by
    split
    · exact paced_readLevels _ m
    · exact .throw _
  split
  · exact (Paced.pure _).bind hrecord
  · exact paced_next.bind hrecord

/-! ## Whatever has been called -/

/-- What a caller may do with a pull: call it, or have a record read from it. -/
inductive Call where
  | pull (call : Json.Scanner.Call)
  | record (s : Schema) (options : Options) (m : ModelId)

/-- What the call leaves of a pull, also if it fails. -/
def Call.after : Call → Pull → Pull
  | pull call, p => Step.after (call.pull p)
  | record s options m, p => Step.after (readRecord s options m p)

/-- The pull after some calls, whether they failed or not. -/
def called (calls : List Call) (p : Pull) : Pull := calls.foldl (fun p call => call.after p) p

theorem reaches_after (call : Call) (p : Pull) : p.Reaches (call.after p) := by
  cases call with
  | record s options m => exact paced_readRecord p
  | pull call =>
    have hcall : Step.Along Reaches call.pull := by
      cases call with
      | next => exact Step.Along.map Reaches.next _
      | skipChildren => exact Pull.reaches_skipChildren.map _
      | content k =>
        have hget : Step.Along Reaches (get : Pull.Move Pull) := Reaches.refl
        exact hget.bind (fun _ _ _ => .trans) fun q => .ofExcept .refl _
    exact hcall p

/-- Calls of any kind lead where a number of moves leads. -/
theorem reaches_called (calls : List Call) (p : Pull) : p.Reaches (called calls p) := by
  induction calls generalizing p with
  | nil => exact .refl p
  | cons call calls ih => exact (reaches_after call p).trans (ih (call.after p))

end Wireform.Document
