import Wireform.Proofs.Document.Extent
import Wireform.Proofs.Document.Pacing
import Wireform.Proofs.Schema.Checking

/-!
# Reading always ends

The loops of the reader go on as loops without a bound would, and come to their last token or fail
before the text does (`loops_of_gather`): what is open tells which tokens can stand next, and one
pass of a loop reads one member or one element, so it leaves open what it found open. Nor
does the reader ever find fault with the text itself: where a read fails because of what the text
is, a call of `next` has failed so (`relays_readRecord`).
-/

namespace Wireform.Document

open Json (DocumentError Pull Token Tree)
open Json.Pull (Completes Reaches Runs Within)

variable {s : Schema} {options : Options} {m : ModelId} {tag : Tag} {site : Site} {p q : Pull}
  {nested : ModelId → Read Record} {α β σ : Type}

/-! ## Loops -/

/-- A loop over tokens that has no bound, and no case for the end of the text or for a token that is
not expected: each token is handed to `step` until `last` is met or something fails. -/
inductive Loops (last : Token) (expected : Token → Bool) (step : Token → σ → Read σ)
    (finish : σ → Read α) : σ → Pull → EStateM.Result ModelError Pull α → Prop
  | ends {found : σ} {p q : Pull} : Pull.next p = .ok (some last) q →
    Loops last expected step finish found p (finish found q)
  | fails {found : σ} {p q : Pull} {e : DocumentError} : Pull.next p = .error e q →
    Loops last expected step finish found p (.error (.document e) q)
  | stops {found : σ} {p q r : Pull} {t : Token} {e : ModelError} :
    Pull.next p = .ok (some t) q → t ≠ last → expected t → step t found q = .error e r →
    Loops last expected step finish found p (.error e r)
  | passes {found found' : σ} {p q r : Pull} {t : Token}
    {result : EStateM.Result ModelError Pull α} :
    Pull.next p = .ok (some t) q → t ≠ last → expected t → step t found q = .ok found' r →
    Loops last expected step finish found' r result →
    Loops last expected step finish found p result

section
variable {I : Pull → Prop} {last : Token} {expected : Token → Bool} {atEnd : Read σ}
  {step step' : Token → σ → Read σ} {finish : σ → Read α} {found : σ}

variable (hexpects : ∀ ⦃p⦄, I p → p.Expects fun t => expected t || t = last)
  (hagree : ∀ ⦃t⦄, expected t → step' t = step t) (hpaced : ∀ t found, Paced (step t found))
  (hstep : ∀ ⦃e p q found found' r⦄, I p → Runs p [e] q → q.At e → expected e.token →
    step e.token found q = .ok found' r → I r)

include hexpects hagree hpaced hstep

/-- Where only tokens can stand that are expected, and a pass leads to where another one may begin,
the budget is more than is needed. -/
theorem loops_of_gatherWithin {budget : Nat} (hp : I p) (hb : p.input.rest.length < budget) :
    Loops last expected step finish found p
      ((gatherWithin last atEnd step' budget found >>= finish) p) := by
  induction budget generalizing p found with
  | zero => exact absurd hb (Nat.not_lt_zero _)
  | succ budget ih =>
    rw [gatherWithin, bind_assoc, Step.bind_apply, pull, Step.adaptExcept_apply]
    cases hnext : Pull.next p with
    | error f q => exact .fails hnext
    | ok o q =>
      obtain ⟨t, rfl, ht⟩ := hexpects hp o q hnext
      dsimp only
      split
      · next hlast =>
        subst hlast
        exact .ends hnext
      · next hlast =>
        have hexpected : expected t = true := by simpa [hlast] using ht
        rw [hagree hexpected, bind_assoc, Step.bind_apply]
        cases hpass : step t found q with
        | error e r => exact .stops hnext hlast hexpected hpass
        | ok found' r =>
          obtain ⟨e, rfl, hruns, he⟩ := Pull.exists_at_of_next hnext
          have hlt := Pull.rest_of_next_token hnext
          have hle := ((hpaced e.token found).ok hpass).length_le
          refine .passes hnext hlast hexpected hpass (ih (hstep hp hruns he hexpected hpass) ?_)
          omega

theorem loops_of_gather (hp : I p) :
    Loops last expected step finish found p ((gather last atEnd step' found >>= finish) p) :=
  loops_of_gatherWithin hexpects hagree hpaced hstep hp (Nat.lt_succ_self _)

end

/-- Members of the object that is open are read up to its end. -/
theorem loops_members {step : σ → Read σ} {finish : σ → Read α} {found : σ}
    (hpaced : ∀ found, Paced (step found))
    (hstep : ∀ ⦃name p q found found' r⦄, Runs p [.name name] q → q.At (.name name) →
      step found q = .ok found' r → ∃ u : Tree, Runs q u.events r) (hp : p.InObject) :
    Loops .endObject (· = .fieldName) (fun _ => step) finish found p
      ((gather .endObject (unexpected .fieldName none) (fun t found =>
        if t = .fieldName then step found else unexpected .fieldName (some t)) found >>= finish)
        p) := by
  refine loops_of_gather (I := Pull.InObject) (fun _ => Pull.InObject.expects) (fun t ht => ?_)
    (fun _ => hpaced) (fun e p q found found' r hp hruns he ht hpass => ?_) hp
  · funext found
    exact if_pos (of_decide_eq_true ht)
  · obtain ⟨name, rfl⟩ := eq_name_of_token (of_decide_eq_true ht)
    obtain ⟨u, hu⟩ := hstep hruns he hpass
    exact hp.member (hruns.append hu)

/-- Elements of the array that is open are read up to its end. -/
theorem loops_elements {read : Token → Read Value} (hpaced : ∀ t, Paced (read t))
    (hread : ∀ e p v q, read e.token p = .ok v q → Completes e p q) (hp : p.InArray) :
    Loops .endArray Token.begins (fun t found => (· :: found) <$> read t)
      (fun found => pure (Value.list found.reverse)) [] p ((.list <$> readElements read) p) := by
  have hfinish : (Value.list <$> readElements read) =
      gather .endArray unexpectedEnd (fun t found => do return (← read t) :: found) [] >>=
        fun found => pure (Value.list found.reverse) := by
    rw [readElements, map_bind]
    simp only [map_pure]
  rw [hfinish]
  refine loops_of_gather (I := Pull.InArray) (fun _ => Pull.InArray.expects) (fun t _ => ?_)
    (fun t found => (hpaced t).map _) (fun e p q found found' r hp hruns _ _ hpass => ?_) hp
  · funext found
    exact (map_eq_pure_bind _ _).symm
  obtain ⟨v, hv, -⟩ := Step.map_eq_ok.1 hpass
  obtain ⟨u, hu⟩ := (hread e q v r hv).exists_runs hruns
  exact hp.item hu

/-! ## The loops of the reader -/

/-- Behind a name stands a value. -/
theorem expects_of_name (h : Pull.next p = .ok (some .fieldName) q) :
    q.Expects Token.begins := by
  obtain ⟨e, htoken, hruns, -⟩ := Pull.exists_at_of_next h
  obtain ⟨name, rfl⟩ := eq_name_of_token htoken
  obtain ⟨fs, hfs⟩ := Pull.frames_of_name hruns
  exact Pull.expects_value hfs

/-- Members that are read one after the other leave their object open. -/
theorem inObject_of_mapM {cs : List Column} {entries : List (String × Option Value)}
    (hnested : Spans nested) (hp : p.InObject)
    (h : cs.mapM (readNext s nested m) p = .ok entries q) : q.InObject := by
  induction cs generalizing p entries with
  | nil =>
    cases h
    exact hp
  | cons c cs ih =>
    rw [List.mapM_cons] at h
    obtain ⟨entry, p₁, hnext, h⟩ := Step.bind_eq_ok.1 h
    obtain ⟨rest, p₂, hrest, hpure⟩ := Step.bind_eq_ok.1 h
    cases hpure
    obtain ⟨name, u, hu⟩ := exists_of_readNext hnested hnext
    exact ih (hp.member hu) hrest

theorem readDuration_eq (site : Site) : readDuration site =
    gather .endObject (unexpected .fieldName none) (fun t found =>
      if t = .fieldName then readDurationMember site found else unexpected .fieldName (some t))
      (none, none) >>= fun found => Step.ofExcept (durationOf site found) := by
  rw [readDuration]
  congr
  funext ⟨magnitude, unit⟩
  rcases magnitude with _ | n <;> rcases unit with _ | unit <;> rfl

/-- Inside an object the members of a duration are read by a loop that ends. -/
theorem loops_readDuration (hp : p.InObject) :
    Loops .endObject (· = .fieldName) (fun _ => readDurationMember site)
      (fun found => Step.ofExcept (durationOf site found)) (none, none) p (readDuration site p) := by
  rw [readDuration_eq]
  exact loops_members paced_readDurationMember
    (fun _ _ _ _ _ _ _ he => exists_of_readDurationMember he) hp

/-- Inside an object the members are read by a loop that ends. -/
theorem loops_readByName (hspans : Spans nested) (hpaced : ∀ n, Paced (nested n)) (cs : List Column)
    (hp : p.InObject) :
    Loops .endObject (· = .fieldName) (fun _ => readNamed s nested m)
      (fun slots => pure (slots.map Slot.entry)) (cs.map fun c => ⟨c, none⟩) p
      (readByName s nested m cs p) :=
  loops_members (paced_readNamed hpaced)
    (fun _ _ _ _ _ _ hruns he => exists_of_readNamed hspans hruns he) hp

theorem loops_texts (nested : ModelId → Read Record) (hp : p.InArray) :
    Loops .endArray Token.begins
      (fun t found => (· :: found) <$>
        if t = .string then .str <$> currentText else wrongToken s site .strList t)
      (fun found => pure (.list found.reverse)) [] p
      (readValueFrom s nested site .strList .startArray p) :=
  loops_elements paced_text (fun _ _ _ _ => completes_text) hp

theorem loops_models (hspans : Spans nested) (hpaced : ∀ n, Paced (nested n)) (hp : p.InArray) :
    Loops .endArray Token.begins
      (fun t found => (· :: found) <$>
        if t = .startObject then .model <$> nested m else wrongToken s site (.modelList m) t)
      (fun found => pure (.list found.reverse)) [] p
      (readValueFrom s nested site (.modelList m) .startArray p) :=
  loops_elements (paced_model hpaced m) (fun _ _ _ _ => completes_model hspans) hp

/-! ## Failures of the text -/

/-- The read has no failure of a document of its own: where it fails with one, a call of `next` has
failed so and left what the read leaves. -/
def Relays (x : Read α) (p : Pull) : Prop :=
  ∀ ⦃e q⦄, x p = .error (.document e) q → ∃ r, p.Reaches r ∧ Pull.next r = .error e q

namespace Relays

variable {x : Read α}

theorem pure (a : α) : Relays (pure a) p := by
  intro e q h
  cases h

theorem throw {e : ModelError} (he : ∀ f, e ≠ .document f) : Relays (throw e : Read α) p := by
  intro f q h
  cases h
  exact (he f rfl).elim

theorem ok {a : α} (h : x p = .ok a q) : Relays x p := by
  intro e r herror
  cases h.symm.trans herror

/-- A sequence relays the failures of the parser if its parts do. -/
theorem bind (hx : Relays x p) (hpaced : Paced x) {f : α → Read β}
    (hf : ∀ a q, x p = .ok a q → Relays (f a) q) : Relays (x >>= f) p := by
  intro e q h
  obtain hxp | ⟨a, p₁, hxp, hfp⟩ := Step.bind_eq_error.1 h
  · exact hx hxp
  · obtain ⟨r, hr, hnext⟩ := hf a p₁ hxp hfp
    exact ⟨r, (hpaced.ok hxp).trans hr, hnext⟩

theorem map (hx : Relays x p) (f : α → β) : Relays (f <$> x) p :=
  fun _ _ h => hx (Step.map_eq_error.1 h)

theorem pull {x : Pull.Move α}
    (hx : ∀ ⦃e q⦄, x p = .error e q → ∃ r, p.Reaches r ∧ Pull.next r = .error e q) :
    Relays (pull x) p := by
  intro e q h
  rw [Document.pull, Step.adaptExcept_apply] at h
  cases hxp : x p with
  | ok a r =>
    rw [hxp] at h
    cases h
  | error f r =>
    rw [hxp] at h
    cases h
    exact hx hxp

theorem mapM {f : α → Read β} (hf : ∀ a p, p.Innermost → Relays (f a) p)
    (hpaced : ∀ a, Paced (f a)) (hp : p.Innermost) (as : List α) : Relays (as.mapM f) p := by
  induction as generalizing p with
  | nil => exact pure _
  | cons a as ih =>
    rw [List.mapM_cons]
    refine (hf a p hp).bind (hpaced a) fun b q h => ?_
    exact (ih (((hpaced a).ok h).innermost hp)).bind (.mapM hpaced as) fun _ _ _ => pure _

/-- A read that begins with a call. -/
theorem next {f : Option Token → Read α}
    (hf : ∀ o q, Pull.next p = .ok o q → Relays (f o) q) : Relays (Document.pull Pull.next >>= f) p :=
  (pull fun _ _ h => ⟨p, .refl p, h⟩).bind paced_next fun o q h => hf o q (pull_eq_ok.1 h)

end Relays

theorem Loops.relays {last : Token} {expected : Token → Bool} {step : Token → σ → Read σ}
    {finish : σ → Read α} {found : σ} {result : EStateM.Result ModelError Pull α}
    {e : DocumentError} (h : Loops last expected step finish found p result) (hp : p.Innermost)
    (hpaced : ∀ t found, Paced (step t found))
    (hstep : ∀ ⦃p t q⦄ found, p.Innermost → expected t → Pull.next p = .ok (some t) q →
      Relays (step t found) q)
    (hfinish : ∀ found q, Relays (finish found) q) (hresult : result = .error (.document e) q) :
    ∃ r, p.Reaches r ∧ Pull.next r = .error e q := by
  induction h with
  | ends hnext =>
    obtain ⟨r, hr, hfail⟩ := hfinish _ _ hresult
    exact ⟨r, .trans (.of_next hnext) hr, hfail⟩
  | @fails _ p _ _ hnext =>
    cases hresult
    exact ⟨p, .refl p, hnext⟩
  | stops hnext _ ht hstop =>
    cases hresult
    obtain ⟨r, hr, hfail⟩ := hstep _ hp ht hnext hstop
    exact ⟨r, .trans (.of_next hnext) hr, hfail⟩
  | passes hnext _ _ hpass _ ih =>
    have hreaches := (Reaches.of_next hnext).trans ((hpaced _ _).ok hpass)
    obtain ⟨r, hr, hfail⟩ := ih (hreaches.innermost hp) hresult
    exact ⟨r, hreaches.trans hr, hfail⟩

theorem relays_number (get : Pull → Except DocumentError α) :
    Relays (content get fun e => .invalidValue site (.number e)) p := by
  intro e q h
  rw [content] at h
  cases hget : get p with
  | ok a | error f =>
    rw [hget] at h
    cases h

theorem relays_currentText (h : p.current = some .string) : Relays currentText p := by
  have htext : p.stringText = .ok p.text := by
    rw [Pull.stringText, Pull.require, if_pos h]
    rfl
  exact .ok (content_of_ok htext .document)

theorem relays_boolean (h : p.current = some .boolean) :
    Relays (content Pull.booleanValue .document) p := by
  have hboolean : p.booleanValue = .ok p.boolean := by
    rw [Pull.booleanValue, Pull.require, if_pos h]
    rfl
  exact .ok (content_of_ok hboolean .document)

theorem relays_currentName : Relays currentName p := .ok rfl

theorem relays_skipChildren (hp : p.Innermost) : Relays (pull Pull.skipChildren) p :=
  .pull fun _ _ h => (Pull.passes_skipChildren hp).exists_next h

theorem relays_readDurationMember (found : Option Int64 × Option DurationUnit) :
    Relays (readDurationMember site found) p := by
  refine relays_currentName.bind paced_currentName fun key _ _ => .next fun t q hnext => ?_
  have hcurrent := Pull.current_of_next hnext
  split
  · exact (relays_number _).bind (paced_content _ _) fun _ _ _ => .pure _
  split
  · next hunit =>
    refine (relays_currentText (hcurrent.trans hunit.2)).bind paced_currentText fun name _ _ => ?_
    split
    · exact .pure _
    · exact .throw fun _ => nofun
  · exact .throw fun _ => nofun

theorem relays_readDuration (hp : p.Innermost) (hobject : p.InObject) :
    Relays (readDuration site) p := by
  refine fun _ _ => (loops_readDuration hobject).relays hp (fun _ => paced_readDurationMember)
    (fun _ _ _ found _ _ _ => relays_readDurationMember found) ?_
  rintro ⟨_ | n, _ | unit⟩ q
  case some.some => exact .pure _
  all_goals exact .throw fun _ => nofun

theorem relays_readCalendar (h : p.current = some .string) : Relays (readCalendar site) p := by
  refine (relays_currentText h).bind paced_currentText fun name _ _ => ?_
  split
  · exact .pure _
  · exact .throw fun _ => nofun

theorem relays_readZone (h : p.current = some .string) : Relays (readZone site) p := by
  refine (relays_currentText h).bind paced_currentText fun id _ _ => ?_
  split
  · exact .pure _
  · exact .throw fun _ => nofun

section
variable (hspans : Spans nested) (hpaced : ∀ n, Paced (nested n))
  (hnested : ∀ n p, p.Innermost → p.InObject → Relays (nested n) p) (hp : p.Innermost)

include hspans hpaced hnested hp

theorem relays_readValueFrom {t : Token} (hcurrent : p.current = some t) :
    Relays (readValueFrom s nested site tag t) p := by
  unfold readValueFrom
  split
  · exact (relays_boolean hcurrent).map _
  · exact (relays_currentText hcurrent).map _
  · exact (relays_number _).map _
  · exact (relays_number _).map _
  · exact (relays_readDuration hp (hp.object hcurrent)).map _
  · exact (relays_readCalendar hcurrent).map _
  · exact (relays_readZone hcurrent).map _
  · refine fun _ _ => (loops_texts nested (hp.array hcurrent)).relays hp
      (fun t _ => (paced_text t).map _) (fun p t q found hp _ hnext => .map ?_ _)
      fun _ _ => .pure _
    split
    · next ht => exact (relays_currentText (ht ▸ Pull.current_of_next hnext)).map _
    · exact .throw fun _ => nofun
  · refine fun _ _ => (loops_models hspans hpaced (hp.array hcurrent)).relays hp
      (fun t _ => (paced_model hpaced _ t).map _) (fun p t q found hp _ hnext => .map ?_ _)
      fun _ _ => .pure _
    have hq := (Reaches.of_next hnext).innermost hp
    split
    · next ht =>
      exact (hnested _ q hq (hq.object (ht ▸ Pull.current_of_next hnext))).map _
    · exact .throw fun _ => nofun
  · exact (hnested _ p hp (hp.object hcurrent)).map _
  · exact .throw fun _ => nofun

theorem relays_readValue (hvalue : p.Expects Token.begins) :
    Relays (readValue s nested site tag) p := by
  refine .next fun o q hnext => ?_
  have hq := (Reaches.of_next hnext).innermost hp
  split
  · obtain ⟨t, ⟨⟩, -⟩ := hvalue none q hnext
  · exact .pure _
  · exact (relays_readValueFrom hspans hpaced hnested hq (Pull.current_of_next hnext)).map _

theorem relays_readNext (c : Column) : Relays (readNext s nested m c) p := by
  refine .next fun o q hnext => ?_
  have hq := (Reaches.of_next hnext).innermost hp
  split
  · refine relays_currentName.bind paced_currentName fun name q' h => ?_
    cases h
    split
    · exact (relays_readValue hspans hpaced hnested hq (expects_of_name hnext)).bind
        (paced_readValue hpaced) fun _ _ _ => .pure _
    · exact .throw fun _ => nofun
  · exact .throw fun _ => nofun

theorem relays_readCanonical (hobject : p.InObject) (cs : List Column) :
    Relays (readCanonical s nested m cs) p := by
  refine (Relays.mapM (fun c _ hq => relays_readNext hspans hpaced hnested hq c)
    (paced_readNext hpaced) hp cs).bind (Paced.mapM (paced_readNext hpaced) cs)
    fun entries q h => .next fun o r hnext => ?_
  obtain ⟨t, rfl, ht⟩ := (inObject_of_mapM hspans hobject h).expects o r hnext
  rw [Bool.or_eq_true, decide_eq_true_eq, decide_eq_true_eq] at ht
  obtain rfl | rfl := ht
  · exact relays_currentName.bind paced_currentName fun _ _ _ => .throw fun _ => nofun
  · exact .pure _

theorem relays_readNamed (hvalue : p.Expects Token.begins) (slots : List Slot) :
    Relays (readNamed s nested m slots) p := by
  refine relays_currentName.bind paced_currentName fun name q h => ?_
  cases h
  split
  · refine .next fun o q hnext => ?_
    exact (relays_skipChildren ((Reaches.of_next hnext).innermost hp)).bind
      (.pull Pull.reaches_skipChildren) fun _ _ _ => .pure _
  · split
    · exact .throw fun _ => nofun
    · exact (relays_readValue hspans hpaced hnested hp hvalue).bind (paced_readValue hpaced)
        fun _ _ _ => .pure _

theorem relays_readByName (hobject : p.InObject) (cs : List Column) :
    Relays (readByName s nested m cs) p := by
  refine fun _ _ => (loops_readByName hspans hpaced cs hobject).relays hp
    (fun _ => paced_readNamed hpaced) (fun p t q slots hp ht hnext => ?_) fun _ _ => .pure _
  rw [of_decide_eq_true ht] at hnext
  exact relays_readNamed hspans hpaced hnested ((Reaches.of_next hnext).innermost hp)
    (expects_of_name hnext) slots

end

theorem relays_readLevels (levels : Nat) (n : ModelId) (p : Pull) (hp : p.Innermost)
    (hobject : p.InObject) : Relays (readLevels s options levels n) p := by
  induction levels generalizing n p with
  | zero => exact .throw fun _ => nofun
  | succ levels ih =>
    have hspans : Spans (readLevels s options levels) := exists_of_readLevels levels
    refine Relays.bind ?_ (.ofExcept _) fun cs q h => ?_
    · cases hcolumns : s.columns n with
      | ok cs => exact .pure cs
      | error e =>
        obtain ⟨d, -, rfl⟩ := Schema.exists_of_columns_error hcolumns
        exact .throw fun _ => nofun
    · obtain ⟨-, rfl⟩ := Step.ofExcept_eq_ok.1 h
      have hpaced : ∀ n, Paced (readLevels s options levels n) := paced_readLevels levels
      split
      · exact (relays_readCanonical hspans hpaced ih hp hobject cs).bind
          (paced_readCanonical hpaced cs) fun _ _ _ => .pure _
      · exact (relays_readByName hspans hpaced ih hp hobject cs).bind
          (paced_readByName hpaced cs) fun _ _ _ => .pure _

/-- Reading of a record relays the failures of the parser. -/
theorem relays_readRecord (hp : p.Innermost) : Relays (readRecord s options m) p := by
  have hrecord (t : Option Token) (q : Pull) (hq : q.Innermost) (hcurrent : q.current = t) :
      Relays (if t = some .startObject then readLevels s options (options.depth + 1) m
        else throw (.notAnObject (s.name m) (Token.foundText t))) q := by
    split
    · next ht => exact relays_readLevels _ m q hq (hq.object (hcurrent.trans ht))
    · exact .throw fun _ => nofun
  refine Relays.bind (x := get) (.ok rfl) .get fun p' q h => ?_
  cases h
  split
  · next t hcurrent =>
    refine (Relays.pure _).bind (.pure _) fun o q h => ?_
    cases h
    exact hrecord _ p hp hcurrent
  · exact .next fun o q hnext =>
      hrecord o q ((Reaches.of_next hnext).innermost hp) (Pull.current_of_next hnext)

/-! ## What ends -/

/-- A loop of the reader that begins where `left` bytes are left takes no more tokens than that, and
goes on as `Loops` says. -/
structure LoopEnds (left : Nat) (last : Token) (expected : Token → Bool)
    (step : Token → σ → Read σ) (finish : σ → Read α) (found : σ) (x : Read α) (p : Pull) :
    Prop where
  loops : Loops last expected step finish found p (x p)
  within : Within left p (Step.after (x p))

/-- What ends where `left` bytes are left, given how the records within are read. -/
structure ReadsEnd (s : Schema) (nested : ModelId → Read Record) (left : Nat) (p : Pull) :
    Prop where
  /-- Members are read by their names. -/
  byName (m : ModelId) (columns : List Column) : p.current = some .startObject →
    LoopEnds left .endObject (· = .fieldName) (fun _ => readNamed s nested m)
      (fun slots => pure (slots.map Slot.entry)) (columns.map fun c => ⟨c, none⟩)
      (readByName s nested m columns) p
  duration (site : Site) : p.current = some .startObject →
    LoopEnds left .endObject (· = .fieldName) (fun _ => readDurationMember site)
      (fun found => Step.ofExcept (durationOf site found)) (none, none) (readDuration site) p
  texts (site : Site) : p.current = some .startArray →
    LoopEnds left .endArray Token.begins
      (fun t found => (· :: found) <$>
        if t = .string then .str <$> currentText else wrongToken s site .strList t)
      (fun found => pure (.list found.reverse)) []
      (readValueFrom s nested site .strList .startArray) p
  models (site : Site) (m : ModelId) : p.current = some .startArray →
    LoopEnds left .endArray Token.begins
      (fun t found => (· :: found) <$>
        if t = .startObject then .model <$> nested m else wrongToken s site (.modelList m) t)
      (fun found => pure (.list found.reverse)) []
      (readValueFrom s nested site (.modelList m) .startArray) p
  /-- In front of the first member, between members and behind the last one, where the members are
  read in the order of the columns. -/
  canonical (m : ModelId) (columns : List Column) (entries : List (String × Option Value))
    (q : Pull) : p.current = some .startObject →
    columns.mapM (readNext s nested m) p = .ok entries q →
    q.Expects fun t => t = .fieldName || t = .endObject
  /-- Behind a name. -/
  value (q : Pull) : Pull.next p = .ok (some .fieldName) q → q.Expects Token.begins

theorem readsEnd {t : String} (hp : (Pull.ofText t).Reaches p) (hspans : Spans nested)
    (hpaced : ∀ n, Paced (nested n)) : ReadsEnd s nested (t.utf8ByteSize - p.position) p := by
  have hinnermost := hp.innermost (Pull.innermost_ofText t)
  exact
  { byName := fun m columns hcurrent =>
      ⟨loops_readByName hspans hpaced columns (hinnermost.object hcurrent),
        hp.within (paced_readByName hpaced columns p)⟩
    duration := fun site hcurrent =>
      ⟨loops_readDuration (hinnermost.object hcurrent), hp.within (paced_readDuration p)⟩
    texts := fun site hcurrent =>
      ⟨loops_texts nested (hinnermost.array hcurrent), hp.within (paced_readValueFrom hpaced _ p)⟩
    models := fun site m hcurrent =>
      ⟨loops_models hspans hpaced (hinnermost.array hcurrent),
        hp.within (paced_readValueFrom hpaced _ p)⟩
    canonical := fun m columns entries q hcurrent h =>
      (inObject_of_mapM hspans (hinnermost.object hcurrent) h).expects
    value := fun q => expects_of_name }

/-- Whatever has been called, and whether it failed or not: a token takes the position onward, the
end of the text is not reported while something is open, and no call takes the position back or more
tokens than bytes are left. So passing over ends, and so does every loop of the reader, with what
was to be found or a failure, without a case for the end of the text or for a token that cannot
stand there; and where a read fails because of what the text is, a call of `next` has failed so.
Within a read the pull is in such a state too, since a read comes down to calls of `next`. -/
theorem reading_ends (t : String) (calls : List Call) :
    let p := called calls (.ofText t)
    let left := t.utf8ByteSize - p.position
    (∀ u q, Pull.next p = .ok (some u) q → p.position < q.position) ∧
    (∀ q, Pull.next p = .ok none q → p.frames = []) ∧
    (∀ call : Call, p.position ≤ (call.after p).position ∧ Within left p (call.after p)) ∧
    Pull.Passes (p.current.any Token.opens).toNat p p.skipChildren ∧
    (∀ s options levels, ReadsEnd s (readLevels s options levels) left p) ∧
    ∀ s options m, Relays (readRecord s options m) p := by
  intro p left
  have hp : (Pull.ofText t).Reaches p := reaches_called calls _
  have hinnermost := hp.innermost (Pull.innermost_ofText t)
  refine ⟨fun u q h => hp.position_lt h, fun q h => (Pull.next_none_sound h).1, fun call => ?_,
    Pull.passes_skipChildren hinnermost, fun s options levels => ?_, fun s options m => ?_⟩
  · have hcall := reaches_after call p
    exact ⟨hp.position_le hcall, hp.within hcall⟩
  · exact readsEnd hp (exists_of_readLevels levels) (paced_readLevels levels)
  · exact relays_readRecord hinnermost

end Wireform.Document
