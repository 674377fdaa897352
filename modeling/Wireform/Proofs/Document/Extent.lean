import Wireform.Proofs.Document.Reading
import Wireform.Proofs.Json.Skipping

/-!
# How far a read goes

A record is read from the events of one object, and a value from those of one tree, in whatever
order members are matched: a read that succeeds stops right behind what it was read from
(`exists_of_readLevels`, `exists_of_readRecord`). Where an object is current, that is where passing
over the object stops too (`skipChildren_of_readRecord`).
-/

namespace Wireform.Document

open Json (DocumentError Event Pull Token Tree)
open Json.Pull (Completes Runs)

variable {s : Schema} {options : Options} {m : ModelId} {tag : Tag} {site : Site}
  {p p₀ q : Pull} {e : Event} {nested : ModelId → Read Record}

/-! ## Moves of a pull -/

theorem pull_eq_ok {α : Type} {x : Pull.Move α} {a : α} : pull x p = .ok a q ↔ x p = .ok a q := by
  rw [pull, Step.adaptExcept_apply]
  cases x p <;> simp

theorem content_eq_ok {α : Type} {get : Pull → Except DocumentError α}
    {report : DocumentError → ModelError} {a : α} (h : content get report p = .ok a q) : p = q := by
  rw [content] at h
  cases hget : get p with
  | ok b =>
    rw [hget] at h
    exact (EStateM.Result.ok.inj h).2
  | error e =>
    rw [hget] at h
    cases h

theorem currentText_eq_ok {t : String} (h : currentText p = .ok t q) : p = q := content_eq_ok h

theorem eq_name_of_token (h : e.token = .fieldName) : ∃ name, e = .name name := by
  cases e with
  | name name => exact ⟨name, rfl⟩
  | _ => cases h

/-! ## Loops -/

section
variable {σ β : Type} {last : Event} {atEnd : Read σ} {step : Token → σ → Read σ}
  {found found' : σ} (head : β → Event) (rest : β → List Event)

theorem exists_of_gatherWithin (hlast : ∀ e : Event, e.token = last.token → e = last)
    (hend : ∀ p a q, atEnd p ≠ .ok a q)
    (hstep : ∀ e p₀ p found found' q, Runs p₀ [e] p → p.At e → step e.token found p = .ok found' q →
      ∃ x, head x = e ∧ Runs p (rest x) q)
    {budget : Nat} (h : gatherWithin last.token atEnd step budget found p = .ok found' q) :
    ∃ xs : List β, Runs p (xs.flatMap (fun x => head x :: rest x) ++ [last]) q := by
  induction budget generalizing p found with
  | zero => exact (hend _ _ _ h).elim
  | succ budget ih =>
    obtain ⟨o, p₁, hnext, hloop⟩ := Step.bind_eq_ok.1 h
    cases o with
    | none => exact (hend _ _ _ hloop).elim
    | some t =>
      obtain ⟨e, rfl, hruns, hp⟩ := Pull.exists_at_of_next (pull_eq_ok.1 hnext)
      dsimp only at hloop
      split at hloop
      · next hclose =>
        cases hloop
        rw [hlast e hclose] at hruns
        exact ⟨[], hruns⟩
      · obtain ⟨found₁, p₂, hx, hmore⟩ := Step.bind_eq_ok.1 hloop
        obtain ⟨x, hhead, hrest⟩ := hstep e p p₁ found found₁ p₂ hruns hp hx
        obtain ⟨xs, hxs⟩ := ih hmore
        refine ⟨x :: xs, ?_⟩
        rw [List.flatMap_cons, hhead, List.append_assoc]
        exact hruns.append (hrest.append hxs)

/-- A loop that gets to its end has read parts up to the last token. -/
theorem exists_of_gather (hlast : ∀ e : Event, e.token = last.token → e = last)
    (hend : ∀ p a q, atEnd p ≠ .ok a q)
    (hstep : ∀ e p₀ p found found' q, Runs p₀ [e] p → p.At e → step e.token found p = .ok found' q →
      ∃ x, head x = e ∧ Runs p (rest x) q)
    (h : gather last.token atEnd step found p = .ok found' q) :
    ∃ xs : List β, Runs p (xs.flatMap (fun x => head x :: rest x) ++ [last]) q := by
  obtain ⟨_, _, hget, hgather⟩ := Step.bind_eq_ok.1 h
  cases hget
  exact exists_of_gatherWithin head rest hlast hend hstep hgather

end

theorem exists_of_gather_members {σ : Type} {step : σ → Read σ} {found found' : σ}
    (hstep : ∀ name p₀ p found found' q, Runs p₀ [.name name] p → p.At (.name name) →
      step found p = .ok found' q → ∃ u : Tree, Runs p u.events q)
    (h : gather .endObject (unexpected .fieldName none) (fun t found =>
      if t = .fieldName then step found else unexpected .fieldName (some t)) found p =
        .ok found' q) :
    ∃ members, Runs p (Tree.memberEvents members ++ [.endObject]) q := by
  have hlast (e : Event) (he : e.token = Event.endObject.token) : e = .endObject := by
    cases e with
    | endObject => rfl
    | _ => cases he
  obtain ⟨members, hruns⟩ := exists_of_gather (fun member : String × Tree => .name member.1)
    (fun member => member.2.events) hlast (by rintro _ _ _ ⟨⟩)
    (fun e p₀ p found found' q hruns hp hx => by
      split at hx
      · next hname =>
        obtain ⟨name, rfl⟩ := eq_name_of_token hname
        obtain ⟨u, hu⟩ := hstep name p₀ p found found' q hruns hp hx
        exact ⟨(name, u), rfl, hu⟩
      · cases hx) h
  rw [← memberEvents_eq] at hruns
  exact ⟨members, hruns⟩

/-! ## Values -/

theorem exists_of_readDurationMember {name : String}
    {found found' : Option Int64 × Option DurationUnit}
    (hp : p.At (.name name)) (h : readDurationMember site found p = .ok found' q) :
    ∃ u : Tree, Runs p u.events q := by
  rw [readDurationMember, Step.bind_apply, currentName_of_at hp] at h
  obtain ⟨o, p₁, hnext, hif⟩ := Step.bind_eq_ok.1 h
  split at hif
  · next hmagnitude =>
    obtain ⟨-, rfl⟩ := hmagnitude
    obtain ⟨e, htoken, hruns, -⟩ := Pull.exists_at_of_next (pull_eq_ok.1 hnext)
    obtain ⟨n, p₂, hcontent, hpure⟩ := Step.bind_eq_ok.1 hif
    cases hpure
    cases content_eq_ok hcontent
    cases e with
    | number spelling => exact ⟨.number spelling, hruns⟩
    | _ => cases htoken
  split at hif
  · next hunit =>
    obtain ⟨-, rfl⟩ := hunit
    obtain ⟨e, htoken, hruns, -⟩ := Pull.exists_at_of_next (pull_eq_ok.1 hnext)
    obtain ⟨text, p₂, hcontent, hmatch⟩ := Step.bind_eq_ok.1 hif
    cases currentText_eq_ok hcontent
    cases hunit : DurationUnit.ofName? text with
    | none =>
      rw [hunit] at hmatch
      cases hmatch
    | some unit =>
      rw [hunit] at hmatch
      cases hmatch
      cases e with
      | string text => exact ⟨.string text, hruns⟩
      | _ => cases htoken
  · cases hif

theorem exists_of_readDuration {d : Duration} (h : readDuration site p = .ok d q) :
    ∃ members, Runs p (Tree.memberEvents members ++ [.endObject]) q := by
  obtain ⟨⟨_ | magnitude, _ | unit⟩, p₁, hgather, hmatch⟩ := Step.bind_eq_ok.1 h <;> cases hmatch
  exact exists_of_gather_members (fun name _ _ _ _ _ _ hp hx => exists_of_readDurationMember hp hx)
    hgather

/-- Elements that were read are whole trees, up to the end of their array. -/
theorem exists_of_readElements {read : Token → Read Value} {vs : List Value}
    (hread : ∀ e p v q, read e.token p = .ok v q → Completes e p q) (h : readElements read p = .ok vs q) :
    ∃ items, Runs p (Tree.itemEvents items ++ [.endArray]) q := by
  have hlast (e : Event) (he : e.token = Event.endArray.token) : e = .endArray := by
    cases e with
    | endArray => rfl
    | _ => cases he
  obtain ⟨found, p₁, hgather, hpure⟩ := Step.bind_eq_ok.1 h
  cases hpure
  obtain ⟨items, hruns⟩ := exists_of_gather (fun t : Tree => t.events.headD .null)
    (fun t => t.events.tail) hlast (by rintro _ _ _ ⟨⟩)
    (fun e p₀ p found found' q _ _ hx => by
      obtain ⟨v, p₁, hv, hpure⟩ := Step.bind_eq_ok.1 hx
      cases hpure
      obtain ⟨t, es, ht, hruns⟩ := hread e p v q hv
      refine ⟨t, ?_, ?_⟩
      · rw [ht]
        rfl
      · rw [ht]
        exact hruns) hgather
  rw [← itemEvents_eq] at hruns
  exact ⟨items, hruns⟩

theorem readCalendar_eq_ok {u : CalendarUnit} (h : readCalendar site p = .ok u q) : p = q := by
  obtain ⟨name, p₁, htext, hmatch⟩ := Step.bind_eq_ok.1 h
  cases currentText_eq_ok htext
  cases hunit : CalendarUnit.ofName? name with
  | none =>
    rw [hunit] at hmatch
    cases hmatch
  | some unit =>
    rw [hunit] at hmatch
    exact (Step.pure_eq_ok.1 hmatch).2

theorem readZone_eq_ok {z : ZoneId} (h : readZone site p = .ok z q) : p = q := by
  obtain ⟨id, p₁, htext, hmatch⟩ := Step.bind_eq_ok.1 h
  cases currentText_eq_ok htext
  cases hzone : ZoneId.ofText? id with
  | none =>
    rw [hzone] at hmatch
    cases hmatch
  | some zone =>
    rw [hzone] at hmatch
    exact (Step.pure_eq_ok.1 hmatch).2

/-- Records are read from the members of an object, up to its end. -/
def Spans (nested : ModelId → Read Record) : Prop :=
  ∀ ⦃n p r q⦄, nested n p = .ok r q →
    ∃ members, Runs p (Tree.memberEvents members ++ [.endObject]) q

theorem completes_text {v : Value} (h : (if e.token = .string then Value.str <$> currentText
      else wrongToken s site .strList e.token) p = .ok v q) : Completes e p q := by
  split at h
  · next htoken =>
    obtain ⟨_, htext, -⟩ := Step.map_eq_ok.1 h
    cases currentText_eq_ok htext
    cases e with
    | string text => exact ⟨.string text, [], rfl, .nil⟩
    | _ => cases htoken
  · cases h

theorem completes_model {n : ModelId} {v : Value} (hnested : Spans nested)
    (h : (if e.token = .startObject then Value.model <$> nested n
      else wrongToken s site (.modelList n) e.token) p = .ok v q) : Completes e p q := by
  split at h
  · next htoken =>
    obtain ⟨_, hrecord, -⟩ := Step.map_eq_ok.1 h
    obtain ⟨members, hmembers⟩ := hnested hrecord
    cases e with
    | startObject => exact ⟨.object members, _, rfl, hmembers⟩
    | _ => cases htoken
  · cases h

/-- A value takes up the tree that its first event begins. -/
theorem completes_value {v : Value} (hnested : Spans nested)
    (h : readValueFrom s nested site tag e.token p = .ok v q) : Completes e p q := by
  have hscalar (t : Tree) (ht : t.events = [e]) (hpq : p = q) : Completes e p q :=
    ⟨t, [], ht, hpq ▸ .nil⟩
  cases tag with
  | bool =>
    cases e with
    | boolean b =>
      obtain ⟨_, hcontent, -⟩ := Step.map_eq_ok.1 h
      exact hscalar (.bool b) rfl (content_eq_ok hcontent)
    | _ => cases h
  | str =>
    cases e with
    | string text =>
      obtain ⟨_, htext, -⟩ := Step.map_eq_ok.1 h
      exact hscalar (.string text) rfl (currentText_eq_ok htext)
    | _ => cases h
  | int | long =>
    cases e with
    | number spelling =>
      obtain ⟨_, hcontent, -⟩ := Step.map_eq_ok.1 h
      exact hscalar (.number spelling) rfl (content_eq_ok hcontent)
    | _ => cases h
  | calendar =>
    cases e with
    | string name =>
      obtain ⟨_, hcalendar, -⟩ := Step.map_eq_ok.1 h
      exact hscalar (.string name) rfl (readCalendar_eq_ok hcalendar)
    | _ => cases h
  | zone =>
    cases e with
    | string id =>
      obtain ⟨_, hzone, -⟩ := Step.map_eq_ok.1 h
      exact hscalar (.string id) rfl (readZone_eq_ok hzone)
    | _ => cases h
  | duration =>
    cases e with
    | startObject =>
      obtain ⟨_, hduration, -⟩ := Step.map_eq_ok.1 h
      obtain ⟨members, hmembers⟩ := exists_of_readDuration hduration
      exact ⟨.object members, _, rfl, hmembers⟩
    | _ => cases h
  | strList =>
    cases e with
    | startArray =>
      obtain ⟨_, helements, -⟩ := Step.map_eq_ok.1 h
      obtain ⟨items, hitems⟩ := exists_of_readElements (fun _ _ _ _ => completes_text) helements
      exact ⟨.array items, _, rfl, hitems⟩
    | _ => cases h
  | modelList n =>
    cases e with
    | startArray =>
      obtain ⟨_, helements, -⟩ := Step.map_eq_ok.1 h
      obtain ⟨items, hitems⟩ :=
        exists_of_readElements (fun _ _ _ _ => completes_model hnested) helements
      exact ⟨.array items, _, rfl, hitems⟩
    | _ => cases h
  | model n =>
    cases e with
    | startObject =>
      obtain ⟨_, hrecord, -⟩ := Step.map_eq_ok.1 h
      obtain ⟨members, hmembers⟩ := hnested hrecord
      exact ⟨.object members, _, rfl, hmembers⟩
    | _ => cases h

/-- A value that was read is one whole tree. -/
theorem exists_of_readValue {o : Option Value} (hnested : Spans nested)
    (h : readValue s nested site tag p = .ok o q) : ∃ u : Tree, Runs p u.events q := by
  obtain ⟨o', p₁, hnext, hmatch⟩ := Step.bind_eq_ok.1 h
  cases o' with
  | none => cases hmatch
  | some t =>
    obtain ⟨e, rfl, hruns, -⟩ := Pull.exists_at_of_next (pull_eq_ok.1 hnext)
    cases e with
    | null =>
      cases hmatch
      exact ⟨.null, hruns⟩
    | _ =>
      obtain ⟨v, hv, -⟩ := Step.map_eq_ok.1 hmatch
      exact (completes_value hnested hv).exists_runs hruns

/-! ## Records -/

theorem exists_of_readNamed {slots slots' : List Slot} {name : String} (hnested : Spans nested)
    (hruns : Runs p₀ [.name name] p) (hp : p.At (.name name))
    (h : readNamed s nested m slots p = .ok slots' q) : ∃ u : Tree, Runs p u.events q := by
  rw [readNamed, Step.bind_apply, currentName_of_at hp] at h
  dsimp only at h
  cases hfind : slots.find? fun slot => slot.column.name = name with
  | none =>
    rw [hfind] at h
    obtain ⟨o, p₁, hnext, hskip⟩ := Step.bind_eq_ok.1 h
    obtain ⟨_, p₂, hskip, hpure⟩ := Step.bind_eq_ok.1 hskip
    cases hpure
    obtain ⟨fs, hfs⟩ := Pull.frames_of_name hruns
    cases o with
    | none =>
      obtain ⟨hnil, -⟩ := Pull.next_none_sound (pull_eq_ok.1 hnext)
      cases hfs.symm.trans hnil
    | some t =>
      obtain ⟨e, rfl, hvalue, hp₁⟩ := Pull.exists_at_of_next (pull_eq_ok.1 hnext)
      obtain ⟨cs, hbegins⟩ := Pull.begins_of_value hfs hvalue
      have hrest := Pull.completes_of_skipChildren hbegins hp₁ (pull_eq_ok.1 hskip)
      exact hrest.exists_runs hvalue
  | some slot =>
    obtain ⟨c, _ | v⟩ := slot
    · rw [hfind] at h
      obtain ⟨o, p₁, hvalue, hpure⟩ := Step.bind_eq_ok.1 h
      cases hpure
      exact exists_of_readValue hnested hvalue
    · rw [hfind] at h
      cases h

theorem exists_of_readByName {cs : List Column} {entries : List (String × Option Value)}
    (hnested : Spans nested) (h : readByName s nested m cs p = .ok entries q) :
    ∃ members, Runs p (Tree.memberEvents members ++ [.endObject]) q := by
  obtain ⟨slots, p₁, hgather, hpure⟩ := Step.bind_eq_ok.1 h
  cases hpure
  exact exists_of_gather_members
    (fun name _ _ _ _ _ hruns hp hx => exists_of_readNamed hnested hruns hp hx) hgather

theorem exists_of_readNext {c : Column} {entry : String × Option Value} (hnested : Spans nested)
    (h : readNext s nested m c p = .ok entry q) :
    ∃ name, ∃ u : Tree, Runs p (.name name :: u.events) q := by
  obtain ⟨o, p₁, hnext, hmatch⟩ := Step.bind_eq_ok.1 h
  cases o with
  | none => cases hmatch
  | some t =>
    obtain ⟨e, rfl, hruns, hp⟩ := Pull.exists_at_of_next (pull_eq_ok.1 hnext)
    cases e with
    | name name =>
      dsimp only [Event.token] at hmatch
      rw [Step.bind_apply, currentName_of_at hp] at hmatch
      dsimp only at hmatch
      split at hmatch
      · obtain ⟨v, p₂, hvalue, hpure⟩ := Step.bind_eq_ok.1 hmatch
        cases hpure
        obtain ⟨u, hu⟩ := exists_of_readValue hnested hvalue
        exact ⟨name, u, hruns.append hu⟩
      · cases hmatch
    | _ => cases hmatch

theorem exists_of_readCanonical {cs : List Column} {entries : List (String × Option Value)}
    (hnested : Spans nested) (h : readCanonical s nested m cs p = .ok entries q) :
    ∃ members, Runs p (Tree.memberEvents members ++ [.endObject]) q := by
  induction cs generalizing p entries with
  | nil =>
    obtain ⟨_, _, hpure, h⟩ := Step.bind_eq_ok.1 h
    cases hpure
    obtain ⟨o, p₁, hnext, hmatch⟩ := Step.bind_eq_ok.1 h
    cases o with
    | none => cases hmatch
    | some t =>
      obtain ⟨e, rfl, hruns, -⟩ := Pull.exists_at_of_next (pull_eq_ok.1 hnext)
      cases e with
      | endObject =>
        cases hmatch
        exact ⟨[], hruns⟩
      | _ => cases hmatch
  | cons c cs ih =>
    rw [readCanonical_cons] at h
    obtain ⟨entry, p₁, hnext, hmap⟩ := Step.bind_eq_ok.1 h
    obtain ⟨rest, hrest, -⟩ := Step.map_eq_ok.1 hmap
    obtain ⟨name, u, hu⟩ := exists_of_readNext hnested hnext
    obtain ⟨members, hmembers⟩ := ih hrest
    refine ⟨(name, u) :: members, ?_⟩
    rw [Tree.memberEvents, List.append_assoc]
    exact hu.append hmembers

/-- A record that was read is one whole object. -/
theorem exists_of_readLevels (levels : Nat) : Spans (readLevels s options levels) := by
  induction levels with
  | zero => exact fun n p r q h => nomatch h
  | succ levels ih =>
    intro n p r q h
    obtain ⟨cs, p₁, hcolumns, h⟩ := Step.bind_eq_ok.1 h
    obtain ⟨-, rfl⟩ := Step.ofExcept_eq_ok.1 hcolumns
    cases horder : options.order with
    | canonical =>
      rw [horder] at h
      obtain ⟨entries, p₂, hentries, hpure⟩ := Step.bind_eq_ok.1 h
      cases hpure
      exact exists_of_readCanonical ih hentries
    | byName =>
      rw [horder] at h
      obtain ⟨entries, p₂, hentries, hpure⟩ := Step.bind_eq_ok.1 h
      cases hpure
      exact exists_of_readByName ih hentries

/-- What is read where nothing has been read before is one value of the text. -/
theorem exists_of_readRecord {r : Record} (hcurrent : p.current = none)
    (h : readRecord s options m p = .ok r q) : ∃ t : Tree, Runs p t.events q := by
  obtain ⟨_, _, hget, h⟩ := Step.bind_eq_ok.1 h
  cases hget
  rw [hcurrent] at h
  obtain ⟨o, p₁, hnext, h⟩ := Step.bind_eq_ok.1 h
  dsimp only at h
  split at h
  · next hopen =>
    cases hopen
    obtain ⟨e, htoken, hruns, -⟩ := Pull.exists_at_of_next (pull_eq_ok.1 hnext)
    obtain ⟨members, hmembers⟩ := exists_of_readLevels _ h
    cases e with
    | startObject => exact ⟨.object members, hruns.append hmembers⟩
    | _ => cases htoken
  · cases h

/-! ## Objects that are current -/

variable {members : List (String × Tree)}

theorem readRecord_of_current (hcurrent : p.current = some .startObject) :
    readRecord s options m p = readLevels s options (options.depth + 1) m p := by
  rw [readRecord, Step.bind_apply, Step.get_apply]
  simp only [hcurrent, pure_bind, if_true]

theorem at_of_runs {es : List Event} (h : Runs p (es ++ [e]) q) : q.At e := by
  obtain ⟨_, -, hlast⟩ := h.split
  cases hlast with
  | cons _ he hnil =>
    cases hnil
    exact he

/-- Before the members of an object, or its end, the object is what is open innermost. -/
theorem frames_of_members (h : Runs p (Tree.memberEvents members ++ [.endObject]) q) :
    ∃ first fs, p.frames = .member first :: fs := by
  obtain ⟨e, es, hes, he⟩ : ∃ e es, Tree.memberEvents members ++ [.endObject] = e :: es ∧
      (e = .endObject ∨ ∃ name, e = .name name) := by
    cases members with
    | nil => exact ⟨_, _, rfl, .inl rfl⟩
    | cons member members => exact ⟨_, _, rfl, .inr ⟨_, rfl⟩⟩
  rw [hes, ← List.singleton_append] at h
  obtain ⟨q', hfirst, -⟩ := h.split
  obtain ⟨cs, hmoves⟩ := Pull.moves_of_run hfirst
  generalize p.frames = fs at hmoves ⊢
  generalize q'.frames = fs', q'.input.rest = rest at hmoves
  cases hmoves with
  | endObject | name => exact ⟨_, _, rfl⟩
  | endArray => obtain he | ⟨_, he⟩ := he <;> cases he
  | outermost hbegins | value _ hbegins | element _ hbegins =>
    cases hbegins <;> obtain he | ⟨_, he⟩ := he <;> cases he

/-- Passing over an object leaves what is open around it, in whatever way its end is reached. -/
theorem frames_of_skipChildren (hopen : p.current = some .startObject)
    (hruns : Runs p (Tree.memberEvents members ++ [.endObject]) q)
    (hskip : Pull.skipChildren p = .ok () q) : ∃ first, p.frames = .member first :: q.frames := by
  obtain ⟨first, fs, hfs⟩ := frames_of_members hruns
  rw [Pull.skipChildren, Step.bind_apply, Step.get_apply] at hskip
  simp only [hopen, Option.any_some] at hskip
  obtain ⟨_, p', _, -, hp', -, hend⟩ := (Pull.readsOver p.budget).members (n := 0) hfs hskip
  cases hend
  exact ⟨first, hp' ▸ hfs⟩

/-- Reading the object that is current leads to the very state that passing over it leads to, in
either order and wherever the object stands: its end is current, what was open around it is still
open, and what has been read are the events of its members. -/
theorem skipChildren_of_readRecord {r : Record} (hcurrent : p.current = some .startObject)
    (h : readRecord s options m p = .ok r q) :
    Pull.skipChildren p = .ok () q ∧ q.current = some .endObject ∧
      (∃ first, p.frames = .member first :: q.frames) ∧
      ∃ members, ∀ es, Runs p es q ↔ es = Tree.memberEvents members ++ [.endObject] := by
  rw [readRecord_of_current hcurrent] at h
  obtain ⟨members, hruns⟩ := exists_of_readLevels _ h
  have hskip : Pull.skipChildren p = .ok () q :=
    skipChildren_events (t := .object members) (e := .startObject) rfl ⟨hcurrent, rfl⟩ hruns
  refine ⟨hskip, (at_of_runs hruns).1, frames_of_skipChildren hcurrent hruns hskip, members,
    fun es => ⟨fun hes => hes.unique hruns, ?_⟩⟩
  rintro rfl
  exact hruns

theorem skipChildren_of_readRecord_family :
    ∃ p q r, Runs (.ofText (String.ofList (Tree.array [familyTree, .bool true]).compact))
        [.startArray, .startObject] p ∧
      readRecord Schema.nodes ⟨.byName, 1⟩ ⟨0⟩ p = .ok (RecordOf.family.normal Schema.nodes) q ∧
      Pull.skipChildren p = .ok () q ∧ q.current = some .endObject ∧
      Runs q [.boolean true, .endArray] r := by
  have htext : Json.Grammar.Text .standard (.array [familyTree, .bool true])
      (String.ofList (Tree.array [familyTree, .bool true]).compact).toList := by
    rw [String.toList_ofList]
    refine Json.Grammar.text_compact fun w hw => ?_
    simp [familyTree, Tree.within_scalar, Tree.within_array, Tree.within_object] at hw
  let members : List (String × Tree) :=
    [("label", .string "é"), ("unknown", .array [.null]), ("children", .array [.object []])]
  obtain ⟨r, -, hall, -⟩ := Pull.runs_text htext
  have hall : Runs (.ofText (String.ofList (Tree.array [familyTree, .bool true]).compact))
      ([.startArray] ++ [.startObject] ++ (Tree.memberEvents members ++ [.endObject] ++
        [.boolean true, .endArray])) r := hall
  obtain ⟨p, hopen, hrest⟩ := hall.split
  obtain ⟨q, hmembers, hafter⟩ := hrest.split
  have hcurrent : p.current = some .startObject := (at_of_runs hopen).1
  have hread : readRecord Schema.nodes ⟨.byName, 1⟩ ⟨0⟩ p =
      .ok (RecordOf.family.normal Schema.nodes) q := by
    rw [readRecord_of_current hcurrent]
    exact (agrees_levels 2 hmembers).ok _ rfl
  obtain ⟨hskip, hend, -⟩ := skipChildren_of_readRecord hcurrent hread
  exact ⟨p, q, r, hopen, hread, hskip, hend, hafter⟩

end Wireform.Document
