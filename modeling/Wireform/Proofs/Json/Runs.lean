import Wireform.Proofs.Json.Moves
import Wireform.Proofs.Json.PlusSigns

/-!
# Runs of a pull

A pull that is moved on again and again reads the events of the tree that its text spells
(`runs_text`), and if it gets to the end then its text spells one (`text_of_runs`). So the texts
that can be read to the end are those of the signed dialect, and they are JSON just if no escape has
a plus sign (`wellFormed_iff`).
-/

namespace Wireform.Json.Pull

open Grammar

variable {d : Dialect} {p q r : Pull} {e : Event} {es es' : List Event} {t : Tree}
  {fs : List Frame} {cs ds rest : List Char}

/-- The pull reads the events one after the other and becomes the last. -/
inductive Runs : Pull → List Event → Pull → Prop
  | nil {p : Pull} : Runs p [] p
  | cons {p q r : Pull} {e : Event} {es : List Event} : next p = .ok (some e.token) q → q.At e →
    Runs q es r → Runs p (e :: es) r

/-- The pull can be moved on to the end of the text. -/
def Accepts (p : Pull) : Prop := ∃ es q r, Runs p es q ∧ next q = .ok none r

namespace Runs

theorem one (h : next p = .ok (some e.token) q) (he : q.At e) : Runs p [e] q := .cons h he .nil

/-- Runs are put together. -/
theorem append (h : Runs p es q) (h' : Runs q es' r) : Runs p (es ++ es') r := by
  induction h with
  | nil => exact h'
  | cons hnext he _ ih => exact .cons hnext he (ih h')

/-- A run is cut between any two of its events. -/
theorem split (h : Runs p (es ++ es') r) : ∃ q, Runs p es q ∧ Runs q es' r := by
  induction es generalizing p with
  | nil => exact ⟨p, .nil, h⟩
  | cons e es ih =>
    cases h with
    | cons hnext he hruns =>
      obtain ⟨q, hruns, hrest⟩ := ih hruns
      exact ⟨q, .cons hnext he hruns, hrest⟩

/-- Every event of a run takes at least one character. -/
theorem length_le (h : Runs p es q) : es.length + q.input.rest.length ≤ p.input.rest.length := by
  induction h with
  | nil => simp
  | cons hnext _ _ ih =>
    obtain ⟨_, _, _, hblanks, hmoves, _, _⟩ := moves_of_next hnext
    have hle := hblanks.length_le
    have hlt := hmoves.length_lt
    rw [List.length_cons]
    omega

end Runs

/-! ## From the grammar to runs -/

/-- Whatever value begins at `cs` is what the pull reads next, and then `fs` is open around it. -/
def Ready (d : Dialect) (p : Pull) (fs : List Frame) (cs : List Char) : Prop :=
  ∀ ⦃e fs' rest⦄, Begins d fs cs e fs' rest → (e.token = .number → Lex.Ends rest) →
    ∃ q, next p = .ok (some e.token) q ∧ q.At e ∧ Leaves p e fs' rest q

theorem ready_outermost (hfs : p.frames = []) (hdone : p.done = false)
    (hblanks : Blanks p.input.rest cs) : Ready d p [] cs := fun _ _ _ hbegins hend =>
  next_of_moves hblanks (.outermost hbegins) hfs (fun _ => hdone) hend

theorem ready_value (hfs : p.frames = .value :: fs) (hcolon : Blanks p.input.rest (':' :: ds))
    (hblanks : Blanks ds cs) : Ready d p (.member false :: fs) cs := fun _ _ _ hbegins hend =>
  next_of_moves hcolon (.value hblanks hbegins) hfs nofun hend

theorem ready_element {first : Bool} (hfs : p.frames = .element first :: fs)
    (hblanks : Blanks p.input.rest ds) (hsep : Separates first ds cs) :
    Ready d p (.element false :: fs) cs := fun _ _ _ hbegins hend =>
  next_of_moves hblanks (.element hsep hbegins) hfs nofun hend

/-- The pull reads the events and gets to where `fs` is open and `rest` is left. -/
def Arrives (p : Pull) (es : List Event) (fs : List Frame) (rest : List Char) : Prop :=
  ∃ q, Runs p es q ∧ q.frames = fs ∧ q.input.rest = rest ∧ q.done = (p.done || fs.isEmpty)

theorem Leaves.arrives (h : Leaves p e fs rest q) (hnext : next p = .ok (some e.token) q)
    (he : q.At e) : Arrives p [e] fs rest :=
  ⟨q, .one hnext he, h.frames, h.rest, h.done⟩

/-- What arrives in an open frame goes on from there. -/
theorem Arrives.append (h : Arrives p es fs cs)
    {fs' : List Frame} (h' : ∀ q, q.frames = fs → q.input.rest = cs → Arrives q es' fs' rest)
    (hfs : fs ≠ []) : Arrives p (es ++ es') fs' rest := by
  obtain ⟨q, hruns, hq, hrest, hdone⟩ := h
  obtain ⟨r, hruns', hr, hrest', hdone'⟩ := h' q hq hrest
  refine ⟨r, hruns.append hruns', hr, hrest', ?_⟩
  rw [hdone', hdone, List.isEmpty_eq_false_iff.2 hfs, Bool.or_false]

/-- Where the elements or members of `ds` begin in `cs`: after a comma, unless they are first. -/
inductive Continues : Bool → List Char → List Char → Prop
  | first {cs : List Char} : Continues true cs cs
  | comma {cs ds : List Char} : Blanks cs (',' :: ds) → Continues false cs ds

/-- A continued list has its separator, if it needs one, behind the blanks. -/
theorem Continues.separates {first : Bool} (h : Continues first cs ds) (hblanks : Blanks ds rest) :
    ∃ es, Blanks cs es ∧ Separates first es rest := by
  cases h with
  | first => exact ⟨rest, hblanks, .first⟩
  | comma hcomma => exact ⟨_, hcomma, .comma hblanks⟩

theorem ends_of_blanks (h : Blanks cs rest) (hrest : Lex.Ends rest) : Lex.Ends cs := by
  cases h with
  | done => exact hrest
  | skip hblank _ =>
    rintro c ⟨⟩
    simp only [Blank, List.mem_cons, List.not_mem_nil, or_false] at hblank
    rcases hblank with rfl | rfl | rfl | rfl <;> decide

theorem ends_cons {c : Char} (h : c ∈ [',', ']', '\x7d']) (cs : List Char) :
    Lex.Ends (c :: cs) := by
  rintro e ⟨⟩
  simp only [List.mem_cons, List.not_mem_nil, or_false] at h
  rcases h with rfl | rfl | rfl <;> decide

theorem arrives_endArray {first : Bool} (hfs : p.frames = .element first :: fs)
    (hblanks : Blanks p.input.rest (']' :: rest)) : Arrives p [.endArray] fs rest := by
  obtain ⟨q, hnext, he, hleaves⟩ :=
    next_of_moves hblanks (.endArray (d := .standard)) hfs nofun nofun
  exact hleaves.arrives hnext he

theorem arrives_endObject {first : Bool} (hfs : p.frames = .member first :: fs)
    (hblanks : Blanks p.input.rest ('\x7d' :: rest)) : Arrives p [.endObject] fs rest := by
  obtain ⟨q, hnext, he, hleaves⟩ :=
    next_of_moves hblanks (.endObject (d := .standard)) hfs nofun nofun
  exact hleaves.arrives hnext he

/-- A name arrives, and the parser is ready for its value. -/
theorem arrives_name {first : Bool} {name : String} (hfs : p.frames = .member first :: fs)
    (hcontinues : Continues first p.input.rest cs) (h : Name d name cs rest) :
    ∃ es, Arrives p [.name name] (.value :: fs) es ∧
      ∀ q, q.frames = .value :: fs → q.input.rest = es → Ready d q (.member false :: fs) rest := by
  obtain ⟨hblanks, hchars, hcolon, hmore⟩ := h
  obtain ⟨es, hes, hsep⟩ := hcontinues.separates hblanks
  obtain ⟨q, hnext, he, hleaves⟩ := next_of_moves hes (.name hsep hchars) hfs nofun nofun
  refine ⟨_, hleaves.arrives hnext he, fun q hq hrest => ?_⟩
  exact ready_value hq (hrest ▸ hcolon) hmore

theorem memberEvents_cons (name : String) (t : Tree) (ms : List (String × Tree)) :
    Tree.memberEvents ((name, t) :: ms) ++ es =
      [.name name] ++ (t.events ++ (Tree.memberEvents ms ++ es)) := by
  simp [Tree.memberEvents]

mutual

/-- Where the parser is ready for a value that stands there, all events of that value arrive. By
recursion over the derivation, together with elements and members. -/
theorem arrives_value {fs : List Frame} {p : Pull} : {t : Tree} → {cs rest : List Char} →
    Value d t cs rest → Lex.Ends rest → Ready d p fs cs → Arrives p t.events fs rest
  | _, _, _, .null, _, hready => by
    obtain ⟨q, hnext, he, hleaves⟩ := hready .null nofun
    exact hleaves.arrives hnext he
  | _, _, _, .true, _, hready => by
    obtain ⟨q, hnext, he, hleaves⟩ := hready .true nofun
    exact hleaves.arrives hnext he
  | _, _, _, .false, _, hready => by
    obtain ⟨q, hnext, he, hleaves⟩ := hready .false nofun
    exact hleaves.arrives hnext he
  | _, _, _, .number hw, hend, hready => by
    obtain ⟨q, hnext, he, hleaves⟩ := hready (.number hw) fun _ => hend
    exact hleaves.arrives hnext he
  | _, _, _, .string hs, _, hready => by
    obtain ⟨q, hnext, he, hleaves⟩ := hready (.string hs) nofun
    exact hleaves.arrives hnext he
  | _, _, _, .emptyArray hclose, _, hready => by
    obtain ⟨q, hnext, he, hleaves⟩ := hready .array nofun
    refine (hleaves.arrives hnext he).append (fun q hq hrest => ?_) nofun
    exact arrives_endArray hq (hrest ▸ hclose)
  | _, _, _, .array helements, _, hready => by
    obtain ⟨q, hnext, he, hleaves⟩ := hready .array nofun
    refine (hleaves.arrives hnext he).append (fun q hq hrest => ?_) nofun
    exact arrives_elements helements hq (hrest ▸ .first)
  | _, _, _, .emptyObject hclose, _, hready => by
    obtain ⟨q, hnext, he, hleaves⟩ := hready .object nofun
    refine (hleaves.arrives hnext he).append (fun q hq hrest => ?_) nofun
    exact arrives_endObject hq (hrest ▸ hclose)
  | _, _, _, .object hmembers, _, hready => by
    obtain ⟨q, hnext, he, hleaves⟩ := hready .object nofun
    refine (hleaves.arrives hnext he).append (fun q hq hrest => ?_) nofun
    exact arrives_members hmembers hq (hrest ▸ .first)

theorem arrives_elements {fs : List Frame} {p : Pull} {first : Bool} : {ts : List Tree} →
    {cs rest : List Char} → Elements d ts cs rest → p.frames = .element first :: fs →
    Continues first p.input.rest cs → Arrives p (Tree.itemEvents ts ++ [.endArray]) fs rest
  | _, _, _, .last hblanks hvalue hclose, hfs, hcontinues => by
    obtain ⟨es, hes, hsep⟩ := hcontinues.separates hblanks
    have hend := ends_of_blanks hclose (ends_cons (by simp) _)
    rw [Tree.itemEvents, Tree.itemEvents, List.append_nil]
    refine (arrives_value hvalue hend (ready_element hfs hes hsep)).append
      (fun q hq hrest => ?_) nofun
    exact arrives_endArray hq (hrest ▸ hclose)
  | _, _, _, .cons hblanks hvalue hcomma helements, hfs, hcontinues => by
    obtain ⟨es, hes, hsep⟩ := hcontinues.separates hblanks
    have hend := ends_of_blanks hcomma (ends_cons (by simp) _)
    rw [Tree.itemEvents, List.append_assoc]
    refine (arrives_value hvalue hend (ready_element hfs hes hsep)).append
      (fun q hq hrest => ?_) nofun
    exact arrives_elements helements hq (hrest ▸ .comma hcomma)

theorem arrives_members {fs : List Frame} {p : Pull} {first : Bool} :
    {ms : List (String × Tree)} → {cs rest : List Char} → Members d ms cs rest →
    p.frames = .member first :: fs → Continues first p.input.rest cs →
    Arrives p (Tree.memberEvents ms ++ [.endObject]) fs rest
  | _, _, _, .last hname hvalue hclose, hfs, hcontinues => by
    obtain ⟨es, hes, hready⟩ := arrives_name hfs hcontinues hname
    have hend := ends_of_blanks hclose (ends_cons (by simp) _)
    rw [memberEvents_cons]
    refine hes.append (fun q hq hrest => ?_) nofun
    refine (arrives_value hvalue hend (hready q hq hrest)).append (fun q hq hrest => ?_) nofun
    exact arrives_endObject hq (hrest ▸ hclose)
  | _, _, _, .cons hname hvalue hcomma hmembers, hfs, hcontinues => by
    obtain ⟨es, hes, hready⟩ := arrives_name hfs hcontinues hname
    have hend := ends_of_blanks hcomma (ends_cons (by simp) _)
    rw [memberEvents_cons]
    refine hes.append (fun q hq hrest => ?_) nofun
    refine (arrives_value hvalue hend (hready q hq hrest)).append (fun q hq hrest => ?_) nofun
    exact arrives_members hmembers hq (hrest ▸ .comma hcomma)

end

/-- A text that spells a tree is read as the events of the tree, and then to the end. -/
theorem runs_text {s : String} (h : Text d t s.toList) :
    ∃ q r, Runs (ofText s) t.events q ∧ next q = .ok none r := by
  obtain ⟨hblanks, hvalue, hmore⟩ := h
  have hready : Ready d (ofText s) [] _ := ready_outermost rfl rfl hblanks
  obtain ⟨q, hruns, hfs, hrest, hdone⟩ :=
    arrives_value hvalue (ends_of_blanks hmore nofun) hready
  obtain ⟨r, hnext, -⟩ := next_none hfs hdone (hrest ▸ hmore)
  exact ⟨q, r, hruns, hnext⟩

/-! ## From runs to the grammar -/

/-- The text goes on as the open objects and arrays need it: each of them has its members or
elements and is closed, the innermost first, and only blanks follow the last. -/
inductive Closes (d : Dialect) : List Frame → List Char → Prop
  | done {cs : List Char} : Blanks cs [] → Closes d [] cs
  | endObject {first : Bool} {fs : List Frame} {cs rest : List Char} :
    Blanks cs ('\x7d' :: rest) → Closes d fs rest → Closes d (.member first :: fs) cs
  | members {first : Bool} {fs : List Frame} {ms : List (String × Tree)} {cs ds rest : List Char} :
    Continues first cs ds → Members d ms ds rest → Closes d fs rest →
    Closes d (.member first :: fs) cs
  | value {fs : List Frame} {t : Tree} {cs ds es rest : List Char} : Blanks cs (':' :: ds) →
    Blanks ds es → Value d t es rest → Closes d (.member false :: fs) rest →
    Closes d (.value :: fs) cs
  | endArray {first : Bool} {fs : List Frame} {cs rest : List Char} :
    Blanks cs (']' :: rest) → Closes d fs rest → Closes d (.element first :: fs) cs
  | elements {first : Bool} {fs : List Frame} {ts : List Tree} {cs ds rest : List Char} :
    Continues first cs ds → Elements d ts ds rest → Closes d fs rest →
    Closes d (.element first :: fs) cs

/-- The beginning of a value that closes all frames it opens is a value. -/
theorem Begins.value_of_closes {fs' : List Frame} (h : Begins d fs cs e fs' rest)
    (hcloses : Closes d fs' rest) : ∃ t ds, Value d t cs ds ∧ Closes d fs ds := by
  cases h with
  | null => exact ⟨_, _, .null, hcloses⟩
  | true => exact ⟨_, _, .true, hcloses⟩
  | false => exact ⟨_, _, .false, hcloses⟩
  | number hw => exact ⟨_, _, .number hw, hcloses⟩
  | string hs => exact ⟨_, _, .string hs, hcloses⟩
  | array =>
    cases hcloses with
    | endArray hclose hrest => exact ⟨_, _, .emptyArray hclose, hrest⟩
    | elements hcontinues helements hrest =>
      cases hcontinues
      exact ⟨_, _, .array helements, hrest⟩
  | object =>
    cases hcloses with
    | endObject hclose hrest => exact ⟨_, _, .emptyObject hclose, hrest⟩
    | members hcontinues hmembers hrest =>
      cases hcontinues
      exact ⟨_, _, .object hmembers, hrest⟩

/-- A separator found by the parser is one that continues the list. -/
theorem Separates.continues {first : Bool} (h : Separates first ds rest) (hblanks : Blanks cs ds) :
    ∃ es, Continues first cs es ∧ Blanks es rest := by
  cases h with
  | first => exact ⟨cs, .first, hblanks⟩
  | comma hmore => exact ⟨_, .comma hblanks, hmore⟩

/-- What holds after a move within an object or array held before it. -/
theorem Moves.closes {fs' : List Frame} (h : Moves d fs ds e fs' rest) (hblanks : Blanks cs ds)
    (hcloses : Closes d fs' rest) (hfs : fs ≠ []) : Closes d fs cs := by
  cases h with
  | outermost => exact (hfs rfl).elim
  | endObject => exact .endObject hblanks hcloses
  | name hsep hchars =>
    obtain ⟨es, hcontinues, hmore⟩ := hsep.continues hblanks
    cases hcloses with
    | value hcolon hafter hvalue hcloses =>
      have hname := Name.mk hmore hchars hcolon hafter
      cases hcloses with
      | endObject hclose hrest =>
        exact .members hcontinues (.last hname hvalue hclose) hrest
      | members hnext hmembers hrest =>
        cases hnext with
        | comma hcomma =>
          exact .members hcontinues (.cons hname hvalue hcomma hmembers) hrest
  | value hmore hbegins =>
    obtain ⟨t, es, hvalue, hrest⟩ := hbegins.value_of_closes hcloses
    exact .value hblanks hmore hvalue hrest
  | endArray => exact .endArray hblanks hcloses
  | element hsep hbegins =>
    obtain ⟨es, hcontinues, hmore⟩ := hsep.continues hblanks
    obtain ⟨t, gs, hvalue, hcloses⟩ := hbegins.value_of_closes hcloses
    cases hcloses with
    | endArray hclose hrest =>
      exact .elements hcontinues (.last hmore hvalue hclose) hrest
    | elements hnext helements hrest =>
      cases hnext with
      | comma hcomma =>
        exact .elements hcontinues (.cons hmore hvalue hcomma helements) hrest

/-- A run that ends the text closes all frames. -/
theorem Runs.closes (h : Runs p es q) (hend : next q = .ok none r)
    (hdone : p.frames = [] → p.done = true) : Closes .signed p.frames p.input.rest := by
  induction h with
  | nil =>
    obtain ⟨hfs, -, hblanks⟩ := next_none_sound hend
    rw [hfs]
    exact .done hblanks
  | cons hnext _ _ ih =>
    obtain ⟨e, cs, -, hblanks, hmoves, hleaves, hmore⟩ := moves_of_next hnext
    refine hmoves.closes hblanks (ih hend fun hfs => ?_) fun hfs => ?_
    · rw [hleaves.done, hfs]
      exact Bool.or_true _
    · cases (hmore hfs).symm.trans (hdone hfs)

/-- A text that is read to the end spells a tree. -/
theorem text_of_runs {s : String} (h : Accepts (ofText s)) : ∃ t, Text .signed t s.toList := by
  obtain ⟨es, q, r, hruns, hend⟩ := h
  cases hruns with
  | nil =>
    obtain ⟨-, hdone, -⟩ := next_none_sound hend
    cases hdone
  | @cons _ p₁ _ _ _ hnext _ hruns =>
    obtain ⟨e, cs, -, hblanks, hmoves, hleaves, -⟩ := moves_of_next hnext
    have hcloses := hruns.closes hend fun hfs => by rw [hleaves.done, hfs]; rfl
    generalize p₁.frames = fs at hmoves hcloses
    generalize p₁.input.rest = rest at hmoves hcloses
    cases hmoves with
    | outermost hbegins =>
      obtain ⟨t, ds, hvalue, hcloses⟩ := hbegins.value_of_closes hcloses
      cases hcloses with
      | done hmore => exact ⟨t, .mk hblanks hvalue hmore⟩

/-! ## Well-formed texts -/

/-- A text is JSON just if it can be read to the end and no escape in it has a plus sign. -/
theorem wellFormed_iff (s : String) :
    WellFormed s ↔ Accepts (ofText s) ∧ plusEscape s.toList = false := by
  constructor
  · rintro ⟨t, ht⟩
    obtain ⟨q, r, hruns, hnext⟩ := runs_text ht
    exact ⟨⟨_, q, r, hruns, hnext⟩, (plain_text ht).standard⟩
  · rintro ⟨haccepts, hplus⟩
    obtain ⟨t, ht⟩ := text_of_runs haccepts
    rcases plain_text ht with ⟨hstandard, -⟩ | ⟨-, hsigned⟩
    · exact ⟨t, hstandard⟩
    · cases hplus.symm.trans hsigned

/-- The plus sign is read as the digit whose place it takes, and the text is not JSON. -/
theorem accepts_plusEscape :
    Accepts (ofText "\"\\u+041\"") ∧ ¬ WellFormed "\"\\u+041\"" := by
  constructor
  · have hunit : CodeUnit .signed 0x41 ['+', '0', '4', '1'] :=
      .plus (x := 0) (y := 4) (z := 1) rfl rfl rfl
    have hchars : Chars .signed "A".toList ['\\', 'u', '+', '0', '4', '1', '"'] [] :=
      .cons (.unit hunit (by decide)) .close
    have htext : Text .signed (.string "A") "\"\\u+041\"".toList :=
      .mk .done (.string hchars) .done
    obtain ⟨q, r, hruns, hnext⟩ := runs_text htext
    exact ⟨_, q, r, hruns, hnext⟩
  · rintro ⟨t, ht⟩
    exact absurd (plain_text ht).standard (by decide)

end Wireform.Json.Pull
