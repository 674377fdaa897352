import Wireform.Document.Read
import Wireform.Document.Tree
import Wireform.Proofs.Json.Delivery
import Wireform.Proofs.Json.Skipping

/-!
# Reading events

What the reader of documents makes of a run of events, in terms of what is computed from the tree
that the events spell: a read agrees with a computation if both give the same or both fail
(`Agrees`). The loops of the reader are folds over what stands between the beginning and the end of
an object or array (`agrees_gather`), and what is skipped is read over in full
(`skipChildren_events`).
-/

namespace Wireform.Document

open Json (DocumentError Event Pull Token Tree)
open Json.Pull (Runs skipOpen_next)

variable {α β σ : Type} {x y : Except ModelError α} {p q r : Pull} {e : Event}
  {es : List Event} {t : Tree} {a : α} {s : String}

/-- What has been read is what has been computed, and it took the pull to `q`; or both failed. -/
structure Agrees (x : Except ModelError α) (result : EStateM.Result ModelError Pull α) (q : Pull) :
    Prop where
  ok : ∀ a, x = .ok a → result = .ok a q
  error : ∀ e, x = .error e → ∃ e' p, result = .error e' p

namespace Agrees

variable {result : EStateM.Result ModelError Pull α}

theorem pure (a : α) (q : Pull) : Agrees (.ok a) (.ok a q) q := by
  constructor
  · rintro _ ⟨⟩
    rfl
  · rintro _ ⟨⟩

theorem fail (e e' : ModelError) (p q : Pull) :
    Agrees (.error e : Except ModelError α) (.error e' p) q := by
  constructor
  · rintro _ ⟨⟩
  · exact fun _ _ => ⟨e', p, rfl⟩

/-- A sequence agrees if its parts do, whatever state lies between them. -/
theorem bind {X : Read α} {f : α → Except ModelError β} {F : α → Read β} (h : Agrees x (X p) q)
    (hf : ∀ a, x = .ok a → Agrees (f a) (F a q) r) : Agrees (x >>= f) ((X >>= F) p) r := by
  rw [Step.bind_apply]
  cases x with
  | ok a =>
    rw [h.ok a rfl]
    exact hf a rfl
  | error e =>
    obtain ⟨e', p', herror⟩ := h.error e rfl
    rw [herror]
    exact fail e e' p' r

theorem map {X : Read α} (f : α → β) (h : Agrees x (X p) q) :
    Agrees (f <$> x) ((f <$> X) p) q := by
  rw [Step.map_apply]
  cases x with
  | ok a =>
    rw [h.ok a rfl]
    exact pure (f a) q
  | error e =>
    obtain ⟨e', p', herror⟩ := h.error e rfl
    rw [herror]
    exact fail e e' p' q

/-- Which failure is met does not matter. -/
theorem congr (h : Agrees x result q) (hxy : ∀ a, x = .ok a ↔ y = .ok a) : Agrees y result q := by
  constructor
  · exact fun a ha => h.ok a ((hxy a).2 ha)
  · intro e he
    cases hx : x with
    | ok a => cases he.symm.trans ((hxy a).1 hx)
    | error e' => exact h.error e' hx

theorem iff (h : Agrees x result q) (a : α) : (∃ p, result = .ok a p) ↔ x = .ok a := by
  constructor
  · rintro ⟨p, hp⟩
    cases x with
    | ok b =>
      cases hp.symm.trans (h.ok b rfl)
      rfl
    | error e =>
      obtain ⟨_, _, herror⟩ := h.error e rfl
      cases hp.symm.trans herror
  · exact fun ha => ⟨q, h.ok a ha⟩

end Agrees

/-! ## Runs -/

theorem pull_next (h : Pull.next p = .ok (some e.token) q) :
    pull Pull.next p = .ok (some e.token) q := by
  rw [pull, Step.adaptExcept_apply, h]

/-- Along a run the next token is that of the next event. -/
theorem agrees_next {F : Option Token → Read α} (h : Runs p (e :: es) q)
    (hF : ∀ p', p'.At e → Runs p' es q → Agrees x (F (some e.token) p') r) :
    Agrees x ((pull Pull.next >>= F) p) r := by
  cases h with
  | cons hnext he hruns =>
    rw [Step.bind_apply, pull_next hnext]
    exact hF _ he hruns

/-! ## Contents -/

theorem content_of_ok {get : Pull → Except DocumentError α} (h : get p = .ok a)
    (report : DocumentError → ModelError) : content get report p = .ok a p := by
  rw [content, h]

theorem currentText_of_at (h : p.At (.string s)) : currentText p = .ok s p :=
  content_of_ok h.stringText .document

theorem currentName_of_at (h : p.At (.name s)) : currentName p = .ok s p := by
  have hname : p.name.getD "" = s := Event.name.inj h.2
  rw [currentName, Step.bind_apply, Step.get_apply, ← hname]
  rfl

theorem agrees_content {get : Pull → Except DocumentError α} {report : DocumentError → ModelError}
    {o : Option α} {e : DocumentError} (h : get p = o.elim (.error e) .ok) (site : Site)
    (reason : Reason) : Agrees (required site reason o) (content get report p) p := by
  rw [content, h]
  cases o with
  | none => exact .fail _ _ p p
  | some a => exact .pure a p

/-! ## Skipping -/

mutual

/-- What a tree opens it closes again. -/
theorem skipOpen_events {b n : Nat} {p q : Pull} : (t : Tree) → Runs p t.events q →
    Pull.skipOpen (b + t.events.length) n p = Pull.skipOpen b n q
  | .null, .cons hnext _ .nil => skipOpen_next hnext
  | .bool _, .cons hnext _ .nil => skipOpen_next hnext
  | .number _, .cons hnext _ .nil => skipOpen_next hnext
  | .string _, .cons hnext _ .nil => skipOpen_next hnext
  | .array items, .cons hnext _ hruns => by
    obtain ⟨r, hitems, hend⟩ := hruns.split
    cases hend with
    | cons hend _ hnil =>
      cases hnil
      have hlength : b + (Tree.array items).events.length =
          (b + 1) + (Tree.itemEvents items).length + 1 := by
        simp only [Tree.events, List.length_append, List.length_cons, List.length_nil]
        omega
      rw [hlength, skipOpen_next hnext]
      refine Eq.trans (skipOpen_items items hitems) ?_
      exact skipOpen_next hend
  | .object members, .cons hnext _ hruns => by
    obtain ⟨r, hmembers, hend⟩ := hruns.split
    cases hend with
    | cons hend _ hnil =>
      cases hnil
      have hlength : b + (Tree.object members).events.length =
          (b + 1) + (Tree.memberEvents members).length + 1 := by
        simp only [Tree.events, List.length_append, List.length_cons, List.length_nil]
        omega
      rw [hlength, skipOpen_next hnext]
      refine Eq.trans (skipOpen_members members hmembers) ?_
      exact skipOpen_next hend

theorem skipOpen_items {b n : Nat} {p q : Pull} : (items : List Tree) →
    Runs p (Tree.itemEvents items) q →
    Pull.skipOpen (b + (Tree.itemEvents items).length) n p = Pull.skipOpen b n q
  | [], .nil => rfl
  | t :: items, hruns => by
    obtain ⟨r, ht, hitems⟩ := hruns.split
    rw [Tree.itemEvents, List.length_append, Nat.add_comm t.events.length, ← Nat.add_assoc,
      skipOpen_events t ht, skipOpen_items items hitems]

theorem skipOpen_members {b n : Nat} {p q : Pull} : (members : List (String × Tree)) →
    Runs p (Tree.memberEvents members) q →
    Pull.skipOpen (b + (Tree.memberEvents members).length) n p = Pull.skipOpen b n q
  | [], .nil => rfl
  | (name, t) :: members, .cons hnext _ hruns => by
    obtain ⟨r, ht, hmembers⟩ := hruns.split
    have hlength : b + (Tree.memberEvents ((name, t) :: members)).length =
        b + (Tree.memberEvents members).length + t.events.length + 1 := by
      simp only [Tree.memberEvents, List.length_append, List.length_cons]
      omega
    rw [hlength, skipOpen_next hnext]
    exact (skipOpen_events t ht).trans (skipOpen_members members hmembers)

end

/-- From an opening token the skip leads to the end of its value. -/
theorem skipChildren_open {last : Event} (he : p.At e) (hopens : e.token.opens = true)
    (h : Runs p (es ++ [last]) q)
    (hes : ∀ b r, Runs p es r → Pull.skipOpen (b + es.length) 0 p = Pull.skipOpen b 0 r)
    (hopen : last.token.opens = false) (hclose : last.token.closes = true) :
    Pull.skipChildren p = .ok () q := by
  obtain ⟨b, hb⟩ : ∃ b, p.budget = (b + 1) + es.length := by
    have hle := h.length_le
    rw [List.length_append, List.length_singleton] at hle
    exact ⟨p.budget - es.length - 1, by rw [Pull.budget]; omega⟩
  obtain ⟨r, hruns, hend⟩ := h.split
  cases hend with
  | cons hend _ hnil =>
    cases hnil
    rw [Pull.skipChildren, Step.bind_apply, Step.get_apply]
    simp only [he.1, Option.any_some, hopens, if_true]
    rw [hb, hes _ r hruns, skipOpen_next hend]
    simp only [hopen, hclose, if_true]
    rfl

/-- After the first token of a value the rest of it is skipped. -/
theorem skipChildren_events (ht : t.events = e :: es) (he : p.At e) (h : Runs p es q) :
    Pull.skipChildren p = .ok () q := by
  cases t with
  | array items =>
    obtain ⟨rfl, rfl⟩ := List.cons.inj ht
    exact skipChildren_open he rfl h (fun _ _ hr => skipOpen_items items hr) rfl rfl
  | object members =>
    obtain ⟨rfl, rfl⟩ := List.cons.inj ht
    exact skipChildren_open he rfl h (fun _ _ hr => skipOpen_members members hr) rfl rfl
  | _ =>
    cases ht
    cases h
    rw [Pull.skipChildren, Step.bind_apply, Step.get_apply]
    simp only [he.1]
    rfl

/-! ## Loops -/

section
variable {last : Event} (atEnd : Read σ) (step : Token → σ → Read σ)
  (f : σ → β → Except ModelError σ) {head : β → Event} {rest : β → List Event}

theorem agrees_gatherWithin (I : σ → Prop) {xs : List β} {budget : Nat}
    (hlast : ∀ x ∈ xs, (head x).token ≠ last.token)
    (hstep : ∀ x ∈ xs, ∀ found p q, I found → p.At (head x) → Runs p (rest x) q →
      Agrees (f found x) (step (head x).token found p) q)
    (hkeep : ∀ x ∈ xs, ∀ found found', I found → f found x = .ok found' → I found')
    (h : Runs p (xs.flatMap (fun x => head x :: rest x) ++ [last]) q) (hbudget : xs.length < budget)
    {found : σ} (hfound : I found) :
    Agrees (xs.foldlM f found) (gatherWithin last.token atEnd step budget found p) q := by
  induction xs generalizing p budget found with
  | nil =>
    obtain ⟨budget, rfl⟩ : ∃ n, budget = n + 1 := ⟨budget - 1, by omega⟩
    rw [gatherWithin]
    refine agrees_next h fun p' _ hruns => ?_
    cases hruns
    dsimp only
    rw [if_pos rfl]
    exact .pure found _
  | cons x xs ih =>
    obtain ⟨budget, rfl⟩ : ∃ n, budget = n + 1 := ⟨budget - 1, by omega⟩
    rw [List.length_cons] at hbudget
    rw [List.flatMap_cons, List.append_assoc] at h
    rw [gatherWithin, List.foldlM_cons]
    refine agrees_next h fun p' hp hruns => ?_
    obtain ⟨r, hx, hxs⟩ := hruns.split
    dsimp only
    rw [if_neg (hlast x List.mem_cons_self)]
    refine (hstep x List.mem_cons_self found p' r hfound hp hx).bind fun found' hfound' => ?_
    exact ih (fun y hy => hlast y (List.mem_cons_of_mem _ hy))
      (fun y hy => hstep y (List.mem_cons_of_mem _ hy))
      (fun y hy => hkeep y (List.mem_cons_of_mem _ hy)) hxs (by omega)
      (hkeep x List.mem_cons_self found found' hfound hfound')

/-- A loop of the reader folds what it does with each part over the parts up to the last token; `I`
is what the fold keeps true of what has been found. -/
theorem agrees_gather (I : σ → Prop) {xs : List β}
    (hlast : ∀ x ∈ xs, (head x).token ≠ last.token)
    (hstep : ∀ x ∈ xs, ∀ found p q, I found → p.At (head x) → Runs p (rest x) q →
      Agrees (f found x) (step (head x).token found p) q)
    (hkeep : ∀ x ∈ xs, ∀ found found', I found → f found x = .ok found' → I found')
    (h : Runs p (xs.flatMap (fun x => head x :: rest x) ++ [last]) q) (found : σ)
    (hfound : I found) :
    Agrees (xs.foldlM f found) (gather last.token atEnd step found p) q := by
  refine agrees_gatherWithin atEnd step f I hlast hstep hkeep h ?_ hfound
  have hle := h.length_le
  have hxs : xs.length ≤ (xs.flatMap fun x => head x :: rest x).length := by
    clear h hle hlast hstep hkeep
    induction xs with
    | nil => exact Nat.le_refl _
    | cons x xs ih =>
      rw [List.flatMap_cons, List.length_append, List.length_cons, List.length_cons]
      omega
  rw [List.length_append, List.length_singleton] at hle
  rw [Pull.budget]
  omega

end

end Wireform.Document
