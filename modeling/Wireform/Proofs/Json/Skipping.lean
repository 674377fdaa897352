import Wireform.Proofs.Json.Building

/-!
# What is read over

Every token that a pull gives is the beginning of a run (`exists_at_of_next`), and what a pull has
read is determined by where it started and where it stopped (`Runs.tree_unique`). Skipping ends
behind the value that it started in: what is read over are the events of one tree
(`completes_of_skipChildren`).
-/

namespace Wireform.Json.Pull

open Grammar

variable {p q r : Pull} {e : Event} {es es' : List Event} {t u : Tree} {o : Option Token}
  {fs fs' : List Frame} {cs rest : List Char} {first : Bool} {b n : Nat}

/-! ## Runs from calls -/

theorem exists_at_of_next {t : Token} (h : next p = .ok (some t) q) :
    ∃ e, e.token = t ∧ Runs p [e] q ∧ q.At e := by
  have htoken : (q.event t).token = t := by cases t <;> rfl
  have hat : q.At (q.event t) := ⟨htoken.symm ▸ current_of_next h, by rw [htoken]⟩
  exact ⟨q.event t, htoken, .one (htoken.symm ▸ h) hat, hat⟩

/-- A parser is at one event only. -/
theorem At.unique {e' : Event} (h : q.At e) (h' : q.At e') : e = e' := by
  have htoken : e.token = e'.token := Option.some.inj (h.1.symm.trans h'.1)
  rw [← h.2, htoken, h'.2]

/-- No other events lead from one state to another. -/
theorem Runs.unique (h : Runs p es q) (h' : Runs p es' q) : es = es' := by
  induction h generalizing es' with
  | nil =>
    have hle := h'.length_le
    exact (List.length_eq_zero_iff.1 (by omega)).symm
  | cons hnext he hruns ih =>
    cases h' with
    | nil =>
      have hle := (Runs.cons hnext he hruns).length_le
      rw [List.length_cons] at hle
      omega
    | cons hnext' he' hruns' =>
      obtain ⟨-, rfl⟩ := EStateM.Result.ok.inj (hnext.symm.trans hnext')
      rw [he.unique he', ih hruns']

/-- One tree is run over from one place to another. -/
theorem Runs.tree_unique (h : Runs p t.events q) (h' : Runs p u.events q) : t = u := by
  have htree := congrArg Tree.ofEvents? (h.unique h')
  rw [Tree.ofEvents?_events, Tree.ofEvents?_events] at htree
  exact Option.some.inj htree

/-! ## Frames after a move -/

/-- What one event leads to. -/
theorem moves_of_run (h : Runs p [e] q) :
    ∃ cs, Moves .signed p.frames cs e q.frames q.input.rest := by
  cases h with
  | cons hnext he hnil =>
    cases hnil
    obtain ⟨e', cs, htoken, -, hmoves, hleaves, -⟩ := moves_of_next hnext
    obtain rfl : e' = e := by rw [← hleaves.event, htoken, he.2]
    exact ⟨cs, hmoves⟩

theorem begins_of_value (hfs : p.frames = .value :: fs) (h : Runs p [e] q) :
    ∃ cs, Begins .signed (.member false :: fs) cs e q.frames q.input.rest := by
  obtain ⟨cs, hmoves⟩ := moves_of_run h
  rw [hfs] at hmoves
  cases hmoves with
  | value _ hbegins => exact ⟨_, hbegins⟩

/-- Behind a name the parser waits for its value. -/
theorem frames_of_name {s : String} (h : Runs p [.name s] q) : ∃ fs, q.frames = .value :: fs := by
  obtain ⟨cs, hmoves⟩ := moves_of_run h
  generalize hevent : Event.name s = e at hmoves
  generalize p.frames = fs at hmoves
  generalize q.frames = fs' at hmoves
  cases hmoves with
  | name => exact ⟨_, rfl⟩
  | outermost hbegins | value _ hbegins | element _ hbegins => cases hbegins <;> cases hevent
  | _ => cases hevent

/-! ## Skipping -/

theorem skipOpen_succ (b n : Nat) : skipOpen (b + 1) n = (do
    match ← next with
    | none => throw (.unexpectedEnd (← get).position)
    | some t =>
      if t.opens then skipOpen b (n + 1)
      else if t.closes then
        match n with
        | 0 => pure ()
        | n + 1 => skipOpen b n
      else skipOpen b n) := rfl

/-- One step of the skip depends on the token alone: it opens, it closes, or it does neither. -/
theorem skipOpen_next {b n : Nat} (h : next p = .ok (some e.token) q) :
    skipOpen (b + 1) n p =
      (if e.token.opens then skipOpen b (n + 1)
      else if e.token.closes then
        match n with
        | 0 => pure ()
        | n + 1 => skipOpen b n
      else skipOpen b n) q := by
  rw [skipOpen_succ, Step.bind_apply, h]

/-- Skipping leads from one state to the other, with so many objects and arrays to be closed. -/
def Skips (b : Nat) : (opened : Nat) → Pull → Pull → Prop
  | 0, p, q => p = q
  | n + 1, p, q => skipOpen b n p = .ok () q

/-- What a token leaves to be closed. -/
def stillOpen (t : Token) (n : Nat) : Nat :=
  if t.opens then n + 1 else if t.closes then n - 1 else n

/-- A skip starts with a move. -/
theorem exists_of_skips (h : Skips b (n + 1) p q) :
    ∃ b' e p', b = b' + 1 ∧ Runs p [e] p' ∧ Skips b' (stillOpen e.token (n + 1)) p' q := by
  cases b with
  | zero => cases h
  | succ b =>
    obtain ⟨o, p', hnext, hrest⟩ := Step.bind_eq_ok.1 h
    cases o with
    | none => cases hrest
    | some t =>
      obtain ⟨e, rfl, hruns, -⟩ := exists_at_of_next hnext
      refine ⟨b, e, p', rfl, hruns, ?_⟩
      dsimp only at hrest
      unfold stillOpen
      split
      · next hopens =>
        rw [if_pos hopens] at hrest
        exact hrest
      · next hopens =>
        rw [if_neg hopens] at hrest
        split
        · next hcloses =>
          rw [if_pos hcloses] at hrest
          cases n with
          | zero =>
            cases hrest
            rfl
          | succ n => exact hrest
        · next hcloses =>
          rw [if_neg hcloses] at hrest
          exact hrest

/-- Within a budget, what is left of an object or an array is read over up to its end. -/
structure ReadsOver (b : Nat) : Prop where
  members {n : Nat} {p q : Pull} {first : Bool} {fs : List Frame} :
    p.frames = .member first :: fs → Skips b (n + 1) p q →
    ∃ members p' b', Runs p (Tree.memberEvents members ++ [.endObject]) p' ∧ p'.frames = fs ∧
      b' < b ∧ Skips b' n p' q
  items {n : Nat} {p q : Pull} {first : Bool} {fs : List Frame} :
    p.frames = .element first :: fs → Skips b (n + 1) p q →
    ∃ items p' b', Runs p (Tree.itemEvents items ++ [.endArray]) p' ∧ p'.frames = fs ∧
      b' < b ∧ Skips b' n p' q

/-- The rest of a value whose first event has been read. -/
theorem ReadsOver.value (h : ∀ b' ≤ b, ReadsOver b')
    (hbegins : Begins .signed fs cs e p.frames rest) (hskips : Skips b (stillOpen e.token n) p q) :
    ∃ (t : Tree) (es : List Event) (p' : Pull) (b' : Nat), t.events = e :: es ∧ Runs p es p' ∧
      p'.frames = fs ∧ b' ≤ b ∧ Skips b' n p' q := by
  generalize hframes : p.frames = fs' at hbegins
  cases hbegins with
  | null => exact ⟨.null, [], p, b, rfl, .nil, hframes, Nat.le_refl _, hskips⟩
  | true | false => exact ⟨.bool _, [], p, b, rfl, .nil, hframes, Nat.le_refl _, hskips⟩
  | number => exact ⟨.number _, [], p, b, rfl, .nil, hframes, Nat.le_refl _, hskips⟩
  | string => exact ⟨.string _, [], p, b, rfl, .nil, hframes, Nat.le_refl _, hskips⟩
  | array =>
    obtain ⟨items, p', b', hruns, hfs, hlt, hskips⟩ := (h b (Nat.le_refl _)).items hframes hskips
    exact ⟨.array items, _, p', b', rfl, hruns, hfs, Nat.le_of_lt hlt, hskips⟩
  | object =>
    obtain ⟨members, p', b', hruns, hfs, hlt, hskips⟩ :=
      (h b (Nat.le_refl _)).members hframes hskips
    exact ⟨.object members, _, p', b', rfl, hruns, hfs, Nat.le_of_lt hlt, hskips⟩

/-- A skip that succeeds has run over whole trees and the ends of what was open. -/
theorem readsOver (b : Nat) : ReadsOver b := by
  induction b using Nat.strongRecOn with
  | ind b ih =>
    constructor
    · intro n p q first fs hfs hskips
      obtain ⟨b, e, p₁, rfl, hruns, hskips⟩ := exists_of_skips hskips
      obtain ⟨cs, hmoves⟩ := moves_of_run hruns
      rw [hfs] at hmoves
      generalize hframes : p₁.frames = fs₁ at hmoves
      cases hmoves with
      | endObject => exact ⟨[], p₁, b, hruns, hframes, Nat.lt_succ_self b, hskips⟩
      | @name _ _ s =>
        obtain ⟨b₁, e, p₂, rfl, hvalue, hskips⟩ := exists_of_skips hskips
        obtain ⟨cs, hbegins⟩ := begins_of_value hframes hvalue
        obtain ⟨t, es, p₃, b₂, ht, hrest, hfs, hle, hskips⟩ :=
          ReadsOver.value (fun b' hb' => ih b' (by omega)) hbegins hskips
        obtain ⟨members, p', b', hmembers, hfs, hlt, hskips⟩ :=
          (ih b₂ (by omega)).members hfs hskips
        have hall := hruns.append (hvalue.append (hrest.append hmembers))
        refine ⟨(s, t) :: members, p', b', ?_, hfs, by omega, hskips⟩
        simpa [Tree.memberEvents, ht] using hall
    · intro n p q first fs hfs hskips
      obtain ⟨b, e, p₁, rfl, hruns, hskips⟩ := exists_of_skips hskips
      obtain ⟨cs, hmoves⟩ := moves_of_run hruns
      rw [hfs] at hmoves
      generalize hframes : p₁.frames = fs₁ at hmoves
      cases hmoves with
      | endArray => exact ⟨[], p₁, b, hruns, hframes, Nat.lt_succ_self b, hskips⟩
      | element _ hbegins =>
        obtain ⟨t, es, p₂, b₁, ht, hrest, hfs, hle, hskips⟩ :=
          ReadsOver.value (fun b' hb' => ih b' (by omega)) (hframes ▸ hbegins) hskips
        obtain ⟨items, p', b', hitems, hfs, hlt, hskips⟩ := (ih b₁ (by omega)).items hfs hskips
        have hall := hruns.append (hrest.append hitems)
        refine ⟨t :: items, p', b', ?_, hfs, by omega, hskips⟩
        simpa [Tree.itemEvents, ht] using hall

/-- The event makes up one tree with what is read on the way. -/
def Completes (e : Event) (p q : Pull) : Prop :=
  ∃ (t : Tree) (es : List Event), t.events = e :: es ∧ Runs p es q

/-- A value whose first event was read and whose rest was skipped is one tree. -/
theorem Completes.exists_runs (h : Completes e q r) (hruns : Runs p [e] q) :
    ∃ t : Tree, Runs p t.events r := by
  obtain ⟨t, es, ht, hrest⟩ := h
  refine ⟨t, ?_⟩
  rw [ht]
  exact hruns.append hrest

/-- Skipping after the first event of a value takes the pull behind that value. -/
theorem completes_of_skipChildren (hbegins : Begins .signed fs cs e p.frames rest) (hp : p.At e)
    (h : skipChildren p = .ok () q) : Completes e p q := by
  rw [skipChildren, Step.bind_apply, Step.get_apply] at h
  simp only [hp.1, Option.any_some] at h
  have hskips : Skips p.budget (stillOpen e.token 0) p q := by
    unfold stillOpen
    split
    · next hopens =>
      rw [if_pos hopens] at h
      exact h
    · next hopens =>
      rw [if_neg hopens] at h
      cases h
      split <;> rfl
  obtain ⟨t, es, p', b', ht, hruns, -, -, hrest⟩ :=
    ReadsOver.value (fun b _ => readsOver b) hbegins hskips
  cases hrest
  exact ⟨t, es, ht, hruns⟩

end Wireform.Json.Pull
