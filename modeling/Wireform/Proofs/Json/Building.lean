import Wireform.Proofs.Json.Runs

/-!
# Trees and the events that spell them

The events of a tree build that tree (`ofEvents?_events`), whatever is open around them
(`build_events`). So the tree that a text spells is the one that is made of the text
(`ofText?_of_text`), and a text spells no other (`tree_unique`).
-/

namespace Wireform.Json

namespace Tree

variable {t : Tree}

/-- The events of a list are those of its parts. -/
theorem itemEvents_append (items more : List Tree) :
    itemEvents (items ++ more) = itemEvents items ++ itemEvents more := by
  induction items with
  | nil => rfl
  | cons t items ih => rw [List.cons_append, itemEvents, itemEvents, ih, List.append_assoc]

/-- The events of members are those of their parts. -/
theorem memberEvents_append (members more : List (String × Tree)) :
    memberEvents (members ++ more) = memberEvents members ++ memberEvents more := by
  induction members with
  | nil => rfl
  | cons m members ih => simp only [List.cons_append, memberEvents, ih, List.append_assoc]

theorem mem_itemEvents {e : Event} {items : List Tree} (h : t ∈ items) (he : e ∈ t.events) :
    e ∈ itemEvents items := by
  obtain ⟨before, after, rfl⟩ := List.append_of_mem h
  rw [itemEvents_append, itemEvents]
  exact List.mem_append_right _ (List.mem_append_left _ he)

theorem mem_memberEvents {e : Event} {name : String} {members : List (String × Tree)}
    (h : (name, t) ∈ members) (he : e ∈ t.events) : e ∈ memberEvents members := by
  obtain ⟨before, after, rfl⟩ := List.append_of_mem h
  rw [memberEvents_append, memberEvents, List.cons_append]
  exact List.mem_append_right _ (List.mem_cons_of_mem _ (List.mem_append_left _ he))

/-- A number within a tree is one of the events. -/
theorem number_mem_events {w : String} (h : (number w).Within t) : .number w ∈ t.events := by
  induction h with
  | self => exact List.mem_cons_self
  | item _ hmem ih =>
    rw [events, List.cons_append]
    exact List.mem_cons_of_mem _ (List.mem_append_left _ (mem_itemEvents hmem ih))
  | member _ hmem ih =>
    rw [events, List.cons_append]
    exact List.mem_cons_of_mem _ (List.mem_append_left _ (mem_memberEvents hmem ih))

/-- What building goes on with once a tree is complete; `outer` is open around it. -/
def placed (t : Tree) (rest : List Event) : List Open → Option Tree
  | [] => if rest.isEmpty then some t else none
  | .array items :: outer => build rest (.array (t :: items) :: outer)
  | .object members (some name) :: outer => build rest (.object ((name, t) :: members) none :: outer)
  | .object _ none :: _ => none

theorem build_startArray (rest : List Event) (outer : List Open) :
    build (.startArray :: rest) outer = build rest (.array [] :: outer) := by
  rcases outer with _ | ⟨_ | ⟨_, _ | _⟩, _⟩ <;> rfl

theorem build_startObject (rest : List Event) (outer : List Open) :
    build (.startObject :: rest) outer = build rest (.object [] none :: outer) := by
  rcases outer with _ | ⟨_ | ⟨_, _ | _⟩, _⟩ <;> rfl

/-- The end of an array makes its items one tree, in the order they came. -/
theorem build_endArray (items : List Tree) (rest : List Event) (outer : List Open) :
    build (.endArray :: rest) (.array items :: outer) = placed (.array items.reverse) rest outer := by
  rcases outer with _ | ⟨_ | ⟨_, _ | _⟩, _⟩ <;> rfl

/-- The end of an object makes its members one tree, in the order they came. -/
theorem build_endObject (members : List (String × Tree)) (rest : List Event) (outer : List Open) :
    build (.endObject :: rest) (.object members none :: outer) =
      placed (.object members.reverse) rest outer := by
  rcases outer with _ | ⟨_ | ⟨_, _ | _⟩, _⟩ <;> rfl

mutual

/-- Building on the events of a tree places that tree. By recursion over the tree, together with its
items and its members. -/
theorem build_events : (t : Tree) → (rest : List Event) → (outer : List Open) →
    build (t.events ++ rest) outer = placed t rest outer
  | .null, _, outer | .bool _, _, outer | .number _, _, outer | .string _, _, outer => by
    rcases outer with _ | ⟨_ | ⟨_, _ | _⟩, _⟩ <;> rfl
  | .array items, rest, outer => by
    rw [events, List.cons_append, List.cons_append, List.append_assoc, build_startArray,
      build_itemEvents, List.append_nil, List.singleton_append, build_endArray, List.reverse_reverse]
  | .object members, rest, outer => by
    rw [events, List.cons_append, List.cons_append, List.append_assoc, build_startObject,
      build_memberEvents, List.append_nil, List.singleton_append, build_endObject,
      List.reverse_reverse]

/-- The events of items are built onto the items found so far. -/
theorem build_itemEvents : (items found : List Tree) → (rest : List Event) → (outer : List Open) →
    build (itemEvents items ++ rest) (.array found :: outer) =
      build rest (.array (items.reverse ++ found) :: outer)
  | [], _, _, _ => rfl
  | t :: items, found, rest, outer => by
    rw [itemEvents, List.append_assoc, build_events, placed, build_itemEvents, List.reverse_cons,
      List.append_assoc, List.singleton_append]

/-- The events of members are built onto the members found so far. -/
theorem build_memberEvents : (members found : List (String × Tree)) → (rest : List Event) →
    (outer : List Open) → build (memberEvents members ++ rest) (.object found none :: outer) =
      build rest (.object (members.reverse ++ found) none :: outer)
  | [], _, _, _ => rfl
  | (name, t) :: members, found, rest, outer => by
    have hname (es : List Event) : build (.name name :: es) (.object found none :: outer) =
        build es (.object found (some name) :: outer) := rfl
    rw [memberEvents, List.cons_append, List.cons_append, List.append_assoc, hname, build_events,
      placed, build_memberEvents, List.reverse_cons, List.append_assoc, List.singleton_append]

end

/-- A tree is built of its events. -/
theorem ofEvents?_events (t : Tree) : ofEvents? t.events = some t := by
  have hbuild := build_events t [] []
  rw [List.append_nil] at hbuild
  exact hbuild

end Tree

namespace Pull

variable {p q r : Pull} {es : List Event}

/-- What a pull reads up to the end is gathered, if the budget has room for it. -/
theorem Runs.eventsOnto (h : Runs p es q) (hend : next q = .ok none r) {budget : Nat}
    (hbudget : es.length < budget) (found : List Event) :
    Pull.eventsOnto budget found p = .ok (found.reverse ++ es) r := by
  induction h generalizing budget found with
  | nil =>
    obtain ⟨budget, rfl⟩ := Nat.exists_eq_succ_of_ne_zero (Nat.ne_of_gt hbudget)
    rw [Pull.eventsOnto, Step.bind_apply, hend, List.append_nil]
    rfl
  | @cons p q _ e es hnext he _ ih =>
    obtain ⟨budget, rfl⟩ := Nat.exists_eq_succ_of_ne_zero (Nat.ne_of_gt (Nat.zero_lt_of_lt hbudget))
    rw [Pull.eventsOnto, Step.bind_apply, hnext]
    dsimp only
    rw [Step.bind_apply, Step.get_apply]
    dsimp only
    rw [he.2, ih hend (Nat.lt_of_succ_lt_succ hbudget), List.reverse_cons, List.append_assoc]
    rfl

theorem Runs.events (h : Runs p es q) (hend : next q = .ok none r) : Pull.events p = .ok es r := by
  rw [Pull.events, Step.bind_apply, Step.get_apply]
  exact h.eventsOnto hend (Nat.lt_succ_of_le (Nat.le_trans (Nat.le_add_right _ _) h.length_le)) []

end Pull

namespace Tree

open Grammar

variable {d d' : Dialect} {t u : Tree} {s : String}

/-- A text is parsed into the tree that the grammar gives it. -/
theorem ofText?_of_text (h : Text d t s.toList) : ofText? s = some t := by
  obtain ⟨q, r, hruns, hend⟩ := Pull.runs_text h
  rw [ofText?, hruns.events hend]
  exact ofEvents?_events t

/-- A text spells one tree only. -/
theorem tree_unique (h : Text d t s.toList) (h' : Text d' u s.toList) : t = u :=
  Option.some.inj ((ofText?_of_text h).symm.trans (ofText?_of_text h'))

end Tree

end Wireform.Json
