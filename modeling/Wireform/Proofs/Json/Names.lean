import Wireform.Proofs.Along
import Wireform.Proofs.Json.Compact
import Wireform.Proofs.Json.Delivery

/-!
# The name that a pull shows

A pull remembers one name, the latest that it has read. The field that a token belongs to is another
matter: it is the innermost one around the token, and fields nest. `Tree.places` tells both for
every token of a tree. The two agree up to the end of the first member within the field's value, and
from there on only if the names happen to be the same (`name_moved_iff`).
-/

namespace Wireform.Json

/-- The name that an event adds to those read before. -/
def Event.name? : Event → Option String
  | .name s => some s
  | _ => none

namespace Tree

/-- The name that is the latest after some events, if `found` was the latest before. -/
def latest (found : Option String) (es : List Event) : Option String :=
  es.foldl (fun found e => e.name?.or found) found

/-- The latest name after each of the events. -/
def latests (found : Option String) : List Event → List (Option String)
  | [] => []
  | e :: es => e.name?.or found :: latests (e.name?.or found) es

/-- Where a token stands. -/
structure Place where
  /-- The innermost field whose name or value the token belongs to, if it is inside of one. -/
  field : Option String
  /-- The latest name since then, if there was one. It is that of a member which is complete,
  because the token would belong to it otherwise. -/
  passed : Option String
  deriving DecidableEq, Repr

/-- The place of a token that follows some events within the same field. -/
def Place.past (place : Place) (es : List Event) : Place :=
  { place with passed := latest place.passed es }

mutual

/-- The places of the tokens of a tree that begins at `place`. -/
def places (place : Place) : Tree → List Place
  | null | bool _ | number _ | string _ => [place]
  | array items => place :: itemPlaces place items ++ [place.past (itemEvents items)]
  | object members => place :: memberPlaces members ++ [place.past (memberEvents members)]

def itemPlaces (place : Place) : List Tree → List Place
  | [] => []
  | t :: rest => places place t ++ itemPlaces (place.past t.events) rest

def memberPlaces : List (String × Tree) → List Place
  | [] => []
  | (name, t) :: rest =>
    ⟨some name, none⟩ :: places ⟨some name, none⟩ t ++ memberPlaces rest

end

/-! ## The latest name at a place -/

variable {found : Option String} {es es' : List Event}

/-- The latest name that was read before the token or with it. -/
def Place.shown (place : Place) : Option String := place.passed.or place.field

theorem latests_append (found : Option String) (es es' : List Event) :
    latests found (es ++ es') = latests found es ++ latests (latest found es) es' := by
  induction es generalizing found with
  | nil => rfl
  | cons e es ih => exact congrArg _ (ih _)

/-- The latest name after `n + 1` events is the one among them. -/
theorem getElem?_latests (found : Option String) {n : Nat} (h : n < es.length) :
    (latests found es)[n]? = some (latest found (es.take (n + 1))) := by
  induction es generalizing found n with
  | nil => cases h
  | cons e es ih =>
    cases n with
    | zero => rfl
    | succ n => exact ih _ (Nat.lt_of_succ_lt_succ h)

/-- Where the events have no name the one found before stays. -/
theorem latest_or (a b : Option String) (es : List Event) :
    latest (a.or b) es = (latest a es).or b := by
  induction es generalizing a with
  | nil => rfl
  | cons e es ih =>
    simp only [latest, List.foldl_cons] at ih ⊢
    rw [← Option.or_assoc, ih]

/-- Past some events a place shows the latest name among them, or else its own. -/
theorem Place.shown_past (place : Place) (es : List Event) :
    (place.past es).shown = latest place.shown es := (latest_or _ _ es).symm

mutual

/-- At every token of a tree the latest name is what its place tells. -/
theorem shown_places : (t : Tree) → (place : Place) →
    (t.places place).map Place.shown = latests place.shown t.events
  | .null, _ | .bool _, _ | .number _, _ | .string _, _ => rfl
  | .array items, place => by
    rw [places, events, List.map_append, List.map_cons, shown_itemPlaces, latests_append,
      List.map_singleton, place.shown_past]
    rfl
  | .object members, place => by
    rw [places, events, List.map_append, List.map_cons, shown_memberPlaces members place.shown,
      latests_append, List.map_singleton, place.shown_past]
    rfl

theorem shown_itemPlaces : (items : List Tree) → (place : Place) →
    (itemPlaces place items).map Place.shown = latests place.shown (itemEvents items)
  | [], _ => rfl
  | t :: rest, place => by
    rw [itemPlaces, itemEvents, List.map_append, shown_places, shown_itemPlaces, latests_append,
      place.shown_past]

/-- A member begins with a name, so what was read before it does not matter. -/
theorem shown_memberPlaces : (members : List (String × Tree)) → (found : Option String) →
    (memberPlaces members).map Place.shown = latests found (memberEvents members)
  | [], _ => rfl
  | (name, t) :: rest, found => by
    rw [memberPlaces, memberEvents, List.map_append, List.map_cons, shown_places,
      shown_memberPlaces rest (latest (some name) t.events), latests_append]
    rfl

end

end Tree

namespace Pull

open Grammar

variable {p q r : Pull} {e : Event} {es : List Event} {t : Tree} {s : String} {α β : Type}

/-! ## Moves and the name -/

/-- The move leaves the name as it is. -/
def SameName (x : Move α) : Prop := Step.Along (fun p q => q.name = p.name) x

/-- A sequence keeps the name if its parts do. -/
theorem SameName.bind {x : Move α} {f : α → Move β} (hx : SameName x) (hf : ∀ a, SameName (f a)) :
    SameName (x >>= f) :=
  Step.Along.bind hx (fun _ _ _ hpq hqr => hqr.trans hpq) hf

theorem sameName_lex (x : Lex α) : SameName (lex x) := by
  intro p
  rw [lex, Step.onPart]
  cases x p.input <;> rfl

theorem sameName_value : SameName value := by
  refine (sameName_lex _).bind fun c => ?_
  split
  · exact (sameName_lex _).bind fun _ _ => rfl
  split
  · exact (sameName_lex _).bind fun _ _ => rfl
  split
  · exact (sameName_lex _).bind fun _ => (sameName_lex _).bind fun _ _ => rfl
  split
  · exact (sameName_lex _).bind fun _ _ => rfl
  split
  · exact (sameName_lex _).bind fun _ _ => rfl
  split
  · exact (sameName_lex _).bind fun _ _ => rfl
  split
  · exact (sameName_lex _).bind fun _ _ => rfl
  · exact sameName_lex _

theorem sameName_memberValue : SameName memberValue :=
  (sameName_lex _).bind fun _ => (sameName_lex _).bind fun _ =>
    SameName.bind (fun _ => rfl) fun _ => sameName_value

theorem sameName_separator (first : Bool) : SameName (separator first) := by
  cases first with
  | true => exact fun _ => rfl
  | false => exact (sameName_lex _).bind fun _ => sameName_lex _

theorem sameName_element (first : Bool) : SameName (element first) := by
  refine (sameName_lex _).bind fun c => ?_
  split
  · exact (sameName_lex _).bind fun _ _ => rfl
  · exact (sameName_separator first).bind fun _ => SameName.bind (fun _ => rfl) fun _ =>
      sameName_value

theorem sameName_outermost : SameName outermost := by
  refine SameName.bind (fun _ => rfl) fun p => ?_
  split
  · split <;> exact fun _ => rfl
  · exact sameName_value.bind fun _ _ => rfl

theorem name_of_member_ne {first : Bool} {u : Token} (h : member first p = .ok u q)
    (hu : u ≠ .fieldName) : q.name = p.name := by
  obtain ⟨c, p₁, hpeek, hif⟩ := Step.bind_eq_ok.1 h
  obtain ⟨rfl, -⟩ := lex_peek_sound hpeek
  split at hif
  · have hclose : SameName (do lex (Lex.skip 1); close; return Token.endObject) :=
      (sameName_lex _).bind fun _ _ => rfl
    exact hclose.ok hif
  · obtain ⟨_, _, -, hexpect⟩ := Step.bind_eq_ok.1 hif
    obtain ⟨_, _, -, hquoted⟩ := Step.bind_eq_ok.1 hexpect
    obtain ⟨_, _, -, hrest⟩ := Step.bind_eq_ok.1 hquoted
    cases hrest
    exact (hu rfl).elim

theorem name_of_advance_ne {u : Token} (h : advance p = .ok (some u) q) (hu : u ≠ .fieldName) :
    q.name = p.name := by
  cases hfs : p.frames with
  | nil =>
    rw [advance_outermost hfs] at h
    exact sameName_outermost.ok h
  | cons f fs =>
    cases f with
    | member first =>
      rw [advance_member hfs] at h
      obtain ⟨_, hmember, ⟨⟩⟩ := Step.map_eq_ok.1 h
      exact name_of_member_ne hmember hu
    | value =>
      rw [advance_value hfs] at h
      obtain ⟨_, hvalue, -⟩ := Step.map_eq_ok.1 h
      exact sameName_memberValue.ok hvalue
    | element first =>
      rw [advance_element hfs] at h
      obtain ⟨_, helement, -⟩ := Step.map_eq_ok.1 h
      exact (sameName_element first).ok helement

/-- Only a name token changes the name. -/
theorem name_of_next_ne {u : Token} (h : next p = .ok (some u) q) (hu : u ≠ .fieldName) :
    q.name = p.name := by
  obtain ⟨i, r, -, hadvance, rfl⟩ := next_sound h
  have hname := name_of_advance_ne hadvance hu
  exact hname

/-- A move reads a name and shows it, or shows the name that it found. -/
theorem name_of_next_at (h : next p = .ok (some e.token) q) (he : q.At e) :
    q.name = e.name?.or p.name := by
  cases e with
  | name s => exact (shows_of_next h he).2
  | _ => exact name_of_next_ne h nofun

/-! ## Call after call -/

/-- After each call the name that is shown is the latest so far. -/
theorem Runs.name_moved (h : Runs p es q) {n : Nat} {name : Option String}
    (hname : (Tree.latests p.name es)[n]? = some name) : (moved (n + 1) p).name = name := by
  induction h generalizing n with
  | nil => cases hname
  | cons hnext hat _ ih =>
    rw [moved_succ_of_next hnext]
    rw [Tree.latests, ← name_of_next_at hnext hat] at hname
    cases n with
    | zero => exact Option.some.inj hname
    | succ n => exact ih hname

/-- At every token of a JSON text, the latest name so far is shown. This is the innermost field that
the token belongs to, as long as no member within the value of that field has been read to its end,
and after that only if the latest of these members has the same name. -/
theorem name_moved_iff (h : Text .standard t s.toList) {n : Nat} (he : t.events[n]? = some e) :
    ∃ field passed, (t.places ⟨none, none⟩)[n]? = some ⟨field, passed⟩ ∧
      let p := moved (n + 1) (ofText s)
      p.current = some e.token ∧ p.name = Tree.latest none (t.events.take (n + 1)) ∧
      (p.name = field ↔ passed = none ∨ passed = field) := by
  obtain ⟨q, r, hruns, -⟩ := runs_text h
  obtain ⟨hn, -⟩ := List.getElem?_eq_some_iff.1 he
  have hlatest := Tree.getElem?_latests none hn
  have hname : (moved (n + 1) (ofText s)).name = _ := hruns.name_moved hlatest
  obtain ⟨⟨field, passed⟩, hplace, hshown⟩ : ∃ place, (t.places ⟨none, none⟩)[n]? = some place ∧
      place.shown = Tree.latest none (t.events.take (n + 1)) := by
    rw [← Option.map_eq_some_iff, ← List.getElem?_map, Tree.shown_places]
    exact hlatest
  refine ⟨field, passed, hplace, (hruns.shows_moved he).1, hname, ?_⟩
  rw [hname, ← hshown, Tree.Place.shown]
  cases passed <;> simp

/-- An object within an object. -/
def nestedText : String := "\x7b\"a\":\x7b\"b\":true\x7d\x7d"

def nestedTree : Tree := .object [("a", .object [("b", .bool true)])]

theorem text_nestedText : Text .standard nestedTree nestedText.toList := by
  have hspelled : nestedTree.Spelled := by
    intro w h
    simp [nestedTree, Tree.within_object, Tree.within_scalar] at h
  exact text_compact hspelled

theorem name_moved_iff_inner :
    nestedTree.events[4]? = some (.boolean true) ∧
      (moved 5 (ofText nestedText)).name = some "b" := by
  have he : nestedTree.events[4]? = some (.boolean true) := rfl
  obtain ⟨field, passed, hplace, -, -, hiff⟩ := name_moved_iff text_nestedText he
  cases hplace
  exact ⟨he, hiff.2 (.inl rfl)⟩

/-- The end of the inner object belongs to the field that holds it, but the name that is shown there
is still that of the member within. -/
theorem name_moved_nested :
    Text .standard nestedTree nestedText.toList ∧
      (nestedTree.places ⟨none, none⟩)[5]? = some ⟨some "a", some "b"⟩ ∧
      (moved 6 (ofText nestedText)).current = some .endObject ∧
      (moved 6 (ofText nestedText)).name = some "b" := by
  obtain ⟨q, r, hruns, -⟩ := runs_text text_nestedText
  have hshows := hruns.shows_moved (n := 5) (e := .endObject) rfl
  exact ⟨text_nestedText, rfl, hshows.1, hruns.name_moved rfl⟩

end Pull

end Wireform.Json
