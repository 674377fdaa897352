/-!
# Patterns

The part of regular expressions that the spelling of time zones is told by, with the texts that their
groups capture. Where a text can be matched in several ways, the alternative that is written first and
the repetition that takes more are preferred, and the first way that takes all of the text says what
is captured. Main statement: the ways that are found are those there are (`mem_ways`).
-/

namespace Wireform

/-- A pattern of characters, as a regular expression without back references. -/
inductive Pattern where
  | empty
  /-- A character of a class. -/
  | one (p : Char → Bool)
  | seq (a b : Pattern)
  | alt (a b : Pattern)
  /-- Any number of characters of a class. -/
  | many (p : Char → Bool)
  | group (i : Nat) (a : Pattern)

namespace Pattern

/-- A pattern or nothing. -/
def opt (a : Pattern) : Pattern := alt a empty

/-- Just this text. -/
def literal (cs : List Char) : Pattern := cs.foldr (fun c a => seq (one fun d => d = c) a) empty

/-- What the groups took, each with its number; groups that took no part are not listed. -/
abbrev Captures := List (Nat × List Char)

/-- The characters of a class that a text begins with may be taken all or only some of them. -/
def waysOfMany (p : Char → Bool) : List Char → List (List Char × Captures)
  | [] => [([], [])]
  | c :: cs => if p c then waysOfMany p cs ++ [(c :: cs, [])] else [(c :: cs, [])]

/-- The ways in which a text begins with the pattern, the preferred ones first: what is left of the
text, and what is captured. -/
def ways : Pattern → List Char → List (List Char × Captures)
  | empty, cs => [(cs, [])]
  | one _, [] => []
  | one p, c :: cs => if p c then [(cs, [])] else []
  | seq a b, cs => (ways a cs).flatMap fun w => (ways b w.1).map fun v => (v.1, w.2 ++ v.2)
  | alt a b, cs => ways a cs ++ ways b cs
  | many p, cs => waysOfMany p cs
  | group i a, cs => (ways a cs).map fun w => (w.1, (i, cs.take (cs.length - w.1.length)) :: w.2)

/-- What is captured in the preferred way of matching all of the text, if there is one. -/
def captures? (a : Pattern) (cs : List Char) : Option Captures :=
  ((ways a cs).find? fun w => w.1.isEmpty).map Prod.snd

/-- Whether the pattern matches the whole text. -/
def isMatch (a : Pattern) (cs : List Char) : Bool := (captures? a cs).isSome

/-- Some way of matching the whole text captures this. -/
def Matches : Pattern → List Char → Captures → Prop
  | empty, cs, u => cs = [] ∧ u = []
  | one p, cs, u => ∃ c, p c = true ∧ cs = [c] ∧ u = []
  | seq a b, cs, u => ∃ x v y w, Matches a x v ∧ Matches b y w ∧ cs = x ++ y ∧ u = v ++ w
  | alt a b, cs, u => Matches a cs u ∨ Matches b cs u
  | many p, cs, u => (∀ c ∈ cs, p c = true) ∧ u = []
  | group i a, cs, u => ∃ v, Matches a cs v ∧ u = (i, cs) :: v

variable {a : Pattern} {cs rest : List Char} {u : Captures}

/-- The ways to match a star are the splits behind a prefix of accepted characters. -/
theorem mem_waysOfMany {p : Char → Bool} :
    (rest, u) ∈ waysOfMany p cs ↔ ∃ x, cs = x ++ rest ∧ (∀ c ∈ x, p c = true) ∧ u = [] := by
  induction cs with
  | nil =>
    rw [waysOfMany, List.mem_singleton, Prod.mk.injEq]
    constructor
    · rintro ⟨rfl, rfl⟩
      exact ⟨[], rfl, List.forall_mem_nil _, rfl⟩
    · rintro ⟨x, hx, -, rfl⟩
      exact ⟨(List.append_eq_nil_iff.1 hx.symm).2, rfl⟩
  | cons c cs ih =>
    have hnone : (rest, u) ∈ [(c :: cs, ([] : Captures))] ↔ rest = c :: cs ∧ u = [] := by
      rw [List.mem_singleton, Prod.mk.injEq]
    rw [waysOfMany]
    constructor
    · split
      · next hc =>
        rw [List.mem_append, ih, hnone]
        rintro (⟨x, rfl, hx, rfl⟩ | ⟨rfl, rfl⟩)
        · exact ⟨c :: x, rfl, List.forall_mem_cons.2 ⟨hc, hx⟩, rfl⟩
        · exact ⟨[], rfl, List.forall_mem_nil _, rfl⟩
      · rw [hnone]
        rintro ⟨rfl, rfl⟩
        exact ⟨[], rfl, List.forall_mem_nil _, rfl⟩
    · rintro ⟨x, hcs, hx, rfl⟩
      obtain ⟨rfl, rfl⟩ | ⟨x, rfl, rfl⟩ := List.cons_eq_append_iff.1 hcs
      · split
        · exact List.mem_append_right _ (hnone.2 ⟨rfl, rfl⟩)
        · exact hnone.2 ⟨rfl, rfl⟩
      · obtain ⟨hc, hx⟩ := List.forall_mem_cons.1 hx
        rw [if_pos hc]
        exact List.mem_append_left _ (ih.2 ⟨x, rfl, hx, rfl⟩)

/-- The ways that are found are those in which the text begins with something that matches. -/
theorem mem_ways : (rest, u) ∈ ways a cs ↔ ∃ x, cs = x ++ rest ∧ Matches a x u := by
  induction a generalizing cs rest u with
  | empty =>
    rw [ways, List.mem_singleton, Prod.mk.injEq]
    constructor
    · rintro ⟨rfl, rfl⟩
      exact ⟨[], rfl, rfl, rfl⟩
    · rintro ⟨_, rfl, rfl, rfl⟩
      exact ⟨rfl, rfl⟩
  | one p =>
    cases cs with
    | nil =>
      refine iff_of_false List.not_mem_nil ?_
      rintro ⟨_, hcs, c, -, rfl, -⟩
      cases hcs
    | cons c cs =>
      rw [ways]
      constructor
      · split
        · next hc =>
          intro h
          cases List.mem_singleton.1 h
          exact ⟨[c], rfl, c, hc, rfl, rfl⟩
        · exact fun h => absurd h List.not_mem_nil
      · rintro ⟨_, hcs, c, hc, rfl, rfl⟩
        cases hcs
        rw [if_pos hc]
        exact List.mem_singleton.2 rfl
  | seq a b iha ihb =>
    rw [ways, List.mem_flatMap]
    constructor
    · rintro ⟨⟨middle, v⟩, hv, hmap⟩
      obtain ⟨⟨rest, w⟩, hw, heq⟩ := List.mem_map.1 hmap
      cases heq
      obtain ⟨x, rfl, hx⟩ := iha.1 hv
      obtain ⟨y, rfl, hy⟩ := ihb.1 hw
      exact ⟨x ++ y, (List.append_assoc _ _ _).symm, x, v, y, w, hx, hy, rfl, rfl⟩
    · rintro ⟨_, rfl, x, v, y, w, hx, hy, rfl, rfl⟩
      refine ⟨(y ++ rest, v), iha.2 ⟨x, List.append_assoc _ _ _, hx⟩, ?_⟩
      exact List.mem_map.2 ⟨(rest, w), ihb.2 ⟨y, rfl, hy⟩, rfl⟩
  | alt a b iha ihb => simp only [ways, Matches, List.mem_append, iha, ihb, and_or_left, exists_or]
  | many p => exact mem_waysOfMany
  | group i a ih =>
    rw [ways, List.mem_map]
    constructor
    · rintro ⟨⟨rest, v⟩, hv, rfl, rfl⟩
      obtain ⟨x, rfl, hx⟩ := ih.1 hv
      refine ⟨x, rfl, v, hx, ?_⟩
      rw [List.length_append, Nat.add_sub_cancel, List.take_left]
    · rintro ⟨x, rfl, v, hx, rfl⟩
      refine ⟨(rest, v), ih.2 ⟨x, rfl, hx⟩, ?_⟩
      dsimp only
      rw [List.length_append, Nat.add_sub_cancel, List.take_left]

/-- The backtracking search finds matches only. -/
theorem matches_of_captures? (h : captures? a cs = some u) : Matches a cs u := by
  obtain ⟨⟨rest, v⟩, hfind, rfl⟩ := Option.map_eq_some_iff.1 h
  have hempty := List.find?_some hfind
  have hrest : rest = [] := List.isEmpty_iff.1 hempty
  obtain ⟨x, rfl, hx⟩ := mem_ways.1 (List.mem_of_find?_eq_some hfind)
  rwa [hrest, List.append_nil]

/-- Where a pattern matches, the backtracking search finds some match, though it may capture another
part of the text. -/
theorem exists_captures?_of_matches (h : Matches a cs u) : ∃ v, captures? a cs = some v := by
  have hmem : ([], u) ∈ ways a cs := mem_ways.2 ⟨cs, (List.append_nil cs).symm, h⟩
  cases hfind : (ways a cs).find? fun w => w.1.isEmpty with
  | none => exact absurd rfl (List.find?_eq_none.1 hfind _ hmem)
  | some w => exact ⟨w.2, congrArg (Option.map Prod.snd) hfind⟩

/-- The search succeeds exactly on the texts that the pattern describes. -/
theorem isMatch_iff : isMatch a cs = true ↔ ∃ u, Matches a cs u := by
  rw [isMatch, Option.isSome_iff_exists]
  exact ⟨fun ⟨u, hu⟩ => ⟨u, matches_of_captures? hu⟩, fun ⟨_, hu⟩ => exists_captures?_of_matches hu⟩

theorem matches_opt : Matches (opt a) cs u ↔ Matches a cs u ∨ cs = [] ∧ u = [] := Iff.rfl

theorem matches_literal {w : List Char} : Matches (literal w) cs u ↔ cs = w ∧ u = [] := by
  induction w generalizing cs u with
  | nil => exact Iff.rfl
  | cons c w ih =>
    constructor
    · rintro ⟨_, _, y, v, ⟨d, hd, rfl, rfl⟩, hy, rfl, rfl⟩
      obtain ⟨rfl, rfl⟩ := ih.1 hy
      exact ⟨congrArg (· :: _) (of_decide_eq_true hd), rfl⟩
    · rintro ⟨rfl, rfl⟩
      exact ⟨[c], [], w, [], ⟨c, decide_eq_true rfl, rfl, rfl⟩, ih.2 ⟨rfl, rfl⟩, rfl, rfl⟩

end Pattern

end Wireform
