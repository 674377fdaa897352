import Wireform.Proofs.Json.Grammar

/-!
# Plus signs in escapes

Where no escape has a plus sign the two dialects of the grammar are the same. `Plain` carries this
along a derivation: what has been read so far is JSON, or a plus sign has been met. Main statement:
a text of either dialect is JSON or has such an escape (`plain_text`).
-/

namespace Wireform.Json.Grammar

variable {d : Dialect} {c : Char} {n : Nat} {P Q : Prop} {s cs ds es w rest : List Char}

theorem plusEscape_cons (h : c ≠ '\\') (cs : List Char) :
    plusEscape (c :: cs) = plusEscape cs := by
  cases cs with
  | nil => rfl
  | cons e cs => rw [plusEscape, if_neg h]

/-- Text without a backslash has no signed escape. -/
theorem plusEscape_append (h : '\\' ∉ w) (cs : List Char) :
    plusEscape (w ++ cs) = plusEscape cs := by
  induction w with
  | nil => rfl
  | cons c w ih =>
    rw [List.mem_cons, not_or] at h
    rw [List.cons_append, plusEscape_cons (Ne.symm h.1), ih h.2]

/-- An escape is a signed one if it has a plus behind its `u`. -/
theorem plusEscape_escape (letter : Char) (cs : List Char) :
    plusEscape ('\\' :: letter :: cs) =
      ((letter = 'u' && cs.head? = some '+') || plusEscape cs) := by
  rw [plusEscape, if_pos rfl]

/-- The characters from `cs` to `rest` are spelled as `P` says without a plus sign in any escape, or
they have one, as only the signed dialect allows. -/
def Plain (d : Dialect) (P : Prop) (cs rest : List Char) : Prop :=
  (P ∧ plusEscape cs = plusEscape rest) ∨ (d = .signed ∧ plusEscape cs = true)

namespace Plain

theorem of (hp : P) (h : plusEscape cs = plusEscape rest) : Plain d P cs rest := .inl ⟨hp, h⟩

theorem imp (h : Plain d P cs rest) (hpq : P → Q) : Plain d Q cs rest := by
  rcases h with ⟨hp, h⟩ | h
  · exact .inl ⟨hpq hp, h⟩
  · exact .inr h

/-- Parts in sequence are plain together. -/
theorem seq (h : Plain d P cs es) (h' : Plain d Q es rest) : Plain d (P ∧ Q) cs rest := by
  rcases h with ⟨hp, h⟩ | h
  · rcases h' with ⟨hq, h'⟩ | ⟨hd, h'⟩
    · exact .inl ⟨⟨hp, hq⟩, h.trans h'⟩
    · exact .inr ⟨hd, h.trans h'⟩
  · exact .inr h

/-- In JSON there is none. -/
theorem standard (h : Plain .standard P cs rest) : plusEscape cs = plusEscape rest := by
  rcases h with ⟨-, h⟩ | ⟨hd, -⟩
  · exact h
  · cases hd

end Plain

theorem hexDigit?_ne {x : Nat} (h : Quoted.hexDigit? c = some x) : c ≠ '\\' ∧ c ≠ '+' := by
  constructor <;> rintro rfl <;> cases h

/-- A code unit is one of the standard, or its escape is signed. -/
theorem plain_codeUnit (h : CodeUnit d n ds) (cs : List Char) :
    Plain d (CodeUnit .standard n ds) ('\\' :: 'u' :: ds ++ cs) cs := by
  cases h with
  | @digits _ a b c e w x y z ha hb hc he =>
    refine .of (.digits ha hb hc he) ?_
    have hslash : '\\' ∉ [a, b, c, e] := by
      simp only [List.mem_cons, not_or]
      exact ⟨(hexDigit?_ne ha).1.symm, (hexDigit?_ne hb).1.symm, (hexDigit?_ne hc).1.symm,
        (hexDigit?_ne he).1.symm, List.not_mem_nil⟩
    have hplus : ([a, b, c, e] ++ cs).head? ≠ some '+' :=
      fun h => (hexDigit?_ne ha).2 (Option.some.inj h)
    rw [List.cons_append, List.cons_append, plusEscape_escape, plusEscape_append hslash,
      decide_eq_false hplus, Bool.and_false, Bool.false_or]
  | plus hb hc he => exact .inr ⟨rfl, rfl⟩

theorem plain_character (h : Character d c w) (cs : List Char) :
    Plain d (Character .standard c w) (w ++ cs) cs := by
  cases h with
  | raw hge hquote hslash => exact .of (.raw hge hquote hslash) (plusEscape_cons hslash cs)
  | @short _ letter hshort =>
    refine .of (.short hshort) ?_
    have hu : letter ≠ 'u' := by
      rintro rfl
      cases hshort
    rw [List.cons_append, List.cons_append, List.nil_append, plusEscape_escape,
      decide_eq_false hu, Bool.false_and, Bool.false_or]
  | unit hunit hn => exact (plain_codeUnit hunit cs).imp fun hunit => .unit hunit hn
  | @pair high low hs ls hhs hls hh hl =>
    have hboth := (plain_codeUnit hhs ('\\' :: 'u' :: ls ++ cs)).seq (plain_codeUnit hls cs)
    rw [List.append_assoc]
    exact hboth.imp fun ⟨hhs, hls⟩ => .pair hhs hls hh hl

theorem plain_chars (h : Chars d s cs rest) : Plain d (Chars .standard s cs rest) cs rest := by
  induction h with
  | close => exact .of .close (plusEscape_cons (by decide) _)
  | cons hc _ ih => exact ((plain_character hc _).seq ih).imp fun ⟨hc, hs⟩ => .cons hc hs

theorem plain_blanks (h : Blanks cs rest) : Plain d (Blanks cs rest) cs rest := by
  refine .of h ?_
  induction h with
  | done => rfl
  | skip hblank _ ih =>
    rw [plusEscape_cons, ih]
    rintro rfl
    exact absurd hblank (by decide)

theorem Plain.of_cons (h : Plain d P cs rest) (hc : c ≠ '\\' := by decide) :
    Plain d P (c :: cs) rest := by
  rwa [Plain, plusEscape_cons hc]

/-- Blanks in front of a character of their own. -/
theorem plain_mark (h : Blanks cs (c :: rest)) (hc : c ≠ '\\' := by decide) :
    Plain d (Blanks cs (c :: rest)) cs rest :=
  ((plain_blanks h).seq (.of trivial (plusEscape_cons hc rest))).imp And.left

theorem Number.not_slash {w : List Char} (h : Number w) : '\\' ∉ w := by
  obtain ⟨hsign, hwhole, hfraction, hexponent⟩ := h
  have hdigits {ds : List Char} (h : Digits ds) : '\\' ∉ ds := by
    intro hc
    cases h.2 _ hc
  have hmarks {signs sign : List Char} (h : Sign signs sign) (hsigns : '\\' ∉ signs) :
      '\\' ∉ sign := by
    intro hc
    cases h with
    | none => cases hc
    | some hmem =>
      rw [List.mem_singleton.1 hc] at hsigns
      exact hsigns hmem
  simp only [List.mem_append, not_or]
  refine ⟨⟨⟨hmarks hsign (by decide), hdigits hwhole.1⟩, ?_⟩, ?_⟩
  · cases hfraction with
    | none => exact List.not_mem_nil
    | some hds => exact List.not_mem_cons_of_ne_of_not_mem (by decide) (hdigits hds)
  · cases hexponent with
    | none => exact List.not_mem_nil
    | some he hsign hds =>
      simp only [List.mem_append, List.mem_cons, not_or]
      refine ⟨⟨?_, hmarks hsign (by decide)⟩, hdigits hds⟩
      rintro rfl
      exact absurd he (by decide)

theorem plain_name {name : String} (h : Name d name cs rest) :
    Plain d (Name .standard name cs rest) cs rest := by
  obtain ⟨hblanks, hchars, hcolon, hmore⟩ := h
  have hall := (plain_mark hblanks).seq <| (plain_chars hchars).seq <|
    (plain_mark hcolon).seq (plain_blanks hmore)
  exact hall.imp fun ⟨hblanks, hchars, hcolon, hmore⟩ => .mk hblanks hchars hcolon hmore

mutual

/-- A value is one of the standard, or there is a signed escape in it. By recursion over its
derivation, together with elements and members. -/
theorem plain_value : {t : Tree} → {cs rest : List Char} → Value d t cs rest →
    Plain d (Value .standard t cs rest) cs rest
  | _, _, _, .null => .of .null (plusEscape_append (w := ['n', 'u', 'l', 'l']) (by decide) _)
  | _, _, _, .true => .of .true (plusEscape_append (w := ['t', 'r', 'u', 'e']) (by decide) _)
  | _, _, _, .false => .of .false (plusEscape_append (w := ['f', 'a', 'l', 's', 'e']) (by decide) _)
  | _, _, _, .number hw => .of (.number hw) (plusEscape_append hw.not_slash _)
  | _, _, _, .string hs => ((plain_chars hs).imp .string).of_cons
  | _, _, _, .emptyArray hclose =>
    ((plain_mark hclose).imp .emptyArray).of_cons
  | _, _, _, .array helements => ((plain_elements helements).imp .array).of_cons
  | _, _, _, .emptyObject hclose =>
    ((plain_mark hclose).imp .emptyObject).of_cons
  | _, _, _, .object hmembers => ((plain_members hmembers).imp .object).of_cons

theorem plain_elements : {ts : List Tree} → {cs rest : List Char} → Elements d ts cs rest →
    Plain d (Elements .standard ts cs rest) cs rest
  | _, _, _, .last hblanks hvalue hclose => by
    have hall := (plain_blanks hblanks).seq <| (plain_value hvalue).seq <|
      plain_mark hclose
    exact hall.imp fun ⟨hblanks, hvalue, hclose⟩ => .last hblanks hvalue hclose
  | _, _, _, .cons hblanks hvalue hcomma helements => by
    have hall := (plain_blanks hblanks).seq <| (plain_value hvalue).seq <|
      (plain_mark hcomma).seq (plain_elements helements)
    exact hall.imp fun ⟨hblanks, hvalue, hcomma, helements⟩ =>
      .cons hblanks hvalue hcomma helements

theorem plain_members : {ms : List (String × Tree)} → {cs rest : List Char} →
    Members d ms cs rest → Plain d (Members .standard ms cs rest) cs rest
  | _, _, _, .last hname hvalue hclose => by
    have hall := (plain_name hname).seq <| (plain_value hvalue).seq <|
      plain_mark hclose
    exact hall.imp fun ⟨hname, hvalue, hclose⟩ => .last hname hvalue hclose
  | _, _, _, .cons hname hvalue hcomma hmembers => by
    have hall := (plain_name hname).seq <| (plain_value hvalue).seq <|
      (plain_mark hcomma).seq (plain_members hmembers)
    exact hall.imp fun ⟨hname, hvalue, hcomma, hmembers⟩ => .cons hname hvalue hcomma hmembers

end

/-- A text is one of the standard, or there is a signed escape in it. -/
theorem plain_text {t : Tree} (h : Text d t cs) : Plain d (Text .standard t cs) cs [] := by
  obtain ⟨hblanks, hvalue, hmore⟩ := h
  have hall := (plain_blanks hblanks).seq <| (plain_value hvalue).seq (plain_blanks hmore)
  exact hall.imp fun ⟨hblanks, hvalue, hmore⟩ => .mk hblanks hvalue hmore

end Wireform.Json.Grammar
