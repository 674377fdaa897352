import Wireform.Proofs.Json.Grammar

/-!
# What the lexers take

Each lexer against its part of the grammar, in both directions: what it takes off an input is
spelled as the grammar says (`number_sound`), and whatever the grammar spells is taken
(`gives_number`). A lexer takes as much as it can, so a number is only sure to be
taken where what follows does not go on with it (`Ends`).
-/

namespace Wireform.Json.Lex

open Grammar

variable {α β : Type} {x : Lex α} {a : α} {b : β} {cs ds es rest : List Char} {i j : Input}

/-- In front of `cs` the lexer gives `a` and leaves `rest`. -/
def Gives (x : Lex α) (cs : List Char) (a : α) (rest : List Char) : Prop :=
  ∀ i, i.rest = cs → ∃ j, x i = .ok a j ∧ j.rest = rest

namespace Gives

theorem pure (a : α) (cs : List Char) : Gives (pure a) cs a cs := fun i hi => ⟨i, rfl, hi⟩

/-- Readers in sequence give what the second one gives from where the first one stopped. -/
theorem bind {f : α → Lex β} (hx : Gives x cs a ds) (hf : Gives (f a) ds b rest) :
    Gives (x >>= f) cs b rest := by
  intro i hi
  obtain ⟨j, hxi, hj⟩ := hx i hi
  obtain ⟨k, hfj, hk⟩ := hf j hj
  exact ⟨k, by rw [Step.bind_apply, hxi]; exact hfj, hk⟩

/-- Where the input stands does not matter. -/
theorem get_bind {f : Input → Lex β} (hf : ∀ i : Input, i.rest = cs → Gives (f i) cs b rest) :
    Gives (get >>= f) cs b rest := fun i hi => hf i hi i hi

end Gives

theorem gives_peek (c : Char) (cs : List Char) : Gives peek (c :: cs) c (c :: cs) := by
  intro i hi
  refine ⟨i, ?_, hi⟩
  rw [peek]
  split
  · next h => cases h.symm.trans hi
  · next h => cases h.symm.trans hi; rfl

theorem rest_tail (i : Input) : i.tail.rest = i.rest.tail := by
  obtain ⟨_, _ | _⟩ := i <;> rfl

theorem rest_drop (n : Nat) (i : Input) : (i.drop n).rest = i.rest.drop n := by
  induction n generalizing i with
  | zero => rfl
  | succ n ih => rw [Input.drop, ih, rest_tail, List.drop_tail]

theorem gives_skip (w rest : List Char) : Gives (skip w.length) (w ++ rest) () rest := by
  refine fun i hi => ⟨i.drop w.length, rfl, ?_⟩
  rw [rest_drop, hi, List.drop_left]

theorem skip_sound {n : Nat} {u : Unit} (h : skip n i = .ok u j) : j.rest = i.rest.drop n := by
  injection h with _ hj
  rw [← hj, rest_drop]

/-- A word is read where it stands. -/
theorem gives_literal (w rest : List Char) : Gives (literal w) (w ++ rest) () rest := by
  intro i hi
  refine ⟨i.drop w.length, ?_, ?_⟩
  · rw [literal, if_pos]
    rw [hi, List.isPrefixOf_iff_prefix]
    exact List.prefix_append w rest
  · rw [rest_drop, hi, List.drop_left]

/-- Where a word was read it stands. -/
theorem literal_sound {w : List Char} {u : Unit} (h : literal w i = .ok u j) :
    i.rest = w ++ j.rest := by
  rw [literal] at h
  split at h
  · next hw =>
    obtain ⟨t, ht⟩ := List.isPrefixOf_iff_prefix.1 hw
    cases h
    rw [rest_drop, ← ht, List.drop_left]
  · cases h

theorem gives_expect (c : Char) (cs : List Char) : Gives (expect c) (c :: cs) () cs := by
  refine .bind (gives_peek c cs) ?_
  rw [if_pos rfl]
  exact gives_skip [c] cs

theorem peek_sound {c : Char} (h : peek i = .ok c j) : j = i ∧ ∃ cs, i.rest = c :: cs := by
  rw [peek] at h
  split at h
  · cases h
  · next hi => cases h; exact ⟨rfl, _, hi⟩

theorem expect_sound {c : Char} {u : Unit} (h : expect c i = .ok u j) : i.rest = c :: j.rest := by
  obtain ⟨d, k, hpeek, hskip⟩ := Step.bind_eq_ok.1 h
  obtain ⟨rfl, cs, hcs⟩ := peek_sound hpeek
  split at hskip
  · next hd =>
    cases hskip
    rw [rest_drop, hcs, hd]
    rfl
  · cases hskip

/-! ## Blanks -/

theorem isBlank_iff {c : Char} : isBlank c = true ↔ Blank c := by
  simp [isBlank, Blank, or_assoc]

theorem blanks_dropWhile (cs : List Char) : Blanks cs (cs.dropWhile isBlank) := by
  induction cs with
  | nil => exact .done
  | cons c cs ih =>
    rw [List.dropWhile_cons]
    split
    · next hc => exact .skip (isBlank_iff.1 hc) ih
    · exact .done

/-- The reader of blanks takes blanks only. -/
theorem blanks_sound {u : Unit} (h : blanks i = .ok u j) : Blanks i.rest j.rest := by
  cases h
  exact blanks_dropWhile i.rest

/-- All blanks are taken, so that none may follow those of the grammar. -/
theorem gives_blanks (h : Blanks cs rest) (hrest : ∀ c ∈ rest.head?, ¬ Blank c) :
    Gives blanks cs () rest := by
  refine fun i hi => ⟨_, rfl, ?_⟩
  change i.rest.dropWhile isBlank = rest
  rw [hi]
  clear hi
  induction h with
  | @done cs =>
    cases cs with
    | nil => rfl
    | cons c cs => exact List.dropWhile_cons_of_neg fun hc => hrest c rfl (isBlank_iff.1 hc)
  | skip hc _ ih => rw [List.dropWhile_cons_of_pos (isBlank_iff.2 hc), ih hrest]

/-! ## Numbers -/

/-- The text does not go on with a number. -/
def Ends (rest : List Char) : Prop := ∀ c ∈ rest.head?, c.isDigit = false ∧ c ∉ ['.', 'e', 'E']

theorem gives_oneOf {c : Char} {signs : List Char} (h : c ∈ signs) (cs : List Char) :
    Gives (oneOf signs) (c :: cs) [c] cs := by
  intro i hi
  refine ⟨i.tail, ?_, by rw [rest_tail, hi]; rfl⟩
  rw [oneOf]
  split
  · next hnil => cases hnil.symm.trans hi
  · next hcons =>
    cases hcons.symm.trans hi
    rw [if_pos (List.contains_iff_mem.2 h)]

theorem gives_oneOf_none {signs : List Char} (h : ∀ c ∈ cs.head?, c ∉ signs) :
    Gives (oneOf signs) cs [] cs := by
  intro i hi
  refine ⟨i, ?_, hi⟩
  rw [oneOf]
  split
  · rfl
  · next hcons =>
    rw [if_neg]
    rw [List.contains_iff_mem]
    exact h _ (by rw [← hi, hcons]; rfl)

theorem oneOf_sound {signs : List Char} (h : oneOf signs i = .ok ds j) :
    i.rest = ds ++ j.rest ∧ Sign signs ds := by
  rw [oneOf] at h
  split at h
  · next hi => cases h; exact ⟨rfl, .none⟩
  · next hi =>
    split at h
    · next hc =>
      cases h
      exact ⟨by rw [rest_tail, hi]; rfl, .some (List.contains_iff_mem.1 hc)⟩
    · cases h
      exact ⟨rfl, .none⟩

/-- A sign is taken unless it may be missing and another stands in its place. -/
theorem gives_sign {signs sign : List Char} (h : Sign signs sign)
    (hrest : ∀ c ∈ rest.head?, c ∉ signs) : Gives (oneOf signs) (sign ++ rest) sign rest := by
  cases h with
  | none => exact gives_oneOf_none hrest
  | some hc => exact gives_oneOf hc rest

/-- Digits are read up to the first character that is none. -/
theorem gives_someDigits (h : Digits ds) (hrest : ∀ c ∈ rest.head?, c.isDigit = false) :
    Gives someDigits (ds ++ rest) ds rest := by
  obtain ⟨hne, hds⟩ := h
  have hnone : rest.takeWhile Char.isDigit = [] ∧ rest.dropWhile Char.isDigit = rest := by
    cases rest with
    | nil => exact ⟨rfl, rfl⟩
    | cons c rest => simp [hrest c rfl]
  have hrun : Gives digits (ds ++ rest) ds rest := by
    refine fun i hi => ⟨⟨i.position + Input.byteCount ds, rest⟩, ?_, rfl⟩
    rw [digits, run, hi, List.takeWhile_append_of_pos hds, List.dropWhile_append_of_pos hds,
      hnone.1, hnone.2, List.append_nil]
  refine .bind hrun ?_
  rw [if_neg (by simpa using hne)]
  exact .pure ds rest

theorem someDigits_sound (h : someDigits i = .ok ds j) : i.rest = ds ++ j.rest ∧ Digits ds := by
  obtain ⟨es, k, hrun, h⟩ := Step.bind_eq_ok.1 h
  cases hrun
  split at h
  · cases h
  · next hne =>
    cases h
    refine ⟨List.takeWhile_append_dropWhile.symm, by simpa using hne, ?_⟩
    exact List.all_eq_true.1 List.all_takeWhile

/-- The whole part of a number is read up to the first character that is no digit. -/
theorem gives_whole (h : Whole ds) (hrest : ∀ c ∈ rest.head?, c.isDigit = false) :
    Gives whole (ds ++ rest) ds rest := by
  obtain ⟨hds, hzero⟩ := h
  refine .get_bind fun i _ => .bind (gives_someDigits hds hrest) ?_
  rw [if_neg]
  · exact .pure ds rest
  · rintro ⟨hhead, hlen⟩
    rw [hzero hhead] at hlen
    exact absurd hlen (by decide)

theorem whole_sound (h : whole i = .ok ds j) : i.rest = ds ++ j.rest ∧ Whole ds := by
  obtain ⟨_, _, hget, h⟩ := Step.bind_eq_ok.1 h
  cases hget
  obtain ⟨es, k, hsome, h⟩ := Step.bind_eq_ok.1 h
  obtain ⟨hrest, hds⟩ := someDigits_sound hsome
  split at h
  · cases h
  · next hzero =>
    cases h
    refine ⟨hrest, hds, fun hhead => ?_⟩
    match ds, hhead, hzero with
    | [c], hhead, _ => rw [Option.some.inj hhead]
    | _ :: _ :: _, hhead, hzero => exact (hzero ⟨hhead, by simp⟩).elim

theorem gives_fraction (h : Fraction ds) (hrest : ∀ c ∈ rest.head?, c.isDigit = false ∧ c ≠ '.') :
    Gives fraction (ds ++ rest) ds rest := by
  cases h with
  | none =>
    refine .bind (gives_oneOf_none fun c hc => ?_) (.pure [] rest)
    rw [List.mem_singleton]
    exact (hrest c hc).2
  | some hds =>
    refine .bind (gives_oneOf (List.mem_singleton_self _) _) ?_
    exact .bind (gives_someDigits hds fun c hc => (hrest c hc).1) (.pure _ rest)

theorem fraction_sound (h : fraction i = .ok ds j) : i.rest = ds ++ j.rest ∧ Fraction ds := by
  obtain ⟨point, k, hpoint, h⟩ := Step.bind_eq_ok.1 h
  obtain ⟨hi, hsign⟩ := oneOf_sound hpoint
  cases hsign with
  | none =>
    cases h
    exact ⟨hi, .none⟩
  | some hc =>
    cases List.mem_singleton.1 hc
    obtain ⟨es, l, hsome, h⟩ := Step.bind_eq_ok.1 h
    obtain ⟨hk, hes⟩ := someDigits_sound hsome
    cases h
    exact ⟨by rw [hi, hk, List.append_assoc], .some hes⟩

theorem gives_exponent (h : Exponent ds) (hrest : Ends rest) :
    Gives exponent (ds ++ rest) ds rest := by
  cases h with
  | none =>
    refine .bind (gives_oneOf_none fun c hc => ?_) (.pure [] rest)
    exact fun hmem => (hrest c hc).2 (List.mem_cons_of_mem _ hmem)
  | @some e sign ds he hsign hds =>
    have hdigit : ∀ c ∈ (ds ++ rest).head?, c ∉ ['+', '-'] := by
      obtain ⟨d, hd, hdig⟩ := hds.head rest
      intro c hc hmem
      cases hd.symm.trans hc
      simp only [List.mem_cons, List.not_mem_nil, or_false] at hmem
      rcases hmem with rfl | rfl <;> cases hdig
    rw [List.append_assoc]
    refine .bind (gives_oneOf he _) ?_
    refine .bind (gives_sign hsign hdigit) ?_
    exact .bind (gives_someDigits hds fun c hc => (hrest c hc).1) (.pure _ rest)

theorem exponent_sound (h : exponent i = .ok ds j) : i.rest = ds ++ j.rest ∧ Exponent ds := by
  obtain ⟨mark, k, hmark, h⟩ := Step.bind_eq_ok.1 h
  obtain ⟨hi, he⟩ := oneOf_sound hmark
  cases he with
  | none =>
    cases h
    exact ⟨hi, .none⟩
  | some hc =>
    obtain ⟨sign, l, hsign, h⟩ := Step.bind_eq_ok.1 h
    obtain ⟨hk, hs⟩ := oneOf_sound hsign
    obtain ⟨es, m, hsome, h⟩ := Step.bind_eq_ok.1 h
    obtain ⟨hl, hes⟩ := someDigits_sound hsome
    cases h
    exact ⟨by simp [hi, hk, hl], .some hc hs hes⟩

/-- A number of the grammar is read as its text, where it ends. -/
theorem gives_number {w : List Char} (h : Number w) (hrest : Ends rest) :
    Gives number (w ++ rest) (String.ofList w) rest := by
  obtain @⟨sign, whole, fraction, exponent, hs, hw, hf, he⟩ := h
  have hexp : ∀ c ∈ (exponent ++ rest).head?, c.isDigit = false ∧ c ≠ '.' := by
    cases he with
    | none => exact fun c hc => ⟨(hrest c hc).1, fun h => (hrest c hc).2 (by simp [h])⟩
    | some hmark =>
      rintro c ⟨⟩
      simp only [List.mem_cons, List.not_mem_nil, or_false] at hmark
      rcases hmark with rfl | rfl <;> decide
  have hfrac : ∀ c ∈ (fraction ++ (exponent ++ rest)).head?, c.isDigit = false := by
    cases hf with
    | none => exact fun c hc => (hexp c hc).1
    | some => rintro c ⟨⟩; rfl
  have hwhole : ∀ c ∈ (whole ++ (fraction ++ (exponent ++ rest))).head?, c ∉ ['-'] := by
    obtain ⟨d, hd, hdig⟩ := hw.1.head (fraction ++ (exponent ++ rest))
    intro c hc hmem
    cases hd.symm.trans hc
    cases List.mem_singleton.1 hmem
    cases hdig
  rw [List.append_assoc, List.append_assoc, List.append_assoc]
  refine .bind (gives_sign hs hwhole) ?_
  refine .bind (gives_whole hw hfrac) ?_
  refine .bind (gives_fraction hf hexp) ?_
  exact .bind (gives_exponent he hrest) (.pure _ rest)

/-- What the reader takes for a number is one of the grammar. -/
theorem number_sound {s : String} (h : number i = .ok s j) :
    ∃ w, Number w ∧ s = String.ofList w ∧ i.rest = w ++ j.rest := by
  obtain ⟨sign, k, hsign, h⟩ := Step.bind_eq_ok.1 h
  obtain ⟨whole, l, hwhole, h⟩ := Step.bind_eq_ok.1 h
  obtain ⟨fraction, m, hfrac, h⟩ := Step.bind_eq_ok.1 h
  obtain ⟨exponent, n, hexp, h⟩ := Step.bind_eq_ok.1 h
  obtain ⟨hi, hs⟩ := oneOf_sound hsign
  obtain ⟨hk, hw⟩ := whole_sound hwhole
  obtain ⟨hl, hf⟩ := fraction_sound hfrac
  obtain ⟨hm, he⟩ := exponent_sound hexp
  cases h
  refine ⟨_, .mk hs hw hf he, rfl, ?_⟩
  rw [hi, hk, hl, hm, List.append_assoc, List.append_assoc, List.append_assoc]

end Wireform.Json.Lex
