import Wireform.Proofs.Json.Lexing

/-!
# Quoted texts and their escapes

A quoted text is read as the signed dialect of the grammar spells it: what is read is spelled that
way (`quoted_sound`), and what is spelled that way in either dialect is read (`gives_quoted`).
-/

namespace Wireform.Json.Lex

open Grammar Quoted

variable {d : Dialect} {c : Char} {n : Nat} {s cs ds w rest : List Char} {i j : Input}

/-! ## Code units -/

theorem hexDigit?_utf8Size {x : Nat} (h : hexDigit? c = some x) : c.utf8Size = 1 := by
  have hle (a b : Char) (hb : b.val ≤ 0x7f) (hc : a ≤ c ∧ c ≤ b) : c.utf8Size = 1 := by
    exact Char.utf8Size_eq_one_iff.2 (UInt32.le_trans hc.2 hb)
  rw [hexDigit?] at h
  split at h
  · next hc => exact hle _ _ (by decide) hc
  split at h
  · next hc => exact hle _ _ (by decide) hc
  split at h
  · next hc => exact hle _ _ (by decide) hc
  · cases h

/-- A hexadecimal number is made of hexadecimal digits. -/
theorem hexNumber?_digits (h : hexNumber? ds = some n) : ∀ c ∈ ds, ∃ x, hexDigit? c = some x := by
  have hfold (ds : List Char) (m : Nat)
      (h : ds.foldlM (fun n c => (hexDigit? c).map (16 * n + ·)) m = some n) :
      ∀ c ∈ ds, ∃ x, hexDigit? c = some x := by
    induction ds generalizing m with
    | nil => exact fun _ hc => nomatch hc
    | cons c ds ih =>
      obtain ⟨k, hk, hrest⟩ := Option.bind_eq_some_iff.1 h
      obtain ⟨x, hx, -⟩ := Option.map_eq_some_iff.1 hk
      exact List.forall_mem_cons.2 ⟨⟨x, hx⟩, ih k hrest⟩
  exact hfold ds 0 h

theorem byteCount_cons (c : Char) (cs : List Char) :
    Input.byteCount (c :: cs) = c.utf8Size + Input.byteCount cs := rfl

theorem byteCount_hex (h : ∀ c ∈ ds, ∃ x, hexDigit? c = some x) :
    Input.byteCount ds = ds.length := by
  induction ds with
  | nil => rfl
  | cons c ds ih =>
    obtain ⟨⟨x, hx⟩, htail⟩ := List.forall_mem_cons.1 h
    rw [byteCount_cons, ih htail, hexDigit?_utf8Size hx, List.length_cons, Nat.add_comm]

theorem length_le_byteCount (cs : List Char) : cs.length ≤ Input.byteCount cs := by
  induction cs with
  | nil => exact Nat.le_refl _
  | cons c cs ih =>
    rw [byteCount_cons, List.length_cons]
    have := c.utf8Size_pos
    omega

/-- A code unit of the grammar is read from its four characters. -/
theorem codeUnit?_eq (h : CodeUnit d n ds) : codeUnit? ds = some n ∧ ds.length = 4 := by
  cases h with
  | @digits _ a b c e w x y z ha hb hc he =>
    refine ⟨?_, rfl⟩
    have hplus : a ≠ '+' := by
      rintro rfl
      cases ha
    unfold codeUnit?
    split
    · next heq => cases heq; exact (hplus rfl).elim
    · simp [hexNumber?, ha, hb, hc, he]
  | plus hb hc he =>
    refine ⟨?_, rfl⟩
    simp [codeUnit?, hexNumber?, hb, hc, he]

theorem codeUnit_of_hexNumber? {a b c e : Char} (h : hexNumber? [a, b, c, e] = some n) :
    CodeUnit d n [a, b, c, e] := by
  have hdigits := hexNumber?_digits h
  simp only [List.forall_mem_cons] at hdigits
  obtain ⟨⟨w, ha⟩, ⟨x, hb⟩, ⟨y, hc⟩, ⟨z, he⟩, -⟩ := hdigits
  simp [hexNumber?, ha, hb, hc, he] at h
  rw [← h]
  exact .digits ha hb hc he

/-- The signed dialect takes three digits behind a plus for a code unit. -/
theorem codeUnit_of_plus {b c e : Char} (h : hexNumber? [b, c, e] = some n) :
    CodeUnit .signed n ['+', b, c, e] := by
  have hdigits := hexNumber?_digits h
  simp only [List.forall_mem_cons] at hdigits
  obtain ⟨⟨x, hb⟩, ⟨y, hc⟩, ⟨z, he⟩, -⟩ := hdigits
  simp [hexNumber?, hb, hc, he] at h
  rw [← h]
  exact .plus hb hc he

theorem gives_codeUnit (h : CodeUnit d n ds) (rest : List Char) :
    Gives codeUnit (ds ++ rest) n rest := by
  obtain ⟨hunit, hlen⟩ := codeUnit?_eq h
  intro i hi
  have htake : i.rest.take 4 = ds := by rw [hi, ← hlen, List.take_left]
  refine ⟨i.drop 4, ?_, by rw [rest_drop, hi, ← hlen, List.drop_left]⟩
  have hbytes := length_le_byteCount ds
  rw [codeUnit, htake, if_neg (by omega), hunit]

/-- Four bytes that spell a code unit are four characters. -/
theorem codeUnit_sound (h : codeUnit i = .ok n j) :
    ∃ ds, CodeUnit .signed n ds ∧ i.rest = ds ++ j.rest := by
  rw [codeUnit] at h
  split at h
  · cases h
  next hbytes =>
  split at h
  · next m hunit =>
    cases h
    refine ⟨i.rest.take 4, ?_, by rw [rest_drop, List.take_append_drop]⟩
    have hle : (i.rest.take 4).length ≤ 4 := List.length_take_le 4 i.rest
    revert hunit hbytes hle
    generalize i.rest.take 4 = ds
    intro hbytes hunit hle
    rw [codeUnit?.eq_def] at hunit
    split at hunit
    · next cs =>
      have hcount : Input.byteCount ('+' :: cs) = cs.length + 1 := by
        rw [byteCount_cons, byteCount_hex (hexNumber?_digits hunit), Nat.add_comm]
        rfl
      have hlen : cs.length = 3 := by
        rw [List.length_cons] at hle
        omega
      match cs, hlen with
      | [b, c, e], _ => exact codeUnit_of_plus hunit
    · have hlen : ds.length = 4 := by
        rw [byteCount_hex (hexNumber?_digits hunit)] at hbytes
        omega
      match ds, hlen with
      | [a, b, c, e], _ => exact codeUnit_of_hexNumber? hunit
  · cases h

/-! ## Escapes -/

theorem scalar?_eq (h : n.isValidChar) : scalar? n = some (Char.ofNat n) := if_pos h

/-- A pair of surrogates is a valid code point. -/
theorem isValidChar_paired {high low : Nat} (hh : isHighSurrogate high) (hl : isLowSurrogate low) :
    (paired high low).isValidChar := by
  simp only [isHighSurrogate, isLowSurrogate, Bool.and_eq_true, decide_eq_true_eq] at hh hl
  right
  unfold paired
  omega

theorem gives_codePoint_unit (h : CodeUnit d n ds) (hn : n.isValidChar) (start : Nat)
    (rest : List Char) : Gives (codePoint start) (ds ++ rest) n rest := by
  refine .bind (gives_codeUnit h rest) ?_
  rw [if_neg]
  · exact .pure n rest
  · simp only [isHighSurrogate, Bool.and_eq_true, decide_eq_true_eq]
    rcases hn with hn | hn <;> omega

/-- A pair of escaped surrogates is read as one code point. -/
theorem gives_codePoint_pair {high low : Nat} {hs ls : List Char} (hhs : CodeUnit d high hs)
    (hls : CodeUnit d low ls) (hh : isHighSurrogate high) (hl : isLowSurrogate low) (start : Nat)
    (rest : List Char) :
    Gives (codePoint start) (hs ++ '\\' :: 'u' :: ls ++ rest) (paired high low) rest := by
  rw [List.append_assoc]
  refine .bind (gives_codeUnit hhs _) ?_
  rw [if_pos hh]
  refine .get_bind fun i hi => ?_
  rw [if_pos (by rw [hi]; rfl)]
  refine .bind (gives_skip ['\\', 'u'] _) (.bind (gives_codeUnit hls rest) ?_)
  rw [if_pos hl]
  exact .pure _ rest

/-- An escape of the grammar is read as its character. -/
theorem gives_escape_unit (h : ∀ start, Gives (codePoint start) (ds ++ rest) n rest)
    (hn : n.isValidChar) : Gives escape ('u' :: ds ++ rest) (Char.ofNat n) rest := by
  refine .get_bind fun i _ => .bind (gives_peek 'u' _) ?_
  rw [if_pos rfl]
  refine .bind (gives_skip ['u'] _) (.bind (h i.position) ?_)
  rw [scalar?_eq hn]
  exact .pure _ rest

theorem gives_escape (h : Character d c ('\\' :: w)) (rest : List Char) :
    Gives escape (w ++ rest) c rest := by
  cases h with
  | raw _ _ hne => exact (hne rfl).elim
  | @short _ letter hshort =>
    refine .get_bind fun i _ => .bind (gives_peek letter rest) ?_
    rw [if_neg]
    · rw [hshort]
      exact .bind (gives_skip [letter] rest) (.pure c rest)
    · rintro rfl
      cases hshort
  | unit hunit hn =>
    exact gives_escape_unit (fun start => gives_codePoint_unit hunit hn start rest) hn
  | pair hhs hls hh hl =>
    exact gives_escape_unit (fun start => gives_codePoint_pair hhs hls hh hl start rest)
      (isValidChar_paired hh hl)

/-- What the reader takes for a low surrogate is one, in an escape. -/
theorem pairing_sound {start high : Nat} (h : pairing start high i = .ok n j) :
    ∃ low ls, n = paired high low ∧ CodeUnit .signed low ls ∧ isLowSurrogate low ∧
      i.rest = '\\' :: 'u' :: ls ++ j.rest := by
  obtain ⟨_, _, hget, hif⟩ := Step.bind_eq_ok.1 h
  cases hget
  split at hif
  · next hprefix =>
    obtain ⟨t, ht⟩ := List.isPrefixOf_iff_prefix.1 hprefix
    obtain ⟨_, k, hskip, hunit⟩ := Step.bind_eq_ok.1 hif
    have hdrop := skip_sound hskip
    obtain ⟨low, l, hlow, hif⟩ := Step.bind_eq_ok.1 hunit
    obtain ⟨ls, hls, hk⟩ := codeUnit_sound hlow
    split at hif
    · next hl =>
      obtain ⟨hn, rfl⟩ := Step.pure_eq_ok.1 hif
      refine ⟨low, ls, hn.symm, hls, hl, ?_⟩
      rw [← ht] at hdrop ⊢
      exact congrArg (fun cs => '\\' :: 'u' :: cs) (hdrop.symm.trans hk)
    · cases hif
  · cases hif

/-- What the reader takes for an escape is one of the signed dialect. -/
theorem escape_sound (h : escape i = .ok c j) :
    ∃ w, Character .signed c ('\\' :: w) ∧ i.rest = w ++ j.rest := by
  obtain ⟨_, _, hget, hpeek⟩ := Step.bind_eq_ok.1 h
  cases hget
  obtain ⟨letter, _, hletter, hif⟩ := Step.bind_eq_ok.1 hpeek
  obtain ⟨rfl, cs, hcs⟩ := peek_sound hletter
  split at hif
  · next hu =>
    subst hu
    obtain ⟨_, k, hskip, hpoint⟩ := Step.bind_eq_ok.1 hif
    have hdrop := skip_sound hskip
    obtain ⟨n, l, hn, hscalar⟩ := Step.bind_eq_ok.1 hpoint
    have hchar : n.isValidChar ∧ c = Char.ofNat n ∧ l = j := by
      by_cases hvalid : n.isValidChar
      · rw [scalar?_eq hvalid] at hscalar
        cases hscalar
        exact ⟨hvalid, rfl, rfl⟩
      · rw [scalar?, if_neg hvalid] at hscalar
        cases hscalar
    obtain ⟨hvalid, rfl, rfl⟩ := hchar
    obtain ⟨unit, m, hunit, hif⟩ := Step.bind_eq_ok.1 hn
    obtain ⟨ds, hds, hrest⟩ := codeUnit_sound hunit
    rw [hdrop, hcs, List.drop_one, List.tail_cons] at hrest
    split at hif
    · next hh =>
      obtain ⟨low, ls, hpaired, hls, hl, hm⟩ := pairing_sound hif
      rw [hpaired]
      refine ⟨_, .pair hds hls hh hl, ?_⟩
      rw [hcs, hrest, hm]
      exact (List.append_assoc ('u' :: ds) _ l.rest).symm
    · cases hif
      exact ⟨_, .unit hds hvalid, by rw [hcs, hrest]; rfl⟩
  · cases hshort : short? letter with
    | none =>
      rw [hshort] at hif
      cases hif
    | some e =>
      rw [hshort] at hif
      obtain ⟨_, k, hskip, hpure⟩ := Step.bind_eq_ok.1 hif
      have hdrop := skip_sound hskip
      cases hpure
      exact ⟨[letter], .short hshort, by rw [hdrop, hcs]; rfl⟩

/-! ## Quoted texts -/

/-- One step of the reader of strings: the closing quote, an escape, a control character, or a
character that stands for itself. -/
theorem quotedOnto_cons {found : List Char} (h : i.rest = c :: cs) :
    quotedOnto found i =
      if c = '"' then .ok (String.ofList found.reverse) i.tail
      else if c = '\\' then
        match escape i.tail with
        | .ok e j => quotedOnto (e :: found) j
        | .error e j => .error e j
      else if c.toNat < 0x20 then .error (.invalid i.position) i
      else quotedOnto (c :: found) i.tail := by
  obtain ⟨position, _⟩ := i
  subst h
  rw [quotedOnto]
  split
  · next hnil => cases hnil
  · next hcons =>
    cases hcons
    split
    · rfl
    split
    · split <;> next he => simp only [he]
    · rfl

/-- A string of the grammar is read as its characters. -/
theorem gives_quotedOnto (h : Chars d s cs rest) (found : List Char) :
    Gives (quotedOnto found) cs (String.ofList (found.reverse ++ s)) rest := by
  induction h generalizing found with
  | close =>
    intro i hi
    refine ⟨i.tail, ?_, by rw [rest_tail, hi]; rfl⟩
    rw [quotedOnto_cons hi, if_pos rfl, List.append_nil]
  | @cons c w s cs rest hc _ ih =>
    have hcons : String.ofList ((c :: found).reverse ++ s) =
        String.ofList (found.reverse ++ c :: s) := by
      rw [List.reverse_cons, List.append_assoc]
      rfl
    have hescape (w : List Char) (hw : Character d c ('\\' :: w)) :
        Gives (quotedOnto found) ('\\' :: w ++ cs) (String.ofList (found.reverse ++ c :: s))
          rest := by
      intro i hi
      obtain ⟨j, hj, hrest⟩ := gives_escape hw cs i.tail (by rw [rest_tail, hi]; rfl)
      rw [quotedOnto_cons hi, if_neg (by decide), if_pos rfl, hj, ← hcons]
      exact ih (c :: found) j hrest
    cases hc with
    | raw hge hquote hslash =>
      intro i hi
      rw [quotedOnto_cons hi, if_neg hquote, if_neg hslash, if_neg (by omega), ← hcons]
      exact ih (c :: found) i.tail (by rw [rest_tail, hi]; rfl)
    | short hshort => exact hescape _ (.short hshort)
    | unit hunit hn => exact hescape _ (.unit hunit hn)
    | pair hhs hls hh hl => exact hescape _ (.pair hhs hls hh hl)

theorem quotedOnto_sound {found : List Char} {t : String} (h : quotedOnto found i = .ok t j) :
    ∃ s, t = String.ofList (found.reverse ++ s) ∧ Chars .signed s i.rest j.rest := by
  induction hn : i.rest.length using Nat.strongRecOn generalizing found i with
  | _ n ih =>
    subst hn
    cases hi : i.rest with
    | nil =>
      rw [quotedOnto] at h
      split at h
      · cases h
      · next hcons => cases hi.symm.trans hcons
    | cons c cs =>
      have htail : i.tail.rest = cs := by rw [rest_tail, hi]; rfl
      have hlt : i.tail.rest.length < i.rest.length := by rw [htail, hi]; exact Nat.lt_succ_self _
      rw [quotedOnto_cons hi] at h
      split at h
      · next hc =>
        cases h
        subst hc
        refine ⟨[], by rw [List.append_nil], ?_⟩
        rw [htail]
        exact .close
      split at h
      · next hc =>
        subst hc
        split at h
        · next e k he =>
          obtain ⟨w, hw, hrest⟩ := escape_sound he
          obtain ⟨s, rfl, hs⟩ := ih _ (Nat.lt_of_le_of_lt (forward_escape.ok he) hlt) h rfl
          refine ⟨e :: s, by rw [List.reverse_cons, List.append_assoc]; rfl, ?_⟩
          rw [← htail, hrest]
          exact .cons hw hs
        · cases h
      split at h
      · cases h
      · next hquote hslash hge =>
        obtain ⟨s, rfl, hs⟩ := ih _ hlt h rfl
        refine ⟨c :: s, by rw [List.reverse_cons, List.append_assoc]; rfl, ?_⟩
        rw [htail] at hs
        exact .cons (w := [c]) (.raw (Nat.le_of_not_lt hge) hquote hslash) hs

theorem gives_quoted {t : String} (h : Chars d t.toList cs rest) : Gives quoted cs t rest := by
  have hgives := gives_quotedOnto h []
  rwa [List.reverse_nil, List.nil_append, String.ofList_toList] at hgives

/-- What the reader takes for a string is one of the signed dialect. -/
theorem quoted_sound {t : String} (h : quoted i = .ok t j) :
    Chars .signed t.toList i.rest j.rest := by
  obtain ⟨s, rfl, hs⟩ := quotedOnto_sound h
  rwa [List.reverse_nil, List.nil_append, String.toList_ofList]

end Wireform.Json.Lex
