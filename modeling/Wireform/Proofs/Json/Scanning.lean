import Wireform.Proofs.Json.Boundaries
import Wireform.Proofs.Tracks

/-!
# Scanning

Every lexer of bytes does what the lexer of characters does that has the same name: started at the
same place they come to the same place, with the same results and the same failures. So it only
stops between two characters, whether it fails or not, and all the texts that are cut out are texts.
-/

namespace Wireform.Json.Scan

open Quoted Step

variable {b : UInt8} {c d : Char} {cs ds before rest : List Char} {x n start high : Nat}
  {i : Input} {α β : Type} {Q : α → β → Nat → Input → Prop}

/-! ## Single characters -/

theorem tracks_invalid : Tracks (On cs) (Stops cs) Q invalid Lex.invalid := by
  intro x i h
  exact .error (h.stops_here .invalid fun _ => rfl)

/-- The byte that the scanner looks at leads the character that the reader looks at. -/
theorem tracks_peek :
    Tracks (On cs) (Stops cs) (fun b c x i => Leads b c ∧ i.rest.head? = some c ∧ On cs x i)
      (peek (stored cs).toArray) Lex.peek := by
  rintro x i ⟨before, h⟩
  obtain ⟨hrest, hget⟩ | ⟨b, c, rest, hrest, hget, hlead⟩ := h.head?
  · simp only [peek, Lex.peek, hrest, hget]
    exact .error (h.on.stops_here .unexpectedEnd fun _ => rfl)
  · simp only [peek, Lex.peek, hrest, hget]
    exact .ok ⟨hlead, by rw [hrest]; rfl, h.on⟩

theorem tracks_skip (hc : c.toNat < 128) :
    Tracks (fun x i => i.rest.head? = some c ∧ On cs x i) (Stops cs) (fun _ _ => On cs)
      (skip 1) (Lex.skip 1) := by
  rintro x i ⟨hhead, before, h⟩
  obtain ⟨rest, hrest⟩ := List.head?_eq_some_iff.1 hhead
  exact .ok (h.tail hrest hc).on

theorem tracks_expect (hc : c.toNat < 128) :
    Tracks (On cs) (Stops cs) (fun _ _ => On cs) (expect (stored cs).toArray c)
      (Lex.expect c) := by
  refine tracks_peek.bind fun b d => ?_
  refine .ite (fun x i h => h.1.eq_iff hc) (fun _ hd => ?_) fun _ _ => ?_
  · subst hd
    exact fun x i h => tracks_skip hc h.2
  · exact fun x i h => tracks_invalid h.2.2

/-- A run of ASCII characters of one kind is as long in bytes as in characters. -/
theorem run_eq {kind : UInt8 → Bool} {kind' : Char → Bool}
    (hkind : ∀ b c, Leads b c → kind b = kind' c) (hascii : ∀ c, kind' c → c.toNat < 128)
    (h : At cs before x i) :
    run (stored cs).toArray kind x = .ok () (x + Input.byteCount (i.rest.takeWhile kind')) := by
  obtain ⟨position, ds⟩ := i
  induction ds generalizing before x position with
  | nil =>
    rw [run, dif_neg (by rw [h.size_eq]; exact Nat.lt_irrefl x)]
    rfl
  | cons c ds ih =>
    obtain ⟨hrest, -⟩ | ⟨b, d, rest, hrest, hget, hlead⟩ := h.head?
    · cases hrest
    obtain ⟨rfl, rfl⟩ := List.cons_eq_cons.1 hrest
    obtain ⟨hlt, hb⟩ := Array.getElem?_eq_some_iff.1 hget
    rw [run, dif_pos hlt, hb, hkind b c hlead, List.takeWhile_cons]
    split
    · next hc =>
      have htail := h.tail rfl (hascii c hc)
      have hone := htail.offset
      rw [Input.byteCount_append, ← h.offset] at hone
      rw [ih _ htail, Lex.byteCount_cons, hone, Nat.add_assoc]
      rfl
    · rfl

/-- The scanner passes blanks as the reader does. -/
theorem tracks_blanks :
    Tracks (On cs) (Stops cs) (fun _ _ => On cs) (blanks (stored cs).toArray) Lex.blanks := by
  rintro x i ⟨before, h⟩
  rw [blanks, run_eq (fun _ _ => Leads.isBlank) (fun c hc => ?_) h]
  · exact .ok (h.run Lex.isBlank).on
  · simp only [Lex.isBlank, Bool.or_eq_true, decide_eq_true_iff] at hc
    rcases hc with ((rfl | rfl) | rfl) | rfl <;> decide

theorem tracks_oneOf {ds : List Char} (hascii : Ascii ds) :
    Tracks (At cs before) (Stops cs)
      (fun found taken x i => found = !taken.isEmpty ∧ At cs (before ++ taken) x i)
      (oneOf (stored cs).toArray ds) (Lex.oneOf ds) := by
  intro x i h
  obtain ⟨hrest, hget⟩ | ⟨b, c, rest, hrest, hget, hlead⟩ := h.head?
  · simp only [oneOf, Lex.oneOf, hrest, hget]
    exact .ok ⟨rfl, by rwa [List.append_nil]⟩
  · have hmem : b ∈ ds.map Char.toUInt8 ↔ c ∈ ds := by
      rw [List.mem_map]
      constructor
      · rintro ⟨d, hd, rfl⟩
        rwa [(hlead.eq_iff (hascii d hd)).1 rfl]
      · exact fun hc => ⟨c, hc, ((hlead.eq_iff (hascii c hc)).2 rfl).symm⟩
    simp only [oneOf, Lex.oneOf, hrest, hget, List.contains_iff_mem, hmem]
    split
    · next hc => exact .ok ⟨rfl, h.tail hrest (hascii c hc)⟩
    · exact .ok ⟨rfl, by rwa [List.append_nil]⟩

theorem tracks_literal {word : List Char} (hascii : Ascii word) :
    Tracks (On cs) (Stops cs) (fun _ _ => On cs) (literal (stored cs).toArray word)
      (Lex.literal word) := by
  rintro x i ⟨before, h⟩
  simp only [literal, Lex.literal, h.slice?_eq_iff word hascii, List.isPrefixOf_iff_prefix]
  split
  · next hword =>
    obtain ⟨rest, hrest⟩ := hword
    exact .ok (h.drop hrest.symm hascii).on
  · exact .error (h.on.stops_here .invalid fun _ => rfl)

/-! ## Numbers -/

theorem ascii_of_isDigit (h : c.isDigit) : c.toNat < 128 := by
  simp only [Char.isDigit, Bool.and_eq_true, decide_eq_true_iff] at h
  exact Nat.lt_of_le_of_lt h.2 (by decide)

/-- The scanner counts the digits that the reader takes. -/
theorem tracks_digits :
    Tracks (At cs before) (Stops cs)
      (fun n ds x i => n = ds.length ∧ At cs (before ++ ds) x i)
      (digits (stored cs).toArray) Lex.digits := by
  intro x i h
  have hrun := run_eq (fun _ _ => Leads.isDigit) (fun _ => ascii_of_isDigit) h
  have hdigits : Ascii (i.rest.takeWhile Char.isDigit) := fun c hc =>
    ascii_of_isDigit (List.all_eq_true.1 List.all_takeWhile c hc)
  simp only [digits, Step.bind_apply, Step.get_apply, hrun, Step.pure_apply]
  refine .ok ⟨?_, h.run Char.isDigit⟩
  rw [byteCount_ascii hdigits, Nat.add_sub_cancel_left]

theorem tracks_someDigits :
    Tracks (At cs before) (Stops cs)
      (fun n ds x i => n = ds.length ∧ ds ≠ [] ∧ At cs (before ++ ds) x i)
      (someDigits (stored cs).toArray) Lex.someDigits := by
  refine tracks_digits.bind fun n ds => .ite (fun x i h => ?_) (fun _ _ => ?_) fun _ hds => ?_
  · rw [h.1, List.isEmpty_iff, List.length_eq_zero_iff]
  · exact fun x i h => tracks_invalid h.2.on
  · exact .pure fun x i h => ⟨h.1, mt List.isEmpty_iff.2 hds, h.2⟩

theorem tracks_whole :
    Tracks (At cs before) (Stops cs) (fun _ ds x i => At cs (before ++ ds) x i)
      (whole (stored cs).toArray) Lex.whole := by
  intro x i h
  refine (tracks_someDigits h).bind fun n ds y j hds => ?_
  obtain ⟨rfl, hne, hat⟩ := hds
  obtain ⟨c, ds, rfl⟩ := List.exists_cons_of_ne_nil hne
  have hstart : At cs before x ⟨x, c :: ds ++ j.rest⟩ := by
    refine ⟨?_, h.offset, rfl⟩
    rw [← List.append_assoc, hat.text]
  obtain ⟨hnil, -⟩ | ⟨b, d, rest, hrest, hget, hlead⟩ := hstart.head?
  · cases hnil
  obtain ⟨rfl, -⟩ := List.cons_eq_cons.1 hrest
  have hbyte : byteAt (stored cs).toArray x y = .ok b y := by rw [byteAt, hget]
  have hzero : b = '0'.toUInt8 ↔ (c :: ds).head? = some '0' := by
    rw [hlead.eq_iff (by decide), List.head?_cons, Option.some.injEq]
  rw [Step.bind_apply, hbyte]
  simp only [hzero]
  split
  · refine .error ?_
    rw [h.position]
    exact hat.on.stops h.le rfl
  · exact .ok hat

theorem tracks_fraction :
    Tracks (At cs before) (Stops cs) (fun _ ds x i => At cs (before ++ ds) x i)
      (fraction (stored cs).toArray) Lex.fraction := by
  refine (tracks_oneOf (by decide)).bind fun found point x i h => ?_
  obtain ⟨rfl, hat⟩ := h
  cases point with
  | nil => exact .ok hat
  | cons c point =>
    refine (tracks_someDigits hat).bind fun n ds y j hds => .ok ?_
    rw [← List.append_assoc]
    exact hds.2.2

/-- The scanner passes an exponent as the reader does. -/
theorem tracks_exponent :
    Tracks (At cs before) (Stops cs) (fun _ ds x i => At cs (before ++ ds) x i)
      (exponent (stored cs).toArray) Lex.exponent := by
  refine (tracks_oneOf (by decide)).bind fun found mark x i h => ?_
  obtain ⟨rfl, hat⟩ := h
  cases mark with
  | nil => exact .ok hat
  | cons c mark =>
    refine (tracks_oneOf (by decide) hat).bind fun _ sign x i h => ?_
    refine (tracks_someDigits h.2).bind fun n ds y j hds => .ok ?_
    rw [← List.append_assoc, ← List.append_assoc]
    exact hds.2.2

/-- A number is cut out of the bytes as it is spelled. -/
theorem tracks_number :
    Tracks (On cs) (Stops cs) (Step.Same (On cs)) (number (stored cs).toArray) Lex.number := by
  rintro x i ⟨before, h⟩
  refine (tracks_oneOf (by decide) h).bind fun _ sign x₁ i₁ h₁ => ?_
  refine (tracks_whole h₁.2).bind fun _ ws x₂ i₂ h₂ => ?_
  refine (tracks_fraction h₂).bind fun _ fs x₃ i₃ h₃ => ?_
  refine (tracks_exponent h₃).bind fun _ es x₄ i₄ h₄ => ?_
  simp only [List.append_assoc] at h₄
  have hcut : Scan.text (stored cs).toArray x x₄ =
      .ok (String.ofList (sign ++ ws ++ fs ++ es)) := by
    simp only [List.append_assoc]
    rw [h.offset, h₄.cut]
  rw [Step.bind_apply, Step.get_apply]
  simp only [hcut]
  exact .ok ⟨rfl, h₄.on⟩

/-! ## Quoted texts -/

theorem ascii_of_hexNumber? (h : hexNumber? ds = some n) : Ascii ds := by
  intro c hc
  obtain ⟨k, hk⟩ := Lex.hexNumber?_digits h c hc
  have hle := Char.utf8Size_eq_one_iff.1 (Lex.hexDigit?_utf8Size hk)
  exact Nat.lt_succ_of_le (UInt32.le_iff_toNat_le.1 hle)

theorem ascii_of_codeUnit? (h : codeUnit? ds = some n) : Ascii ds := by
  rw [codeUnit?.eq_def] at h
  split at h
  · exact ascii_cons.2 ⟨by decide, ascii_of_hexNumber? h⟩
  · exact ascii_of_hexNumber? h

/-- Four bytes are left exactly if the next four characters have as many. -/
theorem four_le_byteCount_iff (cs : List Char) :
    4 ≤ Input.byteCount cs ↔ ¬ Input.byteCount (cs.take 4) < 4 := by
  have hsplit := Input.byteCount_append (cs.take 4) (cs.drop 4)
  rw [List.take_append_drop] at hsplit
  have hlength := Lex.length_le_byteCount (cs.take 4)
  rw [List.length_take] at hlength
  rcases Nat.lt_or_ge cs.length 4 with hlt | hge
  · rw [List.take_of_length_le (Nat.le_of_lt hlt), Nat.not_lt]
  · omega

/-- Four bytes spell a code unit just if the four characters do. -/
theorem codeUnit?_stored (h : ¬ Input.byteCount (cs.take 4) < 4) :
    ((Utf8.decode? ((stored cs).take 4)).bind fun s => codeUnit? s.toList) =
      codeUnit? (cs.take 4) := by
  refine Option.ext fun n => ?_
  rw [Option.bind_eq_some_iff]
  constructor
  · rintro ⟨s, hs, hunit⟩
    have hstored : stored s.toList = (stored cs).take 4 := by
      rw [stored_toList, Utf8.encode_of_decode? hs]
    have hascii := ascii_of_codeUnit? hunit
    have hlength : s.toList.length = 4 := by
      have hbytes := congrArg List.length hstored
      rw [length_stored, byteCount_ascii hascii, List.length_take, length_stored] at hbytes
      have hle := (four_le_byteCount_iff cs).2 h
      omega
    have hsplit : stored cs = stored s.toList ++ (stored cs).drop 4 := by
      rw [hstored, List.take_append_drop]
    have htake := List.prefix_iff_eq_take.1 (prefix_of_stored hascii hsplit)
    rw [hlength] at htake
    rwa [← htake]
  · intro hunit
    have hascii := ascii_of_codeUnit? hunit
    have hle := List.length_take_le 4 cs
    have hsplit := List.take_append_drop 4 cs
    revert h hunit hascii hle hsplit
    generalize cs.take 4 = ds, cs.drop 4 = rest
    rintro h hunit hascii hle rfl
    rw [byteCount_ascii hascii] at h
    have hlength : (stored ds).length = 4 := by
      rw [length_stored, byteCount_ascii hascii]
      omega
    refine ⟨String.ofList ds, ?_, by rwa [String.toList_ofList]⟩
    rw [stored_append, ← hlength, List.take_left, decode?_stored]

/-- The scanner reads a code unit as the reader does, or stops at the same offset. -/
theorem tracks_codeUnit :
    Tracks (On cs) (Stops cs) (Step.Same (On cs)) (codeUnit (stored cs).toArray) Lex.codeUnit := by
  rintro x i ⟨before, h⟩
  rw [codeUnit, Lex.codeUnit, h.slice?]
  by_cases hbytes : Input.byteCount (i.rest.take 4) < 4
  · rw [if_pos hbytes, if_neg fun hle => (four_le_byteCount_iff _).1 hle hbytes]
    exact .error (h.on.stops_here .unexpectedEnd fun _ => rfl)
  · rw [if_neg hbytes, if_pos ((four_le_byteCount_iff _).2 hbytes)]
    simp only [codeUnit?_stored hbytes]
    cases hunit : codeUnit? (i.rest.take 4) with
    | none => exact .error (h.on.stops_here .invalidEscape fun _ => rfl)
    | some n =>
      have hascii := ascii_of_codeUnit? hunit
      have hlength : (i.rest.take 4).length = 4 := by
        have hle := List.length_take_le 4 i.rest
        rw [byteCount_ascii hascii] at hbytes
        omega
      have hdrop := h.drop (List.take_append_drop 4 i.rest).symm hascii
      rw [hlength] at hdrop
      exact .ok ⟨rfl, hdrop.on⟩

theorem tracks_pairing (hstart : start ≤ Input.byteCount cs) :
    Tracks (On cs) (Stops cs) (Step.Same (On cs)) (pairing (stored cs).toArray start high)
      (Lex.pairing start high) := by
  rintro x i ⟨before, h⟩
  have hword : slice? (stored cs).toArray x (x + 2) = some ['\\'.toUInt8, 'u'.toUInt8] ↔
      ['\\', 'u'].isPrefixOf i.rest := by
    rw [List.isPrefixOf_iff_prefix]
    exact h.slice?_eq_iff ['\\', 'u'] (by decide)
  change Meets _ _ ((if slice? _ x (x + 2) = _ then _ else _ : Scan Nat) x)
    ((if List.isPrefixOf _ i.rest then _ else _ : Lex Nat) i)
  by_cases hprefix : List.isPrefixOf ['\\', 'u'] i.rest
  · rw [if_pos (hword.2 hprefix), if_pos hprefix]
    obtain ⟨rest, hrest⟩ := List.isPrefixOf_iff_prefix.1 hprefix
    have hdrop := (h.drop hrest.symm (by decide)).on
    refine (tracks_codeUnit hdrop).bind fun low low' y j hlow => ?_
    obtain ⟨rfl, hon⟩ := hlow
    split
    · exact .ok ⟨rfl, hon⟩
    · exact .error (hon.stops hstart rfl)
  · rw [if_neg (mt hword.1 hprefix), if_neg hprefix]
    exact .error (h.on.stops hstart rfl)

theorem tracks_codePoint (hstart : start ≤ Input.byteCount cs) :
    Tracks (On cs) (Stops cs) (Step.Same (On cs)) (codePoint (stored cs).toArray start)
      (Lex.codePoint start) := by
  refine tracks_codeUnit.bind fun unit unit' x i h => ?_
  obtain ⟨rfl, hon⟩ := h
  split
  · exact tracks_pairing hstart hon
  · exact .ok ⟨rfl, hon⟩

/-- The scanner reads an escape as the reader does. -/
theorem tracks_escape :
    Tracks (On cs) (Stops cs) (Step.Same (On cs)) (escape (stored cs).toArray) Lex.escape := by
  rintro x i ⟨before, h⟩
  have hpeek := tracks_peek h.on
  refine hpeek.bind fun b c y j hsees => ?_
  obtain ⟨hlead, hhead, hon⟩ := hsees
  rw [h.position]
  by_cases hu : c = 'u'
  · rw [if_pos ((hlead.eq_iff (by decide)).2 hu), if_pos hu]
    refine (tracks_skip (by rw [hu]; decide) ⟨hhead, hon⟩).bind fun _ _ z k hon => ?_
    refine (tracks_codePoint h.le hon).bind fun unit unit' z k hunit => ?_
    obtain ⟨rfl, hon⟩ := hunit
    cases scalar? unit with
    | none => exact .error (hon.stops h.le rfl)
    | some d => exact .ok ⟨rfl, hon⟩
  · rw [if_neg (mt (hlead.eq_iff (by decide)).1 hu), if_neg hu, hlead.short?_eq]
    cases hshort : short? c with
    | none => exact .error (hon.stops h.le rfl)
    | some d =>
      refine (tracks_skip (ascii_of_short? hshort) ⟨hhead, hon⟩).bind fun _ _ z k hon => ?_
      exact .ok ⟨rfl, hon⟩

/-- A byte that stands for itself, or for part of a character that does. -/
def Plain (b : UInt8) : Prop := b ≠ '"'.toUInt8 ∧ b ≠ '\\'.toUInt8 ∧ ¬ b < 0x20

/-- One step of the scanner of strings: what was passed since the last escape is taken over at a
quote or an escape. -/
theorem quotedFrom_eq {data : Array UInt8} {out : String} (hget : data[x]? = some b) :
    quotedFrom data out start x =
      if b = '"'.toUInt8 then
        match Scan.text data start x with
        | .ok run => .ok (out ++ run) (x + 1)
        | .error e => .error e x
      else if b = '\\'.toUInt8 then
        match Scan.text data start x with
        | .ok run =>
          match escape data (x + 1) with
          | .ok c y => quotedFrom data ((out ++ run).push c) y y
          | .error e y => .error e y
        | .error e => .error e x
      else if b < 0x20 then .error (.document (.invalid x)) x
      else quotedFrom data out start (x + 1) := by
  rw [quotedFrom]
  split
  · next hnone => cases hget.symm.trans hnone
  · next d hd =>
    obtain rfl := Option.some.inj (hget.symm.trans hd)
    refine ite_congr rfl (fun _ => rfl) fun _ => ite_congr rfl (fun _ => ?_) fun _ => rfl
    cases Scan.text data start x with
    | error e => rfl
    | ok run =>
      dsimp only
      split
      · next he => rw [he]
      · next he => rw [he]

/-- Bytes that stand for themselves are passed, to be taken over later. -/
theorem quotedFrom_skip {data : Array UInt8} {out : String} {bs : List UInt8}
    (hget : ∀ n, n < bs.length → data[x + n]? = bs[n]?) (hplain : ∀ b ∈ bs, Plain b) :
    quotedFrom data out start x = quotedFrom data out start (x + bs.length) := by
  induction bs generalizing x with
  | nil => rfl
  | cons b bs ih =>
    obtain ⟨hb, hplain⟩ := List.forall_mem_cons.1 hplain
    have hfirst : data[x]? = some b := hget 0 (Nat.zero_lt_succ _)
    have hmore (n : Nat) (hn : n < bs.length) : data[x + 1 + n]? = bs[n]? := by
      rw [Nat.add_assoc, Nat.add_comm 1]
      exact hget (n + 1) (Nat.succ_lt_succ hn)
    rw [quotedFrom_eq hfirst, if_neg hb.1, if_neg hb.2.1, if_neg hb.2.2, ih hmore hplain,
      List.length_cons, Nat.add_assoc, Nat.add_comm 1]

/-- All bytes of a character that stands for itself are plain. -/
theorem plain_of_mem (hquote : c ≠ '"') (hslash : c ≠ '\\') (hcontrol : ¬ c.toNat < 0x20)
    (hb : b ∈ String.utf8EncodeChar c) : Plain b := by
  have hlead : Leads b c := by
    rcases Nat.lt_or_ge c.toNat 128 with hc | hc
    · rw [utf8EncodeChar_ascii hc, List.mem_singleton] at hb
      exact .inl ⟨hc, hb ▸ toNat_toUInt8 hc⟩
    · exact .inr ⟨hc, le_of_mem_utf8EncodeChar hc hb⟩
  exact ⟨mt (hlead.eq_iff (by decide)).1 hquote, mt (hlead.eq_iff (by decide)).1 hslash,
    mt hlead.control_iff.1 hcontrol⟩

section

variable {outer taken found : List Char} {out : String}

/-- At a backslash the run of bytes before it is cut out. -/
theorem quotedFrom_backslash (h : At cs (outer ++ taken) x i) (hrest : i.rest = '\\' :: rest) :
    quotedFrom (stored cs).toArray out (Input.byteCount outer) x =
      match escape (stored cs).toArray (x + 1) with
      | .ok c y => quotedFrom (stored cs).toArray ((out ++ String.ofList taken).push c) y y
      | .error e y => .error e y := by
  obtain ⟨b, hget, hlead⟩ := h.exists_leads hrest
  obtain rfl := (hlead.eq_iff (by decide)).2 rfl
  rw [quotedFrom_eq hget, if_neg (by decide), if_pos rfl, h.cut]

/-- On the one side `found` are the characters of the text so far. On the other side `out` has been
cut out, and the bytes of `taken` are still to be. -/
theorem meets_quotedFrom (h : At cs (outer ++ taken) x i)
    (hfound : found.reverse = out.toList ++ taken) :
    Meets (Stops cs) (Step.Same (On cs))
      (quotedFrom (stored cs).toArray out (Input.byteCount outer) x) (Lex.quotedOnto found i) := by
  fun_induction Lex.quotedOnto found i generalizing outer taken out x with
  | case1 found i hrest =>
    obtain ⟨-, hget⟩ | ⟨_, _, _, hcons, -⟩ := h.head?
    · rw [quotedFrom]
      split
      · exact .error (h.on.stops_here .unexpectedEnd fun _ => rfl)
      · next hsome => cases hget.symm.trans hsome
    · cases hrest.symm.trans hcons
  | case2 found i rest hrest =>
    obtain ⟨b, hget, hlead⟩ := h.exists_leads hrest
    rw [quotedFrom_eq hget, if_pos ((hlead.eq_iff (by decide)).2 rfl), h.cut]
    refine .ok ⟨?_, (h.tail hrest (by decide)).on⟩
    rw [hfound, String.ofList_append, String.ofList_toList]
  | case3 found i rest d j hescape hrest _ _ _ ih =>
    have hmeets := tracks_escape (h.tail hrest (by decide)).on
    rw [hescape] at hmeets
    obtain ⟨c, y, hescape', hc, before, hat⟩ := hmeets.exists_ok
    subst hc
    rw [quotedFrom_backslash h hrest, hescape']
    -- behind an escape a new run begins, which is empty as yet
    have hat' : At cs (before ++ []) y j := by rwa [List.append_nil]
    have hout : (c :: found).reverse = ((out ++ String.ofList taken).push c).toList ++ [] := by
      simp [hfound]
    have hrest := ih hat' hout
    rwa [← hat.offset] at hrest
  | case4 found i rest e j hescape hrest =>
    have hmeets := tracks_escape (h.tail hrest (by decide)).on
    rw [hescape] at hmeets
    obtain ⟨f, y, hescape', hstops⟩ := hmeets.exists_error
    rw [quotedFrom_backslash h hrest, hescape']
    exact .error hstops
  | case5 found i c rest hrest _ hquote hslash hcontrol =>
    obtain ⟨b, hget, hlead⟩ := h.exists_leads hrest
    rw [quotedFrom_eq hget, if_neg (mt (hlead.eq_iff (by decide)).1 hquote),
      if_neg (mt (hlead.eq_iff (by decide)).1 hslash), if_pos (hlead.control_iff.2 hcontrol)]
    exact .error (h.on.stops_here .invalid fun _ => rfl)
  | case6 found i c rest hrest _ hquote hslash hcontrol ih =>
    have hbytes (n : Nat) (hn : n < (String.utf8EncodeChar c).length) :
        (stored cs).toArray[x + n]? = (String.utf8EncodeChar c)[n]? := by
      rw [h.getElem?, hrest, stored_cons, List.getElem?_append_left hn]
    rw [quotedFrom_skip hbytes fun b => plain_of_mem hquote hslash hcontrol,
      String.length_utf8EncodeChar]
    have hover := h.over hrest
    rw [List.append_assoc] at hover
    refine ih hover ?_
    rw [List.reverse_cons, hfound, List.append_assoc]

end

/-- The scanner reads a string as the reader does. -/
theorem tracks_quoted :
    Tracks (On cs) (Stops cs) (Step.Same (On cs)) (quoted (stored cs).toArray) Lex.quoted := by
  rintro x i ⟨before, h⟩
  have hat : At cs (before ++ []) x i := by rwa [List.append_nil]
  have hmeets : Meets _ _ (quotedFrom _ "" _ x) (Lex.quotedOnto [] i) := meets_quotedFrom hat rfl
  rwa [← h.offset] at hmeets

end Wireform.Json.Scan
