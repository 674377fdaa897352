import Wireform.Units.ZonePattern

/-!
# Which time-zone identifiers are accepted

`Spelled` is the grammar of the identifiers. It is what the patterns accept, whatever characters
outside of ASCII they take for digits, and what `ZoneId.ofText?` accepts (`ofText?_iff_spelled`): a
matched digit that is no number does not make an offset, and what follows a name with a sign is never
taken for a region.
-/

namespace Wireform

namespace ZoneId

/-! ## The grammar -/

/-- Two digits, the first of which may be a zero. -/
def pair (n : Nat) : List Char := [Nat.digitChar (n / 10), Nat.digitChar (n % 10)]

/-- Hours, minutes and seconds and how they may be spelled. -/
inductive Clock : List Char → Nat × Nat × Nat → Prop
  | hour {h : Nat} : h < 10 → Clock [Nat.digitChar h] (h, 0, 0)
  | hours {h : Nat} : h < 100 → Clock (pair h) (h, 0, 0)
  | minutes {h m : Nat} : h < 100 → m < 100 → Clock (pair h ++ pair m) (h, m, 0)
  | colonMinutes {h m : Nat} : h < 100 → m < 100 → Clock (pair h ++ ':' :: pair m) (h, m, 0)
  | seconds {h m s : Nat} : h < 100 → m < 100 → s < 100 →
    Clock (pair h ++ pair m ++ pair s) (h, m, s)
  | colonSeconds {h m s : Nat} : h < 100 → m < 100 → s < 100 →
    Clock (pair h ++ ':' :: pair m ++ ':' :: pair s) (h, m, s)

/-- A sign and a clock time of at most eighteen hours. -/
inductive Offset : List Char → Prop
  | intro {sign : Char} {cs : List Char} {h m s : Nat} : sign = '+' ∨ sign = '-' →
    Clock cs (h, m, s) → h ≤ 18 → m < 60 → s < 60 → (h = 18 → m = 0 ∧ s = 0) → Offset (sign :: cs)

/-- The ids of time zones. -/
inductive Spelled : List Char → Prop
  | zulu : Spelled ['Z']
  | offset {cs : List Char} : Offset cs → Spelled cs
  | base {b : List Char} : b ∈ bases → Spelled b
  | shifted {b cs : List Char} : b ∈ bases → Offset cs → Spelled (b ++ cs)
  /-- A region does not begin with a base that has a sign behind it. -/
  | region {c : Char} {cs : List Char} : c.isAlpha → cs ≠ [] → (∀ d ∈ cs, isRegionChar d) →
    (∀ b ∈ bases, ∀ sign rest, sign = '+' ∨ sign = '-' → c :: cs ≠ b ++ sign :: rest) →
    Spelled (c :: cs)

/-! ## Numbers -/

theorem isDigit_iff {c : Char} : c.isDigit = true ↔ 48 ≤ c.toNat ∧ c.toNat ≤ 57 := by
  rw [Char.isDigit, Bool.and_eq_true, decide_eq_true_iff, decide_eq_true_iff, ge_iff_le,
    UInt32.le_iff_toNat_le, UInt32.le_iff_toNat_le]
  exact Iff.rfl

/-- A digit is read as a number below ten. -/
theorem digit?_eq_some {c : Char} {n : Nat} :
    digit? c = some n ↔ n < 10 ∧ c = Nat.digitChar n := by
  have hzero : '0'.toNat = 48 := rfl
  rw [digit?]
  constructor
  · intro h
    split at h
    · next hdigit =>
      cases h
      have hrange := isDigit_iff.1 hdigit
      refine ⟨by omega, Char.toNat_inj.1 ?_⟩
      rw [Nat.toNat_digitChar_of_lt_ten (by omega)]
      omega
    · cases h
  · rintro ⟨hn, rfl⟩
    have hchar := Nat.toNat_digitChar_of_lt_ten hn
    rw [if_pos (isDigit_iff.2 (by omega)), hchar, hzero]
    exact congrArg some (by omega)

/-- Two digits are read as a number below a hundred. -/
theorem twoDigits?_eq_some {a b : Char} {n : Nat} :
    twoDigits? a b = some n ↔ n < 100 ∧ [a, b] = pair n := by
  simp only [twoDigits?, Option.bind_eq_bind, Option.bind_eq_some_iff, digit?_eq_some, pair,
    Option.pure_def, Option.some.injEq, List.cons.injEq, and_true]
  constructor
  · rintro ⟨x, ⟨hx, rfl⟩, y, ⟨hy, rfl⟩, rfl⟩
    refine ⟨by omega, congrArg _ ?_, congrArg _ ?_⟩ <;> omega
  · rintro ⟨hn, rfl, rfl⟩
    exact ⟨n / 10, ⟨by omega, rfl⟩, n % 10, ⟨by omega, rfl⟩, by omega⟩

theorem twoDigits?_pair {n : Nat} (h : n < 100) :
    twoDigits? (Nat.digitChar (n / 10)) (Nat.digitChar (n % 10)) = some n :=
  twoDigits?_eq_some.2 ⟨h, rfl⟩

theorem clock?_of_clock {cs : List Char} {t : Nat × Nat × Nat} (h : Clock cs t) :
    clock? cs = some t := by
  cases h with
  | hour hh => simp [clock?, digit?_eq_some.2 ⟨hh, rfl⟩]
  | hours hh => simp [pair, clock?, twoDigits?_pair hh]
  | minutes hh hm | colonMinutes hh hm =>
    simp [pair, clock?, twoDigits?_pair hh, twoDigits?_pair hm]
  | seconds hh hm hs | colonSeconds hh hm hs =>
    simp [pair, clock?, twoDigits?_pair hh, twoDigits?_pair hm, twoDigits?_pair hs]

theorem clock_of_clock? {cs : List Char} {t : Nat × Nat × Nat} (h : clock? cs = some t) :
    Clock cs t := by
  unfold clock? at h
  simp only [Option.bind_eq_bind, Option.pure_def] at h
  split at h <;>
    simp only [Option.bind_eq_some_iff, Option.some.injEq, twoDigits?_eq_some, digit?_eq_some,
      reduceCtorEq] at h
  · obtain ⟨h, ⟨hh, rfl⟩, rfl⟩ := h
    exact .hour hh
  · obtain ⟨h, ⟨hh, hab⟩, rfl⟩ := h
    exact hab ▸ .hours hh
  · obtain ⟨h, ⟨hh, hab⟩, m, ⟨hm, hcd⟩, rfl⟩ := h
    have hclock := Clock.minutes hh hm
    rwa [← hab, ← hcd] at hclock
  · obtain ⟨h, ⟨hh, hab⟩, m, ⟨hm, hcd⟩, rfl⟩ := h
    have hclock := Clock.colonMinutes hh hm
    rwa [← hab, ← hcd] at hclock
  · obtain ⟨h, ⟨hh, hab⟩, m, ⟨hm, hcd⟩, s, ⟨hs, hef⟩, rfl⟩ := h
    have hclock := Clock.seconds hh hm hs
    rwa [← hab, ← hcd, ← hef] at hclock
  · obtain ⟨h, ⟨hh, hab⟩, m, ⟨hm, hcd⟩, s, ⟨hs, hef⟩, rfl⟩ := h
    have hclock := Clock.colonSeconds hh hm hs
    rwa [← hab, ← hcd, ← hef] at hclock

/-- The reader of times accepts exactly the spellings of the grammar. -/
theorem clock?_eq_some {cs : List Char} {t : Nat × Nat × Nat} : clock? cs = some t ↔ Clock cs t :=
  ⟨clock_of_clock?, clock?_of_clock⟩

theorem isSign_iff {c : Char} : isSign c = true ↔ c = '+' ∨ c = '-' := by
  rw [isSign, Bool.or_eq_true, decide_eq_true_iff, decide_eq_true_iff]

/-- The check of offsets accepts exactly the signed times. -/
theorem isOffset_iff {cs : List Char} : isOffset cs = true ↔ Offset cs := by
  constructor
  · intro h
    cases cs with
    | nil => cases h
    | cons sign cs =>
      obtain ⟨hsign, hany⟩ := Bool.and_eq_true_iff.1 h
      obtain ⟨⟨h, m, s⟩, hclock, hrange⟩ := (Option.any_eq_true _ _).1 hany
      obtain ⟨hh, hm, hs, hlast⟩ := of_decide_eq_true hrange
      exact .intro (isSign_iff.1 hsign) (clock?_eq_some.1 hclock) hh hm hs (by omega)
  · rintro ⟨hsign, hclock, hh, hm, hs, hlast⟩
    rw [isOffset, Bool.and_eq_true, isSign_iff, clock?_eq_some.2 hclock]
    exact ⟨hsign, decide_eq_true ⟨hh, hm, hs, by omega⟩⟩

theorem Offset.head {cs : List Char} (h : Offset cs) : cs.head?.all isSign = true := by
  obtain ⟨hsign, -⟩ := h
  exact isSign_iff.2 hsign

/-! ## Names with a sign behind them -/

/-- Behind a base name stands nothing or a signed time. -/
theorem afterBase?_eq_some {cs b rest : List Char} :
    afterBase? cs b = some rest ↔ cs = b ++ rest ∧ rest.head?.all isSign := by
  rw [afterBase?, Option.ite_none_right_eq_some, Bool.and_eq_true, List.isPrefixOf_iff_prefix]
  constructor
  · rintro ⟨⟨⟨rest, rfl⟩, hhead⟩, h⟩
    rw [List.drop_left] at hhead h
    cases h
    exact ⟨rfl, hhead⟩
  · rintro ⟨rfl, hhead⟩
    rw [List.drop_left]
    exact ⟨⟨List.prefix_append _ _, hhead⟩, rfl⟩

/-- No base is another one with a sign behind it. -/
theorem rest_unique {b b' rest rest' : List Char} (hb : b ∈ bases) (hb' : b' ∈ bases)
    (h : b ++ rest = b' ++ rest') (hrest : rest.head?.all isSign) (hrest' : rest'.head?.all isSign) :
    rest = rest' := by
  simp only [bases, List.mem_cons, List.not_mem_nil, or_false] at hb hb'
  rcases hb with rfl | rfl | rfl <;> rcases hb' with rfl | rfl | rfl <;>
    simp only [List.cons_append, List.nil_append, List.cons.injEq, true_and, Char.reduceEq,
      false_and] at h
  · exact h
  · subst h
    cases hrest'
  · exact h
  · subst h
    cases hrest
  · exact h

theorem findSome?_afterBase? {cs rest : List Char} :
    bases.findSome? (afterBase? cs) = some rest ↔
      ∃ b ∈ bases, cs = b ++ rest ∧ rest.head?.all isSign := by
  constructor
  · intro h
    obtain ⟨b, hb, hafter⟩ := List.exists_of_findSome?_eq_some h
    exact ⟨b, hb, afterBase?_eq_some.1 hafter⟩
  · rintro ⟨b, hb, hcs, hhead⟩
    cases hfind : bases.findSome? (afterBase? cs) with
    | none =>
      have hnone := List.findSome?_eq_none_iff.1 hfind b hb
      cases hnone.symm.trans (afterBase?_eq_some.2 ⟨hcs, hhead⟩)
    | some rest' =>
      obtain ⟨b', hb', hafter⟩ := List.exists_of_findSome?_eq_some hfind
      obtain ⟨hcs', hhead'⟩ := afterBase?_eq_some.1 hafter
      rw [rest_unique hb hb' (hcs.symm.trans hcs') hhead hhead']

/-- The check of regions asks for a letter and at least one more character of the permitted ones. -/
theorem isRegion_iff {cs : List Char} :
    isRegion cs = true ↔ ∃ c ds, cs = c :: ds ∧ c.isAlpha ∧ ds ≠ [] ∧ ∀ d ∈ ds, isRegionChar d := by
  cases cs with
  | nil => exact iff_of_false nofun nofun
  | cons c cs => simp [isRegion, and_assoc]

/-- The running check accepts exactly the grammar. -/
theorem accepts_iff {cs : List Char} : accepts cs = true ↔ Spelled cs := by
  rw [accepts, Bool.or_eq_true, Bool.or_eq_true, beq_iff_eq, isOffset_iff]
  constructor
  · rintro ((rfl | hoffset) | hrest)
    · exact .zulu
    · exact .offset hoffset
    · cases hfind : bases.findSome? (afterBase? cs) with
      | some rest =>
        rw [hfind, Bool.or_eq_true, List.isEmpty_iff, isOffset_iff] at hrest
        obtain ⟨b, hb, rfl, -⟩ := findSome?_afterBase?.1 hfind
        obtain rfl | hoffset := hrest
        · rw [List.append_nil]
          exact .base hb
        · exact .shifted hb hoffset
      | none =>
        rw [hfind, isRegion_iff] at hrest
        obtain ⟨c, ds, rfl, hc, hne, hds⟩ := hrest
        refine .region hc hne hds fun b hb sign rest hsign heq => ?_
        cases hfind.symm.trans (findSome?_afterBase?.2 ⟨b, hb, heq, isSign_iff.2 hsign⟩)
  · intro h
    cases h with
    | zulu => exact .inl (.inl rfl)
    | offset hoffset => exact .inl (.inr hoffset)
    | base hb =>
      rw [findSome?_afterBase?.2 ⟨_, hb, (List.append_nil _).symm, rfl⟩]
      exact .inr rfl
    | shifted hb hoffset =>
      rw [findSome?_afterBase?.2 ⟨_, hb, rfl, hoffset.head⟩]
      exact .inr (Bool.or_eq_true_iff.2 (.inr (isOffset_iff.2 hoffset)))
    | @region c ds hc hne hds hbase =>
      refine .inr ?_
      cases hfind : bases.findSome? (afterBase? (c :: ds)) with
      | none => exact isRegion_iff.2 ⟨c, ds, rfl, hc, hne, hds⟩
      | some rest =>
        obtain ⟨b, hb, hcs, hhead⟩ := findSome?_afterBase?.1 hfind
        cases rest with
        | nil => rfl
        | cons sign rest => exact (hbase b hb sign rest (isSign_iff.1 hhead) hcs).elim

end ZoneId

namespace ZonePattern

open Pattern ZoneId

variable {foreign : Char → Bool} {cs rest : List Char} {u : Captures}

/-! ## What the groups capture -/

/-- The texts behind a sign that the pattern of offsets matches, and what is captured from them. -/
inductive Parts (foreign : Char → Bool) : List Char → Captures → Prop
  | hour {a : Char} : digit foreign a → Parts foreign [a] [(1, [a])]
  | hours {a b : Char} : digit foreign a → digit foreign b → Parts foreign [a, b] [(1, [a, b])]
  | colonMinutes {a b c d : Char} : digit foreign a → digit foreign b → digit foreign c →
    digit foreign d → Parts foreign [a, b, ':', c, d] [(2, [a, b]), (3, [c, d])]
  | colonSeconds {a b c d e f : Char} : digit foreign a → digit foreign b → digit foreign c →
    digit foreign d → digit foreign e → digit foreign f →
    Parts foreign [a, b, ':', c, d, ':', e, f] [(2, [a, b]), (3, [c, d]), (4, [e, f])]
  | minutes {a b c d : Char} : digit foreign a → digit foreign b → digit foreign c →
    digit foreign d → Parts foreign [a, b, c, d] [(5, [a, b]), (6, [c, d])]
  | seconds {a b c d e f : Char} : digit foreign a → digit foreign b → digit foreign c →
    digit foreign d → digit foreign e → digit foreign f →
    Parts foreign [a, b, c, d, e, f] [(5, [a, b]), (6, [c, d]), (7, [e, f])]

theorem matches_twoDigits {i : Nat} : Matches (group i (twoDigits foreign)) cs u ↔
    ∃ a b, digit foreign a = true ∧ digit foreign b = true ∧ cs = [a, b] ∧ u = [(i, [a, b])] := by
  constructor
  · rintro ⟨_, ⟨_, _, _, _, ⟨a, ha, rfl, rfl⟩, ⟨b, hb, rfl, rfl⟩, rfl, rfl⟩, rfl⟩
    exact ⟨a, b, ha, hb, rfl, rfl⟩
  · rintro ⟨a, b, ha, hb, rfl, rfl⟩
    exact ⟨[], ⟨[a], [], [b], [], ⟨a, ha, rfl, rfl⟩, ⟨b, hb, rfl, rfl⟩, rfl, rfl⟩, rfl⟩

/-- The pattern of a time captures its parts and nothing else. -/
theorem matches_clock : Matches (clock foreign) cs u ↔ Parts foreign cs u := by
  constructor
  · rintro (⟨_, ⟨_, _, _, _, ⟨a, ha, rfl, rfl⟩, hopt, rfl, rfl⟩, rfl⟩ |
      ⟨_, _, _, _, hab, ⟨_, _, _, _, hcolon, ⟨_, _, _, _, hcd, hopt, rfl, rfl⟩, rfl, rfl⟩, rfl, rfl⟩ |
      ⟨_, _, _, _, hab, ⟨_, _, _, _, hcd, hopt, rfl, rfl⟩, rfl, rfl⟩)
    · obtain ⟨b, hb, rfl, rfl⟩ | ⟨rfl, rfl⟩ := matches_opt.1 hopt
      · exact .hours ha hb
      · exact .hour ha
    · obtain ⟨a, b, ha, hb, rfl, rfl⟩ := matches_twoDigits.1 hab
      obtain ⟨rfl, rfl⟩ := matches_literal.1 hcolon
      obtain ⟨c, d, hc, hd, rfl, rfl⟩ := matches_twoDigits.1 hcd
      obtain ⟨_, _, _, _, hcolon, hef, rfl, rfl⟩ | ⟨rfl, rfl⟩ := matches_opt.1 hopt
      · obtain ⟨rfl, rfl⟩ := matches_literal.1 hcolon
        obtain ⟨e, f, he, hf, rfl, rfl⟩ := matches_twoDigits.1 hef
        exact .colonSeconds ha hb hc hd he hf
      · exact .colonMinutes ha hb hc hd
    · obtain ⟨a, b, ha, hb, rfl, rfl⟩ := matches_twoDigits.1 hab
      obtain ⟨c, d, hc, hd, rfl, rfl⟩ := matches_twoDigits.1 hcd
      obtain hef | ⟨rfl, rfl⟩ := matches_opt.1 hopt
      · obtain ⟨e, f, he, hf, rfl, rfl⟩ := matches_twoDigits.1 hef
        exact .seconds ha hb hc hd he hf
      · exact .minutes ha hb hc hd
  · have hpair (i : Nat) {a b : Char} (ha : digit foreign a = true) (hb : digit foreign b = true) :
        Matches (group i (twoDigits foreign)) [a, b] [(i, [a, b])] :=
      matches_twoDigits.2 ⟨a, b, ha, hb, rfl, rfl⟩
    have hcolon : Matches (literal [':']) [':'] [] := matches_literal.2 ⟨rfl, rfl⟩
    intro h
    cases h with
    | hour ha => exact .inl ⟨_, ⟨_, _, _, _, ⟨_, ha, rfl, rfl⟩, .inr ⟨rfl, rfl⟩, rfl, rfl⟩, rfl⟩
    | hours ha hb =>
      exact .inl ⟨_, ⟨_, _, _, _, ⟨_, ha, rfl, rfl⟩, .inl ⟨_, hb, rfl, rfl⟩, rfl, rfl⟩, rfl⟩
    | colonMinutes ha hb hc hd =>
      exact .inr (.inl ⟨_, _, _, _, hpair 2 ha hb, ⟨_, _, _, _, hcolon,
        ⟨_, _, _, _, hpair 3 hc hd, .inr ⟨rfl, rfl⟩, rfl, rfl⟩, rfl, rfl⟩, rfl, rfl⟩)
    | colonSeconds ha hb hc hd he hf =>
      exact .inr (.inl ⟨_, _, _, _, hpair 2 ha hb, ⟨_, _, _, _, hcolon, ⟨_, _, _, _, hpair 3 hc hd,
        .inl ⟨_, _, _, _, hcolon, hpair 4 he hf, rfl, rfl⟩, rfl, rfl⟩, rfl, rfl⟩, rfl, rfl⟩)
    | minutes ha hb hc hd =>
      exact .inr (.inr ⟨_, _, _, _, hpair 5 ha hb,
        ⟨_, _, _, _, hpair 6 hc hd, .inr ⟨rfl, rfl⟩, rfl, rfl⟩, rfl, rfl⟩)
    | seconds ha hb hc hd he hf =>
      exact .inr (.inr ⟨_, _, _, _, hpair 5 ha hb,
        ⟨_, _, _, _, hpair 6 hc hd, .inl (hpair 7 he hf), rfl, rfl⟩, rfl, rfl⟩)

/-- The pattern of an offset is a sign before a time. -/
theorem matches_offset : Matches (offset foreign) cs u ↔
    ∃ sign rest, isSign sign = true ∧ cs = sign :: rest ∧ Parts foreign rest u := by
  constructor
  · rintro ⟨_, _, rest, w, ⟨sign, hsign, rfl, rfl⟩, hclock, rfl, rfl⟩
    exact ⟨sign, rest, hsign, rfl, matches_clock.1 hclock⟩
  · rintro ⟨sign, rest, hsign, rfl, hparts⟩
    exact ⟨[sign], [], rest, u, ⟨sign, hsign, rfl, rfl⟩, matches_clock.2 hparts, rfl, rfl⟩

/-! ## What the captured parts amount to -/

theorem digit_of_isDigit {c : Char} (h : c.isDigit = true) : digit foreign c = true := by
  have hrange := isDigit_iff.1 h
  rw [digit, if_pos (by omega), h]

theorem digit_digitChar {n : Nat} (h : n < 10) : digit foreign (Nat.digitChar n) = true :=
  digit_of_isDigit (Nat.isDigit_digitChar.trans (decide_eq_true h))

/-- What ASCII has besides digits is never taken for one. -/
theorem ne_of_digit {c d : Char} (h : digit foreign c = true) (hd : d.toNat < 128)
    (hdigit : d.isDigit = false) : c ≠ d := by
  rintro rfl
  rw [digit, if_pos hd, hdigit] at h
  cases h

/-- One character without a sign is read as its digit. -/
theorem uint32?_one {a : Char} (h : a ≠ '+') : Decimal.uint32? [a] = digit? a := by
  rw [Decimal.uint32?, Decimal.dropPlus_of_ne h, Decimal.nat?, digit?]
  by_cases ha : a.isDigit = true
  · have hrange := isDigit_iff.1 ha
    have hsmall : a.toNat - 48 < 4294967296 := by omega
    simp [ha, Nat.ofDigitChars, Option.filter, hsmall]
  · simp [ha]

/-- Two characters without a sign are read as two digits. -/
theorem uint32?_two {a b : Char} (h : a ≠ '+') : Decimal.uint32? [a, b] = twoDigits? a b := by
  rw [Decimal.uint32?, Decimal.dropPlus_of_ne h, Decimal.nat?, twoDigits?, digit?, digit?]
  by_cases ha : a.isDigit = true
  · by_cases hb : b.isDigit = true
    · have harange := isDigit_iff.1 ha
      have hbrange := isDigit_iff.1 hb
      have hsmall : 10 * (a.toNat - 48) + (b.toNat - 48) < 4294967296 := by omega
      simp [ha, hb, Nat.ofDigitChars, Option.filter, hsmall]
    · simp [ha, hb]
  · simp [ha]

/-- Digits that are no numbers make no clock, however they were captured. -/
theorem clock?_captured (h : Parts foreign cs u) : clock? u = ZoneId.clock? cs := by
  have hne {c : Char} (hc : digit foreign c = true) : c ≠ '+' := ne_of_digit hc (by decide) rfl
  cases h with
  | hour ha => simp [clock?, part, ZoneId.clock?, uint32?_one, hne ha]
  | hours ha hb => simp [clock?, part, ZoneId.clock?, uint32?_two, hne ha]
  | colonMinutes ha _ hc _ | minutes ha _ hc _ =>
    simp [clock?, part, ZoneId.clock?, List.lookup_cons, uint32?_two, hne ha, hne hc]
  | colonSeconds ha _ hc _ he _ | seconds ha _ hc _ he _ =>
    simp [clock?, part, ZoneId.clock?, List.lookup_cons, uint32?_two, hne ha, hne hc, hne he]

/-- Every spelling of a time is matched by the pattern, with its parts captured. -/
theorem exists_parts (foreign : Char → Bool) {t : Nat × Nat × Nat} (h : Clock cs t) :
    ∃ u, Parts foreign cs u := by
  have htens {n : Nat} (hn : n < 100) : digit foreign (Nat.digitChar (n / 10)) = true :=
    digit_digitChar (by omega)
  have hones (n : Nat) : digit foreign (Nat.digitChar (n % 10)) = true :=
    digit_digitChar (by omega)
  cases h with
  | hour hh => exact ⟨_, .hour (digit_digitChar hh)⟩
  | hours hh => exact ⟨_, .hours (htens hh) (hones _)⟩
  | minutes hh hm => exact ⟨_, .minutes (htens hh) (hones _) (htens hm) (hones _)⟩
  | colonMinutes hh hm => exact ⟨_, .colonMinutes (htens hh) (hones _) (htens hm) (hones _)⟩
  | seconds hh hm hs =>
    exact ⟨_, .seconds (htens hh) (hones _) (htens hm) (hones _) (htens hs) (hones _)⟩
  | colonSeconds hh hm hs =>
    exact ⟨_, .colonSeconds (htens hh) (hones _) (htens hm) (hones _) (htens hs) (hones _)⟩

/-- The pattern of offsets, with its bounds on the captured parts, accepts what the running check
does. -/
theorem isOffset_eq : isOffset foreign cs = ZoneId.isOffset cs := by
  cases hcaptured : captures? (offset foreign) cs with
  | some u =>
    obtain ⟨sign, rest, hsign, rfl, hparts⟩ := matches_offset.1 (matches_of_captures? hcaptured)
    rw [isOffset, hcaptured, ZoneId.isOffset, hsign, Bool.true_and, ← clock?_captured hparts]
  | none =>
    rw [isOffset, hcaptured, eq_comm, Bool.eq_false_iff]
    intro hoffset
    obtain ⟨hsign, hclock, -⟩ := isOffset_iff.1 hoffset
    obtain ⟨u, hparts⟩ := exists_parts foreign hclock
    obtain ⟨v, hv⟩ := exists_captures?_of_matches
      (matches_offset.2 ⟨_, _, isSign_iff.2 hsign, rfl, hparts⟩)
    cases hcaptured.symm.trans hv

/-! ## Identifiers -/

/-- The pattern of a base name captures the signed rest, where there is one. -/
theorem matches_based : Matches based cs u ↔ ∃ b ∈ bases, cs = b ∧ u = [] ∨ ∃ sign rest,
    cs = b ++ sign :: rest ∧ isSign sign = true ∧ (∀ c ∈ rest, c ≠ '\n') ∧
    u = [(1, sign :: rest)] := by
  have hname {x : List Char} {v : Captures} :
      Matches (alt (literal ['U', 'T', 'C']) (alt (literal ['G', 'M', 'T']) (literal ['U', 'T'])))
        x v ↔ x ∈ bases ∧ v = [] := by
    simp only [Matches, matches_literal, bases, List.mem_cons, List.not_mem_nil, or_false,
      or_and_right]
  constructor
  · rintro ⟨b, v, y, w, hmatches, hrest, rfl, rfl⟩
    obtain ⟨hb, rfl⟩ := hname.1 hmatches
    refine ⟨b, hb, ?_⟩
    obtain ⟨_, ⟨_, _, rest, _, ⟨sign, hsign, rfl, rfl⟩, ⟨hline, rfl⟩, rfl, rfl⟩, rfl⟩ | ⟨rfl, rfl⟩ :=
      matches_opt.1 hrest
    · exact .inr ⟨sign, rest, rfl, hsign, fun c hc => of_decide_eq_true (hline c hc), rfl⟩
    · exact .inl ⟨List.append_nil b, rfl⟩
  · rintro ⟨b, hb, ⟨rfl, rfl⟩ | ⟨sign, rest, rfl, hsign, hline, rfl⟩⟩
    · exact ⟨cs, [], [], [], hname.2 ⟨hb, rfl⟩, .inr ⟨rfl, rfl⟩, (List.append_nil cs).symm, rfl⟩
    · refine ⟨b, [], sign :: rest, _, hname.2 ⟨hb, rfl⟩, .inl ⟨[], ?_, rfl⟩, rfl, rfl⟩
      exact ⟨[sign], [], rest, [], ⟨sign, hsign, rfl, rfl⟩,
        ⟨fun c hc => decide_eq_true (hline c hc), rfl⟩, rfl, rfl⟩

/-- The pattern of regions accepts what the running check does. -/
theorem isMatch_region : isMatch region cs = isRegion cs := by
  rw [Bool.eq_iff_iff, isMatch_iff, isRegion_iff]
  constructor
  · rintro ⟨_, _, _, _, _, ⟨c, hc, rfl, rfl⟩, ⟨_, _, ds, _, ⟨d, hd, rfl, rfl⟩, ⟨hds, rfl⟩, rfl, rfl⟩,
      rfl, rfl⟩
    exact ⟨c, d :: ds, rfl, hc, List.cons_ne_nil _ _, List.forall_mem_cons.2 ⟨hd, hds⟩⟩
  · rintro ⟨c, _ | ⟨d, ds⟩, rfl, hc, hne, hds⟩
    · exact (hne rfl).elim
    · obtain ⟨hd, hds⟩ := List.forall_mem_cons.1 hds
      exact ⟨[], [c], [], d :: ds, [], ⟨c, hc, rfl, rfl⟩,
        ⟨[d], [], ds, [], ⟨d, hd, rfl, rfl⟩, ⟨hds, rfl⟩, rfl, rfl⟩, rfl, rfl⟩

theorem Parts.ne_newline (h : Parts foreign cs u) : ∀ c ∈ cs, c ≠ '\n' := by
  have hne {c : Char} (hc : digit foreign c = true) : c ≠ '\n' := ne_of_digit hc (by decide) rfl
  cases h <;> simp [*]

theorem ne_newline_of_offset (h : Offset cs) : ∀ c ∈ cs, c ≠ '\n' := by
  obtain ⟨hsign, hclock, -⟩ := h
  obtain ⟨u, hparts⟩ := exists_parts (fun _ => false) hclock
  refine List.forall_mem_cons.2 ⟨?_, hparts.ne_newline⟩
  rcases hsign with rfl | rfl <;> decide

theorem ne_newline_of_isRegion (h : isRegion cs = true) : ∀ c ∈ cs, c ≠ '\n' := by
  obtain ⟨c, ds, rfl, hc, -, hds⟩ := isRegion_iff.1 h
  refine List.forall_mem_cons.2 ⟨?_, fun d hd => ?_⟩
  · rintro rfl
    cases hc
  · rintro rfl
    exact absurd (hds _ hd) (by decide)

/-- A line break, at which the pattern of names stops, is in no offset and in no region. -/
theorem accepts_eq : accepts foreign cs = ZoneId.accepts cs := by
  rw [accepts, ZoneId.accepts, isOffset_eq]
  congr 1
  cases hcaptured : captures? based cs with
  | some u =>
    obtain ⟨b, hb, ⟨rfl, rfl⟩ | ⟨sign, rest, rfl, hsign, -, rfl⟩⟩ :=
      matches_based.1 (matches_of_captures? hcaptured)
    · rw [findSome?_afterBase?.2 ⟨cs, hb, (List.append_nil cs).symm, rfl⟩]
      rfl
    · have hfind : bases.findSome? (afterBase? (b ++ sign :: rest)) = some (sign :: rest) :=
        findSome?_afterBase?.2 ⟨b, hb, rfl, hsign⟩
      rw [hfind]
      exact isOffset_eq
  | none =>
    have hnone (u : Captures) : ¬ Matches based cs u := fun h => by
      obtain ⟨v, hv⟩ := exists_captures?_of_matches h
      cases hcaptured.symm.trans hv
    dsimp only
    rw [isMatch_region]
    cases hfind : bases.findSome? (afterBase? cs) with
    | none => rfl
    | some rest =>
      obtain ⟨b, hb, rfl, hhead⟩ := findSome?_afterBase?.1 hfind
      cases rest with
      | nil => exact (hnone [] (matches_based.2 ⟨b, hb, .inl ⟨List.append_nil b, rfl⟩⟩)).elim
      | cons sign rest =>
        have hline : ¬ ∀ c ∈ rest, c ≠ '\n' := fun hline =>
          hnone _ (matches_based.2 ⟨b, hb, .inr ⟨sign, rest, rfl, hhead, hline, rfl⟩⟩)
        have hregion : isRegion (b ++ sign :: rest) = false := by
          refine Bool.eq_false_iff.2 fun h => hline fun c hc => ne_newline_of_isRegion h c ?_
          exact List.mem_append_right _ (List.mem_cons_of_mem _ hc)
        have hoffset : ZoneId.isOffset (sign :: rest) = false := by
          refine Bool.eq_false_iff.2 fun h => hline fun c hc => ?_
          exact ne_newline_of_offset (isOffset_iff.1 h) c (List.mem_cons_of_mem _ hc)
        rw [hregion]
        exact hoffset.symm

end ZonePattern

namespace ZoneId

/-- Whatever the patterns take for digits outside of ASCII, they accept just the identifiers that are
spelled by the grammar. So does `ofText?`, which keeps the spelling, so that what it gave is accepted
again. -/
theorem ofText?_iff_spelled (foreign : Char → Bool) (s : String) :
    (ZonePattern.accepts foreign s.toList = true ↔ Spelled s.toList) ∧
    ((∃ z, ofText? s = some z) ↔ Spelled s.toList) ∧
    ∀ z, ofText? s = some z → z.text = s ∧ ofText? z.text = some z := by
  refine ⟨?_, ?_, fun z hz => ⟨text_of_ofText? hz, ofText?_text z⟩⟩
  · rw [ZonePattern.accepts_eq, accepts_iff]
  · rw [← accepts_iff, ofText?]
    split
    · next h => exact iff_of_true ⟨_, rfl⟩ h
    · next h =>
      refine iff_of_false ?_ h
      rintro ⟨_, hz⟩
      cases hz

/-- The digit three of another script is matched as an hour, but is no number. -/
example : ZonePattern.accepts (fun c => c = '٣') ['+', '٣'] = false := by decide

end ZoneId

end Wireform
