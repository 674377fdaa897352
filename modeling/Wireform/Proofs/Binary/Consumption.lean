import Wireform.Proofs.Binary.Spelling
import Wireform.Proofs.Binary.Takes

/-!
# What a read consumes

`Consumes x bs a`: with `bs` in front the read gives `a` and takes just that, whatever follows, and
where the data ends before `bs` does it finds that out. Every read that succeeds has consumed some
bytes in this sense; `Reads x R` says so, and that these bytes are made of pieces that `R` describes.
Both go through `bind`, so only the reads of single fields have to be looked at.
-/

namespace Wireform

/-- What is cut short is cut in the first part or, behind the whole of it, in the second. -/
theorem exists_of_append_eq_append {α : Type} {front missing bs bs' : List α}
    (h : front ++ missing = bs ++ bs') :
    (∃ more, front ++ more = bs ∧ more ≠ []) ∨
      ∃ rest, front = bs ++ rest ∧ rest ++ missing = bs' := by
  rcases List.append_eq_append_iff.1 h with ⟨more, rfl, rfl⟩ | ⟨rest, rfl, rfl⟩
  · obtain _ | ⟨b, more⟩ := more
    · exact .inr ⟨[], (List.append_nil _).symm ▸ (List.append_nil _).symm, rfl⟩
    · exact .inl ⟨b :: more, rfl, List.cons_ne_nil _ _⟩
  · exact .inr ⟨rest, rfl, rfl⟩

namespace Binary

variable {α β γ ρ : Type} {x : Read α} {a : α} {b : β} {bs bs' : List UInt8}

/-- The read takes these bytes wherever they stand, and misses each of them that is not there. -/
structure Consumes (x : Read α) (bs : List UInt8) (a : α) : Prop where
  takes : Takes x bs a
  cut : ∀ ⦃c : Cursor⦄ ⦃missing : List UInt8⦄, c.left ++ missing = bs → missing ≠ [] →
    ∃ c', x c = .error (.buffer .endOfBuffer) c'

namespace Consumes

theorem pure (a : α) : Consumes (pure a) [] a :=
  ⟨.pure a, fun _ _ h hne => absurd (List.append_eq_nil_iff.1 h).2 hne⟩

/-- In a sequence the second reader is asked what it reads behind the pieces of the first. -/
theorem bind {f : α → Read β} (hx : Consumes x bs a) (hf : Consumes (f a) bs' b) :
    Consumes (x >>= f) (bs ++ bs') b := by
  refine ⟨hx.takes.bind hf.takes, fun c missing h hne => ?_⟩
  rw [Step.bind_apply]
  obtain ⟨more, hmore, hne⟩ | ⟨rest, hleft, hrest⟩ := exists_of_append_eq_append h
  · obtain ⟨c', hc'⟩ := hx.cut hmore hne
    exact ⟨c', by rw [hc']⟩
  · rw [hx.takes hleft]
    exact hf.cut (by rwa [Cursor.left_advance_append hleft]) hne

theorem map (f : α → β) (hx : Consumes x bs a) : Consumes (f <$> x) bs (f a) := by
  refine ⟨hx.takes.map f, fun c missing h hne => ?_⟩
  obtain ⟨c', hc'⟩ := hx.cut h hne
  exact ⟨c', by rw [Step.map_apply, hc']⟩

end Consumes

/-- Whenever the read succeeds it has consumed pieces that are as `R` says. -/
def Reads (x : Read α) (R : α → List Piece → Prop) : Prop :=
  ∀ ⦃c : Cursor⦄ ⦃a : α⦄ ⦃c' : Cursor⦄, x c = .ok a c' →
    ∃ ps rest, c.left = ps.flatMap Piece.bytes ++ rest ∧
      Consumes x (ps.flatMap Piece.bytes) a ∧ R a ps

namespace Reads

variable {R : α → List Piece → Prop} {T : β → List Piece → Prop}

theorem pure (h : R a []) : Reads (pure a) R := by
  rintro c _ _ ⟨⟩
  exact ⟨[], c.left, rfl, .pure a, h⟩

theorem throw {e : ModelError} : Reads (throw e) R := nofun

theorem bind {f : α → Read β} (hx : Reads x R)
    (hf : ∀ a ps, R a ps → Reads (f a) fun b qs => T b (ps ++ qs)) : Reads (x >>= f) T := by
  intro c b c' h
  obtain ⟨a, c₁, hx₁, hf₁⟩ := Step.bind_eq_ok.1 h
  obtain ⟨ps, rest, hleft, hconsumes, hR⟩ := hx hx₁
  cases hx₁.symm.trans (hconsumes.takes hleft)
  obtain ⟨qs, rest', hleft', hconsumes', hT⟩ := hf a ps hR hf₁
  rw [Cursor.left_advance_append hleft] at hleft'
  refine ⟨ps ++ qs, rest', ?_, ?_, hT⟩
  · rw [hleft, hleft', List.flatMap_append, List.append_assoc]
  · rw [List.flatMap_append]
    exact hconsumes.bind hconsumes'

theorem map {f : α → β} (hx : Reads x fun a ps => T (f a) ps) : Reads (f <$> x) T := by
  intro c b c' h
  obtain ⟨a, hx₁, rfl⟩ := Step.map_eq_ok.1 h
  obtain ⟨ps, rest, hleft, hconsumes, hT⟩ := hx hx₁
  exact ⟨ps, rest, hleft, hconsumes.map f, hT⟩

theorem mono {R' : α → List Piece → Prop} (hx : Reads x R) (h : ∀ a ps, R a ps → R' a ps) :
    Reads x R' := by
  intro c a c' hx₁
  obtain ⟨ps, rest, hleft, hconsumes, hR⟩ := hx hx₁
  exact ⟨ps, rest, hleft, hconsumes, h a ps hR⟩

theorem ofExcept {e : Except ModelError α} (h : ∀ a, e = .ok a → R a []) :
    Reads (Step.ofExcept e) R := by
  cases e with
  | ok a => exact pure (h a rfl)
  | error e => exact throw

/-- Each result comes with its pieces. -/
theorem times (hx : Reads x R) (n : Nat) :
    Reads (Step.times n x) fun as ps => ∃ rows : List (α × List Piece), rows.length = n ∧
      as = rows.map Prod.fst ∧ ps = rows.flatMap Prod.snd ∧ ∀ row ∈ rows, R row.1 row.2 := by
  induction n with
  | zero => exact pure ⟨[], rfl, rfl, rfl, nofun⟩
  | succ n ih =>
    rw [Step.times_succ]
    refine hx.bind fun a ps ha => ih.bind ?_
    rintro _ _ ⟨rows, rfl, rfl, rfl, hrows⟩
    refine pure ⟨(a, ps) :: rows, rfl, rfl, ?_, List.forall_mem_cons.2 ⟨ha, hrows⟩⟩
    rw [List.append_nil, List.flatMap_cons]

/-- What is read for `c` makes a row of it, with the result and its pieces. -/
theorem mapM {f : γ → Read α} {key : ρ → γ} {P : ρ → Prop} {result : ρ → α}
    {pieces : ρ → List Piece}
    (h : ∀ c, Reads (f c) fun a ps => ∃ row, key row = c ∧ P row ∧ a = result row ∧
      ps = pieces row) (cs : List γ) :
    Reads (cs.mapM f) fun as ps => ∃ rows : List ρ, rows.map key = cs ∧ (∀ row ∈ rows, P row) ∧
      as = rows.map result ∧ ps = rows.flatMap pieces := by
  induction cs with
  | nil => exact pure ⟨[], rfl, nofun, rfl, rfl⟩
  | cons c cs ih =>
    rw [List.mapM_cons]
    refine (h c).bind ?_
    rintro _ _ ⟨row, rfl, hrow, rfl, rfl⟩
    refine ih.bind ?_
    rintro _ _ ⟨rows, rfl, hrows, rfl, rfl⟩
    refine pure ⟨row :: rows, rfl, List.forall_mem_cons.2 ⟨hrow, hrows⟩, rfl, ?_⟩
    rw [List.append_nil, List.flatMap_cons]

end Reads

/-! ## Fixed sizes -/

variable {site : Site}

theorem take_eq_ok {x : Take α} {c c' : Cursor} : take x c = .ok a c' ↔ x c = .ok a c' := by
  rw [take, Step.adaptExcept_apply]
  cases x c <;> simp

theorem take_map (f : α → β) (x : Take α) : take (f <$> x) = f <$> take x := by
  funext c
  rw [take, Step.adaptExcept_apply, Step.map_apply, Step.map_apply, take, Step.adaptExcept_apply]
  cases x c <;> rfl

theorem take_error {x : Take α} {c c' : Cursor} (h : x c = .error .endOfBuffer c') :
    take x c = .error (.buffer .endOfBuffer) c' := by
  rw [take, Step.adaptExcept_apply, h]

theorem reads_uint8 : Reads (take Cursor.uint8) fun n ps => ps = [.plain [n]] := by
  intro c n c' h
  have h := take_eq_ok.1 h
  cases hleft : c.left with
  | nil => cases (Cursor.uint8_eq_error hleft).symm.trans h
  | cons n' rest =>
    cases (Cursor.uint8_eq_ok hleft).symm.trans h
    refine ⟨[.plain [n]], rest, rfl, ⟨takes_uint8 n, fun d missing hd hne => ?_⟩, rfl⟩
    obtain ⟨hd, -⟩ | ⟨-, hmissing⟩ := List.append_eq_singleton_iff.1 hd
    · exact ⟨d, take_error (Cursor.uint8_eq_error hd)⟩
    · exact absurd hmissing hne

theorem reads_flag : Reads (readFlag site) fun b ps => ps = [.plain (flag b)] := by
  refine reads_uint8.bind ?_
  rintro n _ rfl
  split
  · next hn => exact .pure (hn ▸ rfl)
  · split
    · next hn => exact .pure (hn ▸ rfl)
    · exact .throw

theorem reads_word {k : Nat} (hk : 0 < k) :
    Reads (take (Cursor.word k)) fun n ps =>
      n < Word.size k ∧ ps = [.plain (Word.toBytes k n)] := by
  intro c n c' h
  obtain ⟨found, hfound, rfl⟩ := Step.map_eq_ok.1 (take_eq_ok.1 h)
  have hsize : k ≤ c.size := by
    refine Nat.le_of_not_lt fun hlt => ?_
    cases (Cursor.bytes_eq_error hlt).symm.trans hfound
  cases (Cursor.bytes_eq_ok hsize (Cursor.holds_of_lt_size hk hsize)).symm.trans hfound
  have hlen : (c.left.take k).length = k := by
    rw [List.length_take, c.length_left, Nat.min_eq_left hsize]
  have hlt := Word.ofBytes_lt (c.left.take k)
  have hbytes := Word.toBytes_ofBytes (c.left.take k)
  rw [hlen] at hlt hbytes
  refine ⟨_, c.left.drop k, ?_, ⟨fun d rest hd => ?_, fun d missing hd hne => ?_⟩, hlt, rfl⟩
  · simp [Piece.bytes, hbytes]
  · simp only [List.flatMap_singleton, Piece.bytes] at hd ⊢
    rw [Word.length_toBytes]
    exact take_eq_ok.2 (word_eq_ok hk hlt hd)
  · have hlen := congrArg List.length hd
    have hpos := List.length_pos_iff.2 hne
    simp [Piece.bytes, Word.length_toBytes, d.length_left] at hlen
    refine ⟨d, take_error ?_⟩
    rw [Cursor.word, Step.map_apply, Cursor.bytes_eq_error (by omega)]

theorem reads_int32 : Reads (take Cursor.int32) fun n ps => ps = [.plain (Word.ofInt32 n)] := by
  rw [Cursor.int32, Cursor.uint32, take_map, take_map]
  refine .map (.map ((reads_word (by decide)).mono ?_))
  rintro n _ ⟨hn, rfl⟩
  have hn : (UInt32.ofNat n).toNat = n := UInt32.toNat_ofNat_of_lt hn
  simp [Word.ofInt32, hn]

theorem reads_int64 : Reads (take Cursor.int64) fun n ps => ps = [.plain (Word.ofInt64 n)] := by
  rw [Cursor.int64, Cursor.uint64, take_map, take_map]
  refine .map (.map ((reads_word (by decide)).mono ?_))
  rintro n _ ⟨hn, rfl⟩
  have hn : (UInt64.ofNat n).toNat = n := UInt64.toNat_ofNat_of_lt hn
  simp [Word.ofInt64, hn]

/-! ## Varying sizes -/

section
open Varint

/-- A group that was read closes the number, or is followed by the others. -/
theorem readGroups_eq_ok {w : Width} {k scale sum n : Nat} {c c' : Cursor}
    (h : readGroups w (k + 1) scale sum c = .ok n c') :
    ∃ b rest, c.left = b :: rest ∧ (k = 0 → b.toNat < w.lastLimit) ∧
      (b.toNat < 128 ∧ sum + scale * b.toNat = n ∨
        128 ≤ b.toNat ∧
          readGroups w k (128 * scale) (sum + scale * (b.toNat % 128)) (c.advance 1) = .ok n c') := by
  cases hleft : c.left with
  | nil =>
    rw [readGroups, Step.bind_apply, Step.adaptExcept_apply, Cursor.uint8_eq_error hleft] at h
    cases h
  | cons b rest =>
    have hlast : k = 0 → b.toNat < w.lastLimit := by
      intro hk
      refine Nat.lt_of_not_le fun hle => ?_
      rw [readGroups, Step.bind_apply, Step.adaptExcept_apply, Cursor.uint8_eq_ok hleft] at h
      simp only [if_pos (And.intro hk hle)] at h
      cases h
    rw [readGroups_succ hleft hlast] at h
    refine ⟨b, rest, rfl, hlast, ?_⟩
    split at h
    · next hb =>
      cases h
      exact .inl ⟨hb, by rw [Nat.mod_eq_of_lt hb]⟩
    · next hb => exact .inr ⟨Nat.le_of_not_lt hb, h⟩

/-- Whatever is read as a number was one of its spellings. -/
theorem exists_spells_of_readGroups {w : Width} {k scale sum n : Nat} {c c' : Cursor}
    (h : readGroups w (k + 1) scale sum c = .ok n c') :
    ∃ groups m rest, Spells groups m ∧ groups.length ≤ k + 1 ∧ m < w.limit k ∧
      sum + scale * m = n ∧ c.left = groups ++ rest := by
  induction k generalizing scale sum c with
  | zero =>
    obtain ⟨b, rest, hleft, hlast, ⟨hb, hn⟩ | ⟨-, hmore⟩⟩ := readGroups_eq_ok h
    · exact ⟨[b], b.toNat, rest, .last hb, Nat.le_refl _, hlast rfl, hn, hleft⟩
    · cases hmore
  | succ k ih =>
    obtain ⟨b, rest, hleft, hlast, ⟨hb, hn⟩ | ⟨hb, hmore⟩⟩ := readGroups_eq_ok h
    · exact ⟨[b], b.toNat, rest, .last hb, Nat.le_add_left _ _, Width.lt_limit hb hlast, hn, hleft⟩
    · obtain ⟨groups, m, rest', hgroups, hlen, hm, rfl, hleft'⟩ := ih hmore
      rw [Cursor.left_advance, hleft, List.drop_one, List.tail_cons] at hleft'
      refine ⟨b :: groups, _, rest', .more hb hgroups, Nat.succ_le_succ hlen, ?_, ?_, ?_⟩
      · rw [Width.limit]
        omega
      · rw [Nat.mul_add, Nat.add_assoc, Nat.mul_comm 128 scale, Nat.mul_assoc]
      · rw [hleft, hleft', List.cons_append]

/-- A spelling that is cut short ends too early. -/
theorem readGroups_cut {w : Width} {groups : List UInt8} {n : Nat} (h : Spells groups n)
    {k scale sum : Nat} (hlen : groups.length ≤ k + 1) {c : Cursor} {missing : List UInt8}
    (hc : c.left ++ missing = groups) (hne : missing ≠ []) :
    ∃ c', readGroups w (k + 1) scale sum c = .error (.buffer .endOfBuffer) c' := by
  induction h generalizing k scale sum c with
  | @last b hb =>
    obtain ⟨hleft, -⟩ | ⟨-, hmissing⟩ := List.append_eq_singleton_iff.1 hc
    · exact ⟨c, by rw [readGroups, Step.bind_apply, Step.adaptExcept_apply,
        Cursor.uint8_eq_error hleft]⟩
    · exact absurd hmissing hne
  | @more b groups n hb hgroups ih =>
    cases hleft : c.left with
    | nil =>
      exact ⟨c, by rw [readGroups, Step.bind_apply, Step.adaptExcept_apply,
        Cursor.uint8_eq_error hleft]⟩
    | cons b' front =>
      rw [hleft, List.cons_append] at hc
      obtain ⟨rfl, hfront⟩ := List.cons.inj hc
      rw [List.length_cons] at hlen
      have hpos := List.length_pos_iff.2 hgroups.ne_nil
      obtain ⟨k, rfl⟩ : ∃ j, k = j + 1 := ⟨k - 1, by omega⟩
      rw [readGroups_succ hleft (by omega), if_neg (by omega)]
      refine ih (by omega) ?_
      rwa [Cursor.left_advance, hleft, List.drop_one, List.tail_cons]

/-- Any spelling of a number is consumed as that number, to its end. -/
theorem consumes_varint {w : Width} {x : Spelling} {n : Nat} (h : x.Gives w n) :
    Consumes (varint w site) x.groups n := by
  obtain ⟨rfl, hlen, hlt⟩ := h
  refine ⟨fun c rest hc => ?_, fun c missing hc hne => ?_⟩
  · rw [varint, Step.adaptExcept_apply, read_spells x.spells hlen hlt hc]
  · have hpos := List.length_pos_iff.2 x.spells.ne_nil
    obtain ⟨k, hk⟩ : ∃ k, w.groups = k + 1 := ⟨w.groups - 1, by omega⟩
    obtain ⟨c', hc'⟩ := readGroups_cut (w := w) (k := k) x.spells (by omega) hc hne
    exact ⟨c', by rw [varint, Step.adaptExcept_apply, Varint.read, hk, hc']; rfl⟩

/-- A varint is read from the spellings of the number, and from nothing else. -/
theorem reads_varint {w : Width} :
    Reads (varint w site) fun n ps => ∃ x : Spelling, x.Gives w n ∧ ps = [.varint x] := by
  intro c n c' h
  rw [varint, Step.adaptExcept_apply] at h
  split at h
  · next n' c₁ hread =>
    cases h
    cases hk : w.groups with
    | zero =>
      rw [Varint.read, hk] at hread
      cases hread
    | succ k =>
      rw [Varint.read, hk] at hread
      obtain ⟨groups, m, rest, hgroups, hlen, hm, rfl, hleft⟩ := exists_spells_of_readGroups hread
      rw [Nat.zero_add, Nat.one_mul]
      let x : Spelling := ⟨groups, m, hgroups⟩
      have hx : x.Gives w m := ⟨rfl, by rwa [hk], by rwa [hk, Nat.add_sub_cancel]⟩
      refine ⟨[.varint x], rest, ?_, ?_, x, hx, rfl⟩
      · simpa [Piece.bytes] using hleft
      · simpa [Piece.bytes] using consumes_varint hx
  · cases h

end

theorem reads_checkLength {limits : Limits} {n : Nat} :
    Reads (checkLength limits site n) fun _ ps => n ≤ limits.length ∧ ps = [] := by
  unfold checkLength
  split
  · exact .throw
  · next hn => exact .pure ⟨Nat.le_of_not_lt hn, rfl⟩

variable {limits : Limits}

theorem exists_of_text {n : Nat} {c c' : Cursor} {t : String} (h : Cursor.text n c = .ok t c') :
    n = t.utf8ByteSize ∧ ∃ rest, c.left = Utf8.encode t ++ rest := by
  unfold Cursor.text at h
  split at h
  · cases h
  · next hsize =>
    split at h
    · split at h
      · next s hdecode =>
        cases h
        have hbytes := Utf8.encode_of_decode? hdecode
        rw [Cursor.ahead_eq_take_left (by omega)] at hbytes
        refine ⟨?_, c.left.drop n, by rw [hbytes, List.take_append_drop]⟩
        rw [← Utf8.length_encode, hbytes, List.length_take, c.length_left]
        omega
      · cases h
    · cases h

theorem consumes_text {t : String} {x : Varint.Spelling}
    (hx : x.Gives Varint.short t.utf8ByteSize) (h : t.utf8ByteSize ≤ limits.length) :
    Consumes (readText limits site) (x.groups ++ Utf8.encode t) t := by
  have hvarint : Consumes (varint Varint.short site) x.groups t.utf8ByteSize := consumes_varint hx
  refine ⟨takes_text_of hvarint.takes x.spells.ne_nil h, fun c missing hc hne => ?_⟩
  rw [readText, Step.bind_apply]
  obtain ⟨more, hmore, hne⟩ | ⟨rest, hleft, hrest⟩ := exists_of_append_eq_append hc
  · obtain ⟨c', hc'⟩ := hvarint.cut hmore hne
    exact ⟨c', by rw [hc']⟩
  · have hcut := Cursor.left_advance_append hleft
    have hsize : (c.advance x.groups.length).size < t.utf8ByteSize := by
      have hlen := congrArg List.length hrest
      have hpos := List.length_pos_iff.2 hne
      rw [List.length_append, Utf8.length_encode, ← hcut, Cursor.length_left] at hlen
      omega
    rw [hvarint.takes hleft]
    simp only [Step.bind_apply]
    rw [takes_checkLength h site (List.nil_append _).symm]
    exact ⟨_, take_error (if_pos hsize)⟩

/-- A text is read from any spelling of its length, and its bytes. -/
theorem reads_text :
    Reads (readText limits site) fun t ps => t.utf8ByteSize ≤ limits.length ∧
      ∃ x : Varint.Spelling, x.Gives Varint.short t.utf8ByteSize ∧
        ps = [.varint x, .plain (Utf8.encode t)] := by
  intro c t c' h
  obtain ⟨n, c₁, hvarint, h⟩ := Step.bind_eq_ok.1 h
  obtain ⟨⟨⟩, c₂, hcheck, htext⟩ := Step.bind_eq_ok.1 h
  obtain ⟨_, rest, hleft, hconsumes, x, hx, rfl⟩ := reads_varint hvarint
  obtain ⟨_, -, -, -, hlimit, rfl⟩ := reads_checkLength hcheck
  cases hvarint.symm.trans (hconsumes.takes hleft)
  cases hcheck.symm.trans (takes_checkLength hlimit site (List.nil_append _).symm)
  obtain ⟨rfl, rest', hleft'⟩ := exists_of_text (take_eq_ok.1 htext)
  rw [List.length_nil, Cursor.advance_zero, Cursor.left_advance_append hleft] at hleft'
  have hpieces : [.varint x, .plain (Utf8.encode t)].flatMap Piece.bytes =
      x.groups ++ Utf8.encode t := by simp [Piece.bytes]
  refine ⟨[.varint x, .plain (Utf8.encode t)], rest', ?_, ?_, hlimit, x, hx, rfl⟩
  · rw [hleft, hleft', hpieces, List.flatMap_singleton, Piece.bytes, List.append_assoc]
  · rw [hpieces]
    exact consumes_text hx hlimit

theorem reads_long :
    Reads (readLong site) fun n ps => ∃ x : Varint.Spelling,
      x.Gives Varint.long (Varint.zigzag n.toInt) ∧ ps = [.varint x] := by
  refine reads_varint.bind ?_
  rintro n _ ⟨x, hx, rfl⟩
  have hlt : n < 18446744073709551616 := hx.lt
  have hint : (Int64.ofInt (Varint.unzigzag n)).toInt = Varint.unzigzag n := by
    apply Int64.toInt_ofInt_of_le <;> unfold Varint.unzigzag <;> split <;> omega
  refine .pure ⟨x, ?_, rfl⟩
  rwa [hint, Varint.zigzag_unzigzag]

theorem reads_duration :
    Reads (readDuration site) fun d ps => ∃ x : Varint.Spelling,
      x.Gives Varint.long (Varint.zigzag d.magnitude.toInt) ∧
        ps = [.varint x, .plain [UInt8.ofNat d.unit.ordinal]] := by
  refine reads_long.bind ?_
  rintro magnitude _ ⟨x, hx, rfl⟩
  refine reads_uint8.bind ?_
  rintro ordinal _ rfl
  split
  · next unit hunit =>
    refine .pure ⟨x, hx, ?_⟩
    rw [DurationUnit.ordinal_of_ofOrdinal? hunit, UInt8.ofNat_toNat]
    rfl
  · exact .throw

theorem reads_calendar :
    Reads (readCalendar site) fun u ps => ∃ x : Varint.Spelling,
      x.Gives Varint.short u.ordinal ∧ ps = [.varint x] := by
  refine reads_varint.bind ?_
  rintro ordinal _ ⟨x, hx, rfl⟩
  split
  · next unit hunit =>
    refine .pure ⟨x, ?_, rfl⟩
    rwa [CalendarUnit.ordinal_of_ofOrdinal? hunit]
  · exact .throw

theorem reads_zone :
    Reads (readZone limits site) fun z ps => z.text.utf8ByteSize ≤ limits.length ∧
      ∃ x : Varint.Spelling, x.Gives Varint.short z.text.utf8ByteSize ∧
        ps = [.varint x, .plain (Utf8.encode z.text)] := by
  refine reads_text.bind ?_
  rintro id _ ⟨hlimit, x, hx, rfl⟩
  split
  · next z hz =>
    obtain rfl := ZoneId.text_of_ofText? hz
    exact .pure ⟨hlimit, x, hx, rfl⟩
  · exact .throw

/-- A count is read from four bytes, if it has no sign. -/
theorem reads_count :
    Reads (readCount limits site) fun n ps => n ≤ limits.length ∧ n < Word.size 4 / 2 ∧
      ps = [.plain (Word.toBytes 4 n)] := by
  refine reads_int32.bind ?_
  rintro n _ rfl
  split
  · exact (Reads.throw (R := fun _ _ => False)).bind nofun
  · next hn =>
    refine reads_checkLength.bind ?_
    rintro _ _ ⟨hlimit, rfl⟩
    have hlt : n.toInt < 2147483648 := n.toInt_lt
    have hword : n.toUInt32.toNat = n.toInt.toNat := by
      rw [Int32.toNat_toUInt32_of_le (Int32.le_iff_toInt_le.2 (Int.not_lt.1 hn))]
      rfl
    have hsize : Word.size 4 / 2 = 2147483648 := rfl
    refine .pure ⟨hlimit, by omega, ?_⟩
    rw [Word.ofInt32, hword]
    rfl

end Binary

end Wireform
