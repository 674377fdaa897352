import Wireform.Binary.Decode
import Wireform.Binary.Encode

/-!
# Reads that take what was written

`Takes x bytes a` says that a read, with `bytes` in front of it, takes just those bytes and gives
`a`, whatever follows them. Reads made of smaller ones take what these take, one after the other
(`Takes.bind`), so nothing about a format has to be said but what each kind of field takes.
-/

namespace Wireform

namespace Cursor

@[simp] theorem advance_zero (c : Cursor) : c.advance 0 = c := rfl

@[simp] theorem advance_advance (c : Cursor) (j k : Nat) :
    (c.advance j).advance k = c.advance (j + k) := by
  simp only [advance, Nat.add_assoc]

theorem left_advance_append {c : Cursor} {bytes rest : List UInt8} (h : c.left = bytes ++ rest) :
    (c.advance bytes.length).left = rest := by
  rw [left_advance, h, List.drop_left]

theorem length_le_size {c : Cursor} {bytes rest : List UInt8} (h : c.left = bytes ++ rest) :
    bytes.length ≤ c.size := by
  rw [← c.length_left, h, List.length_append]
  exact Nat.le_add_right _ _

/-- Once a byte has been taken the cursor stands inside its window. -/
theorem holds_advance {c : Cursor} {bytes rest : List UInt8} (h : c.left = bytes ++ rest)
    (hpos : bytes ≠ []) {n : Nat} (hn : n ≤ (c.advance bytes.length).size) :
    (c.advance bytes.length).Holds n := by
  have hlen := length_le_size h
  have hstop := c.stop_le
  have hpos := List.length_pos_iff.2 hpos
  simp only [Holds, advance, size] at hlen hn ⊢
  omega

theorem text_eq_ok {c : Cursor} {t : String} {rest : List UInt8}
    (h : c.left = Utf8.encode t ++ rest) (hc : c.Holds t.utf8ByteSize) :
    text t.utf8ByteSize c = .ok t (c.advance t.utf8ByteSize) := by
  have hlen := length_le_size h
  rw [Utf8.length_encode] at hlen
  have hahead : c.ahead t.utf8ByteSize = Utf8.encode t := by
    rw [ahead_eq_take_left hlen, h, ← Utf8.length_encode, List.take_left]
  rw [text, if_neg (Nat.not_lt.2 hlen), if_pos hc, hahead, Utf8.decode?_encode]

end Cursor

theorem Varint.encode_ne_nil (n : Nat) : Varint.encode n ≠ [] := (Varint.spells_encode n).ne_nil

namespace Binary

variable {α β : Type} {x : Read α} {a : α} {b : β} {bytes bytes' : List UInt8}

/-- With `bytes` in front, `x` takes just those and gives `a`, whatever follows. -/
def Takes (x : Read α) (bytes : List UInt8) (a : α) : Prop :=
  ∀ ⦃c : Cursor⦄ ⦃rest : List UInt8⦄, c.left = bytes ++ rest → x c = .ok a (c.advance bytes.length)

theorem Takes.pure (a : α) : Takes (pure a) [] a := fun _ _ _ => rfl

/-- Bytes taken in sequence are taken together. -/
theorem Takes.bind {f : α → Read β} (hx : Takes x bytes a) (hf : Takes (f a) bytes' b) :
    Takes (x >>= f) (bytes ++ bytes') b := by
  intro c rest h
  rw [List.append_assoc] at h
  rw [Step.bind_apply, hx h]
  exact (hf (Cursor.left_advance_append h)).trans (by simp)

theorem Takes.map (f : α → β) (hx : Takes x bytes a) : Takes (f <$> x) bytes (f a) := by
  intro c rest h
  rw [Step.map_apply, hx h]

theorem Takes.of_except {x : Except ModelError α} (h : x = .ok a) :
    Takes (Step.ofExcept x) [] a := by
  subst h
  exact .pure a

/-! ## Fixed sizes -/

theorem takes_uint8 (byte : UInt8) : Takes (take Cursor.uint8) [byte] byte := by
  intro c rest h
  rw [take, Step.adaptExcept_apply, Cursor.uint8_eq_ok h]
  rfl

theorem takes_flag (site : Site) (b : Bool) : Takes (readFlag site) (flag b) b := by
  have h : Takes (readFlag site) (flag b ++ []) b := by
    refine .bind (takes_uint8 _) ?_
    cases b <;> exact .pure _
  simpa using h

theorem word_eq_ok {c : Cursor} {k n : Nat} {rest : List UInt8} (hk : 0 < k) (hn : n < Word.size k)
    (h : c.left = Word.toBytes k n ++ rest) : Cursor.word k c = .ok n (c.advance k) := by
  have hlen : k ≤ c.size := by simpa using Cursor.length_le_size h
  rw [Cursor.word, Step.map_apply, Cursor.bytes_eq_ok hlen (Cursor.holds_of_lt_size hk hlen), h]
  simp only [List.take_left' (Word.length_toBytes k n), Word.ofBytes_toBytes, Nat.mod_eq_of_lt hn]

theorem takes_int32 (n : UInt32) :
    Takes (take Cursor.int32) (Word.toBytes 4 n.toNat) n.toInt32 := by
  intro c rest h
  have hword := word_eq_ok (by decide) n.toNat_lt h
  rw [take, Step.adaptExcept_apply, Cursor.int32, Step.map_apply, Cursor.uint32, Step.map_apply,
    hword, Word.length_toBytes]
  simp

theorem takes_int64 (n : Int64) : Takes (take Cursor.int64) (Word.ofInt64 n) n := by
  intro c rest h
  have hword := word_eq_ok (by decide) n.toUInt64.toNat_lt h
  rw [take, Step.adaptExcept_apply, Cursor.int64, Step.map_apply, Cursor.uint64, Step.map_apply,
    hword, Word.ofInt64, Word.length_toBytes]
  simp

/-! ## Varying sizes -/

/-- A number of 32 bits is taken from its encoding. -/
theorem takes_short {n : Nat} (hn : n < Word.size 4) (site : Site) :
    Takes (varint Varint.short site) (Varint.encode n) n := by
  intro c rest h
  rw [varint, Step.adaptExcept_apply, Varint.read_short hn h]

theorem zigzag_lt (n : Int64) : Varint.zigzag n.toInt < Word.size 8 := by
  have hlo := n.le_toInt
  have hhi := n.toInt_lt
  have hsize : Word.size 8 = 18446744073709551616 := rfl
  unfold Varint.zigzag
  split <;> omega

theorem takes_long (n : Int64) (site : Site) : Takes (readLong site) (long n) n := by
  have hvarint : Takes (varint Varint.long site) (long n) (Varint.zigzag n.toInt) := by
    intro c rest h
    rw [varint, Step.adaptExcept_apply, Varint.read_long (zigzag_lt n) h]
    rfl
  have h := hvarint.map fun k => Int64.ofInt (Varint.unzigzag k)
  rwa [Varint.unzigzag_zigzag, Int64.ofInt_toInt] at h

variable {limits : Limits}

theorem takes_checkLength {n : Nat} (h : n ≤ limits.length) (site : Site) :
    Takes (checkLength limits site n) [] () := by
  rw [checkLength, if_neg (Nat.not_lt.2 h)]
  exact .pure ()

/-- The length in front of a text leaves the cursor inside the data, even if no text follows. -/
theorem takes_text_of {t : String} {groups : List UInt8} {site : Site}
    (hgroups : Takes (varint Varint.short site) groups t.utf8ByteSize) (hne : groups ≠ [])
    (h : t.utf8ByteSize ≤ limits.length) :
    Takes (readText limits site) (groups ++ Utf8.encode t) t := by
  intro c rest hc
  rw [List.append_assoc] at hc
  have hleft := Cursor.left_advance_append hc
  have hlen := Cursor.length_le_size hleft
  rw [Utf8.length_encode] at hlen
  rw [readText, Step.bind_apply, hgroups hc]
  simp only [Step.bind_apply]
  rw [takes_checkLength h site hleft]
  simp only [List.length_nil, Cursor.advance_zero]
  rw [take, Step.adaptExcept_apply, Cursor.text_eq_ok hleft (Cursor.holds_advance hc hne hlen)]
  simp [Utf8.length_encode]

/-- A text within the limits is taken from its length and its bytes. -/
theorem takes_text {t : String} (hn : t.utf8ByteSize < Word.size 4)
    (h : t.utf8ByteSize ≤ limits.length) (site : Site) :
    Takes (readText limits site) (Varint.encode t.utf8ByteSize ++ Utf8.encode t) t :=
  takes_text_of (takes_short hn site) (Varint.encode_ne_nil _) h

theorem takes_duration (d : Duration) (site : Site) :
    Takes (readDuration site) (duration d) d := by
  have hlt : d.unit.ordinal < 256 := Nat.lt_trans d.unit.ordinal_lt (by decide)
  have hord : (UInt8.ofNat d.unit.ordinal).toNat = d.unit.ordinal := by
    rw [UInt8.toNat_ofNat', Nat.mod_eq_of_lt hlt]
  have h : Takes (readDuration site) (duration d ++ []) d := by
    rw [duration, List.append_assoc]
    refine .bind (takes_long _ _) (.bind (takes_uint8 _) ?_)
    rw [hord, DurationUnit.ofOrdinal?_ordinal]
    exact .pure d
  simpa using h

theorem takes_calendar (u : CalendarUnit) (site : Site) :
    Takes (readCalendar site) (Varint.encode u.ordinal) u := by
  have hlt : u.ordinal < Word.size 4 := Nat.lt_trans u.ordinal_lt (by decide)
  have h : Takes (readCalendar site) (Varint.encode u.ordinal ++ []) u := by
    refine .bind (takes_short hlt site) ?_
    rw [CalendarUnit.ofOrdinal?_ordinal]
    exact .pure u
  simpa using h

theorem takes_zone {z : ZoneId} (hn : z.text.utf8ByteSize < Word.size 4)
    (h : z.text.utf8ByteSize ≤ limits.length) (site : Site) :
    Takes (readZone limits site) (Varint.encode z.text.utf8ByteSize ++ Utf8.encode z.text) z := by
  have hz : Takes (readZone limits site)
      (Varint.encode z.text.utf8ByteSize ++ Utf8.encode z.text ++ []) z := by
    refine .bind (takes_text hn h site) ?_
    rw [ZoneId.ofText?_text]
    exact .pure z
  simpa using hz

theorem takes_count {n : Nat} (hn : n < Word.size 4 / 2) (h : n ≤ limits.length) (site : Site) :
    Takes (readCount limits site) (Word.toBytes 4 n) n := by
  have hsize : Word.size 4 = 4294967296 := rfl
  have hword : (UInt32.ofNat n).toNat = n := by
    rw [UInt32.toNat_ofNat', Nat.mod_eq_of_lt (by omega)]
  have hint : (UInt32.ofNat n).toInt32.toInt = n := Int32.toInt_ofNat_of_lt hn
  have hcount : Takes (readCount limits site) (Word.toBytes 4 n ++ ([] ++ [])) n := by
    have hread := takes_int32 (UInt32.ofNat n)
    rw [hword] at hread
    refine .bind hread ?_
    rw [hint, Int.toNat_natCast, if_neg (by omega)]
    exact .bind (takes_checkLength h site) (.pure n)
  simpa using hcount

end Binary

end Wireform
