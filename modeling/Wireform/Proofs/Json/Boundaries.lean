import Wireform.Json.Scan
import Wireform.Proofs.Json.Escapes
import Wireform.Proofs.Json.Onward

/-!
# Places between characters

A reader of bytes and a reader of characters are at the same place of a text if as many bytes are
behind the one as the characters behind the other take (`At`). Then the byte ahead of the first
tells what the second sees as far as characters of one byte go (`At.head?`), and the bytes between
two such places are a text (`At.cut`).
-/

namespace Wireform.Json

open Quoted

variable {b : UInt8} {c d : Char} {cs ds before rest taken : List Char} {x n : Nat} {i : Input}

/-! ## Bytes of a character -/

/-- The byte is the first of the character. Only that of a character that takes one byte is below
`0x80`. -/
def Leads (b : UInt8) (c : Char) : Prop :=
  c.toNat < 128 ∧ b.toNat = c.toNat ∨ 128 ≤ c.toNat ∧ 128 ≤ b.toNat

theorem toNat_toUInt8 (h : c.toNat < 128) : c.toUInt8.toNat = c.toNat := by
  change c.val.toUInt8.toNat = c.val.toNat
  have h' : c.val.toNat < 128 := h
  rw [UInt32.toNat_toUInt8]
  omega

/-- An ASCII character is stored as one byte. -/
theorem utf8EncodeChar_ascii (h : c.toNat < 128) : String.utf8EncodeChar c = [c.toUInt8] := by
  refine String.utf8EncodeChar_eq_singleton (Char.utf8Size_eq_one_iff.2 ?_)
  exact UInt32.le_iff_toNat_le.2 (Nat.le_of_lt_succ h)

/-- The bytes of any other character are none of ASCII. -/
theorem le_of_mem_utf8EncodeChar (h : 128 ≤ c.toNat) (hb : b ∈ String.utf8EncodeChar c) :
    128 ≤ b.toNat := by
  have hlt : c.val.toNat < 0x110000 := by
    have hvalid : c.val.toNat < 0xd800 ∨ 0xdfff < c.val.toNat ∧ c.val.toNat < 0x110000 := c.valid
    omega
  have hge : 128 ≤ c.val.toNat := h
  revert hb
  unfold String.utf8EncodeChar
  dsimp only
  generalize c.val.toNat = m at hlt hge
  intro hb
  split at hb
  · omega
  split at hb
  · simp only [List.mem_cons, List.not_mem_nil, or_false] at hb
    rcases hb with rfl | rfl <;> simp only [UInt8.toNat_ofNat'] <;> omega
  split at hb
  · simp only [List.mem_cons, List.not_mem_nil, or_false] at hb
    rcases hb with rfl | rfl | rfl <;> simp only [UInt8.toNat_ofNat'] <;> omega
  · simp only [List.mem_cons, List.not_mem_nil, or_false] at hb
    rcases hb with rfl | rfl | rfl | rfl <;> simp only [UInt8.toNat_ofNat'] <;> omega

theorem ascii_of_short? (h : short? c = some d) : c.toNat < 128 := by
  unfold short? at h
  split at h <;> first | decide | cases h

/-- Every character is stored with a first byte that leads it. -/
theorem exists_leads (c : Char) : ∃ b bs, String.utf8EncodeChar c = b :: bs ∧ Leads b c := by
  obtain ⟨b, bs, hbs⟩ := List.exists_cons_of_ne_nil (String.utf8EncodeChar_ne_nil (c := c))
  refine ⟨b, bs, hbs, ?_⟩
  rcases Nat.lt_or_ge c.toNat 128 with hc | hc
  · refine .inl ⟨hc, ?_⟩
    rw [utf8EncodeChar_ascii hc] at hbs
    obtain ⟨rfl, -⟩ := List.cons_eq_cons.1 hbs
    exact toNat_toUInt8 hc
  · refine .inr ⟨hc, le_of_mem_utf8EncodeChar hc ?_⟩
    rw [hbs]
    exact List.mem_cons_self

namespace Leads

/-- A leading byte is an ASCII byte exactly if its character is that character. -/
theorem eq_iff (h : Leads b c) (hd : d.toNat < 128) : b = d.toUInt8 ↔ c = d := by
  rw [← UInt8.toNat_inj, toNat_toUInt8 hd, ← Char.toNat_inj]
  rcases h with ⟨_, h⟩ | ⟨hc, hb⟩ <;> omega

/-- The scanner and the reader agree on blanks. -/
theorem isBlank (h : Leads b c) : Scan.isBlank b = Lex.isBlank c := by
  have heq (d : Char) (hd : d.toNat < 128) : decide (b = d.toUInt8) = decide (c = d) :=
    decide_eq_decide.2 (h.eq_iff hd)
  rw [Scan.isBlank, Lex.isBlank, heq ' ' (by decide), heq '\t' (by decide), heq '\n' (by decide),
    heq '\r' (by decide)]

/-- The scanner and the reader agree on digits. -/
theorem isDigit (h : Leads b c) : Scan.isDigit b = c.isDigit := by
  have hge : '0'.toUInt8 ≤ b ↔ '0'.val ≤ c.val := by
    rw [UInt8.le_iff_toNat_le, UInt32.le_iff_toNat_le]
    change 48 ≤ b.toNat ↔ 48 ≤ c.toNat
    rcases h with ⟨_, h⟩ | ⟨hc, hb⟩ <;> omega
  have hle : b ≤ '9'.toUInt8 ↔ c.val ≤ '9'.val := by
    rw [UInt8.le_iff_toNat_le, UInt32.le_iff_toNat_le]
    change b.toNat ≤ 57 ↔ c.toNat ≤ 57
    rcases h with ⟨_, h⟩ | ⟨hc, hb⟩ <;> omega
  rw [Scan.isDigit, Char.isDigit, decide_eq_decide.2 hge, decide_eq_decide.2 hle]

/-- The scanner and the reader agree on the letters of escapes. -/
theorem short?_eq (h : Leads b c) : short? (Char.ofUInt8 b) = short? c := by
  rcases h with ⟨hc, hb⟩ | ⟨hc, hb⟩
  · congr 1
    rw [← Char.toNat_inj, ← hb]
    rfl
  · have hnone (d : Char) (hd : 128 ≤ d.toNat) : short? d = none :=
      Option.eq_none_iff_forall_ne_some.2 fun e he => Nat.not_lt.2 hd (ascii_of_short? he)
    rw [hnone _ hc, hnone _ (by exact hb)]

/-- The scanner and the reader agree on control characters. -/
theorem control_iff (h : Leads b c) : b < 0x20 ↔ c.toNat < 0x20 := by
  rw [UInt8.lt_iff_toNat_lt]
  change b.toNat < 32 ↔ c.toNat < 32
  rcases h with ⟨_, h⟩ | ⟨hc, hb⟩ <;> omega

end Leads

/-! ## Bytes of a text -/

/-- Characters that take one byte each. -/
def Ascii (cs : List Char) : Prop := ∀ c ∈ cs, c.toNat < 128

instance (cs : List Char) : Decidable (Ascii cs) := List.decidableBAll _ cs

theorem ascii_cons : Ascii (c :: cs) ↔ c.toNat < 128 ∧ Ascii cs := List.forall_mem_cons

/-- The bytes that a text is kept as. -/
def stored (cs : List Char) : List UInt8 := cs.flatMap String.utf8EncodeChar

theorem stored_append (cs ds : List Char) : stored (cs ++ ds) = stored cs ++ stored ds :=
  List.flatMap_append

theorem stored_cons (c : Char) (cs : List Char) :
    stored (c :: cs) = String.utf8EncodeChar c ++ stored cs := rfl

theorem length_stored (cs : List Char) : (stored cs).length = Input.byteCount cs := by
  induction cs with
  | nil => rfl
  | cons c cs ih =>
    rw [stored_cons, List.length_append, String.length_utf8EncodeChar, ih, Lex.byteCount_cons]

theorem stored_toList (s : String) : stored s.toList = Utf8.encode s := (Utf8.encode_eq s).symm

theorem byteCount_toList (t : String) : Input.byteCount t.toList = t.utf8ByteSize := by
  rw [← length_stored, stored_toList, Utf8.length_encode]

/-- Stored characters are valid UTF-8 of these characters. -/
theorem decode?_stored (cs : List Char) : Utf8.decode? (stored cs) = some (String.ofList cs) := by
  rw [← Utf8.decode?_encode, ← stored_toList, String.toList_ofList]

theorem stored_ascii (h : Ascii cs) : stored cs = cs.map Char.toUInt8 := by
  induction cs with
  | nil => rfl
  | cons c cs ih =>
    obtain ⟨hc, hcs⟩ := ascii_cons.1 h
    rw [stored_cons, utf8EncodeChar_ascii hc, ih hcs]
    rfl

theorem byteCount_ascii (h : Ascii cs) : Input.byteCount cs = cs.length := by
  rw [← length_stored, stored_ascii h, List.length_map]

/-- Where the bytes of characters that take one each come first, so do the characters. -/
theorem prefix_of_stored (h : Ascii cs) {bs : List UInt8}
    (hds : stored ds = stored cs ++ bs) : cs <+: ds := by
  induction cs generalizing ds with
  | nil => exact List.nil_prefix
  | cons c cs ih =>
    obtain ⟨hc, hcs⟩ := ascii_cons.1 h
    rw [stored_cons, utf8EncodeChar_ascii hc] at hds
    cases ds with
    | nil => cases hds
    | cons d ds =>
      obtain ⟨b, more, hb, hlead⟩ := exists_leads d
      rw [stored_cons, hb] at hds
      obtain ⟨rfl, hmore⟩ := List.cons_eq_cons.1 hds
      obtain rfl := (hlead.eq_iff hc).1 rfl
      rw [utf8EncodeChar_ascii hc] at hb
      obtain ⟨-, rfl⟩ := List.cons_eq_cons.1 hb
      exact List.cons_prefix_cons.2 ⟨rfl, ih hcs hmore⟩

/-- The place in a text that a failure names. -/
def DocumentError.offset? : DocumentError → Option Nat
  | invalid n | unexpectedEnd n | invalidEscape n | trailingData n => some n
  | invalidUtf8 | notCurrent _ _ | unexpectedToken _ _ | numberRange _ | misuse _ => none

/-! ## Places in a text -/

/-- An offset into the bytes of `cs` and an input, both behind the characters `before`. -/
structure At (cs before : List Char) (x : Nat) (i : Input) : Prop where
  text : before ++ i.rest = cs
  offset : x = Input.byteCount before
  position : i.position = x

/-- The offset lies between two characters, and the input begins with the second. -/
def On (cs : List Char) (x : Nat) (i : Input) : Prop := ∃ before, At cs before x i

/-- Both have failed and name the same place, if any, which lies in the text. -/
def Stops (cs : List Char) (e : Stop) (f : DocumentError) (x : Nat) (i : Input) : Prop :=
  e = .document f ∧ (∀ n ∈ f.offset?, n ≤ Input.byteCount cs) ∧ On cs x i

/-- A slice from a position within the data is there if enough bytes are. -/
theorem slice?_eq {data : List UInt8} {x n : Nat} (h : x ≤ data.length) :
    Scan.slice? data.toArray x (x + n) =
      if n ≤ (data.drop x).length then some ((data.drop x).take n) else none := by
  have hle : (x ≤ x + n ∧ x + n ≤ data.toArray.size) ↔ n ≤ (data.drop x).length := by
    rw [List.size_toArray, List.length_drop]
    omega
  rw [Scan.slice?]
  simp only [hle]
  rw [Array.toList_extract, List.extract, Nat.add_sub_cancel_left]

namespace At

theorem on (h : At cs before x i) : On cs x i := ⟨before, h⟩

theorem data_eq (h : At cs before x i) : stored cs = stored before ++ stored i.rest := by
  rw [← h.text, stored_append]

/-- The offset at a boundary is the number of bytes before it. -/
theorem offset_eq (h : At cs before x i) : x = (stored before).length := by
  rw [h.offset, length_stored]

theorem size_eq (h : At cs before x i) :
    (stored cs).toArray.size = x + Input.byteCount i.rest := by
  rw [List.size_toArray, h.data_eq, List.length_append, length_stored i.rest, h.offset_eq]

/-- From a boundary on stand the bytes of the text that is left. -/
theorem drop_eq (h : At cs before x i) : (stored cs).drop x = stored i.rest := by
  rw [h.data_eq, h.offset_eq, List.drop_left]

theorem getElem? (h : At cs before x i) (n : Nat) :
    (stored cs).toArray[x + n]? = (stored i.rest)[n]? := by
  rw [List.getElem?_toArray, ← h.drop_eq, List.getElem?_drop]

/-- Between two boundaries stand the bytes of the characters there. -/
theorem slice? (h : At cs before x i) (n : Nat) :
    Scan.slice? (stored cs).toArray x (x + n) =
      if n ≤ Input.byteCount i.rest then some ((stored i.rest).take n) else none := by
  rw [slice?_eq, h.drop_eq, length_stored]
  rw [h.data_eq, h.offset_eq, List.length_append]
  exact Nat.le_add_right _ _

/-- The end of characters taken from a boundary is a boundary. -/
theorem forward (h : At cs before x i) (hrest : i.rest = taken ++ rest) :
    At cs (before ++ taken) (x + Input.byteCount taken)
      ⟨i.position + Input.byteCount taken, rest⟩ where
  text := by rw [List.append_assoc, ← hrest, h.text]
  offset := by rw [Input.byteCount_append, h.offset]
  position := congrArg (· + Input.byteCount taken) h.position

/-- The bytes that have been seen since a place are a text. -/
theorem cut (h : At cs (before ++ taken) x i) :
    Scan.text (stored cs).toArray (Input.byteCount before) x = .ok (String.ofList taken) := by
  have hat : At cs before (Input.byteCount before) ⟨Input.byteCount before, taken ++ i.rest⟩ :=
    ⟨by rw [← h.text, List.append_assoc], rfl, rfl⟩
  have hslice := hat.slice? (Input.byteCount taken)
  rw [if_pos (by rw [Input.byteCount_append]; exact Nat.le_add_right _ _), stored_append,
    ← length_stored taken, List.take_left, length_stored, ← Input.byteCount_append,
    ← h.offset] at hslice
  rw [Scan.text, hslice, Option.bind_some, decode?_stored]

theorem le (h : At cs before x i) : x ≤ Input.byteCount cs := by
  rw [← h.text, Input.byteCount_append, ← h.offset]
  exact Nat.le_add_right _ _

end At

namespace On

theorem le (h : On cs x i) : x ≤ Input.byteCount cs := by
  obtain ⟨before, hat⟩ := h
  exact hat.le

theorem stops {f : DocumentError} (h : On cs x i) (hn : n ≤ Input.byteCount cs)
    (hf : f.offset? = some n) : Stops cs (.document f) f x i := by
  refine ⟨rfl, fun m hm => ?_, h⟩
  rw [hf] at hm
  obtain rfl := Option.some.inj hm
  exact hn

/-- Both fail where they stand. -/
theorem stops_here (h : On cs x i) (f : Nat → DocumentError) (hf : ∀ n, (f n).offset? = some n) :
    Stops cs (.document (f x)) (f i.position) x i := by
  have hposition : i.position = x := by
    obtain ⟨_, hat⟩ := h
    exact hat.position
  rw [hposition]
  exact h.stops h.le (hf x)

theorem lt_size_iff (h : On cs x i) :
    x < (stored cs).toArray.size ↔ ¬ i.rest.isEmpty := by
  obtain ⟨before, h⟩ := h
  rw [h.size_eq, List.isEmpty_iff]
  cases i.rest with
  | nil => simp [Input.byteCount]
  | cons c rest =>
    have := c.utf8Size_pos
    simp only [Lex.byteCount_cons, reduceCtorEq, not_false_eq_true, iff_true]
    omega

/-- The fewer characters are left, the further has the offset got. -/
theorem lt {y : Nat} {j : Input} (h : On cs x i) (h' : On cs y j)
    (hlt : j.rest.length < i.rest.length) : x < y := by
  obtain ⟨before, h⟩ := h
  obtain ⟨before', h'⟩ := h'
  have hlength := congrArg List.length (h.text.trans h'.text.symm)
  rw [List.length_append, List.length_append] at hlength
  obtain ⟨more, rfl⟩ : before <+: before' :=
    List.prefix_of_prefix_length_le ⟨_, h.text⟩ ⟨_, h'.text⟩ (by omega)
  have hmore := Lex.length_le_byteCount more
  rw [h.offset, h'.offset, Input.byteCount_append]
  rw [List.length_append] at hlength
  omega

theorem le_of_length_le {y : Nat} {j : Input} (h : On cs x i) (h' : On cs y j)
    (hle : j.rest.length ≤ i.rest.length) : x ≤ y := by
  rcases Nat.lt_or_eq_of_le hle with hlt | heq
  · exact Nat.le_of_lt (h.lt h' hlt)
  · obtain ⟨before, h⟩ := h
    obtain ⟨before', h'⟩ := h'
    obtain ⟨rfl, -⟩ := List.append_inj' (h.text.trans h'.text.symm) heq.symm
    exact Nat.le_of_eq (h.offset.trans h'.offset.symm)

/-- What is left takes up the bytes that are not behind the offset. -/
theorem byteCount_rest (h : On cs x i) :
    Input.byteCount i.rest = Input.byteCount cs - x := by
  obtain ⟨before, h⟩ := h
  rw [← h.text, Input.byteCount_append, ← h.offset, Nat.add_sub_cancel_left]

/-- A place between two characters, in the sense of the string library. -/
theorem isValid {t : String} (h : On t.toList x i) :
    String.Pos.Raw.IsValid t ⟨x⟩ := by
  obtain ⟨before, h⟩ := h
  refine String.Pos.Raw.isValid_iff_exists_append.2
    ⟨String.ofList before, String.ofList i.rest, ?_, ?_⟩
  · rw [← String.ofList_append, h.text, String.ofList_toList]
  · rw [h.offset, String.rawEndPos, ← byteCount_toList, String.toList_ofList]

end On

/-- At a boundary the text ends, or a byte stands there that leads its next character. -/
theorem At.head? (h : At cs before x i) :
    i.rest = [] ∧ (stored cs).toArray[x]? = none ∨
      ∃ b c rest, i.rest = c :: rest ∧ (stored cs).toArray[x]? = some b ∧ Leads b c := by
  have hget := h.getElem? 0
  rw [Nat.add_zero] at hget
  cases hrest : i.rest with
  | nil =>
    rw [hrest] at hget
    exact .inl ⟨rfl, hget⟩
  | cons c rest =>
    obtain ⟨b, bs, hb, hlead⟩ := exists_leads c
    rw [hrest, stored_cons, hb] at hget
    exact .inr ⟨b, c, rest, rfl, hget, hlead⟩

theorem At.exists_leads (h : At cs before x i) (hrest : i.rest = c :: rest) :
    ∃ b, (stored cs).toArray[x]? = some b ∧ Leads b c := by
  obtain ⟨hnil, -⟩ | ⟨b, d, ds, hcons, hget, hlead⟩ := h.head?
  · cases hrest.symm.trans hnil
  · obtain ⟨rfl, -⟩ := List.cons_eq_cons.1 (hrest.symm.trans hcons)
    exact ⟨b, hget, hlead⟩

/-- A character is taken. -/
theorem At.over (h : At cs before x i) (hrest : i.rest = c :: rest) :
    At cs (before ++ [c]) (x + c.utf8Size) i.tail := by
  obtain ⟨position, _⟩ := i
  obtain rfl : _ = c :: rest := hrest
  exact h.forward (List.singleton_append (x := c) (l := rest)).symm

/-- One byte behind a boundary with an ASCII character is a boundary. -/
theorem At.tail (h : At cs before x i) (hrest : i.rest = c :: rest) (hc : c.toNat < 128) :
    At cs (before ++ [c]) (x + 1) i.tail := by
  have hover := h.over hrest
  rwa [Char.utf8Size_eq_one_iff.2 (UInt32.le_iff_toNat_le.2 (Nat.le_of_lt_succ hc))] at hover

/-- Behind ASCII characters there is a boundary, as many bytes on as there are characters. -/
theorem At.drop (h : At cs before x i) (hrest : i.rest = taken ++ rest)
    (hascii : Ascii taken) :
    At cs (before ++ taken) (x + taken.length) (i.drop taken.length) := by
  induction taken generalizing before x i with
  | nil => rwa [List.append_nil]
  | cons c taken ih =>
    obtain ⟨hc, hascii⟩ := ascii_cons.1 hascii
    have hat := ih (h.tail hrest hc) (by rw [Lex.rest_tail, hrest]; rfl) hascii
    rw [List.append_assoc] at hat
    rw [List.length_cons, Nat.add_comm taken.length, ← Nat.add_assoc, Nat.add_comm 1]
    exact hat

/-- The scanner finds an ASCII word by its bytes where the text has it. -/
theorem At.slice?_eq_iff (h : At cs before x i) (word : List Char)
    (hascii : Ascii word) :
    Scan.slice? (stored cs).toArray x (x + word.length) = some (word.map Char.toUInt8) ↔
      word <+: i.rest := by
  have hlength : word.length = (stored word).length := by
    rw [stored_ascii hascii, List.length_map]
  rw [h.slice?, ← stored_ascii hascii, hlength]
  constructor
  · intro hslice
    split at hslice
    · have hsplit := List.take_append_drop (stored word).length (stored i.rest)
      rw [Option.some.inj hslice] at hsplit
      exact prefix_of_stored hascii hsplit.symm
    · cases hslice
  · rintro ⟨rest, hrest⟩
    rw [← hrest, if_pos, stored_append, List.take_left]
    rw [← length_stored, stored_append, List.length_append]
    exact Nat.le_add_right _ _

/-- What is left behind a run. -/
theorem At.run (h : At cs before x i) (kind : Char → Bool) :
    At cs (before ++ i.rest.takeWhile kind) (x + Input.byteCount (i.rest.takeWhile kind))
      ⟨i.position + Input.byteCount (i.rest.takeWhile kind), i.rest.dropWhile kind⟩ :=
  h.forward List.takeWhile_append_dropWhile.symm

end Wireform.Json
