import Wireform.Proofs.Bytes.Payloads
import Wireform.Proofs.Tracks

/-!
# Windows

A cursor may be put anywhere before, within or behind some data, and its window may end anywhere.
Whatever has been asked of it, a read takes the bytes that stand at the cursor, or it fails and
leaves everything as it was, and what lies outside of the window makes no difference
(`reads_of_called`). No call looks outside of the data, but for one kind: no bytes at all are asked
for while the cursor stands behind the data, where it was put at the beginning (`outOfRange_iff`).
-/

namespace Wireform

variable {c c' d : Cursor} {i : Item} {k : Item.Kind} {bs : List UInt8} {e : BufferError} {n : Nat}

/-! ## Items and their bytes -/

namespace Item.Kind

/-- How many bytes an item of the kind takes. -/
def width : Kind → Nat
  | uint8 | int8 => 1
  | uint16 => 2
  | uint32 | int32 => 4
  | uint64 | int64 => 8
  | bytes n | text n => n

/-- The item that bytes spell. Only a text may be refused. -/
def decode? : Kind → List UInt8 → Option Item
  | uint8, bs => some (.uint8 (UInt8.ofNat (Word.ofBytes bs)))
  | int8, bs => some (.int8 (UInt8.ofNat (Word.ofBytes bs)).toInt8)
  | uint16, bs => some (.uint16 (UInt16.ofNat (Word.ofBytes bs)))
  | uint32, bs => some (.uint32 (UInt32.ofNat (Word.ofBytes bs)))
  | int32, bs => some (.int32 (UInt32.ofNat (Word.ofBytes bs)).toInt32)
  | uint64, bs => some (.uint64 (UInt64.ofNat (Word.ofBytes bs)))
  | int64, bs => some (.int64 (UInt64.ofNat (Word.ofBytes bs)).toInt64)
  | bytes _, bs => some (.bytes bs)
  | text _, bs => .text <$> Utf8.decode? bs

end Item.Kind

/-- Only the bytes that are kept matter. -/
theorem Word.toBytes_mod (k n : Nat) : toBytes k (n % size k) = toBytes k n := by
  have h := toBytes_ofBytes (toBytes k n)
  rwa [length_toBytes, ofBytes_toBytes] at h

namespace Item

/-- An item has the width of its kind. -/
theorem length_encode (i : Item) : i.encode.length = i.kind.width := by
  cases i <;> simp [encode, kind, Kind.width, length_bigEndian, Utf8.length_encode]

/-- Items are decoded as themselves. -/
theorem decode?_encode (i : Item) : i.kind.decode? i.encode = some i := by
  cases i with
  | uint8 n | uint16 n | uint32 n | uint64 n =>
    rw [kind, encode, Kind.decode?, bigEndian_natCast, Word.ofBytes_toBytes]
    simp [Word.size]
  | int8 n =>
    have hbytes : bigEndian 1 n.toInt = Word.toBytes 1 n.toUInt8.toNat :=
      bigEndian_toInt 1 n.toBitVec
    rw [kind, encode, Kind.decode?, hbytes, Word.ofBytes_toBytes]
    simp [Word.size]
  | int32 n =>
    have hbytes : bigEndian 4 n.toInt = Word.toBytes 4 n.toUInt32.toNat :=
      bigEndian_toInt 4 n.toBitVec
    rw [kind, encode, Kind.decode?, hbytes, Word.ofBytes_toBytes]
    simp [Word.size]
  | int64 n =>
    have hbytes : bigEndian 8 n.toInt = Word.toBytes 8 n.toUInt64.toNat :=
      bigEndian_toInt 8 n.toBitVec
    rw [kind, encode, Kind.decode?, hbytes, Word.ofBytes_toBytes]
    simp [Word.size]
  | bytes bs => rfl
  | text s =>
    rw [kind, encode, Kind.decode?, Utf8.decode?_encode]
    rfl

/-- What is decoded has the bytes that it was decoded from. -/
theorem encode_of_decode? (h : bs.length = k.width) (hi : k.decode? bs = some i) :
    i.kind = k ∧ i.encode = bs := by
  have hword : Word.toBytes k.width (Word.ofBytes bs) = bs := h ▸ Word.toBytes_ofBytes bs
  generalize hm : Word.ofBytes bs = m at hword
  cases k with
  | uint8 | uint16 | uint32 | uint64 =>
    cases hi
    rw [hm]
    refine ⟨rfl, ?_⟩
    rw [encode, bigEndian_natCast]
    exact (Word.toBytes_mod _ m).trans hword
  | int8 =>
    cases hi
    rw [hm]
    have hbytes := bigEndian_toInt 1 (UInt8.ofNat m).toBitVec
    exact ⟨rfl, hbytes.trans ((Word.toBytes_mod 1 m).trans hword)⟩
  | int32 =>
    cases hi
    rw [hm]
    have hbytes := bigEndian_toInt 4 (UInt32.ofNat m).toBitVec
    exact ⟨rfl, hbytes.trans ((Word.toBytes_mod 4 m).trans hword)⟩
  | int64 =>
    cases hi
    rw [hm]
    have hbytes := bigEndian_toInt 8 (UInt64.ofNat m).toBitVec
    exact ⟨rfl, hbytes.trans ((Word.toBytes_mod 8 m).trans hword)⟩
  | bytes n =>
    cases hi
    exact ⟨congrArg Kind.bytes h, rfl⟩
  | text n =>
    obtain ⟨s, hs, rfl⟩ := Option.map_eq_some_iff.1 hi
    have hencode := Utf8.encode_of_decode? hs
    refine ⟨congrArg Kind.text ?_, hencode⟩
    rw [← Utf8.length_encode, hencode]
    exact h

/-- Among the bytes of the right number, exactly the encoding of an item is decoded as that item. -/
theorem decode?_eq_some (h : bs.length = k.width) :
    k.decode? bs = some i ↔ i.kind = k ∧ i.encode = bs := by
  constructor
  · exact encode_of_decode? h
  · rintro ⟨rfl, rfl⟩
    exact decode?_encode i

/-- Decoding of the right number of bytes fails for malformed text only. -/
theorem decode?_eq_none (h : bs.length = k.width) :
    k.decode? bs = none ↔ k = .text k.width ∧ ∀ s, Utf8.encode s ≠ bs := by
  constructor
  · intro hnone
    cases k with
    | text n =>
      refine ⟨rfl, fun s hs => ?_⟩
      rw [← hs, Kind.decode?, Utf8.decode?_encode] at hnone
      cases hnone
    | _ => cases hnone
  · rintro ⟨hk, hne⟩
    cases hdecode : k.decode? bs with
    | none => rfl
    | some i =>
      obtain ⟨hkind, hencode⟩ := encode_of_decode? h hdecode
      rw [hk] at hkind
      cases i with
      | text s => exact absurd hencode (hne s)
      | _ => cases hkind

end Item

/-! ## Reads -/

namespace Cursor

theorem length_ahead (h : c.Holds n) : (c.ahead n).length = n := by
  have hbound : c.pos + n ≤ c.data.size := h
  rw [ahead_eq, List.length_take, List.length_drop, Array.length_toList]
  omega

/-- Takes `n` bytes and gives what they spell. -/
def taking {α : Type} (n : Nat) (decode : List UInt8 → Option α) : Take α := fun c =>
  if c.size < n then .error .endOfBuffer c
  else if c.Holds n then
    match decode (c.ahead n) with
    | some a => .ok a (c.advance n)
    | none => .error .invalidUtf8 c
  else .error .outOfRange c

variable {α β : Type}

theorem map_taking (f : α → β) (n : Nat) (decode : List UInt8 → Option α) :
    f <$> taking n decode = taking n fun bs => f <$> decode bs := by
  funext c
  rw [Step.map_apply, taking, taking]
  by_cases hsize : c.size < n
  · rw [if_pos hsize, if_pos hsize]
  by_cases hholds : c.Holds n
  · rw [if_neg hsize, if_neg hsize, if_pos hholds, if_pos hholds]
    cases decode (c.ahead n) <;> rfl
  · rw [if_neg hsize, if_neg hsize, if_neg hholds, if_neg hholds]

/-- Bytes are taken as they stand. -/
theorem bytes_eq_taking (n : Nat) : bytes n = taking n some := rfl

/-- Text is taken as bytes that are well-formed UTF-8. -/
theorem text_eq_taking (n : Nat) : text n = taking n Utf8.decode? := by
  funext c
  rw [text, taking]
  cases Utf8.decode? (c.ahead n) <;> rfl

/-- A big-endian number is taken as its bytes. -/
theorem word_eq_taking (k : Nat) : word k = taking k fun bs => some (Word.ofBytes bs) := by
  rw [word, bytes_eq_taking, map_taking]
  rfl

theorem uint8_eq_taking : uint8 = taking 1 fun bs => some (UInt8.ofNat (Word.ofBytes bs)) := by
  funext c
  cases hleft : c.left with
  | nil =>
    have hsize : c.size < 1 := by simp [← length_left, hleft]
    rw [uint8_eq_error hleft, taking, if_pos hsize]
  | cons b rest =>
    have hsize : 1 ≤ c.size := by simp [← length_left, hleft]
    have hahead : c.ahead 1 = [b] := by rw [ahead_eq_take_left hsize, hleft]; rfl
    rw [uint8_eq_ok hleft, taking, if_neg (Nat.not_lt.2 hsize),
      if_pos (holds_of_lt_size Nat.one_pos hsize), hahead]
    simp [Word.ofBytes]

end Cursor

namespace Item.Kind

/-- All reads are of one form. -/
theorem read_eq_taking (k : Kind) : k.read = Cursor.taking k.width k.decode? := by
  cases k with
  | uint8 => rw [read, Cursor.uint8_eq_taking, Cursor.map_taking]; rfl
  | int8 =>
    rw [read, Cursor.int8, Cursor.uint8_eq_taking, Cursor.map_taking, Cursor.map_taking]
    rfl
  | uint16 | uint32 | uint64 =>
    simp only [read, Cursor.uint16, Cursor.uint32, Cursor.uint64, Cursor.word_eq_taking,
      Cursor.map_taking]
    rfl
  | int32 | int64 =>
    simp only [read, Cursor.int32, Cursor.int64, Cursor.uint32, Cursor.uint64,
      Cursor.word_eq_taking, Cursor.map_taking]
    rfl
  | bytes n => rw [read, Cursor.bytes_eq_taking, Cursor.map_taking]; rfl
  | text n => rw [read, Cursor.text_eq_taking, Cursor.map_taking]; rfl

/-- A read that gives an item has taken its bytes from where the cursor stood. -/
theorem read_eq_ok : k.read c = .ok i c' ↔ k.width ≤ c.size ∧ c.Holds k.width ∧
    i.kind = k ∧ i.encode = c.ahead k.width ∧ c' = c.advance k.width := by
  rw [read_eq_taking, Cursor.taking]
  by_cases hsize : c.size < k.width
  · simp [hsize, Nat.not_le.2 hsize]
  by_cases hholds : c.Holds k.width
  · have hsome := decode?_eq_some (i := i) (Cursor.length_ahead hholds)
    rw [if_neg hsize, if_pos hholds, ← and_assoc (a := i.kind = k), ← hsome]
    cases k.decode? (c.ahead k.width) with
    | none => simp
    | some j => simp [Nat.not_lt.1 hsize, hholds, eq_comm]
  · simp [hsize, hholds]

/-- A read that fails leaves the cursor where it was. -/
theorem read_eq_error : k.read c = .error e c' ↔ c' = c ∧
    (c.size < k.width ∧ e = .endOfBuffer ∨
      k.width ≤ c.size ∧ c.Holds k.width ∧ k = .text k.width ∧
        (∀ s, Utf8.encode s ≠ c.ahead k.width) ∧ e = .invalidUtf8 ∨
      k.width ≤ c.size ∧ ¬ c.Holds k.width ∧ e = .outOfRange) := by
  rw [read_eq_taking, Cursor.taking]
  by_cases hsize : c.size < k.width
  · simp [hsize, Nat.not_le.2 hsize, eq_comm, and_comm]
  by_cases hholds : c.Holds k.width
  · have hnone := decode?_eq_none (Cursor.length_ahead hholds)
    rw [if_neg hsize, if_pos hholds, ← and_assoc (a := k = .text k.width), ← hnone]
    cases k.decode? (c.ahead k.width) with
    | none => simp [hsize, Nat.not_lt.1 hsize, hholds, eq_comm, and_comm]
    | some j => simp [hsize, hholds]
  · simp [hsize, hholds, Nat.not_lt.1 hsize, eq_comm, and_comm]

end Item.Kind

/-! ## Histories -/

namespace Cursor

variable {b : UInt8}

theorem peek_eq_ok : peek c = .ok b c' ↔ 1 ≤ c.size ∧ c.ahead 1 = [b] ∧ c' = c := by
  rw [peek]
  by_cases hpos : c.pos < c.stop
  · have hsize : 1 ≤ c.size := Nat.sub_pos_of_lt hpos
    have hlt : c.pos < c.data.toList.length := Nat.lt_of_lt_of_le hpos c.stop_le
    have hahead : c.ahead 1 = [c.data[c.pos]] := by
      rw [ahead_eq, List.drop_eq_getElem_cons hlt]
      rfl
    simp [hpos, hsize, hahead, eq_comm]
  · have hsize : ¬ 1 ≤ c.size := by rw [size]; omega
    simp [hpos, hsize]

theorem peek_eq_error : peek c = .error e c' ↔ c' = c ∧ c.size < 1 ∧ e = .endOfBuffer := by
  rw [peek]
  by_cases hpos : c.pos < c.stop
  · have hsize : ¬ c.size < 1 := by rw [size]; omega
    simp [hpos, hsize]
  · have hsize : c.size < 1 := by rw [size]; omega
    simp [hpos, hsize, eq_comm, and_comm]

/-- What can be asked of a cursor. -/
inductive Call where
  | read (k : Item.Kind)
  | peek
  | skip (n : Nat)
  | size
  | atEnd
  | reset (bytes : List UInt8)
  deriving DecidableEq, Repr

/-- What a call gives. -/
inductive Answer where
  | item (i : Item)
  | byte (b : UInt8)
  | count (n : Nat)
  | flag (b : Bool)
  | done
  deriving DecidableEq, Repr

/-- What a cursor answers to a call. -/
def Call.run : Call → Take Answer
  | read k => .item <$> k.read
  | peek => .byte <$> Cursor.peek
  | skip n => (fun _ => .done) <$> Cursor.skip n
  | size => fun c => .ok (.count c.size) c
  | atEnd => fun c => .ok (.flag c.atEnd) c
  | reset bytes => fun _ => .ok .done (.ofBytes bytes)

/-- The cursor after some calls, those that failed included. -/
def called (c : Cursor) (calls : List Call) : Cursor :=
  calls.foldl (fun c call => Step.after (call.run c)) c

/-- What calls give, one after the other. -/
def answers : Cursor → List Call → List (Except BufferError Answer)
  | _, [] => []
  | c, call :: calls => Step.outcome (call.run c) :: answers (Step.after (call.run c)) calls

variable {call : Call} {calls : List Call} {a : Answer}

theorem map_eq_error {α β : Type} {f : α → β} {x : Take α} :
    (f <$> x) c = .error e c' ↔ x c = .error e c' := by
  rw [Step.map_apply]
  cases x c <;> simp

/-- A skip fails only beyond the end of the window. -/
theorem skip_eq_error : skip n c = .error e c' ↔ c' = c ∧ c.size < n ∧ e = .endOfBuffer := by
  rw [skip]
  by_cases hsize : c.size < n
  · simp [hsize, eq_comm, and_comm]
  · simp [hsize]

namespace Call

/-- A call that fails has no effect. -/
theorem eq_of_run_error (h : call.run c = .error e c') : c' = c := by
  cases call with
  | read k => exact (Item.Kind.read_eq_error.1 (map_eq_error.1 h)).1
  | peek => exact (peek_eq_error.1 (map_eq_error.1 h)).1
  | skip n => exact (skip_eq_error.1 (map_eq_error.1 h)).1
  | size | atEnd | reset => cases h

/-- A call moves the cursor within what is left of the window, unless it gives it new data. -/
theorem after_run (call : Call) (c : Cursor) :
    (∃ bs, call = .reset bs ∧ Step.after (call.run c) = .ofBytes bs) ∨
      (∀ bs, call ≠ .reset bs) ∧ ∃ n, n ≤ c.size ∧ Step.after (call.run c) = c.advance n := by
  have hreset : (∃ bs, call = .reset bs) ∨ ∀ bs, call ≠ .reset bs := by
    rw [← not_exists]
    exact Classical.em _
  rcases hreset with ⟨bs, rfl⟩ | hne
  · exact .inl ⟨bs, rfl, rfl⟩
  refine .inr ⟨hne, ?_⟩
  cases hrun : call.run c with
  | error e c' => exact ⟨0, Nat.zero_le _, eq_of_run_error hrun⟩
  | ok a c' =>
    cases call with
    | read k =>
      obtain ⟨i, hread, -⟩ := Step.map_eq_ok.1 hrun
      obtain ⟨hsize, -, -, -, rfl⟩ := Item.Kind.read_eq_ok.1 hread
      exact ⟨k.width, hsize, rfl⟩
    | peek =>
      obtain ⟨b, hpeek, -⟩ := Step.map_eq_ok.1 hrun
      obtain ⟨-, -, rfl⟩ := peek_eq_ok.1 hpeek
      exact ⟨0, Nat.zero_le _, rfl⟩
    | skip n =>
      obtain ⟨u, hskip, -⟩ := Step.map_eq_ok.1 hrun
      rw [Cursor.skip] at hskip
      split at hskip
      · cases hskip
      · next hsize =>
        cases hskip
        exact ⟨n, Nat.le_of_not_lt hsize, rfl⟩
    | size | atEnd =>
      cases hrun
      exact ⟨0, Nat.zero_le _, rfl⟩
    | reset bs => exact absurd rfl (hne bs)

end Call

/-! ## Behind the data -/

/-- The cursor stands behind the data, so that not even no bytes begin there. -/
def Behind (c : Cursor) : Prop := c.data.size < c.pos

theorem not_holds_zero : ¬ c.Holds 0 ↔ c.Behind := Nat.not_le

/-- Where a byte is taken, the cursor has not been behind the data and will not be. -/
theorem behind_advance (h : n ≤ c.size) : (c.advance n).Behind ↔ c.Behind := by
  have hstop := c.stop_le
  simp only [Behind, advance, size] at h ⊢
  omega

/-- No call moves the cursor behind its window or back, short of a reset. -/
theorem behind_run (call : Call) (c : Cursor) :
    (Step.after (call.run c)).Behind ↔ c.Behind ∧ ∀ bs, call ≠ .reset bs := by
  rcases call.after_run c with ⟨bs, rfl, hafter⟩ | ⟨hne, n, hn, hafter⟩
  · rw [hafter]
    exact iff_of_false (Nat.not_lt_zero _) fun h => h.2 bs rfl
  · rw [hafter, behind_advance hn]
    exact (and_iff_left hne).symm

/-- Only new data bring a cursor back that was put behind the data, and no call puts it there. -/
theorem behind_called (c : Cursor) (calls : List Call) :
    (called c calls).Behind ↔ c.Behind ∧ ∀ bs, .reset bs ∉ calls := by
  induction calls generalizing c with
  | nil => exact (and_iff_left fun _ => List.not_mem_nil).symm
  | cons call calls ih =>
    have hstep := ih (Step.after (call.run c))
    rw [behind_run, and_assoc, ← forall_and] at hstep
    refine hstep.trans (and_congr_right fun _ => forall_congr' fun bs => ?_)
    rw [List.mem_cons, not_or, ne_comm]

theorem width_eq_zero : k.width = 0 ↔ k = .bytes 0 ∨ k = .text 0 := by
  cases k <;> simp [Item.Kind.width]

/-- A slice out of range comes from a read of no bytes behind the window, and from nothing else. -/
theorem run_outOfRange : (∃ c', call.run c = .error .outOfRange c') ↔
    (call = .read (.bytes 0) ∨ call = .read (.text 0)) ∧ c.Behind := by
  constructor
  · rintro ⟨c', h⟩
    cases call with
    | read k =>
      obtain ⟨-, ⟨-, ⟨⟩⟩ | ⟨-, -, -, -, ⟨⟩⟩ | ⟨hsize, hholds, -⟩⟩ :=
        Item.Kind.read_eq_error.1 (map_eq_error.1 h)
      have hzero : k.width = 0 :=
        Nat.eq_zero_of_not_pos fun hpos => hholds (holds_of_lt_size hpos hsize)
      rw [hzero, not_holds_zero] at hholds
      obtain rfl | rfl := width_eq_zero.1 hzero
      · exact ⟨.inl rfl, hholds⟩
      · exact ⟨.inr rfl, hholds⟩
    | peek => cases (peek_eq_error.1 (map_eq_error.1 h)).2.2
    | skip n => cases (skip_eq_error.1 (map_eq_error.1 h)).2.2
    | size | atEnd | reset => cases h
  · rintro ⟨hcall, hbehind⟩
    have hholds := not_holds_zero.2 hbehind
    obtain rfl | rfl := hcall
    · exact ⟨c, map_eq_error.2 (Item.Kind.read_eq_error.2
        ⟨rfl, .inr (.inr ⟨Nat.zero_le _, hholds, rfl⟩)⟩)⟩
    · exact ⟨c, map_eq_error.2 (Item.Kind.read_eq_error.2
        ⟨rfl, .inr (.inr ⟨Nat.zero_le _, hholds, rfl⟩)⟩)⟩

theorem pos_run_le {limit : Nat} (h : c.pos ≤ max limit c.data.size) (call : Call) :
    (Step.after (call.run c)).pos ≤ max limit (Step.after (call.run c)).data.size := by
  rcases call.after_run c with ⟨bs, -, hafter⟩ | ⟨-, n, hn, hafter⟩
  · rw [hafter]
    exact Nat.zero_le _
  · have hstop := c.stop_le
    rw [hafter]
    simp only [advance, size] at hn ⊢
    omega

/-- A position within the data or below a limit stays so under all calls. -/
theorem pos_called_le {limit : Nat} (h : c.pos ≤ max limit c.data.size) (calls : List Call) :
    (called c calls).pos ≤ max limit (called c calls).data.size := by
  induction calls generalizing c with
  | nil => exact h
  | cons call calls ih => exact ih (pos_run_le h call)

/-- Whatever was called before, a call looks outside of the data just if it asks for no bytes at all
and the cursor was put behind the data at first and has been given no new ones. Wherever a byte is
taken, it lies within the data. -/
theorem outOfRange_iff (data : List UInt8) (start stop : Nat) (calls : List Call) :
    let c := called (window data start stop) calls
    (∀ call : Call, (∃ c', call.run c = .error .outOfRange c') ↔
      (call = .read (.bytes 0) ∨ call = .read (.text 0)) ∧
        data.length < start ∧ ∀ bs, .reset bs ∉ calls) ∧
    (∀ n, 0 < n → n ≤ c.stop - c.pos → c.pos + n ≤ c.data.size) ∧
    c.pos ≤ max start c.data.size := by
  intro c
  have hbehind : c.Behind ↔ data.length < start ∧ ∀ bs, .reset bs ∉ calls := by
    rw [behind_called, Behind, window, List.size_toArray]
  refine ⟨fun call => ?_, fun n hn hsize => holds_of_lt_size hn hsize, ?_⟩
  · rw [run_outOfRange, hbehind]
  · exact pos_called_le (Nat.le_max_left _ _) calls

/-- Three bytes, and a window that is to reach from the sixth to the tenth: it is empty, but to take
no bytes from it looks behind the data. -/
theorem no_bytes_outOfRange :
    (Call.read (.bytes 0)).run (window [1, 2, 3] 5 9) =
      .error .outOfRange (window [1, 2, 3] 5 9) := rfl

/-! ## Outside of the window -/

/-- Two cursors whose windows hold the same bytes, at the same place. -/
structure Alike (c d : Cursor) : Prop where
  pos : c.pos = d.pos
  stop : c.stop = d.stop
  left : c.left = d.left

namespace Alike

theorem size (h : Alike c d) : c.size = d.size := by
  rw [Cursor.size, Cursor.size, h.pos, h.stop]

theorem ahead (h : Alike c d) (hn : n ≤ c.size) : c.ahead n = d.ahead n := by
  rw [ahead_eq_take_left hn, ahead_eq_take_left (h.size ▸ hn), h.left]

theorem advance (h : Alike c d) (n : Nat) : Alike (c.advance n) (d.advance n) where
  pos := congrArg (· + n) h.pos
  stop := h.stop
  left := by rw [left_advance, left_advance, h.left]

theorem holds (h : Alike c d) (hzero : (c.Behind ↔ d.Behind) ∨ 0 < n) (hn : n ≤ c.size) :
    c.Holds n ↔ d.Holds n := by
  rcases Nat.eq_zero_or_pos n with rfl | hpos
  · have hbehind := hzero.resolve_right (Nat.lt_irrefl 0)
    rw [← not_holds_zero, ← not_holds_zero] at hbehind
    exact Decidable.not_iff_not.1 hbehind
  · exact iff_of_true (holds_of_lt_size hpos hn) (holds_of_lt_size hpos (h.size ▸ hn))

/-- What is taken is taken alike. -/
theorem read (h : Alike c d) (hzero : (c.Behind ↔ d.Behind) ∨ 0 < k.width) :
    Step.Meets (Step.Same Alike) (Step.Same Alike) (k.read c) (k.read d) := by
  rw [Item.Kind.read_eq_taking, taking, taking, ← h.size]
  by_cases hsize : c.size < k.width
  · rw [if_pos hsize, if_pos hsize]
    exact .error ⟨rfl, h⟩
  have hsize' := Nat.le_of_not_lt hsize
  rw [if_neg hsize, if_neg hsize]
  by_cases hholds : c.Holds k.width
  · rw [if_pos hholds, if_pos ((h.holds hzero hsize').1 hholds), ← h.ahead hsize']
    cases k.decode? (c.ahead k.width) with
    | none => exact .error ⟨rfl, h⟩
    | some i => exact .ok ⟨rfl, h.advance k.width⟩
  · rw [if_neg hholds, if_neg fun hd => hholds ((h.holds hzero hsize').2 hd)]
    exact .error ⟨rfl, h⟩

theorem peek (h : Alike c d) :
    Step.Meets (Step.Same Alike) (Step.Same Alike) (Cursor.peek c) (Cursor.peek d) := by
  cases hc : Cursor.peek c with
  | ok b c' =>
    obtain ⟨hsize, hahead, rfl⟩ := peek_eq_ok.1 hc
    have hd := peek_eq_ok.2 ⟨h.size ▸ hsize, (h.ahead hsize).symm.trans hahead, rfl⟩
    rw [hd]
    exact .ok ⟨rfl, h⟩
  | error e c' =>
    obtain ⟨rfl, hsize, rfl⟩ := peek_eq_error.1 hc
    have hd := peek_eq_error.2 ⟨rfl, h.size ▸ hsize, rfl⟩
    rw [hd]
    exact .error ⟨rfl, h⟩

theorem skip (h : Alike c d) (n : Nat) :
    Step.Meets (Step.Same Alike) (Step.Same Alike) (Cursor.skip n c) (Cursor.skip n d) := by
  rw [Cursor.skip, Cursor.skip, ← h.size]
  split
  · exact .error ⟨rfl, h⟩
  · exact .ok ⟨rfl, h.advance n⟩

/-- Cursors that show the same window answer a call alike and stay alike, unless the call reads no
bytes and only one of the two stands behind its window. -/
theorem run (h : Alike c d)
    (hzero : (c.Behind ↔ d.Behind) ∨ ∀ k, call = .read k → 0 < k.width) :
    Step.Meets (Step.Same Alike) (Step.Same Alike) (call.run c) (call.run d) := by
  cases call with
  | read k =>
    exact (h.read (hzero.imp_right fun hk => hk k rfl)).map fun _ _ _ _ =>
      And.imp_left (congrArg Answer.item)
  | peek => exact h.peek.map fun _ _ _ _ => And.imp_left (congrArg Answer.byte)
  | skip n => exact (h.skip n).map fun _ _ _ _ => And.imp_left fun _ => rfl
  | size => exact .ok ⟨congrArg Answer.count h.size, h⟩
  | atEnd =>
    refine .ok ⟨congrArg Answer.flag ?_, h⟩
    rw [atEnd, atEnd, h.pos, h.stop]
  | reset bs => exact .ok ⟨rfl, rfl, rfl, rfl⟩

/-- The same calls give the same answers. -/
theorem answers_eq (h : Alike c d)
    (hzero : (c.Behind ↔ d.Behind) ∨ ∀ k, .read k ∈ calls → 0 < k.width) :
    answers c calls = answers d calls := by
  induction calls generalizing c d with
  | nil => rfl
  | cons call calls ih =>
    have hrun : Step.Meets (Step.Same Alike) (Step.Same Alike) (call.run c) (call.run d) := by
      refine h.run (hzero.imp_right fun hk k hcall => hk k ?_)
      rw [hcall]
      exact List.mem_cons_self
    have hrest : answers (Step.after (call.run c)) calls =
        answers (Step.after (call.run d)) calls := by
      have hafter := hrun.after (fun _ _ _ _ => And.right) fun _ _ _ _ => And.right
      refine ih hafter (hzero.imp (fun hbehind => ?_) fun hk k hmem => hk k ?_)
      · rw [behind_run, behind_run, hbehind]
      · exact List.mem_cons_of_mem _ hmem
    exact List.cons_eq_cons.2 ⟨hrun.outcome_eq, hrest⟩

/-- Windows are alike when the bytes between their bounds are, whatever lies outside. -/
theorem of_window {data data' : List UInt8} {start stop : Nat}
    (hstop : min stop data'.length = min stop data.length)
    (h : ∀ n, start ≤ n → n < min stop data.length → data'[n]? = data[n]?) :
    Alike (window data start stop) (window data' start stop) where
  pos := rfl
  stop := hstop.symm
  left := by
    rw [Cursor.left, Cursor.left, ahead_eq, ahead_eq]
    simp only [Cursor.size, Cursor.window, hstop]
    refine List.ext_getElem? fun n => ?_
    rw [List.getElem?_take, List.getElem?_take, List.getElem?_drop, List.getElem?_drop]
    split
    · exact (h (start + n) (Nat.le_add_right _ _) (by omega)).symm
    · rfl

end Alike

/-- Whatever was called before, a read of at least one byte succeeds just if so many are left in the
window and, for a text, are UTF-8. It gives the item that has the bytes at the cursor, which moves
behind them; a call that fails leaves everything as it was. Bytes outside of the window have no
influence on any answer. -/
theorem reads_of_called (data : List UInt8) (start stop : Nat) (calls : List Call) :
    let c := called (window data start stop) calls
    (∀ k : Item.Kind, 0 < k.width →
      (∀ i c', k.read c = .ok i c' ↔ k.width ≤ c.stop - c.pos ∧
        i.kind = k ∧ i.encode = c.ahead k.width ∧ c' = c.advance k.width) ∧
      (∀ e c', k.read c = .error e c' ↔ c' = c ∧
        (c.stop - c.pos < k.width ∧ e = .endOfBuffer ∨
          k.width ≤ c.stop - c.pos ∧ k = .text k.width ∧
            (∀ s, Utf8.encode s ≠ c.ahead k.width) ∧ e = .invalidUtf8))) ∧
    (∀ n, skip n c = if n ≤ c.stop - c.pos then .ok () (c.advance n) else .error .endOfBuffer c) ∧
    (∀ b c', peek c = .ok b c' ↔ 1 ≤ c.stop - c.pos ∧ c.ahead 1 = [b] ∧ c' = c) ∧
    (∀ e c', peek c = .error e c' ↔ c' = c ∧ c.stop - c.pos < 1 ∧ e = .endOfBuffer) ∧
    (∀ call e c', Call.run call c = .error e c' → c' = c) ∧
    ∀ data' : List UInt8, min stop data'.length = min stop data.length →
      (∀ n, start ≤ n → n < min stop data.length → data'[n]? = data[n]?) →
      ((data.length < start ↔ data'.length < start) ∨ ∀ k, .read k ∈ calls → 0 < k.width) →
      answers (window data' start stop) calls = answers (window data start stop) calls := by
  intro c
  refine ⟨fun k hk => ⟨fun i c' => ?_, fun e c' => ?_⟩, fun n => ?_, fun _ _ => peek_eq_ok,
    fun _ _ => peek_eq_error, fun _ _ _ => Call.eq_of_run_error, fun data' hstop hsame hzero => ?_⟩
  · rw [Item.Kind.read_eq_ok]
    refine and_congr_right fun hsize => and_iff_right (holds_of_lt_size hk hsize)
  · rw [Item.Kind.read_eq_error]
    refine and_congr_right fun _ => or_congr_right ?_
    constructor
    · rintro (⟨hsize, -, hinvalid⟩ | ⟨hsize, hholds, -⟩)
      · exact ⟨hsize, hinvalid⟩
      · exact absurd (holds_of_lt_size hk hsize) hholds
    · rintro ⟨hsize, hinvalid⟩
      exact .inl ⟨hsize, holds_of_lt_size hk hsize, hinvalid⟩
  · rw [skip, ← ite_not]
    simp only [Nat.not_lt]
    rfl
  · refine ((Alike.of_window hstop hsame).answers_eq (hzero.imp_left fun hstart => ?_)).symm
    rwa [Behind, Behind, window, window, List.size_toArray, List.size_toArray]

/-- A lone lead byte is no text, and reading it as one changes nothing: the same two bytes are then
read as a number. The bytes on both sides of the window may be others, or missing. -/
theorem reads_of_called_stray :
    let calls := [Call.read (.text 1), .read (.text 2), .read .uint16]
    let c := called (window [0xff, 0x61, 0xc3, 0x28, 0xff] 1 4) (calls.take 2)
    Item.Kind.read (.text 2) c = .error .invalidUtf8 c ∧
    Item.Kind.read .uint16 c = .ok (.uint16 0xc328) (c.advance 2) ∧
    answers (window [0, 0x61, 0xc3, 0x28] 1 4) calls =
      answers (window [0xff, 0x61, 0xc3, 0x28, 0xff] 1 4) calls := by
  intro calls c
  obtain ⟨hread, -⟩ :=
    reads_of_called [0xff, 0x61, 0xc3, 0x28, 0xff] 1 4 (calls.take 2)
  obtain ⟨-, -, -, -, -, houtside⟩ := reads_of_called [0xff, 0x61, 0xc3, 0x28, 0xff] 1 4 calls
  have hc : c = (window [0xff, 0x61, 0xc3, 0x28, 0xff] 1 4).advance 1 := by decide +kernel
  have hdecode : Utf8.decode? (c.ahead 2) = none := by
    rw [hc]
    decide +kernel
  have hsize : 2 ≤ c.stop - c.pos := by rw [hc]; decide
  have hbytes : (Item.uint16 0xc328).encode = c.ahead 2 := by rw [hc]; decide +kernel
  refine ⟨?_, ?_, ?_⟩
  · refine ((hread (.text 2) (by decide)).2 _ _).2 ⟨rfl, .inr ⟨hsize, rfl, fun s hs => ?_, rfl⟩⟩
    change Utf8.encode s = c.ahead 2 at hs
    rw [← hs, Utf8.decode?_encode] at hdecode
    cases hdecode
  · exact ((hread .uint16 (by decide)).1 _ _).2 ⟨hsize, rfl, hbytes, rfl⟩
  · refine houtside [0, 0x61, 0xc3, 0x28] (by decide) (fun n hstart hstop => ?_) (.inl (by decide))
    have hlt : n < 4 := hstop
    obtain rfl | rfl | rfl : n = 1 ∨ n = 2 ∨ n = 3 := by omega
    all_goals rfl

end Cursor

end Wireform
