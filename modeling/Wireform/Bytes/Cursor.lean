import Wireform.Bytes.Word
import Wireform.Step

/-!
# Reading bytes

A cursor walks through a window of some data. Every read first asks whether the window holds enough
bytes, and a read that fails leaves the cursor where it was. Main statement: a read takes its bytes
off the front of what is left in the window and depends on nothing else.
-/

namespace Wireform

/-- Why bytes could not be read or written. -/
inductive BufferError where
  /-- More bytes were asked for than are left. -/
  | endOfBuffer
  /-- The bytes of a text are not UTF-8. -/
  | invalidUtf8
  /-- A length is too large for the field that holds it. -/
  | overflow
  /-- The cursor stands outside the data altogether, so that even no bytes cannot be taken. -/
  | outOfRange
  deriving DecidableEq, Repr

/-- How a failure is reported. -/
def BufferError.message : BufferError → String
  | endOfBuffer => "end of buffer"
  | invalidUtf8 => "invalid UTF-8 sequence"
  | overflow => "buffer overflow"
  | outOfRange => "position outside of the data"

/-- A position in some data and the end of the window that may be read. -/
structure Cursor where
  data : Array UInt8
  pos : Nat
  stop : Nat
  stop_le : stop ≤ data.size
  deriving DecidableEq

/-- A read through a cursor. -/
abbrev Take := Step BufferError Cursor

namespace Cursor

/-- A cursor in front of some bytes, all of which may be read. -/
def ofBytes (bytes : List UInt8) : Cursor := ⟨bytes.toArray, 0, bytes.length, by simp⟩

/-- The window may begin anywhere; its end is held inside the data. -/
def window (bytes : List UInt8) (pos stop : Nat) : Cursor :=
  ⟨bytes.toArray, pos, min stop bytes.length, Nat.min_le_right _ _⟩

/-- How many bytes are left to read. -/
def size (c : Cursor) : Nat := c.stop - c.pos

/-- Nothing is left to read, also where the window begins beyond its end. -/
def atEnd (c : Cursor) : Bool := c.stop ≤ c.pos

/-- The `n` bytes of the data that begin at the cursor. -/
def ahead (c : Cursor) (n : Nat) : List UInt8 := (c.data.extract c.pos (c.pos + n)).toList

/-- Moves on without a look at the window. -/
def advance (c : Cursor) (n : Nat) : Cursor := { c with pos := c.pos + n }

/-- Whether a row of `n` bytes at the cursor lies inside the data. -/
def Holds (c : Cursor) (n : Nat) : Prop := c.pos + n ≤ c.data.size

instance (c : Cursor) (n : Nat) : Decidable (c.Holds n) := inferInstanceAs (Decidable (_ ≤ _))

/-- The next byte, which stays there to be read. -/
def peek : Take UInt8 := fun c =>
  if h : c.pos < c.stop then
    have : c.pos < c.data.size := Nat.lt_of_lt_of_le h c.stop_le
    .ok c.data[c.pos] c
  else
    .error .endOfBuffer c

/-- Moves past bytes of the window. -/
def skip (n : Nat) : Take Unit := fun c =>
  if c.size < n then .error .endOfBuffer c else .ok () (c.advance n)

/-- A row of bytes. The window is asked first, but a row within the window need not lie within the
data: from behind its end even no bytes can be taken. -/
def bytes (n : Nat) : Take (List UInt8) := fun c =>
  if c.size < n then .error .endOfBuffer c
  else if c.Holds n then .ok (c.ahead n) (c.advance n)
  else .error .outOfRange c

/-- A text of `n` bytes. -/
def text (n : Nat) : Take String := fun c =>
  if c.size < n then .error .endOfBuffer c
  else if c.Holds n then
    match Utf8.decode? (c.ahead n) with
    | some s => .ok s (c.advance n)
    | none => .error .invalidUtf8 c
  else .error .outOfRange c

/-- An unsigned word of `k` bytes. -/
def word (k : Nat) : Take Nat := Word.ofBytes <$> bytes k

/-- A byte. -/
def uint8 : Take UInt8 := do
  let b ← peek
  skip 1
  return b

def int8 : Take Int8 := UInt8.toInt8 <$> uint8
def uint16 : Take UInt16 := UInt16.ofNat <$> word 2
def uint32 : Take UInt32 := UInt32.ofNat <$> word 4
def int32 : Take Int32 := UInt32.toInt32 <$> uint32
def uint64 : Take UInt64 := UInt64.ofNat <$> word 8
def int64 : Take Int64 := UInt64.toInt64 <$> uint64

/-- What is left of the window, whether or not anything lies beyond it. -/
def left (c : Cursor) : List UInt8 := c.ahead c.size

/-- The bytes ahead of a cursor, as parts of the list of all. -/
theorem ahead_eq (c : Cursor) (n : Nat) : c.ahead n = (c.data.toList.drop c.pos).take n := by
  rw [ahead, Array.toList_extract, List.extract_eq_take_drop, Nat.add_sub_cancel_left]

/-- The bytes left are as many as the window still counts. -/
theorem length_left (c : Cursor) : c.left.length = c.size := by
  have h := c.stop_le
  simp only [left, ahead_eq, size, List.length_take, List.length_drop, Array.length_toList]
  omega

/-- A window whose end lies within the data holds all its bytes; only a read of nothing can fall
outside. -/
theorem holds_of_lt_size {c : Cursor} {n : Nat} (hn : 0 < n) (h : n ≤ c.size) : c.Holds n := by
  have := c.stop_le
  simp only [Holds, size] at h ⊢
  omega

/-- What is read lies at the front of what is left. -/
theorem ahead_eq_take_left {c : Cursor} {n : Nat} (h : n ≤ c.size) : c.ahead n = c.left.take n := by
  rw [left, ahead_eq, ahead_eq, List.take_take, Nat.min_eq_left h]

/-- Moving on drops what was passed from what is left. -/
theorem left_advance {c : Cursor} {n : Nat} : (c.advance n).left = c.left.drop n := by
  simp only [left, ahead_eq, advance, size, List.drop_take, List.drop_drop]
  congr 1
  omega

/-- A cursor over a whole array has all its bytes left. -/
theorem left_ofBytes (bytes : List UInt8) : (ofBytes bytes).left = bytes := by
  simp [left, ahead_eq, ofBytes, size]

/-- A row that the window holds is taken off the front of what is left. -/
theorem bytes_eq_ok {c : Cursor} {n : Nat} (h : n ≤ c.size) (hc : c.Holds n) :
    bytes n c = .ok (c.left.take n) (c.advance n) := by
  rw [bytes, if_neg (Nat.not_lt.2 h), if_pos hc, ahead_eq_take_left h]

/-- A row that the window does not hold is refused. -/
theorem bytes_eq_error {c : Cursor} {n : Nat} (h : c.size < n) :
    bytes n c = .error .endOfBuffer c := by
  rw [bytes, if_pos h]

/-- A byte is read where one is left, and the cursor moves by one. -/
theorem uint8_eq_ok {c : Cursor} {b : UInt8} {rest : List UInt8} (h : c.left = b :: rest) :
    uint8 c = .ok b (c.advance 1) := by
  have hsize : c.size = rest.length + 1 := by simpa [h] using c.length_left.symm
  have hpos : c.pos < c.stop := by rw [size] at hsize; omega
  have hlt : c.pos < c.data.size := Nat.lt_of_lt_of_le hpos c.stop_le
  have hb : c.data[c.pos] = b := by
    have hget : c.left[0]? = some b := by simp [h]
    rw [left, ahead_eq, List.getElem?_take_of_lt (by omega), List.getElem?_drop] at hget
    simpa [hlt] using hget
  simp only [uint8, Step.bind_apply, peek, hpos, dif_pos, hb, skip, Step.pure_apply]
  rw [if_neg (by omega)]

/-- At the end of the window a byte is refused and the cursor stays. -/
theorem uint8_eq_error {c : Cursor} (h : c.left = []) : uint8 c = .error .endOfBuffer c := by
  have hsize : c.size = 0 := by simpa [h] using c.length_left.symm
  have hpos : ¬ c.pos < c.stop := by rw [size] at hsize; omega
  simp only [uint8, Step.bind_apply, peek, hpos, dif_neg, not_false_eq_true]

end Cursor

end Wireform
