/-!
# Words and texts as bytes

Words are written in big-endian order and signed words in two's complement; texts are written in
UTF-8. Main statements: `Word.ofBytes` undoes `Word.toBytes` on every number that fits, and the other
way round; a text and its bytes determine each other, and every other row of bytes is refused.
-/

namespace Wireform.Word

/-- How many numbers there are of `k` bytes. -/
def size : Nat → Nat
  | 0 => 1
  | k + 1 => size k * 256

/-- The `k` lowest bytes of a number, the highest of them first. -/
def toBytes : Nat → Nat → List UInt8
  | 0, _ => []
  | k + 1, n => UInt8.ofNat (n / size k) :: toBytes k n

/-- The number whose bytes these are, the highest of them first. -/
def ofBytes (bytes : List UInt8) : Nat := bytes.foldl (fun n b => 256 * n + b.toNat) 0

def ofUInt8 (n : UInt8) : List UInt8 := toBytes 1 n.toNat
def ofInt8 (n : Int8) : List UInt8 := toBytes 1 n.toUInt8.toNat
def ofUInt16 (n : UInt16) : List UInt8 := toBytes 2 n.toNat
def ofUInt32 (n : UInt32) : List UInt8 := toBytes 4 n.toNat
def ofInt32 (n : Int32) : List UInt8 := toBytes 4 n.toUInt32.toNat
def ofUInt64 (n : UInt64) : List UInt8 := toBytes 8 n.toNat
def ofInt64 (n : Int64) : List UInt8 := toBytes 8 n.toUInt64.toNat

theorem size_pos (k : Nat) : 0 < size k := by
  induction k with
  | zero => exact Nat.one_pos
  | succ k ih => exact Nat.mul_pos ih (by decide)

@[simp] theorem length_toBytes (k n : Nat) : (toBytes k n).length = k := by
  induction k with
  | zero => rfl
  | succ k ih => simp [toBytes, ih]

/-- The accumulator of a big-endian read is scaled by the bytes that are still to come. -/
theorem foldl_eq (bytes : List UInt8) (n : Nat) :
    bytes.foldl (fun n b => 256 * n + b.toNat) n = size bytes.length * n + ofBytes bytes := by
  induction bytes generalizing n with
  | nil => simp [ofBytes, size]
  | cons b bytes ih =>
    simp only [ofBytes, List.foldl_cons, List.length_cons]
    rw [ih, ih (256 * 0 + b.toNat), size]
    simp only [Nat.mul_zero, Nat.zero_add, Nat.mul_add, Nat.mul_assoc, Nat.add_assoc]

/-- The first byte of a big-endian number has the highest weight. -/
theorem ofBytes_cons (b : UInt8) (bytes : List UInt8) :
    ofBytes (b :: bytes) = size bytes.length * b.toNat + ofBytes bytes := by
  simpa [ofBytes] using foldl_eq bytes b.toNat

/-- A number of `k` bytes is below `256 ^ k`. -/
theorem ofBytes_lt (bytes : List UInt8) : ofBytes bytes < size bytes.length := by
  induction bytes with
  | nil => exact Nat.one_pos
  | cons b bytes ih =>
    have hb : b.toNat + 1 ≤ 256 := b.toNat_lt
    have := Nat.mul_le_mul_left (size bytes.length) hb
    rw [ofBytes_cons, List.length_cons, size]
    simp only [Nat.mul_add, Nat.mul_one] at this
    omega

/-- What does not fit in the bytes is lost, and nothing else. -/
theorem ofBytes_toBytes (k n : Nat) : ofBytes (toBytes k n) = n % size k := by
  induction k with
  | zero => simp [toBytes, ofBytes, size, Nat.mod_one]
  | succ k ih =>
    rw [toBytes, ofBytes_cons, ih, length_toBytes, size, Nat.mod_mul, UInt8.toNat_ofNat',
      Nat.add_comm]

/-- A multiple of what the bytes can count leaves no trace in them. -/
theorem toBytes_add_mul (k n m : Nat) : toBytes k (n + size k * m) = toBytes k n := by
  induction k generalizing m with
  | zero => rfl
  | succ k ih =>
    have hsplit : n + size (k + 1) * m = n + size k * (256 * m) := by
      rw [size, Nat.mul_assoc]
    rw [toBytes, toBytes, hsplit, ih, Nat.add_mul_div_left _ _ (size_pos k)]
    congr 1
    apply UInt8.toNat_inj.mp
    simp

/-- Bytes are those of the number that they make. -/
theorem toBytes_ofBytes (bytes : List UInt8) : toBytes bytes.length (ofBytes bytes) = bytes := by
  induction bytes with
  | nil => rfl
  | cons b bytes ih =>
    have hlt := ofBytes_lt bytes
    rw [List.length_cons, toBytes, ofBytes_cons, Nat.add_comm, Nat.add_mul_div_left _ _ (by omega),
      Nat.div_eq_of_lt hlt, Nat.zero_add, toBytes_add_mul, ih, UInt8.ofNat_toNat]

end Wireform.Word

namespace Wireform.Utf8

/-- The bytes of a text. -/
def encode (s : String) : List UInt8 := s.toUTF8.data.toList

/-- The text that bytes spell; nothing unless they are well-formed UTF-8. -/
def decode? (bytes : List UInt8) : Option String := String.fromUTF8? ⟨bytes.toArray⟩

/-- The bytes of a text are those of its characters. -/
theorem encode_eq (s : String) : encode s = s.toList.flatMap String.utf8EncodeChar := by
  rw [encode, String.toUTF8_eq_toByteArray, ← s.utf8Encode_toList, List.utf8Encode,
    List.data_toByteArray]

/-- A text is read from its bytes. -/
theorem decode?_encode (s : String) : decode? (encode s) = some s := by
  have h : (⟨(encode s).toArray⟩ : ByteArray) = s.toByteArray := rfl
  rw [decode?, h, String.fromUTF8?, dif_pos s.isValidUTF8]
  rfl

/-- What was read as a text are the bytes of that text. -/
theorem encode_of_decode? {bytes : List UInt8} {s : String} (h : decode? bytes = some s) :
    encode s = bytes := by
  unfold decode? String.fromUTF8? at h
  split at h
  · cases h; rfl
  · simp at h

@[simp] theorem encode_append (s t : String) : encode (s ++ t) = encode s ++ encode t := by
  simp [encode, String.toByteArray_append]

theorem length_encode (s : String) : (encode s).length = s.utf8ByteSize := rfl

end Wireform.Utf8
