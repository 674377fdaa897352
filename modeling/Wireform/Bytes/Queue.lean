import Wireform.Bytes.Word

/-!
# Writing bytes

A queue collects bytes in storage that grows by itself. The bytes between `start` and `stop` are
pending; a flush hands them out and begins the next payload behind them. Main statement: whatever
the size of the storage, what is put in is appended to what is pending.

Bytes that are put in lie in memory beside the storage, so room for them is a size that there is.
Room can also be asked for ahead of any bytes (`reserve`), and then the size may be one that there
is not.
-/

namespace Wireform

/-- Storage of which the bytes between `start` and `stop` are pending. -/
structure Queue where
  storage : List UInt8
  start : Nat
  stop : Nat
  deriving DecidableEq, Repr

namespace Queue

/-- An empty queue with room for `n` bytes. -/
def withRoom (n : Nat) : Queue := ⟨List.replicate n 0, 0, 0⟩

/-- A queue as it is made where no size is asked for. -/
def empty : Queue := withRoom 1024

instance : Inhabited Queue := ⟨empty⟩

/-- How many bytes the storage holds, written or not. -/
def room (q : Queue) : Nat := q.storage.length

/-- What the storage grows to when it has to hold `needed` bytes. -/
def grown (q : Queue) (needed : Nat) : Nat := max (2 * q.room) needed

/-- The largest storage that there can be: sizes are machine words, and a block of memory has at most
half as many bytes as there are words. -/
def maxRoom : Nat := Word.size 8 / 2 - 1

/-- The queue with zeros behind its storage where `n` more bytes do not fit. -/
def makeRoom (q : Queue) (n : Nat) : Queue :=
  if q.room < q.stop + n then
    { q with storage := q.storage ++ List.replicate (q.grown (q.stop + n) - q.room) 0 }
  else
    q

/-- Makes sure that `n` more bytes fit, or `none` where no room can be made for them. Nothing looks at
`n` before the sum is computed. If that is no machine word, checked arithmetic stops the program, and
arithmetic that wraps around finds that the storage is large enough; a storage larger than there can
be stops the program. In each case the queue is left as it was. -/
def reserve (q : Queue) (n : Nat) : Option Queue :=
  if Word.size 8 ≤ q.stop + n then none
  else if q.room < q.stop + n ∧ maxRoom < q.grown (q.stop + n) then none
  else some (q.makeRoom n)

/-- Forgets the pending bytes and those flushed before. -/
def reset (q : Queue) : Queue := { q with start := 0, stop := 0 }

/-- How many bytes are pending. -/
def size (q : Queue) : Nat := q.stop - q.start

/-- Whether nothing is pending. -/
def isEmpty (q : Queue) : Bool := q.size = 0

/-- The bytes since the last flush or reset, which stay in the queue. -/
def pending (q : Queue) : List UInt8 := (q.storage.take q.stop).drop q.start

/-- The pending bytes, and the queue with none pending. -/
def flush (q : Queue) : List UInt8 × Queue := (q.pending, { q with start := q.stop })

/-- Overwrites the storage from `stop` on, where it has to be large enough. -/
def overwrite (q : Queue) (bytes : List UInt8) : Queue :=
  { q with
    storage := q.storage.take q.stop ++ bytes ++ q.storage.drop (q.stop + bytes.length)
    stop := q.stop + bytes.length }

/-- Appends to the pending bytes. -/
def put (q : Queue) (bytes : List UInt8) : Queue := (q.makeRoom bytes.length).overwrite bytes

/-- A number is put in as its bytes, the highest first, and a text in UTF-8. -/
def putUInt8 (q : Queue) (n : UInt8) : Queue := q.put (Word.ofUInt8 n)
def putInt8 (q : Queue) (n : Int8) : Queue := q.put (Word.ofInt8 n)
def putUInt16 (q : Queue) (n : UInt16) : Queue := q.put (Word.ofUInt16 n)
def putUInt32 (q : Queue) (n : UInt32) : Queue := q.put (Word.ofUInt32 n)
def putInt32 (q : Queue) (n : Int32) : Queue := q.put (Word.ofInt32 n)
def putUInt64 (q : Queue) (n : UInt64) : Queue := q.put (Word.ofUInt64 n)
def putInt64 (q : Queue) (n : Int64) : Queue := q.put (Word.ofInt64 n)
def putText (q : Queue) (s : String) : Queue := q.put (Utf8.encode s)

/-- The pending bytes lie within the storage. -/
def Sound (q : Queue) : Prop := q.start ≤ q.stop ∧ q.stop ≤ q.room

theorem sound_withRoom (n : Nat) : (withRoom n).Sound := ⟨Nat.le_refl _, Nat.zero_le _⟩

/-- The storage grows to twice its size, or further where that is not enough. -/
theorem room_makeRoom (q : Queue) (n : Nat) :
    (q.makeRoom n).room = if q.room < q.stop + n then q.grown (q.stop + n) else q.room := by
  unfold makeRoom
  split
  · simp only [room, grown, List.length_append, List.length_replicate]
    omega
  · rfl

/-- What room was made for fits. -/
theorem le_room_makeRoom (q : Queue) (n : Nat) : q.stop + n ≤ (q.makeRoom n).room := by
  rw [room_makeRoom, grown]
  split <;> omega

@[simp] theorem start_makeRoom (q : Queue) (n : Nat) : (q.makeRoom n).start = q.start := by
  unfold makeRoom; split <;> rfl

@[simp] theorem stop_makeRoom (q : Queue) (n : Nat) : (q.makeRoom n).stop = q.stop := by
  unfold makeRoom; split <;> rfl

/-- Storage that grows keeps what was written. -/
theorem take_stop_makeRoom {q : Queue} (h : q.Sound) (n : Nat) :
    (q.makeRoom n).storage.take q.stop = q.storage.take q.stop := by
  unfold makeRoom
  split
  · exact List.take_append_of_le_length h.2
  · rfl

theorem sound_makeRoom {q : Queue} (h : q.Sound) (n : Nat) : (q.makeRoom n).Sound := by
  have := q.le_room_makeRoom n
  exact ⟨by simpa using h.1, by simp only [stop_makeRoom]; omega⟩

/-- Where room is made, it is made as for bytes that are put in. -/
theorem eq_makeRoom_of_reserve {q q' : Queue} {n : Nat} (h : q.reserve n = some q') :
    q' = q.makeRoom n := by
  unfold reserve at h
  split at h
  · cases h
  · split at h
    · cases h
    · exact (Option.some.inj h).symm

/-- Room is refused for sizes that there are not, and for no others. -/
theorem reserve_eq_none_iff {q : Queue} {n : Nat} :
    q.reserve n = none ↔
      Word.size 8 ≤ q.stop + n ∨ q.room < q.stop + n ∧ maxRoom < q.grown (q.stop + n) := by
  unfold reserve
  split
  · next hsum => exact iff_of_true rfl (.inl hsum)
  · next hsum =>
    rw [or_iff_right hsum]
    split
    · next hgrown => exact iff_of_true rfl hgrown
    · next hgrown => exact iff_of_false (Option.some_ne_none _) hgrown

/-- In a sound queue every written byte is in the storage. -/
theorem length_take_stop {q : Queue} (h : q.Sound) : (q.storage.take q.stop).length = q.stop := by
  rw [List.length_take]
  exact Nat.min_eq_left h.2

/-- Bytes that fit are written within the storage. -/
theorem sound_overwrite {q : Queue} (h : q.Sound) (bytes : List UInt8) :
    (q.overwrite bytes).Sound := by
  have hlen := length_take_stop h
  have hle := h.1
  refine ⟨?_, ?_⟩
  · simp only [overwrite]
    omega
  · simp only [overwrite, room, List.length_append, hlen, List.length_drop]
    omega

/-- What is overwritten lies behind the pending bytes, which stay in front. -/
theorem pending_overwrite {q : Queue} (h : q.Sound) (bytes : List UInt8) :
    (q.overwrite bytes).pending = q.pending ++ bytes := by
  have hlen := length_take_stop h
  simp only [overwrite, pending]
  rw [List.take_left' (by rw [List.length_append, hlen]),
    List.drop_append_of_le_length (by rw [hlen]; exact h.1)]

/-- Growth moves the pending bytes and loses none. -/
theorem pending_makeRoom {q : Queue} (h : q.Sound) (n : Nat) :
    (q.makeRoom n).pending = q.pending := by
  rw [pending, pending, start_makeRoom, stop_makeRoom, take_stop_makeRoom h]

/-- Whether room is made or refused, nothing else happens to the queue. -/
theorem reserve_cases (q : Queue) (n : Nat) :
    (q.reserve n).getD q = q ∨ (q.reserve n).getD q = q.makeRoom n := by
  cases h : q.reserve n with
  | none => exact .inl rfl
  | some q' => exact .inr (eq_makeRoom_of_reserve h)

/-- A reservation, granted or refused, leaves the queue sound. -/
theorem sound_reserve {q : Queue} (h : q.Sound) (n : Nat) : ((q.reserve n).getD q).Sound := by
  rcases q.reserve_cases n with heq | heq <;> rw [heq]
  · exact h
  · exact sound_makeRoom h n

/-- A reservation, granted or refused, leaves the pending bytes as they were. -/
theorem pending_reserve {q : Queue} (h : q.Sound) (n : Nat) :
    ((q.reserve n).getD q).pending = q.pending := by
  rcases q.reserve_cases n with heq | heq <;> rw [heq]
  exact pending_makeRoom h n

theorem sound_put {q : Queue} (h : q.Sound) (bytes : List UInt8) : (q.put bytes).Sound :=
  sound_overwrite (sound_makeRoom h _) bytes

/-- What is put in is appended to what is pending, whatever the size of the storage was. -/
theorem pending_put {q : Queue} (h : q.Sound) (bytes : List UInt8) :
    (q.put bytes).pending = q.pending ++ bytes := by
  rw [put, pending_overwrite (sound_makeRoom h _), pending_makeRoom h]

theorem sound_reset (q : Queue) : q.reset.Sound := ⟨Nat.le_refl _, Nat.zero_le _⟩

@[simp] theorem pending_reset (q : Queue) : q.reset.pending = [] := rfl

/-- What a flush leaves behind is sound: nothing is pending, in the same storage. -/
theorem sound_flush {q : Queue} (h : q.Sound) : q.flush.2.Sound := ⟨Nat.le_refl _, h.2⟩

/-- After a flush nothing is pending. -/
theorem pending_flush (q : Queue) : q.flush.2.pending = [] :=
  List.drop_eq_nil_of_le (List.length_take_le _ _)

end Queue

end Wireform
