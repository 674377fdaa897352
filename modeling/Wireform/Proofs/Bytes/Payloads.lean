import Wireform.Proofs.Binary.Takes

/-!
# Payloads

A queue is used item by item, and now and then it is flushed or reset. Whatever it went through, and
however large its storage was at first, what is pending are the bytes of the items since the last
flush or reset, and a payload that is handed out is read back as these items (`payload_of_used`).
The bytes of a number are given by arithmetic (`bigEndian`), apart from the way in which they are
computed.
-/

namespace Wireform

/-- The `k` lowest bytes of a number, the highest first; those of a negative number are its two's
complement. -/
def bigEndian (k : Nat) (n : Int) : List UInt8 :=
  (List.range k).map fun i => UInt8.ofNat (n / Word.size (k - 1 - i) % 256).toNat

/-- A value that is put into a queue. -/
inductive Item where
  | uint8 (n : UInt8)
  | int8 (n : Int8)
  | uint16 (n : UInt16)
  | uint32 (n : UInt32)
  | int32 (n : Int32)
  | uint64 (n : UInt64)
  | int64 (n : Int64)
  | bytes (bs : List UInt8)
  | text (s : String)
  deriving DecidableEq, Repr

namespace Item

/-- The type of an item, with the number of its bytes where the type leaves it open. -/
inductive Kind where
  | uint8 | int8 | uint16 | uint32 | int32 | uint64 | int64
  | bytes (n : Nat)
  | text (n : Nat)
  deriving DecidableEq, Repr

/-- The type under which an item is read back. -/
def kind : Item → Kind
  | uint8 _ => .uint8
  | int8 _ => .int8
  | uint16 _ => .uint16
  | uint32 _ => .uint32
  | int32 _ => .int32
  | uint64 _ => .uint64
  | int64 _ => .int64
  | bytes bs => .bytes bs.length
  | text s => .text s.utf8ByteSize

/-- The bytes of an item, by arithmetic. -/
def encode : Item → List UInt8
  | uint8 n => bigEndian 1 n.toNat
  | int8 n => bigEndian 1 n.toInt
  | uint16 n => bigEndian 2 n.toNat
  | uint32 n => bigEndian 4 n.toNat
  | int32 n => bigEndian 4 n.toInt
  | uint64 n => bigEndian 8 n.toNat
  | int64 n => bigEndian 8 n.toInt
  | bytes bs => bs
  | text s => Utf8.encode s

/-- Puts an item into a queue. -/
def put (q : Queue) : Item → Queue
  | uint8 n => q.putUInt8 n
  | int8 n => q.putInt8 n
  | uint16 n => q.putUInt16 n
  | uint32 n => q.putUInt32 n
  | int32 n => q.putInt32 n
  | uint64 n => q.putUInt64 n
  | int64 n => q.putInt64 n
  | bytes bs => q.put bs
  | text s => q.putText s

/-- Reads an item of the type. -/
def Kind.read : Kind → Take Item
  | uint8 => .uint8 <$> Cursor.uint8
  | int8 => .int8 <$> Cursor.int8
  | uint16 => .uint16 <$> Cursor.uint16
  | uint32 => .uint32 <$> Cursor.uint32
  | int32 => .int32 <$> Cursor.int32
  | uint64 => .uint64 <$> Cursor.uint64
  | int64 => .int64 <$> Cursor.int64
  | bytes n => .bytes <$> Cursor.bytes n
  | text n => .text <$> Cursor.text n

end Item

/-! ## Bytes of numbers -/

/-- A number in `k + 1` bytes starts with its highest byte. -/
theorem bigEndian_succ (k : Nat) (n : Int) :
    bigEndian (k + 1) n = UInt8.ofNat (n / Word.size k % 256).toNat :: bigEndian k n := by
  rw [bigEndian, List.range_succ_eq_map, List.map_cons, List.map_map, bigEndian]
  congr 1
  refine List.map_congr_left fun i _ => ?_
  simp only [Function.comp_apply]
  congr 6
  omega

/-- Only the remainder matters. -/
theorem bigEndian_add_mul (k : Nat) (n m : Int) :
    bigEndian k (n + Word.size k * m) = bigEndian k n := by
  induction k generalizing m with
  | zero => rfl
  | succ k ih =>
    have hne : (Word.size k : Int) ≠ 0 := Int.natCast_ne_zero.2 (Nat.ne_of_gt (Word.size_pos k))
    have hsplit : n + Word.size (k + 1) * m = n + Word.size k * (256 * m) := by
      rw [Word.size, Int.natCast_mul, Int.mul_assoc]
      rfl
    rw [bigEndian_succ, bigEndian_succ, hsplit, ih, Int.add_mul_ediv_left _ _ hne,
      Int.add_mul_emod_self_left]

/-- On natural numbers the bytes are those of the writer. -/
theorem bigEndian_natCast (k n : Nat) : bigEndian k n = Word.toBytes k n := by
  induction k with
  | zero => rfl
  | succ k ih =>
    have hbyte : (n : Int) / Word.size k % 256 = (n / Word.size k % 256 : Nat) := by
      rw [Int.natCast_emod, Int.natCast_ediv]
      rfl
    rw [bigEndian_succ, ih, Word.toBytes, hbyte, Int.toNat_natCast]
    exact congrArg (· :: _) UInt8.ofNat_mod_size

/-- A word that is read as a signed number has the same bytes. -/
theorem bigEndian_toInt (k : Nat) (x : BitVec (8 * k)) :
    bigEndian k x.toInt = Word.toBytes k x.toNat := by
  rw [← bigEndian_natCast, BitVec.toInt_eq_toNat_cond]
  split
  · rfl
  · have hsize (j : Nat) : 2 ^ (8 * j) = Word.size j := by
      induction j with
      | zero => rfl
      | succ j ih => rw [Word.size, ← ih, Nat.mul_add, Nat.pow_add]
    have hsub : (x.toNat : Int) - (2 ^ (8 * k) : Nat) = x.toNat + Word.size k * (-1) := by
      rw [hsize, Int.mul_neg_one, Int.sub_eq_add_neg]
    rw [hsub, bigEndian_add_mul]

namespace Item

variable {q : Queue} {c : Cursor} {i : Item} {rest : List UInt8}

/-- An item is put in as its bytes. -/
theorem put_eq (q : Queue) (i : Item) : i.put q = q.put i.encode := by
  cases i with
  | uint8 | uint16 | uint32 | uint64 =>
    rw [put, encode, bigEndian_natCast]
    rfl
  | int8 n => exact congrArg q.put (bigEndian_toInt 1 n.toBitVec).symm
  | int32 n => exact congrArg q.put (bigEndian_toInt 4 n.toBitVec).symm
  | int64 n => exact congrArg q.put (bigEndian_toInt 8 n.toBitVec).symm
  | bytes | text => rfl

/-! ## Reading back -/

theorem length_bigEndian (k : Nat) (n : Int) : (bigEndian k n).length = k := by
  rw [bigEndian, List.length_map, List.length_range]

theorem toBytes_one (n : UInt8) : Word.toBytes 1 n.toNat = [n] := by
  simp [Word.toBytes, Word.size]

/-- A cursor inside of its window takes the bytes of an item and gives the item. -/
theorem read_kind (hc : c.pos ≤ c.stop) (h : c.left = i.encode ++ rest) :
    i.kind.read c = .ok i (c.advance i.encode.length) := by
  have hlen := Cursor.length_le_size h
  have hholds : c.Holds i.encode.length := by
    have hstop := c.stop_le
    simp only [Cursor.Holds, Cursor.size] at hlen ⊢
    omega
  cases i with
  | uint8 n =>
    rw [encode, bigEndian_natCast, toBytes_one] at h
    rw [kind, Kind.read, Step.map_apply, Cursor.uint8_eq_ok h, encode, length_bigEndian]
  | int8 n =>
    have hbytes : bigEndian 1 n.toInt = [n.toUInt8] :=
      (bigEndian_toInt 1 n.toBitVec).trans (toBytes_one n.toUInt8)
    rw [encode, hbytes] at h
    simp only [kind, Kind.read, Cursor.int8, Step.map_apply, Cursor.uint8_eq_ok h, encode,
      length_bigEndian]
    rfl
  | uint16 n | uint32 n | uint64 n =>
    rw [encode, bigEndian_natCast] at h
    have hword := Binary.word_eq_ok (by decide) n.toNat_lt h
    simp only [kind, Kind.read, Cursor.uint16, Cursor.uint32, Cursor.uint64, Step.map_apply, hword,
      encode, length_bigEndian, UInt16.ofNat_toNat, UInt32.ofNat_toNat, UInt64.ofNat_toNat]
  | int32 n =>
    have hbytes : bigEndian 4 n.toInt = Word.ofInt32 n := bigEndian_toInt 4 n.toBitVec
    rw [encode, hbytes] at h
    have hword := Binary.word_eq_ok (by decide) n.toUInt32.toNat_lt h
    simp only [kind, Kind.read, Cursor.int32, Cursor.uint32, Step.map_apply, hword, encode,
      length_bigEndian, UInt32.ofNat_toNat]
    rfl
  | int64 n =>
    have hbytes : bigEndian 8 n.toInt = Word.ofInt64 n := bigEndian_toInt 8 n.toBitVec
    rw [encode, hbytes] at h
    have hword := Binary.word_eq_ok (by decide) n.toUInt64.toNat_lt h
    simp only [kind, Kind.read, Cursor.int64, Cursor.uint64, Step.map_apply, hword, encode,
      length_bigEndian, UInt64.ofNat_toNat]
    rfl
  | bytes bs =>
    have hbytes := Cursor.bytes_eq_ok hlen hholds
    rw [h, List.take_left, encode] at hbytes
    rw [kind, Kind.read, Step.map_apply, hbytes]
    rfl
  | text s =>
    rw [kind, Kind.read, Step.map_apply, Cursor.text_eq_ok h hholds]
    rfl

/-- Reads items of these types, one after the other. -/
def readAll (kinds : List Kind) : Take (List Item) := kinds.mapM Kind.read

/-- Items are read back in their order, by readers chosen from their kinds alone. -/
theorem readAll_kinds {items : List Item} (hc : c.pos ≤ c.stop)
    (h : c.left = items.flatMap encode ++ rest) :
    readAll (items.map kind) c = .ok items (c.advance (items.flatMap encode).length) := by
  induction items generalizing c with
  | nil => rfl
  | cons i items ih =>
    rw [List.flatMap_cons, List.append_assoc] at h
    have hlen := Cursor.length_le_size h
    have hinside : (c.advance i.encode.length).pos ≤ (c.advance i.encode.length).stop := by
      simp only [Cursor.size, Cursor.advance] at hlen ⊢
      omega
    have hrest := ih hinside (Cursor.left_advance_append h)
    rw [readAll] at hrest
    rw [List.map_cons, readAll, List.mapM_cons, Step.bind_apply, read_kind hc h]
    dsimp only
    rw [Step.bind_apply, hrest, Cursor.advance_advance, List.flatMap_cons, List.length_append]
    rfl

end Item

/-! ## Histories -/

namespace Queue

/-- What can be done with a queue. -/
inductive Use where
  | put (i : Item)
  | reserve (n : Nat)
  | flush
  | reset
  deriving DecidableEq, Repr

namespace Use

/-- The queue after a use, or `none` where the use fails. Bytes that are put in are in memory already,
so that their number is one that there is; that memory runs out is left aside. -/
def attempt (q : Queue) : Use → Option Queue
  | put i => some (i.put q)
  | reserve n => q.reserve n
  | flush => some q.flush.2
  | reset => some q.reset

/-- The queue after a use, which a failed one leaves as it was. -/
def apply (q : Queue) (use : Use) : Queue := (use.attempt q).getD q

/-- How many bytes the storage has to hold behind those that are written. -/
def demand : Use → Nat
  | put i => i.encode.length
  | reserve n => n
  | flush | reset => 0

/-- The items since the last flush or reset, if these were `found` before. -/
def gather (found : List Item) : Use → List Item
  | put i => found ++ [i]
  | reserve _ => found
  | flush | reset => []

end Use

/-- The queue that began with room for `n` bytes, after some uses. -/
def used (n : Nat) (uses : List Use) : Queue := uses.foldl Use.apply (withRoom n)

/-- The items that are put in after the last flush or reset. -/
def gathered (uses : List Use) : List Item := uses.foldl Use.gather []

variable {q q' : Queue} {items : List Item}

/-- The pending bytes lie within the storage, and they are those of the items. -/
structure Holds (q : Queue) (items : List Item) : Prop where
  sound : q.Sound
  pending : q.pending = items.flatMap Item.encode

theorem holds_withRoom (n : Nat) : (withRoom n).Holds [] := by
  refine ⟨sound_withRoom n, ?_⟩
  rw [Queue.pending]
  exact List.drop_nil

/-- One use of the queue gathers its items, whatever happens to the storage. -/
theorem Holds.apply (h : q.Holds items) (use : Use) : (use.apply q).Holds (use.gather items) := by
  cases use with
  | put i =>
    rw [Use.apply, Use.attempt, Option.getD_some, i.put_eq]
    refine ⟨sound_put h.sound _, ?_⟩
    rw [pending_put h.sound, h.pending, Use.gather, List.flatMap_append, List.flatMap_singleton]
  | reserve n => exact ⟨sound_reserve h.sound n, (pending_reserve h.sound n).trans h.pending⟩
  | flush => exact ⟨sound_flush h.sound, pending_flush q⟩
  | reset => exact ⟨sound_reset q, pending_reset q⟩

/-- After any uses the queue holds the items that were put into it since the last flush or reset. -/
theorem holds_used (n : Nat) (uses : List Use) : (used n uses).Holds (gathered uses) := by
  rw [used, gathered]
  generalize withRoom n = q, ([] : List Item) = items, holds_withRoom n = h
  induction uses generalizing q items with
  | nil => exact h
  | cons use uses ih => exact ih _ _ (h.apply use)

theorem room_overwrite {bytes : List UInt8} (h : q.stop + bytes.length ≤ q.room) :
    (q.overwrite bytes).room = q.room := by
  simp only [room] at h
  simp only [overwrite, room, List.length_append, List.length_take, List.length_drop]
  omega

/-- Where a use does not fit the storage grows, and it never shrinks. -/
theorem room_of_attempt (h : q.Sound) {use : Use} (hattempt : use.attempt q = some q') :
    q'.room =
      if q.room < q.stop + use.demand then max (2 * q.room) (q.stop + use.demand) else q.room := by
  cases use with
  | put i =>
    have hroom := q.le_room_makeRoom i.encode.length
    rw [Use.attempt, i.put_eq, Option.some_inj] at hattempt
    rw [← hattempt, Queue.put, room_overwrite (by rwa [stop_makeRoom]), room_makeRoom]
    rfl
  | reserve n =>
    rw [eq_makeRoom_of_reserve hattempt]
    exact room_makeRoom q n
  | flush | reset =>
    rw [← Option.some.inj hattempt]
    exact (if_neg (Nat.not_lt.2 h.2)).symm

/-- Only a request for room can fail. -/
theorem attempt_eq_none_iff {use : Use} :
    use.attempt q = none ↔ ∃ n, use = .reserve n ∧ q.reserve n = none := by
  constructor
  · intro h
    cases use with
    | reserve n => exact ⟨n, rfl, h⟩
    | _ => cases h
  · rintro ⟨n, rfl, h⟩
    exact h

/-- Whatever a queue was used for, its pending bytes are those of the items since the last flush or
reset, and they are what a flush hands out. Read as items of the same types they give these items,
up to the end. The storage grows as far as a use needs, unless this is a request for room of a size
that there is not. -/
theorem payload_of_used (n : Nat) (uses : List Use) :
    let q := used n uses
    let items := gathered uses
    (q.start ≤ q.stop ∧ q.stop ≤ q.room) ∧
    q.pending = items.flatMap Item.encode ∧
    q.flush.1 = items.flatMap Item.encode ∧ q.flush.2.pending = [] ∧
    (∀ (use : Use) (q' : Queue), use.attempt q = some q' → q.room ≤ q'.room ∧ q'.room =
      if q.room < q.stop + use.demand then max (2 * q.room) (q.stop + use.demand) else q.room) ∧
    (∀ use : Use, use.attempt q = none ↔ ∃ k, use = .reserve k ∧
      (Word.size 8 ≤ q.stop + k ∨
        q.room < q.stop + k ∧ Word.size 8 / 2 ≤ max (2 * q.room) (q.stop + k))) ∧
    ∃ c, Item.readAll (items.map Item.kind) (.ofBytes q.flush.1) = .ok items c ∧ c.atEnd := by
  intro q items
  have h : q.Holds items := holds_used n uses
  have hflush : q.flush.1 = items.flatMap Item.encode := h.pending
  refine ⟨h.sound, h.pending, hflush, pending_flush q, fun use q' hattempt => ?_, fun use => ?_, ?_⟩
  · have hroom := room_of_attempt h.sound hattempt
    refine ⟨?_, hroom⟩
    rw [hroom]
    split <;> omega
  · rw [attempt_eq_none_iff]
    refine exists_congr fun k => and_congr_right fun _ => ?_
    rw [reserve_eq_none_iff]
    exact .rfl
  · rw [hflush]
    have hleft : (Cursor.ofBytes (items.flatMap Item.encode)).left =
        items.flatMap Item.encode ++ [] := by
      rw [Cursor.left_ofBytes, List.append_nil]
    refine ⟨_, Item.readAll_kinds (Nat.zero_le _) hleft, ?_⟩
    simp [Cursor.atEnd, Cursor.advance, Cursor.ofBytes]

/-- After one byte in a storage of four there is no room for as many more as a word can count, nor
for half as many: nothing is made larger. -/
theorem no_room_for_word :
    let q := used 4 [.put (.uint8 1)]
    q.room = 4 ∧ q.stop = 1 ∧
    let most := Word.size 8 - 1
    let half := Word.size 8 / 2 - 1
    (Use.reserve most).attempt q = none ∧ (Use.reserve half).attempt q = none ∧
    ((Use.reserve most).apply q).room ≠ max (2 * q.room) (q.stop + most) ∧
    ((Use.reserve half).apply q).room ≠ max (2 * q.room) (q.stop + half) := by
  decide

end Queue

end Wireform
