import Wireform.Bytes.Cursor

/-!
# Numbers of varying length

A number is written in groups of seven bits, the lowest group first; every byte but the last has its
high bit set. Signed numbers are first folded onto the natural numbers, so that those near zero stay
short. Main statement: reading takes back exactly the bytes that were written, whatever follows.
-/

namespace Wireform.Varint

/-- The groups of a number: as few as hold it, and at least one. -/
def encode (n : Nat) : List UInt8 :=
  if n < 128 then [UInt8.ofNat n] else UInt8.ofNat (n % 128 + 128) :: encode (n / 128)
termination_by n
decreasing_by omega

/-- How large a number may be: its bits, and how many groups they fill. -/
structure Width where
  name : String
  bits : Nat
  groups : Nat
  deriving DecidableEq, Repr

/-- Numbers of 32 bits. -/
def short : Width := ⟨"vint", 32, 5⟩
/-- Numbers of 64 bits. -/
def long : Width := ⟨"vlong", 64, 10⟩

namespace Width

/-- What the last group has to stay below, so that the number fits. -/
def lastLimit (w : Width) : Nat := 1 <<< (w.bits - 7 * (w.groups - 1))

/-- What a number has to stay below that may take `k` groups and the last one. -/
def limit (w : Width) : Nat → Nat
  | 0 => w.lastLimit
  | k + 1 => w.limit k * 128

theorem limit_pos (w : Width) (k : Nat) : 0 < w.limit k := by
  induction k with
  | zero =>
    rw [limit, lastLimit, Nat.one_shiftLeft]
    exact Nat.two_pow_pos _
  | succ k ih => exact Nat.mul_pos ih (by decide)

/-- A single group always fits, unless it is the last that may be taken. -/
theorem lt_limit {w : Width} {n : Nat} (hn : n < 128) {k : Nat} (hlast : k = 0 → n < w.lastLimit) :
    n < w.limit k := by
  cases k with
  | zero => exact hlast rfl
  | succ k =>
    have hpos := w.limit_pos k
    rw [limit]
    omega

end Width

/-- Why no number was read. -/
inductive Failure where
  | buffer (e : BufferError)
  /-- The last group holds bits that the number has no room for. -/
  | overflow (w : Width)
  /-- The last group says that another one follows. -/
  | tooLong (w : Width)
  deriving DecidableEq, Repr

/-- Reads on when `left` groups may still follow and those before make `sum`, each group weighing
`scale` times what the first did. -/
def readGroups (w : Width) : (left scale sum : Nat) → Step Failure Cursor Nat
  | 0, _, _ => throw (.tooLong w)
  | left + 1, scale, sum => do
    let b ← EStateM.adaptExcept Failure.buffer Cursor.uint8
    if left = 0 ∧ w.lastLimit ≤ b.toNat then
      throw (.overflow w)
    let sum := sum + scale * (b.toNat % 128)
    if b.toNat < 128 then
      return sum
    readGroups w left (128 * scale) sum

/-- A number in at most as many groups as its width allows. -/
def read (w : Width) : Step Failure Cursor Nat := readGroups w w.groups 1 0

theorem encode_of_lt {n : Nat} (h : n < 128) : encode n = [UInt8.ofNat n] := by
  rw [encode, if_pos h]

theorem encode_of_le {n : Nat} (h : 128 ≤ n) :
    encode n = UInt8.ofNat (n % 128 + 128) :: encode (n / 128) := by
  rw [encode, if_neg (by omega)]

/-- One step of the decoder on the byte `b`: a byte below 128 closes the number, any other adds its
low seven bits and asks for the next group. Only the last group has a bound of its own. -/
theorem readGroups_succ {w : Width} {k scale sum : Nat} {c : Cursor} {b : UInt8} {rest : List UInt8}
    (h : c.left = b :: rest) (hlast : k = 0 → b.toNat < w.lastLimit) :
    readGroups w (k + 1) scale sum c =
      if b.toNat < 128 then .ok (sum + scale * (b.toNat % 128)) (c.advance 1)
      else readGroups w k (128 * scale) (sum + scale * (b.toNat % 128)) (c.advance 1) := by
  have hcond : ¬ (k = 0 ∧ w.lastLimit ≤ b.toNat) := by
    rintro ⟨hk, hle⟩
    exact absurd (hlast hk) (Nat.not_lt.2 hle)
  rw [readGroups, Step.bind_apply, Step.adaptExcept_apply, Cursor.uint8_eq_ok h]
  simp only [hcond, if_false]
  split <;> rfl

/-- The groups make the number; every one but the last has its high bit set. -/
inductive Spells : List UInt8 → Nat → Prop
  | last {b : UInt8} : b.toNat < 128 → Spells [b] b.toNat
  | more {b : UInt8} {groups : List UInt8} {n : Nat} : 128 ≤ b.toNat → Spells groups n →
    Spells (b :: groups) (b.toNat % 128 + 128 * n)

theorem Spells.ne_nil {groups : List UInt8} {n : Nat} (h : Spells groups n) : groups ≠ [] := by
  cases h with
  | last | more => exact List.cons_ne_nil _ _

/-- The encoder writes a spelling of its number. -/
theorem spells_encode (n : Nat) : Spells (encode n) n := by
  induction n using Nat.strongRecOn with
  | ind n ih =>
    by_cases hlt : n < 128
    · have hb : (UInt8.ofNat n).toNat = n := by
        rw [UInt8.toNat_ofNat', Nat.mod_eq_of_lt (by omega)]
      have h : Spells [UInt8.ofNat n] (UInt8.ofNat n).toNat := .last (by rwa [hb])
      rwa [encode_of_lt hlt, ← hb, UInt8.ofNat_toNat]
    · have hb : (UInt8.ofNat (n % 128 + 128)).toNat = n % 128 + 128 := by
        rw [UInt8.toNat_ofNat', Nat.mod_eq_of_lt (by omega)]
      have h := Spells.more (b := UInt8.ofNat (n % 128 + 128)) (by omega) (ih (n / 128) (by omega))
      rwa [hb, Nat.add_mod_right, Nat.mod_mod, Nat.mod_add_div, ← encode_of_le (by omega)] at h

/-- A number below the limit of `k + 1` groups takes at most `k + 1` bytes. -/
theorem length_encode_le {w : Width} (hw : w.lastLimit ≤ 128) {k n : Nat} (hn : n < w.limit k) :
    (encode n).length ≤ k + 1 := by
  induction k generalizing n with
  | zero =>
    rw [encode_of_lt (Nat.lt_of_lt_of_le hn hw)]
    exact Nat.le_refl _
  | succ k ih =>
    by_cases hlt : n < 128
    · rw [encode_of_lt hlt]
      exact Nat.succ_le_succ (Nat.zero_le _)
    · rw [encode_of_le (by omega)]
      exact Nat.succ_le_succ (ih ((Nat.div_lt_iff_lt_mul (by decide)).2 hn))

/-- However a number is spelled, as long as it is not longer than the width allows. -/
theorem readGroups_spells {w : Width} {groups : List UInt8} {n : Nat} (h : Spells groups n)
    {k scale sum : Nat} (hlen : groups.length ≤ k + 1) (hn : n < w.limit k) {c : Cursor}
    {rest : List UInt8} (hc : c.left = groups ++ rest) :
    readGroups w (k + 1) scale sum c = .ok (sum + scale * n) (c.advance groups.length) := by
  induction h generalizing k scale sum c with
  | last hb =>
    rw [readGroups_succ hc (by rintro rfl; exact hn), if_pos hb, Nat.mod_eq_of_lt hb]
    rfl
  | @more b groups n hb hgroups ih =>
    obtain _ | k := k
    · have := List.length_pos_iff.2 hgroups.ne_nil
      rw [List.length_cons] at hlen
      omega
    · rw [Width.limit] at hn
      have hleft : (c.advance 1).left = groups ++ rest := by
        rw [Cursor.left_advance, hc]
        rfl
      have hsum : sum + scale * (b.toNat % 128) + 128 * scale * n =
          sum + scale * (b.toNat % 128 + 128 * n) := by
        rw [Nat.mul_add, Nat.add_assoc, Nat.mul_comm 128 scale, Nat.mul_assoc]
      rw [readGroups_succ hc (by simp), if_neg (by omega),
        ih (Nat.le_of_succ_le_succ hlen) (by omega) hleft, hsum]
      simp only [Cursor.advance, List.length_cons, Nat.add_assoc, Nat.add_comm 1]

/-- Every spelling that fits the width, minimal or not, is read as its number. -/
theorem read_spells {w : Width} {groups : List UInt8} {n : Nat} (h : Spells groups n)
    (hlen : groups.length ≤ w.groups) (hn : n < w.limit (w.groups - 1)) {c : Cursor}
    {rest : List UInt8} (hc : c.left = groups ++ rest) :
    read w c = .ok n (c.advance groups.length) := by
  have hpos := List.length_pos_iff.2 h.ne_nil
  obtain ⟨k, hk⟩ : ∃ k, w.groups = k + 1 := ⟨w.groups - 1, by omega⟩
  rw [hk, Nat.add_sub_cancel] at hn
  rw [read, hk, readGroups_spells h (by omega) hn hc, Nat.zero_add, Nat.one_mul]

/-- What the encoder writes is read back, whatever follows it. -/
theorem read_encode {w : Width} (hw : w.lastLimit ≤ 128) (hg : 0 < w.groups) {n : Nat} {c : Cursor}
    {rest : List UInt8} (hn : n < w.limit (w.groups - 1))
    (h : c.left = encode n ++ rest) :
    read w c = .ok n (c.advance (encode n).length) := by
  have hlen := length_encode_le hw hn
  exact read_spells (spells_encode n) (by omega) hn h

/-- Decoding of 32-bit numbers undoes their encoding. -/
theorem read_short {n : Nat} {c : Cursor} {rest : List UInt8} (hn : n < Word.size 4)
    (h : c.left = encode n ++ rest) : read short c = .ok n (c.advance (encode n).length) :=
  read_encode (by decide) (by decide) hn h

/-- Decoding of 64-bit numbers undoes their encoding. -/
theorem read_long {n : Nat} {c : Cursor} {rest : List UInt8} (hn : n < Word.size 8)
    (h : c.left = encode n ++ rest) : read long c = .ok n (c.advance (encode n).length) :=
  read_encode (by decide) (by decide) hn h

/-- Zero, minus one, one, minus two and so on become zero, one, two, three. -/
def zigzag (n : Int) : Nat := if 0 ≤ n then 2 * n.toNat else 2 * (-n).toNat - 1

/-- The number that was folded: even numbers stand for those from zero on and odd ones for the
negative ones. -/
def unzigzag (n : Nat) : Int := if n % 2 = 0 then n / 2 else -(n / 2) - 1

/-- Zig-zag folding loses no integer. -/
theorem unzigzag_zigzag (n : Int) : unzigzag (zigzag n) = n := by
  unfold zigzag unzigzag
  split <;> split <;> omega

/-- Zig-zag folding reaches every natural number. -/
theorem zigzag_unzigzag (n : Nat) : zigzag (unzigzag n) = n := by
  unfold zigzag unzigzag
  split <;> split <;> omega

end Wireform.Varint
