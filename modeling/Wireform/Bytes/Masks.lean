import Wireform.Bytes.Varint

/-!
# Numbers of varying length, as a machine computes them

A number stands in a word of as many bits as its width has. Its groups are cut off by masks and
shifts, and they are put back by shifts and bitwise sums, so that bits can get lost at the upper end
of the word. Main statement: what is left of a word behind a group gets less, so that the groups
come to an end (`toNat_shift_lt`).
-/

namespace Wireform.Varint

/-- What is left of a word without its lowest seven bits gets less. -/
theorem toNat_shift_lt {k : Nat} {x : BitVec k} (h : ¬ x &&& ~~~0x7f#k = 0#k) :
    (x >>> 7).toNat < x.toNat := by
  have hpos : x.toNat ≠ 0 := by
    intro hzero
    obtain rfl := BitVec.eq_of_toNat_eq (y := 0#k) hzero
    exact h BitVec.zero_and
  rw [BitVec.toNat_ushiftRight, Nat.shiftRight_eq_div_pow]
  omega

/-- The groups of a word: its lowest seven bits, as long as there are bits above them. -/
def encodeWord {k : Nat} (x : BitVec k) : List UInt8 :=
  if x &&& ~~~0x7f#k = 0#k then [UInt8.ofBitVec (x.setWidth 8)]
  else UInt8.ofBitVec ((x &&& 0x7f#k ||| 0x80#k).setWidth 8) :: encodeWord (x >>> 7)
termination_by x.toNat
decreasing_by exact toNat_shift_lt ‹_›

/-- The bits of the last group for which the word has no room. -/
def Width.excess (w : Width) : UInt8 := ~~~UInt8.ofNat (w.lastLimit - 1)

example : short.excess = 0xf0 ∧ long.excess = 0xfe := by decide

/-- Reads on when `left` groups may still follow and those before make `sum`. -/
def readWordFrom (w : Width) :
    (left shift : Nat) → BitVec w.bits → Step Failure Cursor (BitVec w.bits)
  | 0, _, _ => throw (.tooLong w)
  | left + 1, shift, sum => do
    let b ← EStateM.adaptExcept Failure.buffer Cursor.uint8
    if left = 0 ∧ b &&& w.excess ≠ 0 then
      throw (.overflow w)
    let sum := sum ||| (b &&& 0x7f).toBitVec.setWidth w.bits <<< shift
    if b &&& 0x80 = 0 then
      return sum
    readWordFrom w left (shift + 7) sum

/-- The groups of a word, as many as its width allows. -/
def readWord (w : Width) : Step Failure Cursor (BitVec w.bits) := readWordFrom w w.groups 0 0

/-- The sign is moved to the lowest bit, and the others are turned over if it is set. -/
def zigzagWord (n : Int64) : UInt64 := (n <<< 1 ^^^ n >>> 63).toUInt64

/-- The folding undone: all bits are inverted if the lowest is set, and that one is dropped. -/
def unzigzagWord (x : UInt64) : Int64 := (x >>> 1).toInt64 ^^^ -(x &&& 1).toInt64

/-- A folded word in its groups. -/
def encodeSigned (n : Int64) : List UInt8 := encodeWord (zigzagWord n).toBitVec

/-- A word in groups, unfolded. -/
def readSigned : Step Failure Cursor Int64 :=
  (fun x => unzigzagWord (UInt64.ofNat x.toNat)) <$> readWord long

end Wireform.Varint
