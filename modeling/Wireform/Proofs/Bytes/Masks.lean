import Mathlib.Algebra.Group.Nat.Defs
import Wireform.Bytes.Masks

/-!
# Masks and shifts as arithmetic

Masks and shifts of a word are remainders and quotients of its number, and a bitwise sum of parts
that have no bit in common is their sum. So the groups of a word are those of its number
(`encodeWord_eq`), no bit of what is read is lost (`toNat_readWord`), and a sign is folded away as
it is with unbounded numbers (`toNat_zigzagWord`).
-/

namespace Wireform.Varint

/-! ## Masks -/

theorem toNat_mask {j k : Nat} (hj : j ≤ k) : (BitVec.ofNat k (2 ^ j - 1)).toNat = 2 ^ j - 1 := by
  have hpow := Nat.pow_le_pow_right (n := 2) (by decide) hj
  have hpos := Nat.two_pow_pos j
  rw [BitVec.toNat_ofNat, Nat.mod_eq_of_lt (by omega)]

/-- Masking by the `j` low bits is the remainder by `2 ^ j`. -/
theorem toNat_and_mask {j k : Nat} (hj : j ≤ k) (x : BitVec k) :
    (x &&& BitVec.ofNat k (2 ^ j - 1)).toNat = x.toNat % 2 ^ j := by
  rw [BitVec.toNat_and, toNat_mask hj, Nat.and_two_pow_sub_one_eq_mod]

/-- Nothing stands above the lowest `j` bits just if the number is less than `2 ^ j`. -/
theorem and_not_mask_eq_zero {j k : Nat} (hj : j ≤ k) (x : BitVec k) :
    x &&& ~~~BitVec.ofNat k (2 ^ j - 1) = 0#k ↔ x.toNat < 2 ^ j := by
  have hlow := toNat_and_mask hj x
  generalize BitVec.ofNat k (2 ^ j - 1) = mask at hlow ⊢
  constructor
  · intro h
    have hsplit : (x &&& mask) ||| (x &&& ~~~mask) = x := by
      rw [← BitVec.and_or_distrib_left, BitVec.or_not_self, BitVec.and_allOnes]
    rw [h, BitVec.or_zero] at hsplit
    rw [hsplit] at hlow
    have hlt := Nat.mod_lt x.toNat (Nat.two_pow_pos j)
    omega
  · intro h
    have heq : x &&& mask = x := by
      apply BitVec.eq_of_toNat_eq
      rw [hlow, Nat.mod_eq_of_lt h]
    rw [← heq, BitVec.and_assoc, BitVec.and_not_self]
    exact BitVec.and_zero

/-- A marked group is its seven low bits, plus 128. -/
theorem toNat_group {k : Nat} (hk : 8 ≤ k) (x : BitVec k) :
    ((x &&& 0x7f#k ||| 0x80#k).setWidth 8).toNat = x.toNat % 128 + 128 := by
  have hlow : (x &&& 0x7f#k).toNat = x.toNat % 2 ^ 7 := toNat_and_mask (j := 7) (by omega) x
  have hmark : (0x80#k).toNat = 2 ^ 7 * 1 := by
    have hpow := Nat.pow_le_pow_right (n := 2) (by decide) hk
    have hofNat := BitVec.toNat_ofNat 128 k
    rw [Nat.mod_eq_of_lt (by omega)] at hofNat
    exact hofNat
  have hlt : x.toNat % 2 ^ 7 < 2 ^ 7 := Nat.mod_lt _ (by decide)
  rw [BitVec.toNat_setWidth, BitVec.toNat_or, hlow, hmark, Nat.or_comm,
    ← Nat.two_pow_add_eq_or_of_lt hlt]
  omega

/-- The masked groups of a word are those of its number. -/
theorem encodeWord_eq {k : Nat} (hk : 8 ≤ k) (x : BitVec k) : encodeWord x = encode x.toNat := by
  fun_induction encodeWord x with
  | case1 x hmask =>
    have hlt := (and_not_mask_eq_zero (j := 7) (by omega) x).1 hmask
    rw [encode_of_lt hlt]
    congr 1
    apply UInt8.toNat_inj.1
    simp
  | case2 x hmask ih =>
    have hle := Nat.le_of_not_lt (mt (and_not_mask_eq_zero (j := 7) (by omega) x).2 hmask)
    rw [encode_of_le hle, ih, BitVec.toNat_ushiftRight, Nat.shiftRight_eq_div_pow]
    congr 1
    apply UInt8.toNat_inj.1
    rw [UInt8.toNat_ofBitVec, toNat_group hk, UInt8.toNat_ofNat']
    omega

/-! ## Reading -/

/-- The groups fill the word, and all but the last fit whole. -/
structure Width.Regular (w : Width) : Prop where
  pos : 0 < w.groups
  fits : 7 * (w.groups - 1) ≤ w.bits
  fills : w.bits ≤ 7 * w.groups

theorem regular_short : short.Regular := ⟨by decide, by decide, by decide⟩

theorem regular_long : long.Regular := ⟨by decide, by decide, by decide⟩

namespace Width.Regular

variable {w : Width}

theorem lastLimit_eq (w : Width) : w.lastLimit = 2 ^ (w.bits - 7 * (w.groups - 1)) :=
  Nat.one_shiftLeft _

theorem lastLimit_le (hw : w.Regular) : w.lastLimit ≤ 128 := by
  have hfills := hw.fills
  rw [lastLimit_eq]
  exact Nat.pow_le_pow_right (n := 2) (by decide) (show _ ≤ 7 by omega)

/-- The test on the last group asks for no bit above the width. -/
theorem and_excess_eq_zero (hw : w.Regular) (b : UInt8) :
    b &&& w.excess = 0 ↔ b.toNat < w.lastLimit := by
  have hfills := hw.fills
  have hmask := and_not_mask_eq_zero (j := w.bits - 7 * (w.groups - 1)) (by omega) b.toBitVec
  rw [← lastLimit_eq] at hmask
  refine Iff.trans ?_ hmask
  rw [← UInt8.toBitVec_inj]
  rfl

end Width.Regular

/-- The continuation bit is the one of weight 128. -/
theorem and_mark_eq_zero (b : UInt8) : b &&& 0x80 = 0 ↔ b.toNat < 128 := by
  have hmask := and_not_mask_eq_zero (j := 7) (by decide) b.toBitVec
  refine Iff.trans ?_ hmask
  rw [← UInt8.toBitVec_inj]
  rfl

/-- A group that fits above a sum is added to it. -/
theorem toNat_or_group {k shift : Nat} {sum : BitVec k} {b : UInt8} (hsum : sum.toNat < 2 ^ shift)
    (hroom : 2 ^ shift * (b.toNat % 128) < 2 ^ k) :
    (sum ||| (b &&& 0x7f).toBitVec.setWidth k <<< shift).toNat =
      sum.toNat + 2 ^ shift * (b.toNat % 128) := by
  have hlow : (b &&& 0x7f).toBitVec.toNat = b.toNat % 128 :=
    toNat_and_mask (j := 7) (by decide) b.toBitVec
  have hlt : b.toNat % 128 < 2 ^ k :=
    Nat.lt_of_le_of_lt (Nat.le_mul_of_pos_left _ (Nat.two_pow_pos shift)) hroom
  rw [BitVec.toNat_or, BitVec.toNat_shiftLeft, BitVec.toNat_setWidth, hlow, Nat.mod_eq_of_lt hlt,
    Nat.shiftLeft_eq, Nat.mul_comm, Nat.mod_eq_of_lt hroom, Nat.or_comm,
    ← Nat.two_pow_add_eq_or_of_lt hsum, Nat.add_comm]

/-- There is room for a group that may be the last one, or that others may follow. -/
theorem Width.Regular.room {w : Width} (hw : w.Regular) {left shift : Nat} {b : UInt8}
    (hshift : shift + 7 * (left + 1) = 7 * w.groups) (hlast : left = 0 → b.toNat < w.lastLimit) :
    2 ^ shift * (b.toNat % 128) < 2 ^ w.bits := by
  have hfits := hw.fits
  have hgroup : b.toNat % 128 < 2 ^ (w.bits - shift) := by
    rcases Nat.eq_zero_or_pos left with rfl | hpos
    · have hlimit := lastLimit_eq w
      rw [show 7 * (w.groups - 1) = shift by omega] at hlimit
      rw [← hlimit]
      exact Nat.lt_of_le_of_lt (Nat.mod_le _ _) (hlast rfl)
    · have hpow := Nat.pow_le_pow_right (n := 2) (by decide) (show 7 ≤ w.bits - shift by omega)
      exact Nat.lt_of_lt_of_le (Nat.mod_lt _ (by decide)) hpow
  calc
    2 ^ shift * (b.toNat % 128) < 2 ^ shift * 2 ^ (w.bits - shift) :=
      Nat.mul_lt_mul_of_pos_left hgroup (Nat.two_pow_pos shift)
    _ = 2 ^ w.bits := by
      rw [← Nat.pow_add]
      congr 1
      omega

/-- No bit of a sum is lost: the word stands for the number that is read. -/
theorem toNat_readWordFrom {w : Width} (hw : w.Regular) {left shift : Nat} {sum : BitVec w.bits}
    (hshift : shift + 7 * left = 7 * w.groups) (hsum : sum.toNat < 2 ^ shift) :
    BitVec.toNat <$> readWordFrom w left shift sum = readGroups w left (2 ^ shift) sum.toNat := by
  induction left generalizing shift sum with
  | zero => rfl
  | succ left ih =>
    funext c
    rw [Step.map_apply, readWordFrom, readGroups, Step.bind_apply, Step.bind_apply,
      Step.adaptExcept_apply]
    cases Cursor.uint8 c with
    | error e c' => rfl
    | ok b c' =>
      have hexcess : ¬ b &&& w.excess = 0 ↔ w.lastLimit ≤ b.toNat := by
        rw [hw.and_excess_eq_zero, Nat.not_lt]
      dsimp only
      simp only [hexcess, and_mark_eq_zero]
      by_cases hover : left = 0 ∧ w.lastLimit ≤ b.toNat
      · rw [if_pos hover, if_pos hover]
        rfl
      · have hroom := hw.room (b := b) hshift fun hleft =>
          Nat.lt_of_not_le fun hle => hover ⟨hleft, hle⟩
        have hput := toNat_or_group hsum hroom
        by_cases hb : b.toNat < 128
        · simp only [if_neg hover, if_pos hb]
          rw [← hput]
          rfl
        · have hnext : sum.toNat + 2 ^ shift * (b.toNat % 128) < 2 ^ (shift + 7) := by
            have hmod : b.toNat % 128 < 128 := Nat.mod_lt b.toNat (by decide)
            have hgroup := Nat.mul_le_mul_left (2 ^ shift) hmod
            rw [Nat.mul_succ] at hgroup
            rw [Nat.pow_add]
            omega
          rw [← hput] at hnext
          have hrest := ih (by omega) hnext
          rw [Nat.pow_add, Nat.mul_comm, hput] at hrest
          simp only [if_neg hover, if_neg hb]
          exact congrFun hrest c'

/-- The decoder by masks and shifts reads the numbers of the decoder by remainders. -/
theorem toNat_readWord {w : Width} (hw : w.Regular) : BitVec.toNat <$> readWord w = read w :=
  toNat_readWordFrom hw (Nat.zero_add _) (Nat.one_pos)

/-! ## Signs -/

/-- What is shifted in from the left are copies of the sign. -/
theorem sshiftRight_sign (x : BitVec 64) :
    x.sshiftRight 63 = if 2 ^ 63 ≤ x.toNat then ~~~0#64 else 0#64 := by
  have hlt := x.isLt
  have hmsb := BitVec.msb_eq_decide x
  split
  · next hneg =>
    have hzero : ~~~x >>> 63 = 0#64 := by
      apply BitVec.eq_of_toNat_eq
      rw [BitVec.toNat_ushiftRight, BitVec.toNat_not, Nat.shiftRight_eq_div_pow]
      simp only [BitVec.toNat_zero]
      omega
    rw [BitVec.sshiftRight_eq_of_msb_true (hmsb.trans (decide_eq_true hneg)), hzero]
  · next hpos =>
    rw [BitVec.sshiftRight_eq_of_msb_false (hmsb.trans (decide_eq_false hpos))]
    apply BitVec.eq_of_toNat_eq
    rw [BitVec.toNat_ushiftRight, Nat.shiftRight_eq_div_pow]
    simp only [BitVec.toNat_zero]
    omega

theorem xor_not_zero (x : BitVec 64) : x ^^^ ~~~0#64 = ~~~x := by
  rw [BitVec.not_zero, BitVec.xor_allOnes]

/-- On machine words the folding computes what it does on integers. -/
theorem toNat_zigzagWord (n : Int64) : (zigzagWord n).toNat = zigzag n.toInt := by
  have hbits : (zigzagWord n).toBitVec = n.toBitVec <<< 1 ^^^ n.toBitVec.sshiftRight 63 := by
    simp [zigzagWord]
  have hlt := n.toBitVec.isLt
  have htoInt : n.toInt = _ := BitVec.toInt_eq_toNat_cond n.toBitVec
  rw [← UInt64.toNat_toBitVec, hbits, sshiftRight_sign, zigzag, htoInt]
  split
  · next hneg =>
    rw [xor_not_zero, BitVec.toNat_not, BitVec.toNat_shiftLeft, Nat.shiftLeft_eq]
    split <;> split <;> omega
  · next hpos =>
    rw [BitVec.xor_zero, BitVec.toNat_shiftLeft, Nat.shiftLeft_eq]
    split <;> split <;> omega

/-- On machine words the unfolding computes what it does on integers. -/
theorem toInt_unzigzagWord (x : UInt64) : (unzigzagWord x).toInt = unzigzag x.toNat := by
  have hbits : (unzigzagWord x).toBitVec = x.toBitVec >>> 1 ^^^ -(x.toBitVec &&& 1#64) := by
    simp [unzigzagWord]
  have hlow : (x.toBitVec &&& 1#64).toNat = x.toNat % 2 := by
    rw [BitVec.toNat_and]
    exact Nat.and_two_pow_sub_one_eq_mod x.toNat 1
  have hhalf : (x.toBitVec >>> 1).toNat = x.toNat / 2 := by
    rw [BitVec.toNat_ushiftRight, Nat.shiftRight_eq_div_pow]
    rfl
  have hlt := x.toNat_lt
  have htoInt : (unzigzagWord x).toInt = _ := BitVec.toInt_eq_toNat_cond (unzigzagWord x).toBitVec
  rw [htoInt, hbits, unzigzag]
  rcases Nat.mod_two_eq_zero_or_one x.toNat with heven | hodd
  · have hzero : x.toBitVec &&& 1#64 = 0#64 := BitVec.eq_of_toNat_eq (hlow.trans heven)
    rw [hzero, BitVec.neg_zero, BitVec.xor_zero, hhalf, if_pos heven, if_pos (by omega)]
    rfl
  · have hone : x.toBitVec &&& 1#64 = 1#64 := BitVec.eq_of_toNat_eq (hlow.trans hodd)
    have hneg : -1#64 = ~~~0#64 := rfl
    rw [hone, hneg, xor_not_zero, BitVec.toNat_not, hhalf, if_neg (by omega), if_neg (by omega)]
    omega

end Wireform.Varint
