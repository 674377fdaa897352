import Wireform.Binary.Decode
import Wireform.Binary.Encode
import Wireform.Proofs.Bytes.Masks

/-!
# Numbers in groups

What a number of varying length comes to is decided by the bytes in front of the cursor: by the
first of them that ends a number, if it stands early enough, and by the sum that the groups make up
to there (`read_spec`). So numbers are written in as few groups as hold them and are read back
whatever follows, nothing is read that does not fit, and nothing that fits is refused
(`words_exact`).
-/

namespace Wireform.Varint

variable {w : Width} {c : Cursor} {b : UInt8} {bytes rest : List UInt8} {n : Nat}

/-! ## Sums -/

/-- The number that groups make. Each weighs 128 times as much as the one before, and high bits do
not count. -/
def payload : List UInt8 → Nat
  | [] => 0
  | b :: groups => b.toNat % 128 + 128 * payload groups

/-- Whether a byte is the last of a number. -/
def ends (b : UInt8) : Bool := b < 0x80

theorem ends_iff : ends b ↔ b.toNat < 128 := by
  rw [ends, decide_eq_true_iff, UInt8.lt_iff_toNat_lt]
  rfl

/-! ## Reading -/

theorem readGroups_nil {k scale sum : Nat} (h : c.left = []) :
    readGroups w (k + 1) scale sum c = .error (.buffer .endOfBuffer) c := by
  rw [readGroups, Step.bind_apply, Step.adaptExcept_apply, Cursor.uint8_eq_error h]

/-- The last group is refused where it would carry bits beyond the width. -/
theorem readGroups_overflow {scale sum : Nat} (h : c.left = b :: rest)
    (hb : w.lastLimit ≤ b.toNat) :
    readGroups w 1 scale sum c = .error (.overflow w) (c.advance 1) := by
  rw [readGroups, Step.bind_apply, Step.adaptExcept_apply, Cursor.uint8_eq_ok h]
  simp only [hb, and_self, if_true]
  rfl

/-- The bytes up to the first that ends a number spell their sum. -/
theorem spells_of_findIdx? {i : Nat} (h : bytes.findIdx? ends = some i) :
    Spells (bytes.take (i + 1)) (payload (bytes.take (i + 1))) := by
  induction bytes generalizing i with
  | nil => cases h
  | cons b bytes ih =>
    rw [List.findIdx?_cons] at h
    rw [List.take_succ_cons, payload]
    by_cases hb : ends b
    · rw [if_pos hb] at h
      cases h
      have hlt := ends_iff.1 hb
      have hlast := Spells.last hlt
      rw [List.take_zero]
      simpa [payload, Nat.mod_eq_of_lt hlt] using hlast
    · rw [if_neg hb] at h
      obtain ⟨j, hj, rfl⟩ := Option.map_eq_some_iff.1 h
      exact .more (Nat.le_of_not_lt (mt ends_iff.2 hb)) (ih hj)

/-- A number that does not fit is refused by its last group. -/
theorem readGroups_of_limit_le {groups : List UInt8} (h : Spells groups n) {k scale sum : Nat}
    (hlen : groups.length ≤ k + 1) (hn : w.limit k ≤ n) (hc : c.left = groups ++ rest) :
    ∃ c', readGroups w (k + 1) scale sum c = .error (.overflow w) c' := by
  induction h generalizing k scale sum c with
  | @last b hb =>
    obtain _ | k := k
    · exact ⟨_, readGroups_overflow hc hn⟩
    · exact absurd hn (Nat.not_le.2 (Width.lt_limit hb (by simp)))
  | @more b groups n hb hgroups ih =>
    have hpos := List.length_pos_iff.2 hgroups.ne_nil
    rw [List.length_cons] at hlen
    obtain ⟨k, rfl⟩ : ∃ j, k = j + 1 := ⟨k - 1, by omega⟩
    rw [Width.limit] at hn
    rw [readGroups_succ hc (by simp), if_neg (by omega)]
    refine ih (by omega) (by omega) ?_
    rw [Cursor.left_advance, hc]
    rfl

/-- Where no group is the last the data end too early, or the last group that may be taken is no
end. -/
theorem readGroups_of_not_ends (hw : w.lastLimit ≤ 128) {k scale sum : Nat}
    (h : ∀ b ∈ c.left.take (k + 1), ¬ ends b) :
    ∃ c', readGroups w (k + 1) scale sum c =
      .error (if c.left.length < k + 1 then .buffer .endOfBuffer else .overflow w) c' := by
  induction k generalizing scale sum c with
  | zero =>
    cases hleft : c.left with
    | nil => exact ⟨c, readGroups_nil hleft⟩
    | cons b rest =>
      rw [hleft] at h
      have hb := Nat.le_of_not_lt (mt ends_iff.2 (h b List.mem_cons_self))
      exact ⟨_, readGroups_overflow hleft (Nat.le_trans hw hb)⟩
  | succ k ih =>
    cases hleft : c.left with
    | nil => exact ⟨c, readGroups_nil hleft⟩
    | cons b rest =>
      rw [hleft] at h
      have hb := Nat.le_of_not_lt (mt ends_iff.2 (h b List.mem_cons_self))
      have hrest : (c.advance 1).left = rest := by rw [Cursor.left_advance, hleft]; rfl
      rw [readGroups_succ hleft (by simp), if_neg (Nat.not_lt.2 hb)]
      have hmore : ∀ d ∈ (c.advance 1).left.take (k + 1), ¬ ends d := by
        intro d hd
        rw [hrest] at hd
        exact h d (List.mem_cons_of_mem _ hd)
      obtain ⟨c', hc'⟩ : ∃ c', readGroups w (k + 1) (128 * scale) (sum + scale * (b.toNat % 128))
          (c.advance 1) = .error _ c' := ih hmore
      rw [hrest] at hc'
      exact ⟨c', by simpa using hc'⟩

/-- All groups together hold exactly the numbers of the width. -/
theorem Width.Regular.limit_eq (hw : w.Regular) : w.limit (w.groups - 1) = 2 ^ w.bits := by
  have hlimit (k : Nat) : w.limit k = w.lastLimit * 2 ^ (7 * k) := by
    induction k with
    | zero => exact (Nat.mul_one _).symm
    | succ k ih => rw [Width.limit, ih, Nat.mul_assoc, Nat.mul_succ 7, Nat.pow_add 2]
  have hfits := hw.fits
  rw [hlimit, Width.Regular.lastLimit_eq, ← Nat.pow_add]
  congr 1
  omega

/-- What is made of the bytes in front of the cursor, as far as a number may reach. -/
theorem read_spec (hw : w.Regular) (c : Cursor) :
    match (c.left.take w.groups).findIdx? ends with
    | some i =>
      if payload (c.left.take (i + 1)) < 2 ^ w.bits then
        read w c = .ok (payload (c.left.take (i + 1))) (c.advance (i + 1))
      else ∃ c', read w c = .error (.overflow w) c'
    | none =>
      ∃ c', read w c =
        .error (if c.left.length < w.groups then .buffer .endOfBuffer else .overflow w) c' := by
  have hpos := hw.pos
  have hlimit := hw.limit_eq
  obtain ⟨k, hk⟩ : ∃ k, w.groups = k + 1 := ⟨w.groups - 1, by omega⟩
  rw [hk, Nat.add_sub_cancel] at hlimit
  rw [read, hk]
  cases hfind : (c.left.take (k + 1)).findIdx? ends with
  | none =>
    refine readGroups_of_not_ends hw.lastLimit_le fun b hb => ?_
    simpa using List.findIdx?_eq_none_iff.1 hfind b hb
  | some i =>
    obtain ⟨hi, -⟩ := List.findIdx?_eq_some_iff_getElem.1 hfind
    have hlt := hi
    rw [List.length_take] at hlt
    have htake : (c.left.take (k + 1)).take (i + 1) = c.left.take (i + 1) := by
      rw [List.take_take, Nat.min_eq_left (by omega)]
    have hspells := spells_of_findIdx? hfind
    have hlen : (c.left.take (i + 1)).length = i + 1 := by
      rw [List.length_take]
      omega
    have hsplit := (List.take_append_drop (i + 1) c.left).symm
    rw [htake] at hspells
    dsimp only
    split
    · next hfits =>
      rw [readGroups_spells hspells (by omega) (hlimit ▸ hfits) hsplit, hlen]
      simp
    · next hfits =>
      exact readGroups_of_limit_le hspells (by omega) (hlimit ▸ Nat.le_of_not_lt hfits) hsplit

/-! ## Writing -/

/-- As few groups as hold the number, and at least one. -/
theorem length_encode_le_iff {k : Nat} (hk : 0 < k) (n : Nat) :
    (encode n).length ≤ k ↔ n < 128 ^ k := by
  induction k generalizing n with
  | zero => cases hk
  | succ k ih =>
    by_cases hn : n < 128
    · have hpow : 128 ≤ 128 ^ (k + 1) := Nat.le_self_pow (Nat.succ_ne_zero k) 128
      rw [encode_of_lt hn]
      exact iff_of_true (Nat.le_add_left 1 k) (Nat.lt_of_lt_of_le hn hpow)
    · rw [encode_of_le (Nat.le_of_not_lt hn), List.length_cons, Nat.succ_le_succ_iff, Nat.pow_succ,
        ← Nat.div_lt_iff_lt_mul (by decide)]
      rcases Nat.eq_zero_or_pos k with rfl | hpos
      · have hne := List.length_pos_iff.2 (spells_encode (n / 128)).ne_nil
        rw [Nat.pow_zero]
        omega
      · exact ih hpos (n / 128)

/-! ## Words -/

/-- Words of a width are written and read exactly: in as few groups as hold them, back from these
whatever follows, and from any bytes as the sum of the groups up to the first that ends a number,
just if it stands early enough and the sum fits. -/
structure Exact (w : Width) : Prop where
  encodeWord_eq : ∀ x : BitVec w.bits, encodeWord x = encode x.toNat
  toNat_readWord : BitVec.toNat <$> readWord w = read w
  length_le_iff : ∀ (x : BitVec w.bits) (k : Nat), 0 < k →
    ((encodeWord x).length ≤ k ↔ x.toNat < 128 ^ k)
  readWord_encodeWord : ∀ (x : BitVec w.bits) (c : Cursor) (rest : List UInt8),
    c.left = encodeWord x ++ rest → readWord w c = .ok x (c.advance (encodeWord x).length)
  readWord_spec : ∀ c : Cursor,
    match (c.left.take w.groups).findIdx? ends with
    | some i =>
      if payload (c.left.take (i + 1)) < 2 ^ w.bits then
        readWord w c = .ok (BitVec.ofNat _ (payload (c.left.take (i + 1)))) (c.advance (i + 1)) ∧
          (BitVec.ofNat w.bits (payload (c.left.take (i + 1)))).toNat =
            payload (c.left.take (i + 1))
      else ∃ c', readWord w c = .error (.overflow w) c'
    | none =>
      ∃ c', readWord w c =
        .error (if c.left.length < w.groups then .buffer .endOfBuffer else .overflow w) c'

/-- The decoder on machine words succeeds where the one on natural numbers does, with the same
number and position. -/
theorem readWord_eq_ok (hw : w.Regular) {c' : Cursor} (h : read w c = .ok n c') :
    readWord w c = .ok (BitVec.ofNat w.bits n) c' := by
  rw [← toNat_readWord hw] at h
  obtain ⟨x, hx, rfl⟩ := Step.map_eq_ok.1 h
  rw [hx, BitVec.ofNat_toNat, BitVec.setWidth_eq]

/-- The decoder on machine words fails where the one on natural numbers does, with the same error.
-/
theorem readWord_eq_error (hw : w.Regular) {c' : Cursor} {e : Failure}
    (h : read w c = .error e c') :
    readWord w c = .error e c' := by
  rw [← toNat_readWord hw, Step.map_apply] at h
  cases hx : readWord w c with
  | ok x c₁ =>
    rw [hx] at h
    cases h
  | error e c₁ =>
    rw [hx] at h
    cases h
    rfl

theorem exact_of_regular (hw : w.Regular) (hbits : 8 ≤ w.bits) : Exact w where
  encodeWord_eq := encodeWord_eq hbits
  toNat_readWord := toNat_readWord hw
  length_le_iff x k hk := by rw [encodeWord_eq hbits, length_encode_le_iff hk]
  readWord_encodeWord x c rest hc := by
    have hlt : x.toNat < w.limit (w.groups - 1) := hw.limit_eq ▸ x.isLt
    rw [encodeWord_eq hbits] at hc ⊢
    rw [readWord_eq_ok hw (read_encode hw.lastLimit_le hw.pos hlt hc), BitVec.ofNat_toNat,
      BitVec.setWidth_eq]
  readWord_spec c := by
    have hspec := read_spec hw c
    revert hspec
    cases (c.left.take w.groups).findIdx? ends with
    | none => exact fun ⟨c', hread⟩ => ⟨c', readWord_eq_error hw hread⟩
    | some i =>
      dsimp only
      split
      · next hfits =>
        intro hread
        refine ⟨readWord_eq_ok hw hread, ?_⟩
        rw [BitVec.toNat_ofNat, Nat.mod_eq_of_lt hfits]
      · exact fun ⟨c', hread⟩ => ⟨c', readWord_eq_error hw hread⟩

/-! ## Signed words -/

/-- Folding by shift and exclusive or loses no 64-bit integer. -/
theorem unzigzagWord_zigzagWord (n : Int64) : unzigzagWord (zigzagWord n) = n := by
  apply Int64.toInt_inj.1
  rw [toInt_unzigzagWord, toNat_zigzagWord, unzigzag_zigzag]

/-- Folding by shift and exclusive or reaches every 64-bit word. -/
theorem zigzagWord_unzigzagWord (x : UInt64) : zigzagWord (unzigzagWord x) = x := by
  apply UInt64.toNat_inj.1
  rw [toNat_zigzagWord, toInt_unzigzagWord, zigzag_unzigzag]

/-- The folded word is spelled as the codec spells a long. -/
theorem encodeSigned_eq (n : Int64) : encodeSigned n = Binary.long n := by
  rw [encodeSigned, encodeWord_eq (by decide), Binary.long, ← toNat_zigzagWord]
  rfl

/-- The unfolded word is what the codec reads as a long. -/
theorem readSigned_eq (site : Site) :
    EStateM.adaptExcept (.ofVarint site) readSigned = Binary.readLong site := by
  funext c
  have hread := toNat_readWord regular_long
  have hsigned (x : BitVec long.bits) :
      unzigzagWord (UInt64.ofNat x.toNat) = Int64.ofInt (unzigzag x.toNat) := by
    have hnat : (UInt64.ofNat x.toNat).toNat = x.toNat := UInt64.toNat_ofNat_of_lt x.isLt
    rw [← hnat, ← toInt_unzigzagWord, Int64.ofInt_toInt, UInt64.ofNat_toNat]
  rw [Binary.readLong, Step.bind_apply, Binary.varint, ← hread, readSigned, Step.adaptExcept_apply,
    Step.adaptExcept_apply, Step.map_apply, Step.map_apply]
  cases readWord long c with
  | ok x c' => exact congrArg (EStateM.Result.ok · c') (hsigned x)
  | error e c' => rfl

/-- Unsigned words of both widths are exact, and so are signed ones: each of them comes back from
what is written, and every word that is read stands for just one of them. This is how magnitudes are
written and read. -/
theorem words_exact :
    Exact short ∧ Exact long ∧
    (∀ n, Binary.long n = encodeSigned n) ∧
    (∀ site, Binary.readLong site = EStateM.adaptExcept (.ofVarint site) readSigned) ∧
    (∀ (n : Int64) (c : Cursor) (rest : List UInt8), c.left = encodeSigned n ++ rest →
      readSigned c = .ok n (c.advance (encodeSigned n).length)) ∧
    ∀ (c : Cursor) (x : BitVec long.bits) (c' : Cursor), readWord long c = .ok x c' →
      ∃ n : Int64, readSigned c = .ok n c' ∧ (zigzagWord n).toNat = x.toNat ∧
        ∀ m : Int64, (zigzagWord m).toNat = x.toNat → m = n := by
  have hlong : Exact long := exact_of_regular regular_long (by decide)
  refine ⟨exact_of_regular regular_short (by decide), hlong, fun n => (encodeSigned_eq n).symm,
    fun site => (readSigned_eq site).symm, fun n c rest hc => ?_,
    fun c x c' hread => ⟨unzigzagWord (UInt64.ofNat x.toNat), ?_, ?_, fun m hm => ?_⟩⟩
  · have hword : readWord long c = .ok (zigzagWord n).toBitVec _ :=
      hlong.readWord_encodeWord (zigzagWord n).toBitVec c rest hc
    have hsigned : unzigzagWord (UInt64.ofNat (zigzagWord n).toNat) = n := by
      rw [UInt64.ofNat_toNat, unzigzagWord_zigzagWord]
    rw [readSigned, Step.map_apply, hword]
    exact congrArg (EStateM.Result.ok · _) hsigned
  · rw [readSigned, Step.map_apply, hread]
  · rw [zigzagWord_unzigzagWord]
    exact UInt64.toNat_ofNat_of_lt x.isLt
  · rw [← hm, UInt64.ofNat_toNat, unzigzagWord_zigzagWord]

end Wireform.Varint
