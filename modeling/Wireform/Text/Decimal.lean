/-!
# Whole numbers in decimal

The spelling of whole numbers used wherever one is shown: no leading zeros, and a minus sign in
front of a negative number. Main statement: reading back what was spelled gives the number.
-/

namespace Wireform.Decimal

/-- The digits of a natural number, without a superfluous zero. -/
def ofNat (n : Nat) : List Char := Nat.toDigits 10 n

/-- The spelling of an integer. -/
def ofInt : Int → List Char
  | .ofNat n => ofNat n
  | .negSucc n => '-' :: ofNat (n + 1)

/-- The spelling of an integer, as a text. -/
def text (n : Int) : String := String.ofList (ofInt n)

/-- The number that a row of digits spells, leading zeros allowed; nothing else is a number. -/
def nat? (cs : List Char) : Option Nat :=
  if cs ≠ [] ∧ cs.all Char.isDigit then some (Nat.ofDigitChars 10 cs 0) else none

/-- A plus sign in front is passed over. -/
def dropPlus : List Char → List Char
  | '+' :: cs => cs
  | cs => cs

/-- A row of digits, behind a plus sign or not, as an unsigned word of 32 bits, if it fits. -/
def uint32? (cs : List Char) : Option Nat := (nat? (dropPlus cs)).filter fun n => n < 1 <<< 32

/-- A minus sign may stand in front of the digits, also of a zero. -/
def int? : List Char → Option Int
  | '-' :: digits => (nat? digits).map fun n => -(n : Int)
  | digits => (nat? digits).map fun n => (n : Int)

/-- A number as a word of 32 bits, if it fits. -/
def int32? (n : Int) : Option Int32 :=
  if (Int32.ofInt n).toInt = n then some (Int32.ofInt n) else none

/-- A number as a word of 64 bits, if it fits. -/
def int64? (n : Int) : Option Int64 :=
  if (Int64.ofInt n).toInt = n then some (Int64.ofInt n) else none

/-- Every 32-bit integer is in range of the conversion. -/
theorem int32?_toInt (n : Int32) : int32? n.toInt = some n := by
  simp [int32?, Int32.ofInt_toInt]

/-- Every 64-bit integer is in range of the conversion. -/
theorem int64?_toInt (n : Int64) : int64? n.toInt = some n := by
  simp [int64?, Int64.ofInt_toInt]

theorem dropPlus_of_ne {c : Char} (h : c ≠ '+') (cs : List Char) : dropPlus (c :: cs) = c :: cs := by
  rw [dropPlus]
  simpa using h

/-- Numerals are made of digits only, so no sign is mistaken for a part of them. -/
theorem all_isDigit_ofNat (n : Nat) : (ofNat n).all Char.isDigit := by
  rw [List.all_eq_true]
  exact fun _ h => Nat.isDigit_of_mem_toDigits (by decide) (by decide) h

theorem ofNat_ne_nil (n : Nat) : ofNat n ≠ [] :=
  Nat.toDigits_ne_nil

/-- Numerals are read back. -/
theorem nat?_ofNat (n : Nat) : nat? (ofNat n) = some n := by
  rw [nat?, if_pos ⟨ofNat_ne_nil n, all_isDigit_ofNat n⟩]
  exact congrArg some Nat.ofDigitChars_ten_toDigits

/-- Without a sign an integer is read as the natural number of its digits. -/
theorem int?_of_all_isDigit {cs : List Char} (h : cs.all Char.isDigit) :
    int? cs = (nat? cs).map fun n => (n : Int) := by
  cases cs with
  | nil => rfl
  | cons c cs =>
    have hc : c ≠ '-' := by rintro rfl; simp at h
    rw [int?]
    simpa using hc

/-- Signed numerals are read back. -/
theorem int?_ofInt (n : Int) : int? (ofInt n) = some n := by
  cases n with
  | ofNat n => rw [ofInt, int?_of_all_isDigit (all_isDigit_ofNat n), nat?_ofNat]; rfl
  | negSucc n => simp only [ofInt, int?, nat?_ofNat]; rfl

end Wireform.Decimal
