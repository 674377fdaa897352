import Wireform.Json.Draft
import Wireform.Proofs.Json.Grammar

/-!
# Compact spellings

Every tree whose numbers are numbers has a spelling without blanks, in which no more is escaped than
has to be: `Tree.compact`. Main statement: it is a spelling of the tree in any dialect, whatever
follows it (`value_compact`).
-/

namespace Wireform.Json

namespace Tree

/-- What stands in front of an element or member. -/
def comma (first : Bool) : List Char := if first then [] else [',']

mutual

/-- The spelling of a tree without any blanks, which is the one that a draft writes. -/
def compact : Tree → List Char
  | null => ['n', 'u', 'l', 'l']
  | bool b => if b then ['t', 'r', 'u', 'e'] else ['f', 'a', 'l', 's', 'e']
  | number spelling => spelling.toList
  | string s => Quoted.encode s
  | array items => '[' :: compactItems true items ++ [']']
  | object members => '\x7b' :: compactMembers true members ++ ['\x7d']

def compactItems : (first : Bool) → List Tree → List Char
  | _, [] => []
  | first, t :: rest => comma first ++ compact t ++ compactItems false rest

def compactMembers : (first : Bool) → List (String × Tree) → List Char
  | _, [] => []
  | first, (name, t) :: rest =>
    comma first ++ (Quoted.encode name ++ ':' :: compact t) ++ compactMembers false rest

end

/-- All the numbers in a tree are spelled as numbers. -/
def Spelled (t : Tree) : Prop := ∀ w, (number w).Within t → Grammar.Number w.toList

end Tree

namespace Grammar

variable {d : Dialect} {t : Tree} {s : String}

/-! ## Numbers -/

/-- No number but zero is written with a leading zero. -/
theorem eq_zero_of_head?_ofNat {n : Nat} (h : (Decimal.ofNat n).head? = some '0') : n = 0 := by
  induction n using Nat.strongRecOn with
  | ind n ih =>
    by_cases hn : n < 10
    · rw [Decimal.ofNat, Nat.toDigits_of_lt_base hn] at h
      exact Nat.digitChar_eq_zero.1 (Option.some.inj h)
    · have hsplit := Nat.toDigits_append_toDigits (b := 10) (n := n / 10) (d := n % 10)
        (by omega) (by omega) (by omega)
      rw [Nat.div_add_mod] at hsplit
      obtain ⟨c, cs, hcs⟩ := List.exists_cons_of_ne_nil (Decimal.ofNat_ne_nil (n / 10))
      rw [Decimal.ofNat, ← hsplit, ← Decimal.ofNat, hcs] at h
      have hzero := ih (n / 10) (by omega) (hcs ▸ h)
      omega

theorem whole_ofNat (n : Nat) : Whole (Decimal.ofNat n) := by
  refine ⟨⟨Decimal.ofNat_ne_nil n, List.all_eq_true.1 (Decimal.all_isDigit_ofNat n)⟩, fun h => ?_⟩
  rw [eq_zero_of_head?_ofNat h]
  exact Nat.toDigits_zero 10

/-- Integers are written as numbers of the grammar. -/
theorem number_ofInt (n : Int) : Number (Decimal.ofInt n) := by
  have hnumber {sign : List Char} (hsign : Sign ['-'] sign) (k : Nat) :
      Number (sign ++ Decimal.ofNat k) := by
    simpa using Number.mk hsign (whole_ofNat k) .none .none
  cases n with
  | ofNat k => exact hnumber .none k
  | negSucc k => exact hnumber (.some (List.mem_singleton_self _)) (k + 1)

/-- A zero is spelled without a sign. -/
theorem text_ne_negZero (n : Int) : Decimal.text n ≠ "-0" := by
  intro h
  have hchars : Decimal.ofInt n = ['-', '0'] := by
    rw [← String.toList_ofList (l := Decimal.ofInt n)]
    exact congrArg String.toList h
  cases n with
  | ofNat k =>
    have hdigit := Decimal.all_isDigit_ofNat k
    rw [show Decimal.ofNat k = _ from hchars] at hdigit
    cases hdigit
  | negSucc k =>
    have hzero : Decimal.ofNat (k + 1) = ['0'] := (List.cons.inj hchars).2
    exact Nat.succ_ne_zero k (eq_zero_of_head?_ofNat (hzero ▸ rfl))

/-! ## Texts -/

theorem hexDigit?_digitChar : ∀ n < 16, Quoted.hexDigit? (Nat.digitChar n) = some n := by decide

/-- A character is escaped as the grammar reads it. -/
theorem character_escaped (c : Char) : Character d c (Quoted.escaped c) := by
  unfold Quoted.escaped
  iterate 7
    split
    · next h =>
      rw [h]
      exact .short rfl
  split
  · next h =>
    have hzero : Quoted.hexDigit? '0' = some 0 := rfl
    have hunit := CodeUnit.digits (d := d) hzero hzero
      (hexDigit?_digitChar (c.toNat / 16) (by omega))
      (hexDigit?_digitChar (c.toNat % 16) (by omega))
    have hvalue : 16 * (16 * (16 * 0 + 0) + c.toNat / 16) + c.toNat % 16 = c.toNat := by omega
    rw [hvalue] at hunit
    have hcharacter := Character.unit hunit c.valid
    rwa [c.ofNat_toNat] at hcharacter
  · next hquote hbackslash _ _ _ _ _ h => exact .raw (Nat.le_of_not_lt h) hquote hbackslash

/-- Escaped characters in quotes are a string of the grammar. -/
theorem chars_encode (s rest : List Char) :
    Chars d s (s.flatMap Quoted.escaped ++ '"' :: rest) rest := by
  induction s with
  | nil => exact .close
  | cons c s ih =>
    rw [List.flatMap_cons, List.append_assoc]
    exact .cons (character_escaped c) ih

/-- A quoted name and a colon are a name of the grammar. -/
theorem name_encode (name : String) (cs rest : List Char) :
    Name d name ((Quoted.encode name ++ ':' :: cs) ++ rest) (cs ++ rest) := by
  rw [Quoted.encode, List.append_assoc, List.append_assoc]
  exact .mk .done (chars_encode _ _) .done .done

/-! ## Values -/

mutual

/-- The compact text of a tree spells that tree, whatever follows. -/
theorem value_compact : (t : Tree) → t.Spelled → (rest : List Char) →
    Value d t (t.compact ++ rest) rest
  | .null, _, _ => .null
  | .bool true, _, _ => .true
  | .bool false, _, _ => .false
  | .number w, h, rest => by
    have hvalue : Value d (.number (String.ofList w.toList)) (w.toList ++ rest) rest :=
      .number (h w .self)
    rwa [String.ofList_toList] at hvalue
  | .string s, _, rest => by
    rw [Tree.compact, Quoted.encode, List.append_assoc]
    exact .string (chars_encode _ _)
  | .array [], _, _ => .emptyArray .done
  | .array (t :: items), h, rest => by
    rw [Tree.compact, List.append_assoc]
    exact .array (elements_compact (t :: items) nofun (fun u hu w hw => h w (hw.item hu)) rest)
  | .object [], _, _ => .emptyObject .done
  | .object (member :: members), h, rest => by
    rw [Tree.compact, List.append_assoc]
    exact .object (members_compact (member :: members) nofun
      (fun name u hu w hw => h w (hw.member hu)) rest)

theorem elements_compact : (items : List Tree) → items ≠ [] → (∀ u ∈ items, u.Spelled) →
    (rest : List Char) → Elements d items (Tree.compactItems true items ++ ']' :: rest) rest
  | [], hne, _, _ => (hne rfl).elim
  | [t], _, h, rest => by
    have hvalue := value_compact t (h t List.mem_cons_self) (']' :: rest)
    rw [Tree.compactItems, Tree.compactItems, List.append_nil]
    exact .last .done hvalue .done
  | t :: u :: items, _, h, rest => by
    have hvalue := value_compact t (h t List.mem_cons_self)
      (',' :: Tree.compactItems true (u :: items) ++ ']' :: rest)
    have hrest := elements_compact (u :: items) nofun
      (fun v hv => h v (List.mem_cons_of_mem _ hv)) rest
    rw [Tree.compactItems, List.append_assoc]
    exact .cons .done hvalue .done hrest

theorem members_compact : (members : List (String × Tree)) → members ≠ [] →
    (∀ name u, (name, u) ∈ members → u.Spelled) → (rest : List Char) →
    Members d members (Tree.compactMembers true members ++ '\x7d' :: rest) rest
  | [], hne, _, _ => (hne rfl).elim
  | [(name, t)], _, h, rest => by
    have hvalue := value_compact t (h name t List.mem_cons_self) ('\x7d' :: rest)
    rw [Tree.compactMembers, Tree.compactMembers, List.append_nil]
    exact .last (name_encode name t.compact _) hvalue .done
  | (name, t) :: member :: members, _, h, rest => by
    have hvalue := value_compact t (h name t List.mem_cons_self)
      (',' :: Tree.compactMembers true (member :: members) ++ '\x7d' :: rest)
    have hrest := members_compact (member :: members) nofun
      (fun name u hu => h name u (List.mem_cons_of_mem _ hu)) rest
    rw [Tree.compactMembers, List.append_assoc]
    exact .cons (name_encode name t.compact _) hvalue .done hrest

end

/-- The compact spelling of a tree is a whole text. -/
theorem text_compact (h : t.Spelled) : Text d t t.compact := by
  have hvalue := value_compact (d := d) t h []
  rw [List.append_nil] at hvalue
  exact .mk .done hvalue .done

end Grammar

end Wireform.Json
