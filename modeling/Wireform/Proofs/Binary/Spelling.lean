import Wireform.Binary.Encode

/-!
# How records are spelled in binary

Only a number of varying length can be spelled in several ways, since groups of zeros may stand
behind those that hold its bits. So the bytes of a value are made of pieces, of which some are as
they have to be and the others spell a number: `Spelled` says which pieces make which value. With
each number in its least form the pieces get no longer, and they stay the same just if every number
was minimal (`flatMap_least_eq_iff`).
-/

namespace Wireform

namespace Varint

/-- Zero alone ends in a group of zeros. -/
def Minimal (groups : List UInt8) : Prop := groups.getLast? = some 0 → groups = [0]

instance (groups : List UInt8) : Decidable (Minimal groups) := inferInstanceAs (Decidable (_ → _))

variable {b : UInt8} {groups : List UInt8} {n : Nat}

theorem minimal_singleton (b : UInt8) : Minimal [b] := by
  intro h
  rw [List.getLast?_singleton, Option.some.injEq] at h
  rw [h]

/-- A spelling of several groups is minimal if its last group is not empty. -/
theorem minimal_cons (h : groups ≠ []) : Minimal (b :: groups) ↔ groups.getLast? ≠ some 0 := by
  obtain ⟨g, rest, rfl⟩ := List.exists_cons_of_ne_nil h
  rw [Minimal, List.getLast?_cons_cons]
  exact forall_congr' fun _ => iff_of_false (by simp) id

theorem length_encode_add_le {k : Nat} (hk : k < 128) (n : Nat) :
    (encode (k + 128 * n)).length ≤ (encode n).length + 1 := by
  by_cases h : k + 128 * n < 128
  · rw [encode_of_lt h]
    exact Nat.le_add_left _ _
  · have hdiv : (k + 128 * n) / 128 = n := by omega
    rw [encode_of_le (by omega), hdiv]
    exact Nat.le_refl _

/-- A minimal spelling is the one that is written. -/
theorem Spells.encode_eq (h : Spells groups n) (hmin : Minimal groups) : encode n = groups := by
  induction h with
  | @last b hb => rw [encode_of_lt hb, UInt8.ofNat_toNat]
  | @more b groups n hb hrest ih =>
    have hlast := (minimal_cons hrest.ne_nil).1 hmin
    have hencode := ih fun h => absurd h hlast
    have hpos : n ≠ 0 := by
      rintro rfl
      rw [← hencode, encode_of_lt (by omega)] at hlast
      exact hlast rfl
    have hlt := b.toNat_lt
    have hmod : (b.toNat % 128 + 128 * n) % 128 + 128 = b.toNat := by omega
    have hdiv : (b.toNat % 128 + 128 * n) / 128 = n := by omega
    rw [encode_of_le (by omega), hmod, hdiv, UInt8.ofNat_toNat, hencode]

/-- Every other spelling is longer. -/
theorem Spells.length_encode_lt (h : Spells groups n) (hmin : ¬ Minimal groups) :
    (encode n).length < groups.length := by
  induction h with
  | @last b hb => exact absurd (minimal_singleton b) hmin
  | @more b groups n hb hrest ih =>
    have hlast : groups.getLast? = some 0 :=
      Decidable.byContradiction fun h => hmin ((minimal_cons hrest.ne_nil).2 h)
    have hle := length_encode_add_le (Nat.mod_lt b.toNat (by decide : 0 < 128)) n
    rw [List.length_cons]
    by_cases hgroups : Minimal groups
    · obtain rfl := hgroups hlast
      have hzero : n = 0 := by
        cases hrest with
        | last => rfl
        | more _ h => exact absurd rfl h.ne_nil
      rw [hzero, encode_of_lt (by omega)]
      simp
    · have := ih hgroups
      omega

/-- A number and one of its spellings. -/
structure Spelling where
  groups : List UInt8
  number : Nat
  spells : Spells groups number

/-- `x` spells `n`, and has the room that the width gives. -/
structure Spelling.Gives (x : Spelling) (w : Width) (n : Nat) : Prop where
  number : x.number = n
  length : x.groups.length ≤ w.groups
  lt : n < w.limit (w.groups - 1)

end Varint

/-- A part of the bytes: some that can only be as they are, or a spelling of a number. -/
inductive Piece where
  | plain (bytes : List UInt8)
  | varint (x : Varint.Spelling)

namespace Piece

/-- The bytes of a piece. -/
def bytes : Piece → List UInt8
  | plain bs => bs
  | varint x => x.groups

/-- The piece in its least form. -/
def least : Piece → List UInt8
  | plain bs => bs
  | varint x => Varint.encode x.number

/-- No spelling is shorter than the one that is written. -/
theorem length_least_le (p : Piece) : p.least.length ≤ p.bytes.length := by
  cases p with
  | plain bs => exact Nat.le_refl _
  | varint x =>
    by_cases hmin : Varint.Minimal x.groups
    · exact Nat.le_of_eq (congrArg List.length (x.spells.encode_eq hmin))
    · exact Nat.le_of_lt (x.spells.length_encode_lt hmin)

theorem least_eq_bytes_iff (p : Piece) :
    p.least = p.bytes ↔ ∀ x, p = varint x → Varint.Minimal x.groups := by
  cases p with
  | plain bs => exact iff_of_true rfl nofun
  | varint x =>
    constructor
    · rintro h _ ⟨⟩
      refine Decidable.byContradiction fun hmin => ?_
      exact absurd (congrArg List.length h) (Nat.ne_of_lt (x.spells.length_encode_lt hmin))
    · exact fun h => x.spells.encode_eq (h x rfl)

theorem length_flatMap_least_le (ps : List Piece) :
    (ps.flatMap least).length ≤ (ps.flatMap bytes).length := by
  induction ps with
  | nil => exact Nat.le_refl _
  | cons p ps ih =>
    rw [List.flatMap_cons, List.flatMap_cons, List.length_append, List.length_append]
    exact Nat.add_le_add p.length_least_le ih

/-- Pieces keep their bytes just if every number among them is spelled as short as can be. -/
theorem flatMap_least_eq_iff (ps : List Piece) :
    ps.flatMap least = ps.flatMap bytes ↔ ∀ x, varint x ∈ ps → Varint.Minimal x.groups := by
  induction ps with
  | nil => exact iff_of_true rfl nofun
  | cons p ps ih =>
    have hsplit : p.least ++ ps.flatMap least = p.bytes ++ ps.flatMap bytes ↔
        p.least = p.bytes ∧ ps.flatMap least = ps.flatMap bytes := by
      constructor
      · intro h
        have hsum := congrArg List.length h
        have hhead := p.length_least_le
        have htail := length_flatMap_least_le ps
        rw [List.length_append, List.length_append] at hsum
        exact List.append_inj h (by omega)
      · rintro ⟨hhead, htail⟩
        rw [hhead, htail]
    rw [List.flatMap_cons, List.flatMap_cons, hsplit, least_eq_bytes_iff, ih, ← forall_and]
    refine forall_congr' fun x => ?_
    rw [List.mem_cons, or_imp, eq_comm]

end Piece

namespace Binary

/-- A column with the value that stands for it, if any, and the pieces of the value. -/
structure Row where
  column : Column
  content : Option (Value × List Piece)

namespace Row

/-- The entry of a row, without the pieces that it was read from. -/
def entry (row : Row) : String × Option Value := (row.column.name, row.content.map Prod.fst)

/-- A flag, and the value if there is one. -/
def pieces (row : Row) : List Piece :=
  match row.content with
  | none => [.plain (flag false)]
  | some (_, ps) => .plain (flag true) :: ps

end Row

/-- `Spelled s tag v ps`: the pieces are those of the value under the tag. A list has its length and
its elements, and a model has all its columns. -/
inductive Spelled (s : Schema) : Tag → Value → List Piece → Prop
  | bool (b : Bool) : Spelled s .bool (.bool b) [.plain (flag b)]
  | str {t : String} {x : Varint.Spelling} : x.Gives Varint.short t.utf8ByteSize →
    Spelled s .str (.str t) [.varint x, .plain (Utf8.encode t)]
  | int (n : Int32) : Spelled s .int (.int n) [.plain (Word.ofInt32 n)]
  | long (n : Int64) : Spelled s .long (.long n) [.plain (Word.ofInt64 n)]
  | duration {d : Duration} {x : Varint.Spelling} :
    x.Gives Varint.long (Varint.zigzag d.magnitude.toInt) →
    Spelled s .duration (.duration d) [.varint x, .plain [UInt8.ofNat d.unit.ordinal]]
  | calendar {u : CalendarUnit} {x : Varint.Spelling} : x.Gives Varint.short u.ordinal →
    Spelled s .calendar (.calendar u) [.varint x]
  | zone {z : ZoneId} {x : Varint.Spelling} : x.Gives Varint.short z.text.utf8ByteSize →
    Spelled s .zone (.zone z) [.varint x, .plain (Utf8.encode z.text)]
  | strList {rows : List (Value × List Piece)} {x : Varint.Spelling} :
    x.Gives Varint.short rows.length → (∀ row ∈ rows, Spelled s .str row.1 row.2) →
    Spelled s .strList (.list (rows.map Prod.fst)) (.varint x :: rows.flatMap Prod.snd)
  | modelList {m : ModelId} {rows : List (Value × List Piece)} : rows.length < Word.size 4 / 2 →
    (∀ row ∈ rows, Spelled s (.model m) row.1 row.2) →
    Spelled s (.modelList m) (.list (rows.map Prod.fst))
      (.plain (Word.toBytes 4 rows.length) :: rows.flatMap Prod.snd)
  | model {m : ModelId} {rows : List Row} : s.columns m = .ok (rows.map Row.column) →
    (∀ row ∈ rows, ∀ v ps, row.content = some (v, ps) → Spelled s row.column.tag v ps) →
    Spelled s (.model m) (.model ⟨m, rows.map Row.entry⟩) (rows.flatMap Row.pieces)

end Binary

end Wireform
