import Mathlib.Data.String.Basic
import Wireform.Bytes.Word
import Wireform.Proofs.Schema.Declared
import Wireform.Proofs.Traversal

/-!
# The order of a catalog

A catalog lists the exposed fields of a model by name, ascending in the order of the bytes. Names that
are distinct leave it one order, so models that expose the same fields have the same catalog, however
they declare them (`catalog_eq`), and the same columns unless both lack one for the same field.
-/

namespace Wireform

/-! ## Names -/

namespace Utf8

/-- Of two numbers, the smaller one has a smaller last digit or less in front of it. -/
theorem digits_lt {m n : Nat} (h : m < n) :
    m / 64 < n / 64 ∨ m / 64 = n / 64 ∧ m % 64 < n % 64 := by
  omega

/-- The first byte tells how many follow, and more do where the character is larger; the digits of
base 64 follow from the highest to the lowest. -/
theorem encodeChar_append_lt {c d : Char} (h : c < d) (x y : List UInt8) :
    String.utf8EncodeChar c ++ x < String.utf8EncodeChar d ++ y := by
  have hlt : c.val.toNat < d.val.toNat := h
  have hd : d.val.toNat < 0x110000 := by
    have hvalid : d.val.toNat < 0xd800 ∨ 0xdfff < d.val.toNat ∧ d.val.toNat < 0x110000 := d.valid
    omega
  unfold String.utf8EncodeChar
  dsimp only
  generalize c.val.toNat = m, d.val.toNat = n at hlt hd
  have h4096 (k : Nat) : k / 4096 = k / 64 / 64 := by omega
  have h262144 (k : Nat) : k / 262144 = k / 64 / 64 / 64 := by omega
  have hlast := digits_lt hlt
  have hmiddle := @digits_lt (m / 64) (n / 64)
  have hfirst := @digits_lt (m / 64 / 64) (n / 64 / 64)
  split_ifs <;>
    simp (disch := omega) only [List.cons_append, List.nil_append, List.cons_lt_cons_iff,
      UInt8.lt_iff_toNat_lt, ← UInt8.toNat_inj, UInt8.toNat_ofNat', Nat.mod_eq_of_lt, h4096,
      h262144] <;>
    grind

/-- Texts are ordered as their bytes are. -/
theorem encode_lt_encode {s t : String} (h : s < t) : encode s < encode t := by
  rw [String.lt_iff_toList_lt] at h
  rw [encode_eq, encode_eq]
  generalize s.toList = cs, t.toList = ds at h
  induction cs generalizing ds with
  | nil =>
    cases ds with
    | nil => exact absurd h (List.not_lt_nil _)
    | cons d ds =>
      rw [List.flatMap_nil, List.flatMap_cons]
      obtain ⟨b, bs, hbs⟩ := List.exists_cons_of_ne_nil (String.utf8EncodeChar_ne_nil (c := d))
      rw [hbs]
      exact List.nil_lt_cons _ _
  | cons c cs ih =>
    cases ds with
    | nil => exact absurd h (List.not_lt_nil _)
    | cons d ds =>
      rw [List.flatMap_cons, List.flatMap_cons]
      obtain hlt | ⟨rfl, hlt⟩ := List.cons_lt_cons_iff.1 h
      · exact encodeChar_append_lt hlt _ _
      · exact List.append_left_lt (ih ds hlt)

end Utf8

/-! ## Catalogs -/

namespace FieldDecl

/-- What a field is to an encoding. -/
def key (d : FieldDecl) : String × Shape := (d.name, d.shape)

/-- Sorted fields have ascending names. -/
theorem sorted_sortByName (ds : List FieldDecl) :
    (sortByName ds).Pairwise fun d e => d.name ≤ e.name := by
  have htotal : Std.Total fun d e : FieldDecl => d.name ≤ e.name :=
    ⟨fun _ _ => String.le_total _ _⟩
  have htrans : IsTrans FieldDecl fun d e => d.name ≤ e.name := ⟨fun _ _ _ => String.le_trans⟩
  rw [sortByName_eq]
  exact List.pairwise_insertionSort _ _

end FieldDecl

namespace Schema

variable {s : Schema} {m n : ModelId}

/-- The exposed fields of a model in the order of their declaration. -/
def exposed (s : Schema) (m : ModelId) : List FieldDecl := (s.fields m).filter FieldDecl.exposed

/-- No name comes twice, so the names go up strictly. -/
theorem ascending_catalog (h : ((s.exposed m).map FieldDecl.name).Nodup) :
    (s.catalog m).Pairwise fun d e => d.name < e.name := by
  have hnodup : ((s.catalog m).map FieldDecl.name).Nodup :=
    ((s.perm_catalog m).map FieldDecl.name).nodup_iff.2 h
  have hne : (s.catalog m).Pairwise fun d e => d.name ≠ e.name := List.pairwise_map.1 hnodup
  refine ((FieldDecl.sorted_sortByName _).and hne).imp fun hd => ?_
  exact String.not_le.1 fun hle => hd.2 (String.le_antisymm hd.1 hle)

/-- A list that goes up by name is determined by what it lists. -/
theorem catalog_eq (h : ((s.exposed m).map FieldDecl.key).Perm ((s.exposed n).map FieldDecl.key))
    (hdistinct : ((s.exposed m).map FieldDecl.name).Nodup) :
    (s.catalog m).map FieldDecl.key = (s.catalog n).map FieldDecl.key := by
  have hdistinct' : ((s.exposed n).map FieldDecl.name).Nodup := by
    have hnames := (h.map Prod.fst).nodup_iff
    rw [List.map_map, List.map_map] at hnames
    exact hnames.1 hdistinct
  have hm : ((s.catalog m).map FieldDecl.key).Pairwise fun c d => c.1 < d.1 :=
    List.pairwise_map.2 (ascending_catalog hdistinct)
  have hn : ((s.catalog n).map FieldDecl.key).Pairwise fun c d => c.1 < d.1 :=
    List.pairwise_map.2 (ascending_catalog hdistinct')
  have hperm := ((s.perm_catalog m).map FieldDecl.key).trans
    (h.trans ((s.perm_catalog n).map FieldDecl.key).symm)
  exact hperm.eq_of_pairwise (fun c d _ _ hlt hgt => absurd hgt (String.lt_asymm hlt)) hm hn

/-- Fields of the same name and shape have the same column, or fail alike under the names of their
models. -/
theorem column_eq_of_key {d e : FieldDecl} (h : d.key = e.key) :
    (∃ c, s.column m d = .ok c ∧ s.column n e = .ok c) ∨ ∃ field shape,
      s.column m d = .error (.unsupportedField ⟨s.name m, field⟩ shape) ∧
      s.column n e = .error (.unsupportedField ⟨s.name n, field⟩ shape) := by
  obtain ⟨hname, hshape⟩ := Prod.mk.inj h
  rw [column, column, tag, tag, hname, hshape]
  cases e.shape.present.tag? with
  | some t => exact .inl ⟨_, rfl, rfl⟩
  | none => exact .inr ⟨e.name, e.shape.text s, rfl, rfl⟩

/-- Two models with the same catalog have the same columns, or for the same field none. -/
theorem columns_eq_of_catalog
    (h : (s.catalog m).map FieldDecl.key = (s.catalog n).map FieldDecl.key) :
    (∃ cs, s.columns m = .ok cs ∧ s.columns n = .ok cs) ∨ ∃ field shape,
      s.columns m = .error (.unsupportedField ⟨s.name m, field⟩ shape) ∧
      s.columns n = .error (.unsupportedField ⟨s.name n, field⟩ shape) := by
  rw [columns, columns]
  have hall := map_eq_map_iff.1 h
  generalize s.catalog m = ds, s.catalog n = es at hall ⊢
  induction hall with
  | nil => exact .inl ⟨[], rfl, rfl⟩
  | cons hkey _ ih =>
    rw [List.mapM_cons, List.mapM_cons]
    obtain ⟨c, hm, hn⟩ | ⟨field, shape, hm, hn⟩ := column_eq_of_key hkey
    · rw [hm, hn]
      obtain ⟨cs, hm, hn⟩ | ⟨field, shape, hm, hn⟩ := ih
      · rw [hm, hn]
        exact .inl ⟨c :: cs, rfl, rfl⟩
      · rw [hm, hn]
        exact .inr ⟨field, shape, rfl, rfl⟩
    · rw [hm, hn]
      exact .inr ⟨field, shape, rfl, rfl⟩

end Schema

end Wireform
