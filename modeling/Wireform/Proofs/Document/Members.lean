import Mathlib.Data.List.Nodup
import Wireform.Document.Read
import Wireform.Document.Tree
import Wireform.Proofs.Traversal

/-!
# Members in the order of the text

The reader of documents takes the members of an object as they come, and the reader of trees looks
each of them up. Where no name is repeated both make the same of them: filling the columns of a
record one member at a time (`foldlM_fillFrom_iff`), and collecting the members of a duration
(`collect_duration`).
-/

namespace Wireform.Document

open Json (Tree)

/-- How the value of a member is read for a column. -/
abbrev Content := Column → Tree → Except ModelError (Option Value)

variable {s : Schema} {nested : ObjectReading} {m : ModelId} {members : List (String × Tree)}
  {name key : String} {t u : Tree} {slots : List Slot} {site : Site} {content : Content}

/-! ## Looking a member up -/

theorem member?_cons (key : String) (u : Tree) (members : List (String × Tree)) (name : String) :
    Tree.member? ((key, u) :: members) name =
      (Tree.member? members name).or (if name = key then some u else none) := by
  rw [Tree.member?, List.reverse_cons, List.lookup_append, ← Tree.member?, List.lookup_cons,
    List.lookup_nil]
  by_cases h : name = key
  · rw [if_pos h, h, beq_self_eq_true]
  · rw [if_neg h, beq_eq_false_iff_ne.2 h]

theorem member?_eq_none (h : name ∉ members.map Prod.fst) : Tree.member? members name = none := by
  induction members with
  | nil => rfl
  | cons member members ih =>
    rw [List.map_cons, List.mem_cons, not_or] at h
    rw [member?_cons, ih h.2, if_neg h.1]
    rfl

theorem member?_of_mem (hkeys : (members.map Prod.fst).Nodup) (h : (name, t) ∈ members) :
    Tree.member? members name = some t := by
  induction members with
  | nil => cases h
  | cons member members ih =>
    rw [List.map_cons, List.nodup_cons] at hkeys
    rw [member?_cons]
    rcases List.mem_cons.1 h with rfl | h
    · rw [member?_eq_none hkeys.1, if_pos rfl]
      rfl
    · rw [ih hkeys.2 h]
      rfl

theorem mem_of_member? (h : Tree.member? members name = some t) : (name, t) ∈ members := by
  induction members with
  | nil => cases h
  | cons member members ih =>
    obtain ⟨key, u⟩ := member
    rw [member?_cons] at h
    cases hrest : Tree.member? members name with
    | some v =>
      rw [hrest] at h
      cases h
      exact List.mem_cons_of_mem _ (ih hrest)
    | none =>
      rw [hrest, Option.none_or] at h
      split at h
      · next hname =>
        cases h
        rw [hname]
        exact List.mem_cons_self
      · cases h

/-! ## Filling columns -/

/-- A column with what its member has for it; without a member it is absent. -/
def columnEntry (content : Content) (members : List (String × Tree)) (c : Column) :
    Except ModelError (String × Option Value) :=
  match Tree.member? members c.name with
  | none => .ok (c.name, none)
  | some t => (fun v => (c.name, v)) <$> content c t

/-- What a column holds for the value of its member. -/
def treeContent (s : Schema) (nested : ObjectReading) (m : ModelId) (c : Column) :
    Tree → Except ModelError (Option Value)
  | .null => .ok none
  | t => some <$> treeValue s nested ⟨s.name m, c.name⟩ c.tag t

theorem treeEntry_eq (c : Column) :
    treeEntry s nested m members c = columnEntry (treeContent s nested m) members c := by
  rw [treeEntry, columnEntry]
  cases Tree.member? members c.name with
  | none => rfl
  | some t =>
    cases t with
    | null => rfl
    | _ =>
      dsimp only [treeContent]
      cases treeValue s nested _ c.tag _ <;> rfl

/-- One member fills the column of that name, if there is one that has not been filled. -/
def fillFrom (s : Schema) (content : Content) (m : ModelId) (slots : List Slot)
    (member : String × Tree) : Except ModelError (List Slot) :=
  match slots.find? fun slot => slot.column.name = member.1 with
  | none => .ok slots
  | some ⟨c, found⟩ =>
    if found.isSome then .error (.invalidValue ⟨s.name m, c.name⟩ .duplicate)
    else (fun v => Slot.fill member.1 v slots) <$> content c member.2

/-- What a slot comes to hold: what it holds already, or what the members have for it. -/
def slotEntry (content : Content) (members : List (String × Tree)) (slot : Slot) :
    Except ModelError (String × Option Value) :=
  match slot.content with
  | some v => .ok (slot.column.name, v)
  | none => columnEntry content members slot.column

/-- Among distinct names one slot is filled at most. -/
theorem fill_eq_map (h : (slots.map fun slot => slot.column.name).Nodup) (v : Option Value) :
    Slot.fill name v slots = slots.map fun slot =>
      if slot.column.name = name then { slot with content := some v } else slot := by
  induction slots with
  | nil => rfl
  | cons slot slots ih =>
    rw [List.map_cons, List.nodup_cons] at h
    rw [Slot.fill, List.map_cons]
    by_cases hname : slot.column.name = name
    · rw [if_pos hname, if_pos hname]
      congr 1
      refine (List.map_id _).symm.trans (List.map_congr_left fun other hother => ?_)
      rw [if_neg]
      · rfl
      · exact fun hother' => h.1 (List.mem_map.2 ⟨other, hother, hother'.trans hname.symm⟩)
    · rw [if_neg hname, if_neg hname, ih h.2]

theorem map_name_fill (h : (slots.map fun slot => slot.column.name).Nodup) (v : Option Value) :
    ((Slot.fill name v slots).map fun slot => slot.column.name) =
      slots.map fun slot => slot.column.name := by
  rw [fill_eq_map h, List.map_map]
  refine List.map_congr_left fun slot _ => ?_
  dsimp only [Function.comp]
  split <;> rfl

theorem map_column_fill (name : String) (v : Option Value) (slots : List Slot) :
    (Slot.fill name v slots).map Slot.column = slots.map Slot.column := by
  induction slots with
  | nil => rfl
  | cons slot slots ih =>
    rw [Slot.fill]
    split
    · rfl
    · rw [List.map_cons, ih, List.map_cons]

/-- A member that no column has the name of is passed over. -/
theorem fillFrom_of_forall_ne (h : ∀ slot ∈ slots, slot.column.name ≠ key) :
    fillFrom s content m slots (key, u) = .ok slots := by
  have hfind : (slots.find? fun slot => slot.column.name = key) = none :=
    List.find?_eq_none.2 (by simpa using h)
  rw [fillFrom, hfind]

theorem fillFrom_of_find? {c : Column}
    (h : (slots.find? fun slot => slot.column.name = key) = some ⟨c, none⟩) :
    fillFrom s content m slots (key, u) =
      (fun v => Slot.fill key v slots) <$> content c u := by
  rw [fillFrom, h]
  rfl

theorem slotEntry_nil (slot : Slot) : slotEntry content [] slot = .ok slot.entry := by
  obtain ⟨c, _ | v⟩ := slot <;> rfl

/-- A member of another name makes no difference to a slot. -/
theorem slotEntry_cons_of_ne {slot : Slot} (h : slot.column.name ≠ key) :
    slotEntry content ((key, u) :: members) slot = slotEntry content members slot := by
  rw [slotEntry, slotEntry, columnEntry, columnEntry, member?_cons, if_neg h, Option.or_none]

theorem slotEntry_cons_of_eq {c : Column} (h : c.name ∉ members.map Prod.fst) :
    slotEntry content ((c.name, u) :: members) ⟨c, none⟩ =
      (fun v => (c.name, v)) <$> content c u := by
  have hlookup : Tree.member? ((c.name, u) :: members) c.name = some u := by
    rw [member?_cons, member?_eq_none h, if_pos rfl]
    rfl
  simp only [slotEntry, columnEntry, hlookup]

/-- Once a slot is filled with what a member has for it, the member is not needed any more. -/
theorem mapM_slotEntry_fill {c : Column} {v : Option Value}
    (hslots : (slots.map fun slot => slot.column.name).Nodup) (hmem : ⟨c, none⟩ ∈ slots)
    (hc : c.name ∉ members.map Prod.fst) (hv : content c u = .ok v) :
    (Slot.fill c.name v slots).mapM (slotEntry content members) =
      slots.mapM (slotEntry content ((c.name, u) :: members)) := by
  rw [fill_eq_map hslots, List.mapM_map]
  refine mapM_congr fun slot hslot => ?_
  dsimp only [Function.comp]
  by_cases hname : slot.column.name = c.name
  · rw [if_pos hname]
    rw [List.inj_on_of_nodup_map hslots hslot hmem hname, slotEntry_cons_of_eq hc, hv]
    rfl
  · rw [if_neg hname, slotEntry_cons_of_ne hname]

/-- Filling the columns member by member comes to the same as looking each of them up. -/
theorem foldlM_fillFrom_iff (hkeys : (members.map Prod.fst).Nodup)
    (hslots : (slots.map fun slot => slot.column.name).Nodup)
    (hfresh : ∀ slot ∈ slots, slot.column.name ∈ members.map Prod.fst → slot.content = none)
    (entries : List (String × Option Value)) :
    List.map Slot.entry <$> members.foldlM (fillFrom s content m) slots = .ok entries ↔
      slots.mapM (slotEntry content members) = .ok entries := by
  induction members generalizing slots with
  | nil => rw [mapM_ok fun slot _ => slotEntry_nil slot]; rfl
  | cons member members ih =>
    obtain ⟨key, u⟩ := member
    rw [List.map_cons, List.nodup_cons] at hkeys
    rw [List.foldlM_cons]
    cases hfind : slots.find? fun slot => slot.column.name = key with
    | none =>
      have hne : ∀ slot ∈ slots, slot.column.name ≠ key := by
        simpa using List.find?_eq_none.1 hfind
      rw [fillFrom_of_forall_ne hne,
        mapM_congr fun slot hslot => slotEntry_cons_of_ne (hne slot hslot)]
      exact ih hkeys.2 hslots fun slot hslot hname =>
        hfresh slot hslot (List.mem_cons_of_mem _ hname)
    | some slot =>
      obtain ⟨c, found⟩ := slot
      have hmem := List.mem_of_find?_eq_some hfind
      obtain rfl : c.name = key := by simpa using List.find?_some hfind
      obtain rfl : found = none := hfresh _ hmem List.mem_cons_self
      rw [fillFrom_of_find? hfind]
      cases hv : content c u with
      | error e =>
        constructor
        · exact nofun
        · intro h
          obtain ⟨entry, hentry⟩ := exists_ok_of_mapM_ok h hmem
          rw [slotEntry_cons_of_eq hkeys.1, hv] at hentry
          cases hentry
      | ok v =>
        rw [← mapM_slotEntry_fill hslots hmem hkeys.1 hv]
        have hfresh' : ∀ slot ∈ Slot.fill c.name v slots,
            slot.column.name ∈ members.map Prod.fst → slot.content = none := by
          rw [fill_eq_map hslots]
          intro slot hslot hname
          obtain ⟨old, hold, rfl⟩ := List.mem_map.1 hslot
          split at hname
          · next heq => exact (hkeys.1 (heq ▸ hname)).elim
          · next hne =>
            rw [if_neg hne]
            exact hfresh old hold (List.mem_cons_of_mem _ hname)
        exact ih hkeys.2 ((map_name_fill hslots v).symm ▸ hslots) hfresh'

/-! ## Collecting a duration -/

/-- The number that is read where a magnitude stands. -/
def magnitude? : Tree → Option Int64
  | .number spelling => (Decimal.int? spelling.toList).bind Decimal.int64?
  | _ => none

/-- The unit that a tree names. -/
def unit? : Tree → Option DurationUnit
  | .string name => DurationUnit.ofName? name
  | _ => none

/-- What the reader does with one member of a duration. -/
def durationMember (site : Site) (found : Option Int64 × Option DurationUnit)
    (member : String × Tree) : Except ModelError (Option Int64 × Option DurationUnit) :=
  if member.1 = "magnitude" then
    (fun n => (some n, found.2)) <$> required site .durationMagnitude (magnitude? member.2)
  else if member.1 = "unit" then
    (fun unit => (found.1, some unit)) <$> required site .durationUnit (unit? member.2)
  else .error (.invalidValue site .durationIncomplete)

/-- The duration of a magnitude and a unit, both of which have to be there. -/
def durationOf (site : Site) :
    Option Int64 × Option DurationUnit → Except ModelError Duration
  | (some magnitude, some unit) => .ok ⟨magnitude, unit⟩
  | _ => .error (.invalidValue site .durationIncomplete)

/-- A duration is a magnitude and a unit among the members. -/
theorem treeDuration_eq_ok {d : Duration} : treeDuration site members = .ok d ↔
    (Tree.member? members "magnitude").bind Tree.int? = some d.magnitude ∧
      (Tree.member? members "unit").bind unit? = some d.unit := by
  have hunit : (Tree.member? members "unit").bind unit? =
      ((Tree.member? members "unit").bind Tree.str?).bind DurationUnit.ofName? := by
    rcases Tree.member? members "unit" with _ | u
    · rfl
    · cases u <;> rfl
  rw [hunit, treeDuration]
  dsimp only
  cases (Tree.member? members "magnitude").bind Tree.int? with
  | none => exact ⟨nofun, fun h => nomatch h.1⟩
  | some n =>
    cases (Tree.member? members "unit").bind Tree.str? with
    | none => exact ⟨nofun, fun h => nomatch h.2⟩
    | some name =>
      obtain ⟨n', unit'⟩ := d
      cases hname : DurationUnit.ofName? name <;>
        simp [hname, required, bind, Except.bind, pure, Except.pure]

theorem int?_eq_magnitude? (h : u ≠ .number "-0") : Tree.int? u = magnitude? u := by
  cases u with
  | number spelling => exact if_neg fun hzero => h (congrArg Tree.number hzero)
  | _ => rfl

/-- What has been found for a name once its member, if there is one, has been read. -/
def collected {α : Type} (read : Tree → Option α) (found : Option α) :
    Option Tree → Option (Option α)
  | none => some found
  | some u => (read u).map some

theorem collected_none {α : Type} {read : Tree → Option α} {o : Option Tree} {a : α} :
    collected read none o = some (some a) ↔ o.bind read = some a := by
  cases o <;> simp [collected]

theorem collected_cons_self {α : Type} {read : Tree → Option α} {found found' : Option α}
    (hread : read u = found') (h : found'.isSome)
    {o : Option Tree} : collected read found (o.or (some u)) = collected read found' o := by
  cases o with
  | some u' => rfl
  | none =>
    obtain ⟨a, rfl⟩ := Option.isSome_iff_exists.1 h
    change (read u).map some = _
    rw [hread]
    rfl

/-- Only two names are known to a duration, and what is found for them is what their last members
say. -/
theorem collected_of_foldlM {found found' : Option Int64 × Option DurationUnit}
    (h : members.foldlM (durationMember site) found = .ok found') :
    (∀ name ∈ members.map Prod.fst, name = "magnitude" ∨ name = "unit") ∧
      collected magnitude? found.1 (Tree.member? members "magnitude") = some found'.1 ∧
      collected unit? found.2 (Tree.member? members "unit") = some found'.2 := by
  have hne : "magnitude" ≠ "unit" := by decide
  induction members generalizing found with
  | nil =>
    cases h
    exact ⟨List.forall_mem_nil _, rfl, rfl⟩
  | cons member members ih =>
    obtain ⟨name, u⟩ := member
    rw [List.foldlM_cons] at h
    obtain ⟨next, hnext, hrest⟩ := bind_ok_iff.1 h
    obtain ⟨hnames, hmagnitude, hunit⟩ := ih hrest
    rw [member?_cons, member?_cons, List.map_cons, List.forall_mem_cons]
    rw [durationMember] at hnext
    split at hnext
    · next hname =>
      obtain rfl : name = "magnitude" := hname
      obtain ⟨n, hn, rfl⟩ := map_ok_iff.1 hnext
      rw [if_pos rfl, if_neg hne.symm, Option.or_none]
      cases hread : magnitude? u with
      | none =>
        rw [hread] at hn
        cases hn
      | some n' =>
        rw [hread] at hn
        cases hn
        rw [collected_cons_self hread rfl]
        exact ⟨⟨.inl rfl, hnames⟩, hmagnitude, hunit⟩
    split at hnext
    · next hname =>
      obtain rfl : name = "unit" := hname
      obtain ⟨unit, hn, rfl⟩ := map_ok_iff.1 hnext
      rw [if_neg hne, if_pos rfl, Option.or_none]
      cases hread : unit? u with
      | none =>
        rw [hread] at hn
        cases hn
      | some unit' =>
        rw [hread] at hn
        cases hn
        rw [collected_cons_self hread rfl]
        exact ⟨⟨.inr rfl, hnames⟩, hmagnitude, hunit⟩
    · cases hnext

/-- Where no name is repeated, no other member has a say. -/
theorem foldlM_durationMember {found found' : Option Int64 × Option DurationUnit}
    (hkeys : (members.map Prod.fst).Nodup)
    (hnames : ∀ name ∈ members.map Prod.fst, name = "magnitude" ∨ name = "unit")
    (hmagnitude : collected magnitude? found.1 (Tree.member? members "magnitude") = some found'.1)
    (hunit : collected unit? found.2 (Tree.member? members "unit") = some found'.2) :
    members.foldlM (durationMember site) found = .ok found' := by
  have hne : "magnitude" ≠ "unit" := by decide
  induction members generalizing found with
  | nil => exact congrArg Except.ok (Prod.ext (Option.some.inj hmagnitude) (Option.some.inj hunit))
  | cons member members ih =>
    obtain ⟨name, u⟩ := member
    rw [List.map_cons, List.nodup_cons] at hkeys
    rw [List.map_cons, List.forall_mem_cons] at hnames
    rw [member?_cons] at hmagnitude hunit
    rw [List.foldlM_cons]
    obtain ⟨rfl | rfl, hnames⟩ := hnames
    · rw [member?_eq_none hkeys.1, if_pos rfl] at hmagnitude
      rw [if_neg hne.symm, Option.or_none] at hunit
      obtain ⟨n, hn, hfound⟩ := Option.map_eq_some_iff.1 hmagnitude
      rw [durationMember, if_pos rfl, hn]
      change members.foldlM (durationMember site) (some n, found.2) = .ok found'
      refine ih hkeys.2 hnames ?_ hunit
      rw [member?_eq_none hkeys.1, ← hfound]
      rfl
    · rw [member?_eq_none hkeys.1, if_pos rfl] at hunit
      rw [if_neg hne, Option.or_none] at hmagnitude
      obtain ⟨unit, hn, hfound⟩ := Option.map_eq_some_iff.1 hunit
      rw [durationMember, if_neg hne.symm, if_pos rfl, hn]
      change members.foldlM (durationMember site) (found.1, some unit) = .ok found'
      refine ih hkeys.2 hnames hmagnitude ?_
      rw [member?_eq_none hkeys.1, ← hfound]
      rfl

theorem durationOf_eq_ok {found : Option Int64 × Option DurationUnit} {d : Duration} :
    durationOf site found = .ok d ↔ found = (some d.magnitude, some d.unit) := by
  obtain ⟨_ | n, _ | unit⟩ := found <;> obtain ⟨n', unit'⟩ := d <;> simp [durationOf]

/-- A duration is read from members of its two names, and it is what the last of each say. -/
theorem eq_duration_of_foldlM {d : Duration}
    (h : (members.foldlM (durationMember site) (none, none) >>= durationOf site) = .ok d) :
    (∀ name ∈ members.map Prod.fst, name = "magnitude" ∨ name = "unit") ∧
      (Tree.member? members "magnitude").bind magnitude? = some d.magnitude ∧
      (Tree.member? members "unit").bind unit? = some d.unit := by
  obtain ⟨found, hfold, hd⟩ := bind_ok_iff.1 h
  rw [durationOf_eq_ok.1 hd] at hfold
  obtain ⟨hnames, hmagnitude, hunit⟩ := collected_of_foldlM hfold
  exact ⟨hnames, collected_none.1 hmagnitude, collected_none.1 hunit⟩

/-- Members with distinct keys are gathered into the duration that they hold as a tree. -/
theorem foldlM_duration_iff (hkeys : (members.map Prod.fst).Nodup) (d : Duration) :
    (members.foldlM (durationMember site) (none, none) >>= durationOf site) = .ok d ↔
      (∀ name ∈ members.map Prod.fst, name = "magnitude" ∨ name = "unit") ∧
        (Tree.member? members "magnitude").bind magnitude? = some d.magnitude ∧
        (Tree.member? members "unit").bind unit? = some d.unit := by
  refine ⟨eq_duration_of_foldlM, fun ⟨hnames, hmagnitude, hunit⟩ => ?_⟩
  have hfold : members.foldlM (durationMember site) (none, none) =
      .ok (some d.magnitude, some d.unit) :=
    foldlM_durationMember hkeys hnames (collected_none.2 hmagnitude) (collected_none.2 hunit)
  rw [hfold]
  rfl

/-- Collecting the members of a duration comes to the same as looking both of them up. -/
theorem collect_duration (hkeys : (members.map Prod.fst).Nodup)
    (honly : ∀ name u, (name, u) ∈ members →
      (name = "magnitude" ∧ u ≠ .number "-0") ∨ name = "unit") (d : Duration) :
    (members.foldlM (durationMember site) (none, none) >>= durationOf site) = .ok d ↔
      treeDuration site members = .ok d := by
  have hmagnitude : (Tree.member? members "magnitude").bind Tree.int? =
      (Tree.member? members "magnitude").bind magnitude? := by
    cases hmember : Tree.member? members "magnitude" with
    | none => rfl
    | some u =>
      rcases honly _ u (mem_of_member? hmember) with ⟨-, hu⟩ | hname
      · exact int?_eq_magnitude? hu
      · exact absurd hname (by decide)
  have hnames : ∀ name ∈ members.map Prod.fst, name = "magnitude" ∨ name = "unit" := by
    intro name hname
    obtain ⟨⟨_, u⟩, hu, rfl⟩ := List.mem_map.1 hname
    exact (honly _ u hu).imp_left And.left
  rw [foldlM_duration_iff hkeys, treeDuration_eq_ok, hmagnitude, and_iff_right hnames]

end Wireform.Document
