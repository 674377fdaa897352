import Mathlib.Data.List.Perm.Subperm
import Wireform.Proofs.Document.Orders

/-!
# Repeated names

Read by names, an object that has the name of a column twice is refused, whatever model it is read
as and wherever it stands: the first column of each name holds what its only member says
(`get_of_textByName`). The members of a duration are taken as they come, and the later of two with
the same name replaces the earlier (`members_of_byName`).
-/

namespace Wireform.Document

open Json (Pull Tree)
open Json.Grammar (Text)
open Json.Pull (Runs)

variable {s : Schema} {depth : Nat} {m n : ModelId} {t u : Tree} {tag : Tag} {q : Pull}
  {r : Record} {members : List (String × Tree)} {content : Content} {slots slots' : List Slot}
  {name key : String} {cs : List Column} {c : Column} {o : Option Value}

/-! ## Members of one name -/

theorem filter_name_eq_nil (h : name ∉ members.map Prod.fst) :
    members.filter (fun member => member.1 = name) = [] := by
  refine List.filter_eq_nil_iff.2 fun member hmember => ?_
  simpa using fun heq => h (List.mem_map.2 ⟨member, hmember, heq⟩)

theorem eq_of_filter_name (h : members.filter (fun member => member.1 = name) = [(name, t)])
    (hu : (name, u) ∈ members) : u = t := by
  have hmem : (name, u) ∈ members.filter fun member => member.1 = name :=
    List.mem_filter.2 ⟨hu, by simp⟩
  rw [h] at hmem
  cases List.mem_singleton.1 hmem
  rfl

theorem count_eq_length_filter (members : List (String × Tree)) (name : String) :
    (members.map Prod.fst).count name =
      (members.filter fun member => member.1 = name).length := by
  rw [List.count, List.countP_map, List.countP_eq_length_filter]
  congr 2

/-! ## Slots -/

theorem find?_fill_self (v : Option Value) (slots : List Slot) :
    ((Slot.fill name v slots).find? fun slot => slot.column.name = name) =
      (slots.find? fun slot => slot.column.name = name).map fun slot => ⟨slot.column, some v⟩ := by
  induction slots with
  | nil => rfl
  | cons slot slots ih =>
    rw [Slot.fill]
    split
    · next hname => simp [hname]
    · next hname => simp [hname, ih]

theorem find?_fill_of_ne (h : key ≠ name) (v : Option Value) (slots : List Slot) :
    ((Slot.fill key v slots).find? fun slot => slot.column.name = name) =
      slots.find? fun slot => slot.column.name = name := by
  induction slots with
  | nil => rfl
  | cons slot slots ih =>
    rw [Slot.fill]
    split
    · next hkey => simp [hkey, h]
    · rw [List.find?_cons, List.find?_cons, ih]

/-- A member fills the first slot of its name, which nothing has filled before. -/
theorem find?_of_fillFrom {slot : Slot} (h : fillFrom s content m slots (name, u) = .ok slots')
    (hslot : (slots.find? fun slot => slot.column.name = name) = some slot) :
    slot.content = none ∧ ∃ v, content slot.column u = .ok v ∧
      (slots'.find? fun slot => slot.column.name = name) = some ⟨slot.column, some v⟩ := by
  obtain ⟨c, _ | found⟩ := slot
  · rw [fillFrom_of_find? hslot] at h
    obtain ⟨v, hv, rfl⟩ := map_ok_iff.1 h
    exact ⟨rfl, v, hv, by rw [find?_fill_self, hslot, Option.map_some]⟩
  · rw [fillFrom, hslot] at h
    cases h

/-- A member fills no slot of another name. -/
theorem find?_of_fillFrom_of_ne (h : fillFrom s content m slots (key, u) = .ok slots')
    (hne : key ≠ name) : (slots'.find? fun slot => slot.column.name = name) =
      slots.find? fun slot => slot.column.name = name := by
  rw [fillFrom] at h
  split at h
  · cases h
    rfl
  split at h
  · cases h
  · obtain ⟨v, -, rfl⟩ := map_ok_iff.1 h
    exact find?_fill_of_ne hne v slots

/-- What becomes of a slot: without a member of its name it stays as it is, and otherwise it was
empty and the only member of its name fills it. -/
inductive Filled (content : Content) (members : List (String × Tree)) : Slot → Slot → Prop
  | missing {slot : Slot} : slot.column.name ∉ members.map Prod.fst →
    Filled content members slot slot
  | once {c : Column} {u : Tree} {o : Option Value} :
    members.filter (fun member => member.1 = c.name) = [(c.name, u)] → content c u = .ok o →
    Filled content members ⟨c, none⟩ ⟨c, some o⟩

theorem Filled.cons {slot slot' : Slot} (h : Filled content members slot slot')
    (hne : key ≠ slot.column.name) (u : Tree) :
    Filled content ((key, u) :: members) slot slot' := by
  cases h with
  | missing hname =>
    refine .missing ?_
    rw [List.map_cons, List.mem_cons, not_or]
    exact ⟨hne.symm, hname⟩
  | once hone ho =>
    refine .once ?_ ho
    rwa [List.filter_cons_of_neg (by simpa using hne)]

/-- The first slot of a name is filled once at most. -/
theorem filled_of_foldlM {slot : Slot}
    (h : members.foldlM (fillFrom s content m) slots = .ok slots')
    (hslot : (slots.find? fun slot => slot.column.name = name) = some slot) :
    ∃ slot', (slots'.find? fun slot => slot.column.name = name) = some slot' ∧
      Filled content members slot slot' := by
  induction members generalizing slots slot with
  | nil =>
    cases h
    exact ⟨slot, hslot, .missing List.not_mem_nil⟩
  | cons member members ih =>
    obtain ⟨key, u⟩ := member
    rw [List.foldlM_cons] at h
    obtain ⟨slots₁, hfill, hrest⟩ := bind_ok_iff.1 h
    have hname : slot.column.name = name := by simpa using List.find?_some hslot
    by_cases hkey : key = name
    · subst hkey
      obtain ⟨hempty, o, ho, hslot₁⟩ := find?_of_fillFrom hfill hslot
      obtain ⟨slot', hslot', hfilled⟩ := ih hrest hslot₁
      obtain ⟨c, _⟩ := slot
      cases hempty
      cases hfilled with
      | missing hmissing =>
        -- The slot is full by now, so no other member has its name.
        obtain rfl : c.name = key := hname
        refine ⟨_, hslot', .once (u := u) ?_ ho⟩
        rw [List.filter_cons_of_pos (by simp), filter_name_eq_nil hmissing]
    · obtain ⟨slot', hslot', hfilled⟩ := ih hrest (find?_of_fillFrom_of_ne hfill hkey ▸ hslot)
      exact ⟨slot', hslot', hfilled.cons (hname ▸ hkey) u⟩

/-! ## Records -/

/-- A record answers a name by the slot of that name. -/
theorem get_entries (m : ModelId) (slots : List Slot) (name : String) :
    RecordOf.get ⟨m, slots.map Slot.entry⟩ name =
      (slots.find? fun slot => slot.column.name = name).bind fun slot => slot.content.join := by
  rw [RecordOf.get]
  induction slots with
  | nil => rfl
  | cons slot slots ih =>
    rw [List.map_cons, Slot.entry, List.lookup_cons]
    by_cases hname : slot.column.name = name
    · simp [hname]
    · have hne : (name == slot.column.name) = false := beq_eq_false_iff_ne.2 (Ne.symm hname)
      rw [hne, List.find?_cons_of_neg (by simpa using hname)]
      exact ih

/-- The first column of a name is absent without a member of that name, and otherwise holds what
the only such member says. -/
theorem get_of_textByName {entries : List (String × Option Value)}
    (h : textByName s content m cs members = .ok entries)
    (hc : (cs.find? fun c => c.name = name) = some c) :
    (name ∉ members.map Prod.fst ∧ RecordOf.get ⟨m, entries⟩ name = none) ∨
      ∃ u o, members.filter (fun member => member.1 = name) = [(name, u)] ∧
        content c u = .ok o ∧ RecordOf.get ⟨m, entries⟩ name = o := by
  obtain ⟨slots, hslots, rfl⟩ := map_ok_iff.1 h
  have hslot : ((cs.map fun c => (⟨c, none⟩ : Slot)).find? fun slot => slot.column.name = name) =
      some ⟨c, none⟩ := by
    rw [List.find?_map]
    exact congrArg (Option.map _) hc
  obtain ⟨slot, hslot, hfilled⟩ := filled_of_foldlM hslots hslot
  obtain rfl : c.name = name := by simpa using List.find?_some hc
  rw [get_entries, hslot]
  cases hfilled with
  | missing hmissing => exact .inl ⟨hmissing, rfl⟩
  | @once _ u o hone ho => exact .inr ⟨u, o, hone, ho, rfl⟩

theorem exists_of_textLevels {levels : Nat}
    (h : textLevels s ⟨.byName, depth⟩ levels n members = .ok r) :
    ∃ rest cs entries, s.columns n = .ok cs ∧ r = ⟨n, entries⟩ ∧
      textByName s (textContent s (textLevels s ⟨.byName, depth⟩ rest) n) n cs members =
        .ok entries := by
  cases levels with
  | zero => cases h
  | succ rest =>
    obtain ⟨cs, hcs, h⟩ := bind_ok_iff.1 h
    obtain ⟨entries, hentries, hr⟩ := bind_ok_iff.1 h
    cases hr
    exact ⟨rest, cs, entries, hcs, rfl, hentries⟩

/-! ## What was read from where -/

/-- `Taken s m t r tag u o`: where the tree `t` is read by names as the record `r` of `m`, the tree
`u` within it is read under the tag, and the record has `o` for it. Of the columns with one name it
is the first that a member is read for. -/
inductive Taken (s : Schema) (m : ModelId) (t : Tree) (r : Record) :
    Tag → Tree → Option Value → Prop
  | root : Taken s m t r (.model m) t (some (.model r))
  | column {n : ModelId} {members : List (String × Tree)} {rec : Record} {cs : List Column}
    {c : Column} {u : Tree} : Taken s m t r (.model n) (.object members) (some (.model rec)) →
    s.columns n = .ok cs → (cs.find? fun c' => c'.name = c.name) = some c →
    (c.name, u) ∈ members → Taken s m t r c.tag u (rec.get c.name)
  | element {n : ModelId} {items : List Tree} {vs : List Value} {i : Nat} {u : Tree} :
    Taken s m t r (.modelList n) (.array items) (some (.list vs)) → items[i]? = some u →
    Taken s m t r (.model n) u vs[i]?

/-- What a tree is read as: nothing for `null`, and otherwise a value of the tag. -/
def ReadAs (s : Schema) (depth : Nat) (tag : Tag) (u : Tree) (o : Option Value) : Prop :=
  (u = .null ∧ o = none) ∨ ∃ levels site v, o = some v ∧
    textValue s (textLevels s ⟨.byName, depth⟩ levels) site tag u = .ok v

theorem readAs_of_textContent {levels : Nat}
    (h : textContent s (textLevels s ⟨.byName, depth⟩ levels) n c u = .ok o) :
    ReadAs s depth c.tag u o := by
  cases u with
  | null =>
    cases h
    exact .inl ⟨rfl, rfl⟩
  | _ =>
    obtain ⟨v, hv, rfl⟩ := map_ok_iff.1 h
    exact .inr ⟨levels, _, v, rfl, hv⟩

theorem ReadAs.record (h : ReadAs s depth (.model n) (.object members) o) :
    ∃ levels r, o = some (.model r) ∧
      textLevels s ⟨.byName, depth⟩ levels n members = .ok r := by
  obtain ⟨hnull, -⟩ | ⟨levels, site, v, rfl, hv⟩ := h
  · cases hnull
  · obtain ⟨r, hr, rfl⟩ := map_ok_iff.1 hv
    exact ⟨levels, r, rfl, hr⟩

/-- Everything that is taken has been read, and it is what the record has. -/
theorem Taken.readAs (h : textRecord s ⟨.byName, depth⟩ m t = .ok r)
    (htaken : Taken s m t r tag u o) : ReadAs s depth tag u o := by
  induction htaken with
  | root => exact .inr ⟨_, ⟨"", ""⟩, .model r, rfl, (textRecord_ok_iff _).1 h⟩
  | @column n members rec cs c u _ hcs hc hu ih =>
    obtain ⟨levels, _, hrec, hlevels⟩ := ih.record
    cases hrec
    obtain ⟨rest, _, entries, hcs', rfl, hentries⟩ := exists_of_textLevels hlevels
    cases hcs.symm.trans hcs'
    obtain ⟨hmissing, -⟩ | ⟨u', o, hone, ho, hget⟩ := get_of_textByName hentries hc
    · exact (hmissing (List.mem_map_of_mem hu)).elim
    · obtain rfl := eq_of_filter_name hone hu
      rw [hget]
      exact readAs_of_textContent ho
  | @element n items vs i u _ hu ih =>
    obtain ⟨hnull, -⟩ | ⟨levels, site, v, hv, hread⟩ := ih
    · cases hnull
    cases hv
    obtain ⟨_, hitems, hvs⟩ := map_ok_iff.1 hread
    cases hvs
    obtain ⟨v, hi, hv⟩ := getElem?_of_mapM_ok hitems hu
    rw [hi]
    cases u with
    | object members => exact .inr ⟨levels, site, v, rfl, hv⟩
    | _ => cases hv

/-! ## Names that are repeated -/

/-- In an object that is read as a record no name of the catalog is repeated. -/
theorem Taken.count_le_one (h : textRecord s ⟨.byName, depth⟩ m t = .ok r)
    (htaken : Taken s m t r (.model n) (.object members) o) {d : FieldDecl}
    (hd : d ∈ s.catalog n) : (members.map Prod.fst).count d.name ≤ 1 := by
  obtain ⟨levels, _, rfl, hlevels⟩ := (htaken.readAs h).record
  obtain ⟨rest, cs, entries, hcs, -, hentries⟩ := exists_of_textLevels hlevels
  obtain ⟨c, hc⟩ : ∃ c, (cs.find? fun c => c.name = d.name) = some c := by
    have hname : d.name ∈ cs.map Column.name :=
      Schema.map_name_columns hcs ▸ List.mem_map_of_mem hd
    obtain ⟨c, hc, hname⟩ := List.mem_map.1 hname
    exact Option.isSome_iff_exists.1 (List.find?_isSome.2 ⟨c, hc, by simpa using hname⟩)
  rw [count_eq_length_filter]
  obtain ⟨hmissing, -⟩ | ⟨u, _, hone, -, -⟩ := get_of_textByName hentries hc
  · rw [filter_name_eq_nil hmissing]
    exact Nat.zero_le 1
  · rw [hone]
    exact Nat.le_refl 1

/-- An object that is read as a duration has members of two names, and of those with one name the
last is kept. -/
theorem Taken.duration (h : textRecord s ⟨.byName, depth⟩ m t = .ok r)
    (htaken : Taken s m t r .duration (.object members) o) :
    ∃ d, o = some (.duration d) ∧
      (∀ name ∈ members.map Prod.fst, name = "magnitude" ∨ name = "unit") ∧
      (Tree.member? members "magnitude").bind magnitude? = some d.magnitude ∧
      (Tree.member? members "unit").bind unit? = some d.unit := by
  obtain ⟨hnull, -⟩ | ⟨levels, site, v, rfl, hv⟩ := htaken.readAs h
  · cases hnull
  · obtain ⟨d, hd, rfl⟩ := map_ok_iff.1 hv
    exact ⟨d, rfl, eq_duration_of_foldlM hd⟩

theorem mem_of_bind_member? {α : Type} {f : Tree → Option α} {a : α}
    (h : (Tree.member? members name).bind f = some a) : name ∈ members.map Prod.fst := by
  obtain ⟨u, hu, -⟩ := Option.bind_eq_some_iff.1 h
  exact List.mem_map_of_mem (mem_of_member? hu)

/-- Both names of a duration are there, so none of them is repeated just if nothing else is. -/
theorem nodup_iff_length {names : List String}
    (h : ∀ name, name ∈ names ↔ name = "magnitude" ∨ name = "unit") :
    names.Nodup ↔ names.length = 2 := by
  have hmem : ∀ name, name ∈ names ↔ name ∈ ["magnitude", "unit"] := by simpa using h
  constructor
  · intro hnames
    exact ((List.perm_ext_iff_of_nodup hnames (by decide)).2 hmem).length_eq
  · intro hlength
    have hsubperm : ["magnitude", "unit"].Subperm names :=
      List.Nodup.subperm (by decide) fun name hname => (hmem name).2 hname
    exact (hsubperm.perm_of_length_le (Nat.le_of_eq hlength)).nodup_iff.1 (by decide)

/-- Where a text is read by names, the record has just what the trees that were taken say, and no
object that is read as a record has a name of its catalog twice. An object that is read as a
duration may repeat its names, and unless there are just two members it does; the duration is what
the last member of each name says. -/
theorem members_of_byName {text : String}
    (h : readRecord s ⟨.byName, depth⟩ m (.ofText text) = .ok r q) :
    ∃ t, (∀ u : Tree, Runs (.ofText text) u.events q ↔ u = t) ∧
      (∀ tag u o, Taken s m t r tag u o → ReadAs s depth tag u o) ∧
      (∀ n members o, Taken s m t r (.model n) (.object members) o →
        ∀ d ∈ s.catalog n, (members.map Prod.fst).count d.name ≤ 1) ∧
      ∀ members o, Taken s m t r .duration (.object members) o →
        ∃ d, o = some (.duration d) ∧
          (∀ name, name ∈ members.map Prod.fst ↔ name = "magnitude" ∨ name = "unit") ∧
          (Tree.member? members "magnitude").bind magnitude? = some d.magnitude ∧
          (Tree.member? members "unit").bind unit? = some d.unit ∧
          ((members.map Prod.fst).Nodup ↔ members.length = 2) := by
  obtain ⟨t, ht⟩ := exists_iff_of_readRecord rfl h
  have htext := (readRecord_eq_ok_iff rfl ((ht t).2 rfl)).1 h
  refine ⟨t, ht, fun tag u o htaken => htaken.readAs htext,
    fun n members o htaken d hd => htaken.count_le_one htext hd, fun members o htaken => ?_⟩
  obtain ⟨d, rfl, hnames, hmagnitude, hunit⟩ := htaken.duration htext
  have hmem : ∀ name, name ∈ members.map Prod.fst ↔ name = "magnitude" ∨ name = "unit" := by
    refine fun name => ⟨hnames name, ?_⟩
    rintro (rfl | rfl)
    · exact mem_of_bind_member? hmagnitude
    · exact mem_of_bind_member? hunit
  refine ⟨d, rfl, hmem, hmagnitude, hunit, ?_⟩
  rw [nodup_iff_length hmem, List.length_map]

/-- One model, with a number and a duration. -/
def throttles : Schema :=
  ⟨[⟨"Throttle", [⟨"value", .long, true, .long 0⟩,
    ⟨"period", .optional .duration, true, .absent⟩]⟩]⟩

/-- The members of a period with two magnitudes. -/
def twoMagnitudes : List (String × Tree) :=
  [("magnitude", .number "1"), ("magnitude", .number "2"), ("unit", .string "DAYS")]

def throttleTree : Tree := .object [("value", .number "0"), ("period", .object twoMagnitudes)]

def throttleText : String :=
  "\x7b\"value\":0,\"period\":\x7b\"magnitude\":1,\"magnitude\":2,\"unit\":\"DAYS\"\x7d\x7d"

/-- The throttle that is read, with the later of the two magnitudes. -/
def throttle : Record :=
  ⟨⟨0⟩, [("period", some (.duration ⟨2, .days⟩)), ("value", some (.long 0))]⟩

theorem readRecord_throttleText : ∃ q, Runs (.ofText throttleText) throttleTree.events q ∧
    readRecord throttles ⟨.byName, 0⟩ ⟨0⟩ (.ofText throttleText) = .ok throttle q := by
  have htext : Text .standard throttleTree throttleText.toList := by
    have hcompact : throttleText.toList = throttleTree.compact := by decide
    rw [hcompact]
    refine Json.Grammar.text_compact fun w hw => ?_
    simp [throttleTree, twoMagnitudes, Tree.within_scalar, Tree.within_object] at hw
    rcases hw with rfl | rfl | rfl
    · exact Json.Grammar.number_ofInt 0
    · exact Json.Grammar.number_ofInt 1
    · exact Json.Grammar.number_ofInt 2
  obtain ⟨q, -, hruns, -⟩ := Pull.runs_text htext
  exact ⟨q, hruns, (agrees_textRecord ⟨.byName, 0⟩ rfl hruns).ok _ rfl⟩

/-- A second magnitude is not refused: it replaces the first. -/
theorem repeated_magnitude :
    ∃ q, readRecord throttles ⟨.byName, 0⟩ ⟨0⟩ (.ofText throttleText) = .ok throttle q ∧
      Runs (.ofText throttleText) throttleTree.events q ∧
      Taken throttles ⟨0⟩ throttleTree throttle .duration (.object twoMagnitudes)
        (some (.duration ⟨2, .days⟩)) ∧
      (twoMagnitudes.map Prod.fst).count "magnitude" = 2 := by
  obtain ⟨q, hruns, hread⟩ := readRecord_throttleText
  have hcolumns : throttles.columns ⟨0⟩ = .ok [⟨"period", .duration⟩, ⟨"value", .long⟩] := rfl
  refine ⟨q, hread, hruns, ?_, by decide⟩
  exact .column (c := ⟨"period", .duration⟩) .root hcolumns (by decide) (by simp)

theorem members_of_byName_throttle :
    ∃ q, readRecord throttles ⟨.byName, 0⟩ ⟨0⟩ (.ofText throttleText) = .ok throttle q ∧
      ∀ members o, Taken throttles ⟨0⟩ throttleTree throttle .duration (.object members) o →
        ∃ d, o = some (.duration d) ∧
          (Tree.member? members "magnitude").bind magnitude? = some d.magnitude := by
  obtain ⟨q, hruns, hread⟩ := readRecord_throttleText
  obtain ⟨t, ht, -, -, hdurations⟩ := members_of_byName hread
  obtain rfl := (ht throttleTree).1 hruns
  refine ⟨q, hread, fun members o htaken => ?_⟩
  obtain ⟨d, ho, -, hmagnitude, -⟩ := hdurations members o htaken
  exact ⟨d, ho, hmagnitude⟩

end Wireform.Document
