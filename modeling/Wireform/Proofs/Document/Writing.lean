import Wireform.Document.Write
import Wireform.Proofs.Json.Drafting
import Wireform.Proofs.Value.Normal

/-!
# What is written for a record

A record is written as the compact spelling of a tree, which is that of its normal form:
`RecordOf.tree` has a member for each entry, and `null` where the entry has nothing. Main statement:
writing a well-typed record is drafting that spelling (`write_eq`).
-/

namespace Wireform

open Json (Draft Tree)

/-! ## Trees of values -/

namespace Value

mutual

/-- The tree that a value is written as. -/
def tree : Value → Tree
  | bool b => .bool b
  | str t => .string t
  | int n => .number (Decimal.text n.toInt)
  | long n => .number (Decimal.text n.toInt)
  | duration d =>
    .object [("magnitude", .number (Decimal.text d.magnitude.toInt)), ("unit", .string d.unit.name)]
  | calendar u => .string u.name
  | zone z => .string z.text
  | list items => .array (treeItems items)
  | model ⟨_, entries⟩ => .object (treeEntries entries)
  | foreign _ => .null

def treeItems : List Value → List Tree
  | [] => []
  | v :: rest => tree v :: treeItems rest

def treeEntries : List (String × Option Value) → List (String × Tree)
  | [] => []
  | (name, none) :: rest => (name, .null) :: treeEntries rest
  | (name, some v) :: rest => (name, tree v) :: treeEntries rest

end

end Value

namespace RecordOf

/-- A member for each entry. -/
def members (r : Record) : List (String × Tree) :=
  r.entries.map fun e => (e.1, e.2.elim .null Value.tree)

/-- The tree that a record is written as. -/
def tree (r : Record) : Tree := .object r.members

theorem members_normal {s : Schema} {r : Record} {cs : List Column}
    (h : s.columns r.model = .ok cs) : (r.normal s).members =
      cs.map fun c => (c.name, ((r.get c.name).map (Value.normal s)).elim .null Value.tree) := by
  rw [members, entries_normal h, List.map_map]
  rfl

end RecordOf

namespace Value

@[simp] theorem tree_list (items : List Value) : (list items).tree = .array (items.map tree) := by
  have hitems : treeItems items = items.map tree := by
    induction items with
    | nil => rfl
    | cons v items ih => rw [treeItems, ih, List.map_cons]
  rw [tree, hitems]

@[simp] theorem tree_model (r : Record) : (model r).tree = r.tree := by
  obtain ⟨m, entries⟩ := r
  have hentries : treeEntries entries = entries.map fun e => (e.1, e.2.elim .null tree) := by
    induction entries with
    | nil => rfl
    | cons e entries ih =>
      obtain ⟨name, _ | v⟩ := e <;> rw [treeEntries, ih, List.map_cons] <;> rfl
  rw [tree, hentries, RecordOf.tree, RecordOf.members]

theorem compact_int (n : Int32) : (int n).tree.compact = Decimal.ofInt n.toInt := by
  rw [tree, Tree.compact, Decimal.text, String.toList_ofList]

theorem compact_long (n : Int64) : (long n).tree.compact = Decimal.ofInt n.toInt := by
  rw [tree, Tree.compact, Decimal.text, String.toList_ofList]

/-- The numbers in the tree of a value are whole. -/
theorem spelled_tree (v : Value) : v.tree.Spelled := by
  have hnumber (n : Int) (w : String) (h : (Tree.number w).Within (.number (Decimal.text n))) :
      Json.Grammar.Number w.toList := by
    cases h
    rw [Decimal.text, String.toList_ofList]
    exact Json.Grammar.number_ofInt n
  induction v using nested_induction with
  | scalar v hscalar =>
    intro w hw
    cases v with
    | list | model => cases hscalar
    | int n => exact hnumber _ w hw
    | long n => exact hnumber _ w hw
    | duration d =>
      cases hw with
      | member hw hmem =>
        simp only [List.mem_cons, List.not_mem_nil, or_false, Prod.mk.injEq] at hmem
        rcases hmem with ⟨-, rfl⟩ | ⟨-, rfl⟩
        · exact hnumber _ w hw
        · cases hw
    | _ => cases hw
  | list items ih =>
    intro w hw
    rw [tree_list] at hw
    cases hw with
    | item hw hmem =>
      obtain ⟨v, hv, rfl⟩ := List.mem_map.1 hmem
      exact ih v hv w hw
  | model r ih =>
    intro w hw
    rw [tree_model] at hw
    cases hw with
    | member hw hmem =>
      obtain ⟨⟨name, _ | v⟩, he, hmem⟩ := List.mem_map.1 hmem
      · cases hmem
        cases hw
      · cases hmem
        exact ih name v he w hw

end Value

namespace Document

variable {s : Schema} {site : Site} {m : ModelId} {items : List Value}

/-! ## Drafting on behalf of a model -/

theorem draft_bind {α β : Type} (x : Draft.Move α) (f : α → Draft.Move β) :
    draft (x >>= f) = draft x >>= fun a => draft (f a) := by
  funext d
  rw [draft, Step.adaptExcept_apply, Step.bind_apply, Step.bind_apply, draft,
    Step.adaptExcept_apply]
  cases x d with
  | ok a d => exact (Step.adaptExcept_apply _ _ _).symm
  | error e d => rfl

theorem draft_forM {α : Type} (xs : List α) (f : α → Draft.Move Unit) :
    draft (xs.forM f) = xs.forM fun x => draft (f x) := by
  induction xs with
  | nil => rfl
  | cons x xs ih => exact (draft_bind _ _).trans (congrArg _ (funext fun _ => ih))

theorem forM_congr {α β : Type} {xs : List α} {f : α → Move Unit} {g : β → Move Unit} (k : α → β)
    (h : ∀ x ∈ xs, f x = g (k x)) : xs.forM f = (xs.map k).forM g := by
  induction xs with
  | nil => rfl
  | cons x xs ih =>
    obtain ⟨hx, hxs⟩ := List.forall_mem_cons.1 h
    change (f x >>= fun _ => xs.forM f) = (g (k x) >>= fun _ => (xs.map k).forM g)
    rw [hx, ih hxs]

theorem draft_array (items : List Tree) :
    (do
      draft Draft.startArray
      items.forM fun t => draft (Draft.element t)
      draft Draft.endArray) = draft (Draft.scalar (Tree.array items).compact) := by
  rw [← Draft.array_eq, draft_bind, ← draft_forM]
  congr 1
  funext _
  rw [draft_bind]

theorem draft_object (members : List (String × Tree)) :
    (do
      draft Draft.startObject
      members.forM fun member => draft (Draft.member member)
      draft Draft.endObject) = draft (Draft.scalar (Tree.object members).compact) := by
  rw [← Draft.object_eq, draft_bind, ← draft_forM]
  congr 1
  funext _
  rw [draft_bind]

/-! ## Values -/

theorem duration_eq (d : Duration) :
    duration d = draft (Draft.scalar (Value.duration d).tree.compact) := by
  have hmagnitude : Draft.long d.magnitude =
      Draft.scalar (Tree.number (Decimal.text d.magnitude.toInt)).compact :=
    congrArg Draft.scalar (Value.compact_long d.magnitude).symm
  rw [Value.tree, ← draft_object]
  simp only [List.forM_eq_forM, List.forM_cons, List.forM_nil, Draft.member, draft_bind, bind_assoc,
    pure_bind, ← hmagnitude]
  rfl

open Value (Fits)

/-- A list is written as its elements are, one after the other, if all are of the type asked for. -/
theorem elements_eq {one list : Tag} (h : ∀ v ∈ items, Fits s one v) :
    (format s).elements items site one list =
      items.forM fun v => (format s).value v site one := by
  induction items with
  | nil => rfl
  | cons v items ih =>
    obtain ⟨hv, hitems⟩ := List.forall_mem_cons.1 h
    rw [Format.elements, if_pos hv.suits, ih hitems]
    rfl

/-- A record is drafted as an object of its columns. -/
theorem write_eq_of_columns {r : Record} {cs : List Column} (hcs : s.columns r.model = .ok cs)
    (h : ∀ c ∈ cs, ∀ v, r.get c.name = some v →
      (format s).value v ⟨s.name r.model, c.name⟩ c.tag =
        draft (Draft.scalar (v.normal s).tree.compact)) :
    write s r = draft (Draft.scalar (r.normal s).tree.compact) := by
  let member (c : Column) : String × Tree :=
    (c.name, ((r.get c.name).map (Value.normal s)).elim .null Value.tree)
  have hmember : ∀ c ∈ cs, column s r.model ((format s).writings r.entries) c =
      draft (Draft.member (member c)) := by
    intro c hc
    rw [column_writings, Draft.member, draft_bind]
    congr 1
    funext _
    dsimp only [member]
    cases hv : r.get c.name with
    | none => rfl
    | some v => exact h c hc v hv
  rw [RecordOf.tree, RecordOf.members_normal hcs, ← draft_object,
    ← forM_congr (g := fun m => draft (Draft.member m)) member hmember, write_eq_object s hcs]

/-- The invariant of the recursion through nested records: a value of the type asked for is written
as the tree of its normal form, wherever it stands. -/
theorem value_eq {root : ModelId} {v : Value} {tag : Tag}
    (hvalid : ∀ n, s.Reaches root n → ∃ cs, s.columns n = .ok cs) (h : Fits s tag v)
    (hreach : ∀ n, tag.nested? = some n → s.Reaches root n) :
    (format s).value v site tag = draft (Draft.scalar (v.normal s).tree.compact) := by
  induction h generalizing site with
  | bool b => rfl
  | str t => rfl
  | int n =>
    change draft (Draft.scalar (Decimal.ofInt n.toInt64.toInt)) = draft (Draft.scalar _)
    rw [Int32.toInt_toInt64, ← Value.compact_int]
    rfl
  | long n =>
    change draft (Draft.scalar (Decimal.ofInt n.toInt)) = draft (Draft.scalar _)
    rw [← Value.compact_long]
    rfl
  | duration d => exact duration_eq d
  | calendar u => rfl
  | zone z => rfl
  | @strList items hitems ih =>
    rw [Value.normal_list, Value.tree_list, List.map_map, ← draft_array,
      ← forM_congr (f := fun v => (format s).value v site .str) (Value.tree ∘ Value.normal s),
      ← elements_eq hitems]
    · rfl
    · intro v hv
      exact ih v hv nofun
  | @modelList n items hitems ih =>
    rw [Value.normal_list, Value.tree_list, List.map_map, ← draft_array,
      ← forM_congr (f := fun v => (format s).value v site (.model n)) (Value.tree ∘ Value.normal s),
      ← elements_eq hitems]
    · rfl
    · intro v hv
      exact ih v hv hreach
  | @model r hcols ih =>
    obtain ⟨cs, hcs⟩ := hvalid _ (hreach _ rfl)
    rw [Format.value_model, Value.normal_model, Value.tree_model]
    apply write_eq_of_columns hcs
    intro c hc v hv
    apply ih cs hcs c hc v hv
    intro k hk
    exact (hreach _ rfl).column hcs hc hk

/-- Writing a well-typed record is drafting the compact spelling of its tree. -/
theorem write_eq {r : Record} (h : r.WellTyped s) :
    write s r = draft (Draft.scalar (r.normal s).tree.compact) := by
  rw [← Value.tree_model, ← Value.normal_model, write, ← Format.value_model _ r ⟨"", ""⟩]
  apply value_eq (fun n hn => Schema.columns_of_validate h.valid hn) h.fits
  intro n hn
  cases hn
  exact .refl

end Document

end Wireform
