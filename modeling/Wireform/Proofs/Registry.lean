import Wireform.Proofs.Schema.Validation
import Wireform.Registry

/-!
# Registrations one after the other

A registry grows by the models whose registration succeeds, and a registration that fails leaves it
as it was. So every name stands for the first model of that name which passed the check, and reading
by the name is reading that model (`registered_consistent`). The invariant of a registration is
`Checked`: no name stands twice, and every model has passed the check.
-/

namespace Wireform.Registry

variable {s : Schema} {r q : Registry} {m n : ModelId} {name : String} {ms : List ModelId}
  {e : ModelError}

/-- The registry after the registrations, those that failed included. -/
def registered (s : Schema) (ms : List ModelId) (r : Registry) : Registry :=
  ms.foldl (fun r m => Step.after (register s m r)) r

/-- The models whose registration succeeds. -/
def accepted (s : Schema) : List ModelId → Registry → List ModelId
  | [], _ => []
  | m :: ms, r =>
    match register s m r with
    | .ok _ r => m :: accepted s ms r
    | .error _ r => accepted s ms r

/-! ## One registration -/

/-- A lookup fails exactly for the names that are not registered. -/
theorem get?_eq_none_iff : r.get? name = none ↔ name ∉ r.names := lookup_eq_none_iff

/-- The membership test agrees with the list of names. -/
theorem contains_iff : r.contains name = true ↔ name ∈ r.names := by
  rw [contains, Option.isSome_iff_ne_none, Ne, get?_eq_none_iff, not_not]

/-- A model that is not valid leaves the registry as it was. -/
theorem register_of_invalid (h : s.validate m = .error e) : register s m r = .error e r := by
  rw [register, h]
  rfl

/-- What can come of a registration. -/
theorem register_cases (s : Schema) (m : ModelId) (r : Registry) :
    (∃ e, s.validate m = .error e ∧ register s m r = .error e r) ∨
    (s.validate m = .ok () ∧ s.name m ∈ r.names ∧
      register s m r = .error (.duplicateModel (s.name m)) r) ∨
    (s.validate m = .ok () ∧ s.name m ∉ r.names ∧
      register s m r = .ok () ⟨r.models ++ [(s.name m, m)]⟩) := by
  cases hvalid : s.validate m with
  | error e => exact .inl ⟨e, rfl, register_of_invalid hvalid⟩
  | ok u =>
    have hregister : register s m r =
        (if r.contains (s.name m) then throw (.duplicateModel (s.name m))
          else set (Registry.mk (r.models ++ [(s.name m, m)])) : Step _ _ _) r := by
      rw [register, hvalid]
      rfl
    by_cases hname : s.name m ∈ r.names
    · rw [if_pos (contains_iff.2 hname)] at hregister
      exact .inr (.inl ⟨rfl, hname, hregister⟩)
    · rw [if_neg (mt contains_iff.1 hname)] at hregister
      exact .inr (.inr ⟨rfl, hname, hregister⟩)

/-- A registration is refused if the model does not pass the check, and otherwise if its name is
taken. It leaves the registry as it was if it is refused. -/
structure Registers (s : Schema) (m : ModelId) (r : Registry) : Prop where
  unsupported : (∃ site shape q, register s m r = .error (.unsupportedField site shape) q) ↔
    s.validate m ≠ .ok ()
  duplicate : ∀ name, (∃ q, register s m r = .error (.duplicateModel name) q) ↔
    s.validate m = .ok () ∧ name = s.name m ∧ name ∈ r.names
  succeeds : (∃ q, register s m r = .ok () q) ↔ s.validate m = .ok () ∧ s.name m ∉ r.names
  unchanged : ∀ e q, register s m r = .error e q → q = r

theorem registers (s : Schema) (m : ModelId) (r : Registry) : Registers s m r := by
  rcases register_cases s m r with ⟨e, hvalid, h⟩ | ⟨hvalid, hname, h⟩ | ⟨hvalid, hname, h⟩
  · obtain ⟨n, -, hcolumns⟩ := Schema.exists_of_validate_error hvalid
    obtain ⟨d, -, rfl⟩ := Schema.exists_of_columns_error hcolumns
    constructor <;> simp [h, hvalid, eq_comm]
  · constructor <;> simp [h, hvalid, hname, eq_comm]
  · constructor <;> simp [h, hvalid, hname]

/-! ## Many registrations -/

/-- No name stands twice, and every model has passed the check. -/
structure Checked (s : Schema) (r : Registry) : Prop where
  nodup : r.names.Nodup
  valid : ∀ entry ∈ r.models, s.validate entry.2 = .ok ()

theorem checked_empty (s : Schema) : Checked s .empty := ⟨List.nodup_nil, nofun⟩

theorem Checked.register (h : Checked s r) (m : ModelId) :
    Checked s (Step.after (register s m r)) := by
  rcases register_cases s m r with ⟨e, -, hr⟩ | ⟨-, -, hr⟩ | ⟨hvalid, hname, hr⟩
  · rwa [hr]
  · rwa [hr]
  · rw [hr]
    constructor
    · simp only [Step.after_ok, names, List.map_append, List.map_singleton] at hname ⊢
      refine List.nodup_append.2 ⟨h.nodup, List.nodup_singleton _, fun a ha b hb hab => hname ?_⟩
      rwa [← List.mem_singleton.1 hb, ← hab]
    · intro entry hentry
      rcases List.mem_append.1 hentry with hentry | hentry
      · exact h.valid entry hentry
      · rwa [List.mem_singleton.1 hentry]

/-- Registration keeps names distinct and models valid, over any sequence. -/
theorem checked_registered (h : Checked s r) (ms : List ModelId) :
    Checked s (registered s ms r) := by
  induction ms generalizing r with
  | nil => exact h
  | cons m ms ih => exact ih (h.register m)

/-- Each registration that succeeds adds its model at the end. -/
theorem models_registered (s : Schema) (ms : List ModelId) (r : Registry) :
    (registered s ms r).models = r.models ++ (accepted s ms r).map fun m => (s.name m, m) := by
  induction ms generalizing r with
  | nil => exact (List.append_nil _).symm
  | cons m ms ih =>
    rw [registered, List.foldl_cons, ← registered, ih, accepted]
    rcases register_cases s m r with ⟨e, -, hr⟩ | ⟨-, -, hr⟩ | ⟨-, -, hr⟩
    · rw [hr, Step.after_error]
    · rw [hr, Step.after_error]
    · rw [hr, Step.after_ok, List.append_assoc]
      rfl

/-- The names of a registry are those of the accepted models, in order. -/
theorem names_registered (s : Schema) (ms : List ModelId) :
    (registered s ms .empty).names = (accepted s ms .empty).map s.name := by
  rw [names, models_registered, List.map_append, List.map_map]
  rfl

/-- The model passes the check and has the name. -/
def suits (s : Schema) (name : String) (m : ModelId) : Bool :=
  (s.validate m).isOk && s.name m = name

theorem suits_of_name_ne (h : s.name m ≠ name) : suits s name m = false := by
  rw [suits, decide_eq_false h, Bool.and_false]

/-- A name that is taken keeps its model. -/
theorem get?_register (s : Schema) (m : ModelId) (r : Registry) (name : String) :
    (Step.after (register s m r)).get? name =
      (r.get? name).or (if suits s name m then some m else none) := by
  rcases register_cases s m r with ⟨e, hvalid, hr⟩ | ⟨hvalid, htaken, hr⟩ | ⟨hvalid, -, hr⟩
  · simp [hr, suits, hvalid, Except.isOk, Except.toBool]
  · rw [hr, Step.after_error]
    split
    · next hsuits =>
      obtain rfl : s.name m = name := of_decide_eq_true (Bool.and_eq_true_iff.1 hsuits).2
      have hsome : (r.get? (s.name m)).isSome := contains_iff.2 htaken
      rw [Option.or_of_isSome hsome]
    · exact (Option.or_none).symm
  · have hsuits : suits s name m = decide (s.name m = name) := by
      simp [suits, hvalid, Except.isOk, Except.toBool]
    rw [hr, Step.after_ok, get?, List.lookup_append, hsuits]
    congr 1
    by_cases hname : s.name m = name
    · rw [hname, List.lookup_cons_self]
      simp
    · have hne : (name == s.name m) = false := beq_eq_false_iff_ne.2 (Ne.symm hname)
      rw [List.lookup_cons, hne]
      simp [hname]

/-- A name is bound to the model it was bound to before, or else to the first of the registered
models that is valid and has it. -/
theorem get?_registered (s : Schema) (ms : List ModelId) (r : Registry) (name : String) :
    (registered s ms r).get? name = (r.get? name).or (ms.find? (suits s name)) := by
  induction ms generalizing r with
  | nil => exact (Option.or_none).symm
  | cons m ms ih =>
    rw [registered, List.foldl_cons, ← registered, ih, get?_register, Option.or_assoc,
      List.find?_cons]
    congr 1
    cases suits s name m <;> rfl

/-! ## Reading by a name -/

/-- Reading by the name may end in the error. -/
inductive Fails (s : Schema) (r : Registry) (name : String) (e : ModelError) : Prop
  | document {options : Document.Options} {p p' : Json.Pull} :
    r.readDocument s name options p = .error e p' → Fails s r name e
  | binary {c c' : Cursor} : r.readBinary s name c = .error e c' → Fails s r name e
  | tree {t : Json.Tree} : r.readTree s name t = .error e → Fails s r name e

/-- Reading by the name is reading the model, and no unsupported field is ever met. -/
structure ReadsAs (s : Schema) (r : Registry) (name : String) (m : ModelId) : Prop where
  document : ∀ options, r.readDocument s name options = Document.readRecord s options m
  binary : r.readBinary s name = Binary.readRecord s .standard m
  tree : ∀ t, r.readTree s name t = Document.ofTree s Document.standardDepth m t
  supported : ∀ e, Fails s r name e → ∀ site shape, e ≠ .unsupportedField site shape

/-- Nothing is read by the name, and nothing is moved on. -/
structure Unknown (s : Schema) (r : Registry) (name : String) : Prop where
  document : ∀ options p, r.readDocument s name options p = .error (.unknownModel name) p
  binary : ∀ c, r.readBinary s name c = .error (.unknownModel name) c
  tree : ∀ t, r.readTree s name t = .error (.unknownModel name)

theorem find_of_get? (h : r.get? name = some m) : r.find name = .ok m := by rw [find, h]

theorem find_of_not_mem (h : name ∉ r.names) : r.find name = .error (.unknownModel name) := by
  rw [find, get?_eq_none_iff.2 h]

/-- Reads by a name that is not registered fail with that name, in every format. -/
theorem unknown_of_not_mem (h : name ∉ r.names) : Unknown s r name := by
  have hfind := find_of_not_mem h
  constructor
  · intro options p
    rw [readDocument, hfind]
    rfl
  · intro c
    rw [readBinary, hfind]
    rfl
  · intro t
    rw [readTree, hfind]
    rfl

/-- Reads by a registered name are the reads of its model, in every format. -/
theorem Checked.readsAs (h : Checked s r) (hm : r.get? name = some m) : ReadsAs s r name m := by
  have hfind := find_of_get? hm
  have hvalid : s.validate m = .ok () := by
    obtain ⟨before, after, hmodels, -⟩ := List.lookup_eq_some_iff.1 hm
    exact h.valid (name, m) (by rw [hmodels]; exact List.mem_append_right _ List.mem_cons_self)
  have hdocument (options : Document.Options) :
      r.readDocument s name options = Document.readRecord s options m := by
    rw [readDocument, hfind]
    rfl
  have hbinary : r.readBinary s name = Binary.readRecord s .standard m := by
    rw [readBinary, hfind]
    rfl
  have htree (t : Json.Tree) :
      r.readTree s name t = Document.ofTree s Document.standardDepth m t := by
    rw [readTree, hfind]
    rfl
  refine ⟨hdocument, hbinary, htree, fun e he => ?_⟩
  have hfails : s.Fails m e := by
    cases he with
    | document he => exact .documentRecord (hdocument _ ▸ he)
    | binary he => exact .binaryRecord (hbinary ▸ he)
    | tree he => exact .treeRecord (htree _ ▸ he)
  exact hfails.blames.ne hvalid

/-- Whatever is registered one after the other, the names are those of the registrations that
succeeded, each once. What comes of one more registration depends on the check of its model and on
whether its name is taken. A name stands for the first model of that name that passes the check, and
reading by the name is reading that model. -/
theorem registered_consistent (s : Schema) (ms : List ModelId) :
    let r := registered s ms .empty
    r.names = (accepted s ms .empty).map s.name ∧ r.names.Nodup ∧
    (∀ m, Registers s m r) ∧
    (∀ name, r.get? name = ms.find? (suits s name)) ∧
    (∀ name m, r.get? name = some m → ReadsAs s r name m) ∧
    ∀ name, name ∉ r.names → Unknown s r name := by
  have hchecked := checked_registered (checked_empty s) ms
  refine ⟨names_registered s ms, hchecked.nodup, fun m => registers s m _, fun name => ?_,
    fun name m => hchecked.readsAs, fun name => unknown_of_not_mem⟩
  rw [get?_registered]
  rfl

/-- Two models of one name, and a third that has no encoding. -/
def clashing : Schema :=
  ⟨[⟨"Pair", [⟨"a", .int, true, .int 0⟩]⟩, ⟨"Pair", []⟩,
    ⟨"Score", [⟨"ratio", .foreign "f64", true, .foreign "0.0"⟩]⟩]⟩

theorem validate_clashing : clashing.validate ⟨0⟩ = .ok () := by
  have hcolumns : clashing.columns ⟨0⟩ = .ok [⟨"a", .int⟩] := rfl
  rw [Schema.validate, Schema.visit_of_columns List.not_mem_nil hcolumns]
  simp [Schema.nestedModels, Tag.nested?, Schema.visit]

/-- The model without an encoding and the second one of the name are refused. -/
theorem registered_consistent_clashing :
    let r := registered clashing [⟨2⟩, ⟨0⟩, ⟨1⟩] .empty
    r.get? "Pair" = some ⟨0⟩ ∧ ReadsAs clashing r "Pair" ⟨0⟩ ∧
      "Score" ∉ r.names ∧ Unknown clashing r "Score" := by
  intro r
  obtain ⟨-, -, -, hget, hreads, hunknown⟩ := registered_consistent clashing [⟨2⟩, ⟨0⟩, ⟨1⟩]
  have hscore : suits clashing "Score" ⟨2⟩ = false := by
    rw [suits, Schema.validate, Schema.visit_of_error List.not_mem_nil rfl]
    rfl
  have hpair : suits clashing "Pair" ⟨0⟩ = true := by
    rw [suits, validate_clashing]
    decide
  have hfound : r.get? "Pair" = some ⟨0⟩ := by
    have hother : suits clashing "Pair" ⟨2⟩ = false := suits_of_name_ne (by decide)
    simp only [r, hget, List.find?_cons, hother, hpair]
  have hmissing : "Score" ∉ r.names := by
    have hfirst : suits clashing "Score" ⟨0⟩ = false := suits_of_name_ne (by decide)
    have hsecond : suits clashing "Score" ⟨1⟩ = false := suits_of_name_ne (by decide)
    rw [← get?_eq_none_iff]
    simp only [r, hget, List.find?_cons, List.find?_nil, hscore, hfirst, hsecond]
  exact ⟨hfound, hreads _ _ hfound, hmissing, hunknown _ hmissing⟩

end Wireform.Registry
