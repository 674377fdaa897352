import Wireform.Schema.Basic

/-!
# Values and records

A record names a model type and lists fields with their values. Nothing ties it to what the model
declares: entries may be missing, repeated, unknown or of another type, and the encodings look each
column up by its name.
-/

namespace Wireform

/-- A model type and its entries; a field that is absent may be listed without a value. -/
structure RecordOf (V : Type) where
  model : ModelId
  entries : List (String × Option V)

/-- The value of a field that is present. -/
inductive Value where
  | bool (b : Bool)
  | str (s : String)
  | int (n : Int32)
  | long (n : Int64)
  | duration (d : Duration)
  | calendar (u : CalendarUnit)
  | zone (z : ZoneId)
  | list (items : List Value)
  | model (r : RecordOf Value)
  /-- A value of a type that no encoding knows, by the text that shows it. -/
  | foreign (text : String)

/-- A record that can be encoded, shown and set on an instance. -/
abbrev Record := RecordOf Value

/-- The first entry of that name; nothing if there is none or it is absent. -/
def RecordOf.get {V : Type} (r : RecordOf V) (name : String) : Option V :=
  (r.entries.lookup name).join

/-- Looking up commutes with what is done to each entry. This is for functions that go through the
entries themselves because they are part of a recursion through values. -/
theorem lookup_of_map {α β γ : Type} [BEq α] {f : List (α × β) → List (α × γ)} (g : β → γ)
    (hnil : f [] = []) (hcons : ∀ a b rest, f ((a, b) :: rest) = (a, g b) :: f rest)
    (entries : List (α × β)) (a : α) : (f entries).lookup a = (entries.lookup a).map g := by
  induction entries with
  | nil => rw [hnil]; rfl
  | cons e entries ih =>
    obtain ⟨b, c⟩ := e
    rw [hcons, List.lookup_cons, List.lookup_cons]
    split
    · rfl
    · exact ih

namespace Value

/-- The word that messages have for a value. -/
def kind : Value → String
  | bool _ => "bool"
  | str _ => "string"
  | int _ => "int"
  | long _ => "long"
  | duration _ => "duration"
  | calendar _ => "calendar unit"
  | zone _ => "time zone"
  | list _ => "list"
  | model _ => "model"
  | foreign _ => "opaque"

mutual

def beq : Value → Value → Bool
  | bool a, bool b => a == b
  | str a, str b => a == b
  | int a, int b => a == b
  | long a, long b => a == b
  | duration a, duration b => a == b
  | calendar a, calendar b => a == b
  | zone a, zone b => a == b
  | list a, list b => beqItems a b
  | model ⟨m, a⟩, model ⟨n, b⟩ => m == n && beqEntries a b
  | foreign a, foreign b => a == b
  | _, _ => false

def beqItems : List Value → List Value → Bool
  | [], [] => true
  | v :: vs, w :: ws => beq v w && beqItems vs ws
  | _, _ => false

def beqEntries : List (String × Option Value) → List (String × Option Value) → Bool
  | [], [] => true
  | (f, none) :: es, (g, none) :: gs => f == g && beqEntries es gs
  | (f, some v) :: es, (g, some w) :: gs => f == g && beq v w && beqEntries es gs
  | _, _ => false

end

mutual

/-- The equality test decides equality. The tests of values, items and entries recurse through one
another, and so do their correctness proofs. -/
theorem beq_iff : (v w : Value) → (beq v w = true ↔ v = w)
  | bool _, w | str _, w | int _, w | long _, w | duration _, w | calendar _, w | zone _, w
  | foreign _, w => by cases w <;> simp [beq]
  | list a, w => by cases w <;> simp [beq, beqItems_iff a]
  | model ⟨m, a⟩, w => by
    cases w with
    | model r => obtain ⟨n, b⟩ := r; simp [beq, beqEntries_iff a]
    | _ => simp [beq]

theorem beqItems_iff : (vs ws : List Value) → (beqItems vs ws = true ↔ vs = ws)
  | [], ws => by cases ws <;> simp [beqItems]
  | v :: vs, ws => by cases ws <;> simp [beqItems, beq_iff v, beqItems_iff vs]

theorem beqEntries_iff :
    (es gs : List (String × Option Value)) → (beqEntries es gs = true ↔ es = gs)
  | [], gs => by cases gs <;> simp [beqEntries]
  | (f, none) :: es, gs => by
    rcases gs with _ | ⟨⟨g, _ | w⟩, gs⟩ <;> simp [beqEntries, beqEntries_iff es]
  | (f, some v) :: es, gs => by
    rcases gs with _ | ⟨⟨g, _ | w⟩, gs⟩ <;>
      simp [beqEntries, beq_iff v, beqEntries_iff es, and_assoc]

end

instance : DecidableEq Value := fun v w => decidable_of_iff _ (beq_iff v w)

end Value

deriving instance DecidableEq for RecordOf

/-! ## Texts -/

namespace Value

mutual

/-- The text that shows a value. -/
def text (s : Schema) : Value → String
  | bool b => if b then "true" else "false"
  | str t => t
  | int n => Decimal.text n.toInt
  | long n => Decimal.text n.toInt
  | duration d => d.text
  | calendar u => u.name
  | zone z => z.text
  | list items => "[" ++ String.intercalate ", " (itemTexts s items) ++ "]"
  | model ⟨m, entries⟩ => s.name m ++ "[" ++ String.intercalate "," (entryTexts s entries) ++ "]"
  | foreign t => t

def itemTexts (s : Schema) : List Value → List String
  | [] => []
  | v :: rest => text s v :: itemTexts s rest

def entryTexts (s : Schema) : List (String × Option Value) → List String
  | [] => []
  | (name, none) :: rest => (name ++ "=null") :: entryTexts s rest
  | (name, some v) :: rest => (name ++ "=" ++ text s v) :: entryTexts s rest

end

end Value

/-- The text that shows a record. -/
def RecordOf.text (s : Schema) (r : Record) : String := (Value.model r).text s

end Wireform
