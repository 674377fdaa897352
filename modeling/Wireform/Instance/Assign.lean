import Wireform.Instance.Capture
import Wireform.Step

/-!
# Assigning values to fields

A value may be assigned to a field, exposed or not, if it has the field's declared shape. A record
is assigned to a field that holds a model by making a new instance of that model and assigning the
entries of the record to it in turn.
-/

namespace Wireform

/-- Wraps what a field holds when it is present in the layers that say it is not absent. -/
def Shape.wrap : Shape → Cell → Cell
  | .optional item, c => .present (item.wrap c)
  | _, c => c

/-- A shape without the layers that let it be absent. -/
def Shape.bare : Shape → Shape
  | .optional item => item.bare
  | shape => shape

namespace InstanceOf

/-- Puts a cell in place of the one a field holds. -/
def put (i : Instance) (name : String) (c : Cell) : Instance :=
  { i with fields := i.fields.map fun f => if f.1 = name then (f.1, c) else f }

end InstanceOf

namespace Value

variable (s : Schema)

/-- How a value becomes a cell once it is known for which field and of which shape. -/
abbrev Conversion := Site → Shape → Except ModelError Cell

/-- Assigns to one field, given how its new value becomes a cell. -/
def assignWith (i : Instance) (name : String) (convert : Conversion) :
    Except ModelError Instance :=
  match s.field? i.model name with
  | none => .error (.unknownField ⟨s.name i.model, name⟩)
  | some d => do return i.put name (← convert ⟨s.name i.model, d.name⟩ d.shape)

/-- Assigns the entries that are present, in turn. -/
def assignEntries (i : Instance) : List (String × Option Conversion) → Except ModelError Instance
  | [] => .ok i
  | (_, none) :: rest => assignEntries i rest
  | (name, some convert) :: rest => do assignEntries (← assignWith s i name convert) rest

/-- A new instance of `expected` with the entries of a record of `found`. -/
def instanceWith (expected found : ModelId) (entries : List (String × Option Conversion)) :
    Except ModelError Instance :=
  if found = expected then assignEntries s (s.initial expected) entries
  else .error (.wrongModel (s.name expected) (s.name found))

mutual

/-- The cell that a value makes under the shape of a field. All layers that let the field be absent
are put around what the value makes of the bare shape. -/
def cell (v : Value) (site : Site) (shape : Shape) : Except ModelError Cell :=
  shape.wrap <$> match v, shape.bare with
    | bool b, .bool => .ok (.bool b)
    | str t, .str => .ok (.str t)
    | int n, .int => .ok (.int n)
    | long n, .long => .ok (.long n)
    | duration d, .duration => .ok (.duration d)
    | calendar u, .calendar => .ok (.calendar u)
    | zone z, .zone => .ok (.zone z)
    | list items, .list item => .list <$> cells items site item
    | model ⟨n, entries⟩, .model m => .model <$> instanceWith s m n (conversions entries)
    | v, bare => .error (.typeMismatch site (bare.text s) v.kind)

def cells : List Value → Site → Shape → Except ModelError (List Cell)
  | [], _, _ => .ok []
  | v :: rest, site, item => do
    let c ← cell v site item
    return c :: (← cells rest site item)

def conversions : List (String × Option Value) → List (String × Option Conversion)
  | [] => []
  | (name, none) :: rest => (name, none) :: conversions rest
  | (name, some v) :: rest => (name, some (cell v)) :: conversions rest

end

end Value

namespace InstanceOf

variable (s : Schema)

/-- Sets a field, exposed or not, to a value that suits its shape. -/
def assign (i : Instance) (name : String) (v : Value) : Except ModelError Instance :=
  Value.assignWith s i name (v.cell s)

/-- Assigns to a field of the instance that is the state. -/
def set (name : String) (v : Value) : Step ModelError Instance Unit := do
  let i ← getThe Instance
  match s.field? i.model name with
  | none => throw (.unknownField ⟨s.name i.model, name⟩)
  | some d =>
    let c ← Step.ofExcept (v.cell s ⟨s.name i.model, d.name⟩ d.shape)
    modify fun i => i.put name c

/-- A new instance of `m` with the entries of a record, which has to be of `m` too. -/
def ofRecord (m : ModelId) (r : Record) : Except ModelError Instance :=
  Value.instanceWith s m r.model (Value.conversions s r.entries)

/-- Assigns values in turn. -/
def assignAll (i : Instance) (sets : List (String × Value)) : Except ModelError Instance :=
  sets.foldlM (fun i e => i.assign s e.1 e.2) i

end InstanceOf

end Wireform
