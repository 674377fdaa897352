import Wireform.Bytes.Emission
import Wireform.Value.Format

/-!
# Records in binary

A record is written as its columns in the order of the catalog: a byte that says whether the field
is present, then its value. Names are not written, so only a reader with the same catalog can tell
what the bytes mean.
-/

namespace Wireform.Binary

/-- A byte that says whether something holds. -/
def flag (b : Bool) : List UInt8 := [if b then 1 else 0]

/-- A length has to fit in 32 bits. -/
def length (n : Nat) : Emission BufferError :=
  if n < Word.size 4 then .of (Varint.encode n) else .fail .overflow

/-- The length of a text counts its bytes. -/
def text (t : String) : Emission BufferError := length t.utf8ByteSize ++ .of (Utf8.encode t)

/-- A list of models has a signed length of four bytes. -/
def count (n : Nat) : Emission BufferError :=
  if n < Word.size 4 / 2 then .of (Word.toBytes 4 n) else .fail .overflow

/-- A signed number is folded, so that one near zero stays short. -/
def long (n : Int64) : List UInt8 := Varint.encode (Varint.zigzag n.toInt)

/-- The magnitude, and the position of the unit. -/
def duration (d : Duration) : List UInt8 := long d.magnitude ++ [UInt8.ofNat d.unit.ordinal]

variable (s : Schema)

/-- The failure for a value of another type than the column asks for. -/
def mismatch (v : Value) (site : Site) (tag : Tag) : Emission ModelError :=
  .fail (.typeMismatch site (tag.text s) v.kind)

/-- A failure at the level of bytes, on behalf of a model. -/
def ofBuffer (e : Emission BufferError) : Emission ModelError := e.mapFailure .buffer

/-- The columns of a model, given how the value found for each name is written. -/
def columns (m : ModelId) (entries : List (String × Option (Site → Tag → Emission ModelError))) :
    Emission ModelError :=
  match s.columns m with
  | .error e => .fail e
  | .ok columns => .concat <| columns.map fun c =>
      match (entries.lookup c.name).join with
      | none => .of (flag false)
      | some write => .of (flag true) ++ write ⟨s.name m, c.name⟩ c.tag

/-- Nothing but the lengths and the flags is written beside the values themselves. -/
def format : Format (Emission ModelError) where
  bool b := .of (flag b)
  str t := ofBuffer (text t)
  int n := .of (Word.ofInt32 n)
  long n := .of (Word.ofInt64 n)
  duration d := .of (duration d)
  calendar u := .of (Varint.encode u.ordinal)
  zone z := ofBuffer (text z.text)
  strList n items := ofBuffer (length n) ++ items
  modelList n items := ofBuffer (count n) ++ items
  model := columns s
  nothing := .of []
  append := (· ++ ·)
  mismatch := mismatch s

/-- What a record sends out. -/
def record (r : Record) : Emission ModelError := (format s).record r

/-- A list of texts is written behind its length and without a flag before each element. -/
theorem value_texts (items : List Value) (site : Site) :
    (format s).value (.list items) site .strList =
      ofBuffer (length items.length) ++ (format s).elements items site .str .strList := rfl

/-- A list of models is written behind its count and without a flag before each element. -/
theorem value_models (items : List Value) (site : Site) (m : ModelId) :
    (format s).value (.list items) site (.modelList m) =
      ofBuffer (count items.length) ++ (format s).elements items site (.model m) (.modelList m) := rfl

/-- A record is written as what it has for each column of its model. -/
theorem record_eq {r : Record} {cs : List Column} (h : s.columns r.model = .ok cs) :
    record s r = .concat (cs.map fun c =>
      match r.get c.name with
      | none => .of (flag false)
      | some v => .of (flag true) ++ (format s).value v ⟨s.name r.model, c.name⟩ c.tag) := by
  change columns s r.model ((format s).writings r.entries) = _
  simp only [columns, h]
  congr 2
  funext c
  rw [Format.lookup_writings]
  cases r.get c.name <;> rfl

/-- The columns are looked up before anything is written. -/
theorem record_of_error {r : Record} {e : ModelError} (h : s.columns r.model = .error e) :
    record s r = .fail e := by
  change columns s r.model ((format s).writings r.entries) = _
  rw [columns, h]

/-- Appends a record to what is pending. -/
def write (r : Record) : Step ModelError Queue Unit := (record s r).into

/-- The bytes of one record. What was pending is discarded first, and nothing is left pending. -/
def encode (r : Record) : Step ModelError Queue (List UInt8) := fun q =>
  match write s r q.reset with
  | .ok () q => .ok q.flush.1 q.flush.2
  | .error e q => .error e q.flush.2

/-- The bytes that a new queue makes of a record. -/
def bytes (r : Record) : Except ModelError (List UInt8) := Step.outcome (encode s r .empty)

/-- A new queue makes of a record what the record sends out, if all of it is sent out. -/
theorem bytes_eq_ok {r : Record} {bs : List UInt8} : bytes s r = .ok bs ↔ record s r = .of bs := by
  rw [bytes, encode, write, Emission.into]
  obtain ⟨bs', _ | e⟩ := record s r
  · have hflush : ((Queue.empty.reset.put bs').flush).1 = bs' := by
      rw [Queue.flush, Queue.pending_put (Queue.sound_reset _), Queue.pending_reset, List.nil_append]
    simp [Step.outcome, hflush, Emission.of]
  · simp [Step.outcome, Emission.of]

end Wireform.Binary
