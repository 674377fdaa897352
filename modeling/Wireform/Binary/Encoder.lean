import Wireform.Binary.Encode

/-!
# Encoders

An encoder writes a record into a queue piece by piece, as it meets the columns and what is found for
them. The queue grows wherever a piece does not fit. A write that fails half way leaves the pieces in
front of the failure in the queue, where they stay pending until the next flush or reset.
-/

namespace Wireform.Binary.Encoder

/-- A write into the queue of an encoder. -/
abbrev Write := Step ModelError Queue

/-- A byte that says whether something holds. -/
def flag (b : Bool) : Write Unit := modify fun q => q.putUInt8 (if b then 1 else 0)

/-- Groups of seven bits, the lowest first; every byte but the last has its high bit set. -/
def varint (n : Nat) : Write Unit :=
  if n < 128 then modify fun q => q.putUInt8 (UInt8.ofNat n)
  else do
    modify fun q => q.putUInt8 (UInt8.ofNat (n % 128 + 128))
    varint (n / 128)
termination_by n
decreasing_by omega

/-- A signed number is folded, so that one near zero stays short. -/
def long (n : Int64) : Write Unit := varint (Varint.zigzag n.toInt)

/-- A length has to fit in 32 bits. -/
def length (n : Nat) : Write Unit :=
  if n < Word.size 4 then varint n else throw (.buffer .overflow)

/-- The length of a text counts its bytes. -/
def text (t : String) : Write Unit := do
  length t.utf8ByteSize
  modify fun q => q.putText t

/-- A list of models has a signed length of four bytes. -/
def count (n : Nat) : Write Unit :=
  if n < Word.size 4 / 2 then modify fun q => q.putInt32 (Int32.ofNat n)
  else throw (.buffer .overflow)

/-- The magnitude, and the position of the unit. -/
def duration (d : Duration) : Write Unit := do
  long d.magnitude
  modify fun q => q.putUInt8 (UInt8.ofNat d.unit.ordinal)

variable (s : Schema)

/-- The failure for a value of another type than the column asks for. -/
def mismatch (v : Value) (site : Site) (tag : Tag) : Write Unit :=
  throw (.typeMismatch site (tag.text s) v.kind)

/-- A column, given how the value found for each name is written. -/
def column (m : ModelId) (entries : List (String × Option (Site → Tag → Write Unit))) (c : Column) :
    Write Unit :=
  match (entries.lookup c.name).join with
  | none => flag false
  | some write => do
    flag true
    write ⟨s.name m, c.name⟩ c.tag

/-- The columns of a model are looked up before anything is written. -/
def columns (m : ModelId) (entries : List (String × Option (Site → Tag → Write Unit))) :
    Write Unit := do
  let columns ← Step.ofExcept (s.columns m)
  columns.forM (column s m entries)

/-- Each part is written into the queue at once. -/
def format : Format (Write Unit) where
  bool b := flag b
  str t := text t
  int n := modify fun q => q.putInt32 n
  long n := modify fun q => q.putInt64 n
  duration d := duration d
  calendar u := varint u.ordinal
  zone z := text z.text
  strList n items := do length n; items
  modelList n items := do count n; items
  model := columns s
  nothing := pure ()
  append x y := do x; y
  mismatch := mismatch s

/-- Appends a record to what is pending. -/
def write (r : Record) : Write Unit := (format s).record r

/-- The bytes of one record. What was pending is discarded first, and nothing is left pending. -/
def encode (r : Record) : Write (List UInt8) := fun q =>
  let written := write s r q.reset
  let (bytes, q) := (Step.after written).flush
  match Step.outcome written with
  | .ok () => .ok bytes q
  | .error e => .error e q

/-- What can be done with an encoder and its queue. -/
inductive Use where
  | reserve (n : Nat)
  | put (bytes : List UInt8)
  | flush
  | reset
  | varint (n : Nat)
  | length (n : Nat)
  | text (t : String)
  | write (r : Record)
  | encode (r : Record)

/-- The queue after a use, whether that succeeded or not. -/
def Use.apply (q : Queue) : Use → Queue
  | .reserve n => (q.reserve n).getD q
  | .put bytes => q.put bytes
  | .flush => q.flush.2
  | .reset => q.reset
  | .varint n => Step.after (Encoder.varint n q)
  | .length n => Step.after (Encoder.length n q)
  | .text t => Step.after (Encoder.text t q)
  | .write r => Step.after (Encoder.write s r q)
  | .encode r => Step.after (Encoder.encode s r q)

/-- The queue of a new encoder with room for `n` bytes, after some uses. -/
def used (n : Nat) (uses : List Use) : Queue := uses.foldl (Use.apply s) (.withRoom n)

/-- A column is written as what the record has for it. -/
theorem column_writings (r : Record) (c : Column) :
    column s r.model ((format s).writings r.entries) c =
      (match r.get c.name with
      | none => flag false
      | some v => do
        flag true
        (format s).value v ⟨s.name r.model, c.name⟩ c.tag) := by
  rw [column, Format.lookup_writings]
  cases r.get c.name <;> rfl

end Wireform.Binary.Encoder
