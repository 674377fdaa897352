import Wireform.Binary.Decode
import Wireform.Proofs.Curtails

/-!
# Binary reads under narrower limits

Whatever bytes are read, narrower limits give the answer of the wider ones, from the same bytes, or
refuse what the wider ones let pass (`curtails_readRecord`). Two reads with the levels of the one and
of the other in hand go on in step, until one has no level left or a length comes between.
-/

namespace Wireform.Binary

/-- The limits refuse what the wider ones may let pass. -/
def Limits.Refuses (limits wider : Limits) (e : ModelError) : Prop :=
  TooDeep limits.depth wider.depth e ∨ TooLong limits.length wider.length e

variable {s : Schema} {limits wider : Limits} {site : Site}

/-- The tighter check of a length refuses, or answers as the wider one does. -/
theorem curtails_checkLength (h : limits.length ≤ wider.length) (n : Nat) :
    Step.Curtails (limits.Refuses wider) (checkLength limits site n) (checkLength wider site n) := by
  by_cases hn : limits.length < n
  · obtain heq | hlt := Nat.eq_or_lt_of_le h
    · rw [checkLength, checkLength, heq]
      exact .refl _
    · rw [checkLength, if_pos hn]
      exact .refuse (.inr (.intro site hn hlt)) _
  · rw [checkLength, checkLength, if_neg hn, if_neg (by omega)]
    exact .refl _

theorem curtails_readText (h : limits.length ≤ wider.length) :
    Step.Curtails (limits.Refuses wider) (readText limits site) (readText wider site) :=
  (Step.Curtails.refl _).bind fun n => (curtails_checkLength h n).bind fun _ => .refl _

theorem curtails_readZone (h : limits.length ≤ wider.length) :
    Step.Curtails (limits.Refuses wider) (readZone limits site) (readZone wider site) :=
  (curtails_readText h).bind fun _ => .refl _

theorem curtails_readCount (h : limits.length ≤ wider.length) :
    Step.Curtails (limits.Refuses wider) (readCount limits site) (readCount wider site) := by
  refine (Step.Curtails.refl _).bind fun n => ?_
  have hcheck : Step.Curtails (limits.Refuses wider)
      (do checkLength limits site n.toInt.toNat; return n.toInt.toNat)
      (do checkLength wider site n.toInt.toNat; return n.toInt.toNat) :=
    (curtails_checkLength h _).bind fun _ => .refl _
  split
  · exact (Step.Curtails.refl _).bind fun _ => hcheck
  · exact hcheck

variable {nested nested' : ModelId → Read Record}

/-- A value is read under tighter limits as under wider ones, or refused. -/
theorem curtails_readValue (h : limits.length ≤ wider.length)
    (hnested : ∀ n, Step.Curtails (limits.Refuses wider) (nested n) (nested' n)) (tag : Tag) :
    Step.Curtails (limits.Refuses wider) (readValue limits nested site tag)
      (readValue wider nested' site tag) := by
  cases tag with
  | bool | int | long | duration | calendar => exact .refl _
  | str => exact (curtails_readText h).map _
  | zone => exact (curtails_readZone h).map _
  | strList =>
    refine (Step.Curtails.refl _).bind fun n => (curtails_checkLength h n).bind fun _ => ?_
    exact (((curtails_readText h).map _).times n).map _
  | modelList m =>
    exact (curtails_readCount h).bind fun n => (((hnested m).map _).times n).map _
  | model m => exact (hnested m).map _

theorem curtails_readEntry (h : limits.length ≤ wider.length)
    (hnested : ∀ n, Step.Curtails (limits.Refuses wider) (nested n) (nested' n)) (m : ModelId)
    (c : Column) :
    Step.Curtails (limits.Refuses wider) (readEntry s limits nested m c)
      (readEntry s wider nested' m c) := by
  refine (Step.Curtails.refl _).bind fun present => ?_
  split
  · exact (curtails_readValue h hnested c.tag).bind fun v => .refl _
  · exact .refl _

/-- With `more` levels to spare wherever the other read is, the wider read never ends first. -/
theorem curtails_readLevels (h : limits.length ≤ wider.length) {more : Nat}
    (hdepth : wider.depth = limits.depth + more) (levels : Nat) (m : ModelId) :
    Step.Curtails (limits.Refuses wider) (readLevels s limits levels m)
      (readLevels s wider (levels + more) m) := by
  induction levels generalizing m with
  | zero =>
    obtain _ | more := more
    · rw [readLevels, readLevels, hdepth, Nat.add_zero]
      exact .refl _
    · exact .refuse (.inl (.intro (s.name m) (by omega))) _
  | succ levels ih =>
    rw [Nat.succ_add, readLevels, readLevels]
    refine (Step.Curtails.refl _).bind fun columns => ?_
    exact (Step.Curtails.mapM (curtails_readEntry h ih m) columns).bind fun entries => .refl _

/-- A record is read under tighter limits as under wider ones, or refused. -/
theorem curtails_readRecord (hdepth : limits.depth ≤ wider.depth)
    (hlength : limits.length ≤ wider.length) (m : ModelId) :
    Step.Curtails (limits.Refuses wider) (readRecord s limits m) (readRecord s wider m) := by
  obtain ⟨more, hmore⟩ := Nat.exists_eq_add_of_le hdepth
  have hlevels := curtails_readLevels (s := s) hlength hmore (limits.depth + 1) m
  rwa [Nat.add_right_comm, ← hmore] at hlevels

end Wireform.Binary
