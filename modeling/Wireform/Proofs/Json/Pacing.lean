import Wireform.Proofs.Json.Bytewise
import Wireform.Proofs.Json.Delivery
import Wireform.Proofs.Json.Frames

/-!
# The pace of a pull

Whatever is done with a pull comes down to calls of `next`, one after the other (`Reaches`), and each
of them that gives a token takes a character at least. So no more tokens are given than characters
are left (`delivered_le`), the position never goes back (`Reaches.position_le`), and passing over an
object or array ends with its last token or where a call fails (`passes_skipChildren`).
-/

namespace Wireform.Json.Pull

variable {p q r : Pull} {f : DocumentError} {o : Option Token}
  {fs : List Frame} {b n : Nat}

/-! ## Call after call -/

/-- The next call gives a token. -/
def delivers (p : Pull) : Bool :=
  match next p with
  | .ok (some _) _ => true
  | _ => false

/-- How many of the next `n` calls give a token. -/
def delivered (n : Nat) (p : Pull) : Nat := (List.range n).countP fun k => (moved k p).delivers

/-- Calls of `next` lead from the one to the other. -/
def Reaches (p q : Pull) : Prop := ∃ n, q = moved n p

theorem moved_succ (n : Nat) (p : Pull) : moved (n + 1) p = Step.after (next (moved n p)) :=
  Function.iterate_succ_apply' _ n p

namespace Reaches

theorem refl (p : Pull) : p.Reaches p := ⟨0, rfl⟩

theorem trans (h : p.Reaches q) (h' : q.Reaches r) : p.Reaches r := by
  obtain ⟨m, rfl⟩ := h
  obtain ⟨n, rfl⟩ := h'
  exact ⟨n + m, (Function.iterate_add_apply _ n m p).symm⟩

theorem next (p : Pull) : p.Reaches (Step.after (Pull.next p)) := ⟨1, rfl⟩

theorem of_next (h : Pull.next p = .ok o q) : p.Reaches q := by
  have hp := Reaches.next p
  rwa [h] at hp

end Reaches

theorem Reaches.innermost (h : p.Reaches q) (hp : p.Innermost) : q.Innermost := by
  obtain ⟨n, rfl⟩ := h
  induction n with
  | zero => exact hp
  | succ n ih =>
    rw [moved_succ]
    exact ih.next

theorem reaches_skipOpen (b n : Nat) : Step.Along Reaches (skipOpen b n) := by
  have hthrow : Step.Along Reaches (do throw (.unexpectedEnd (← get).position) : Move Unit) :=
    fun p => .refl p
  induction b generalizing n with
  | zero => exact hthrow
  | succ b ih =>
    refine Step.Along.bind Reaches.next (fun _ _ _ => .trans) fun o => ?_
    split
    · exact hthrow
    split
    · exact ih _
    split
    · split
      · exact fun p => .refl p
      · exact ih _
    · exact ih _

/-- Skipping of children is a number of calls. -/
theorem reaches_skipChildren : Step.Along Reaches skipChildren := by
  refine Step.Along.bind (fun p => .refl p) (fun _ _ _ => .trans) fun p => ?_
  split
  · exact reaches_skipOpen _ _
  · exact fun q => .refl q

/-! ## What a call takes -/

theorem rest_of_next_none (h : next p = .ok none q) : q.input.rest.length ≤ p.input.rest.length := by
  obtain ⟨i, r, hblanks, hadvance, rfl⟩ := next_sound h
  obtain ⟨hfs, hdone, hrest⟩ := advance_none_sound hadvance
  cases hadvance.symm.trans (advance_none hfs hdone hrest)
  exact hblanks.length_le

theorem rest_of_next_error (h : next p = .error f q) :
    q.input.rest.length ≤ p.input.rest.length := by
  obtain ⟨taken, hrest, -⟩ := (safe_next h).input
  rw [hrest, List.length_append]
  exact Nat.le_add_left _ _

/-- A token takes at least one character. -/
theorem rest_of_next_token {t : Token} (h : next p = .ok (some t) q) :
    q.input.rest.length < p.input.rest.length := by
  obtain ⟨e, -, hruns, -⟩ := exists_at_of_next h
  have hle := hruns.length_le
  rw [List.length_singleton] at hle
  omega

/-- A call that gives a token takes a character, and no call gives any back. -/
theorem rest_of_next (p : Pull) :
    p.delivers.toNat + (Step.after (next p)).input.rest.length ≤ p.input.rest.length := by
  rw [delivers]
  cases h : next p with
  | error f q => simpa using rest_of_next_error h
  | ok o q =>
    cases o with
    | none => simpa using rest_of_next_none h
    | some t =>
      have hlt := rest_of_next_token h
      simp only [Bool.toNat_true, Step.after_ok]
      omega

/-- One more call delivers at most one more token. -/
theorem delivered_succ (n : Nat) (p : Pull) :
    delivered (n + 1) p = delivered n p + (moved n p).delivers.toNat := by
  rw [delivered, List.range_succ, List.countP_append, List.countP_singleton, delivered]
  cases (moved n p).delivers <;> rfl

/-- Of any number of calls, at most as many give a token as characters are left. -/
theorem delivered_le (n : Nat) (p : Pull) :
    delivered n p + (moved n p).input.rest.length ≤ p.input.rest.length := by
  induction n with
  | zero => exact Nat.le_of_eq (Nat.zero_add _)
  | succ n ih =>
    have hnext := rest_of_next (moved n p)
    rw [delivered_succ, moved_succ]
    omega

theorem Reaches.length_le (h : p.Reaches q) : q.input.rest.length ≤ p.input.rest.length := by
  obtain ⟨n, rfl⟩ := h
  exact Nat.le_trans (Nat.le_add_left _ _) (delivered_le n p)

/-- Calls of `next` lead from the one to the other, and at most `left` of them give a token. -/
def Within (left : Nat) (p q : Pull) : Prop := ∃ n, q = moved n p ∧ delivered n p ≤ left

/-! ## Positions -/

theorem pulled_replicate (n : Nat) (p : Pull) :
    Scanner.pulled (List.replicate n .next) p = moved n p := by
  induction n generalizing p with
  | zero => rfl
  | succ n ih =>
    have hstep : Step.after (Scanner.Call.next.pull p) = Step.after (next p) :=
      Step.after_map _ _ _
    rw [List.replicate_succ, Scanner.pulled, List.foldl_cons, hstep, moved,
      Function.iterate_succ_apply]
    exact ih _

/-- After any calls a pull stands between two characters of its text. -/
theorem on_moved (t : String) (n : Nat) :
    On t.toList (moved n (ofText t)).position (moved n (ofText t)).input := by
  have hbeside := Scanner.beside_called (List.replicate n .next) (Scanner.beside_ofText t)
  rw [pulled_replicate] at hbeside
  obtain ⟨before, hat⟩ := hbeside.place
  refine ⟨before, hat.text, ?_, rfl⟩
  rw [position, hat.position, hat.offset]

section

variable {t : String} (hp : (ofText t).Reaches p)

include hp

theorem Reaches.on : On t.toList p.position p.input := by
  obtain ⟨n, rfl⟩ := hp
  exact on_moved t n

/-- The characters left are no more than the bytes left. -/
theorem Reaches.length_le_bytes : p.input.rest.length ≤ t.utf8ByteSize - p.position := by
  rw [← byteCount_toList, ← hp.on.byteCount_rest]
  exact Lex.length_le_byteCount _

/-- No more tokens are given than bytes are left. -/
theorem Reaches.within (h : p.Reaches q) : Within (t.utf8ByteSize - p.position) p q := by
  obtain ⟨n, rfl⟩ := h
  have hle := delivered_le n p
  have hbytes := hp.length_le_bytes
  exact ⟨n, rfl, by omega⟩

/-- Calls do not move the position back. -/
theorem Reaches.position_le (h : p.Reaches q) : p.position ≤ q.position :=
  hp.on.le_of_length_le (hp.trans h).on h.length_le

/-- A token moves the position on. -/
theorem Reaches.position_lt {u : Token} (h : Pull.next p = .ok (some u) q) :
    p.position < q.position :=
  hp.on.lt (hp.trans (.of_next h)).on (rest_of_next_token h)

end

/-! ## Passing over -/

/-- Passing over what is open, one call after the other and without a bound, until `n` closings are
left behind: it comes to its end or to a call that fails. The end of the text is never met. -/
inductive Passes : Nat → Pull → EStateM.Result DocumentError Pull Unit → Prop
  | ends {p : Pull} : Passes 0 p (.ok () p)
  | fails {n : Nat} {p q : Pull} {f : DocumentError} :
    next p = .error f q → Passes (n + 1) p (.error f q)
  | passes {n : Nat} {p q : Pull} {t : Token} {result : EStateM.Result DocumentError Pull Unit} :
    next p = .ok (some t) q → Passes (stillOpen t (n + 1)) q result → Passes (n + 1) p result

/-- Where passing over fails, a call has failed. -/
theorem Passes.exists_next {result : EStateM.Result DocumentError Pull Unit}
    (h : Passes n p result) (hresult : result = .error f q) :
    ∃ r, p.Reaches r ∧ next r = .error f q := by
  induction h with
  | ends => cases hresult
  | @fails _ p _ _ hnext =>
    cases hresult
    exact ⟨p, .refl p, hnext⟩
  | passes hnext _ ih =>
    obtain ⟨r, hr, hfail⟩ := ih hresult
    exact ⟨r, .trans (.of_next hnext) hr, hfail⟩

theorem stillOpen_le_length (hfs : n ≤ fs.length) (e : Event) :
    stillOpen e.token n ≤ (framesAfter fs e).length := by
  have hsettle : (settle fs).length = fs.length := by
    rcases fs with _ | ⟨_ | _ | _, fs⟩ <;> rfl
  cases e <;>
    simp [stillOpen, framesAfter, Event.token, Token.opens, Token.closes, hsettle] <;> omega

/-- As long as something is open, neither the budget is used up nor the text. -/
theorem passes_skipOpen (hfs : n < p.frames.length) (hb : p.input.rest.length < b) :
    Passes (n + 1) p (skipOpen b n p) := by
  induction b generalizing n p with
  | zero => exact absurd hb (Nat.not_lt_zero _)
  | succ b ih =>
    cases hnext : next p with
    | error f q =>
      rw [skipOpen_succ, Step.bind_apply, hnext]
      exact .fails hnext
    | ok o q =>
      cases o with
      | none =>
        rw [(next_none_sound hnext).1] at hfs
        exact absurd hfs (Nat.not_lt_zero _)
      | some t =>
        obtain ⟨e, rfl, hruns, -⟩ := exists_at_of_next hnext
        obtain ⟨cs, hmoves⟩ := moves_of_run hruns
        have hopen := stillOpen_le_length (Nat.succ_le_of_lt hfs) e
        rw [← hmoves.frames_eq] at hopen
        have hlt := rest_of_next_token hnext
        rw [skipOpen_next hnext]
        refine .passes hnext ?_
        unfold stillOpen at hopen ⊢
        split
        · next hopens =>
          rw [if_pos hopens] at hopen
          exact ih hopen (by omega)
        next hopens =>
        rw [if_neg hopens] at hopen
        split
        · next hcloses =>
          rw [if_pos hcloses] at hopen
          cases n with
          | zero => exact .ends
          | succ n => exact ih hopen (by omega)
        · next hcloses =>
          rw [if_neg hcloses] at hopen
          exact ih hopen (by omega)

/-- Skipping of children passes the rest of one value, if the current token opens one, and nothing
else. -/
theorem passes_skipChildren (hp : p.Innermost) :
    Passes (p.current.any Token.opens).toNat p (skipChildren p) := by
  rw [skipChildren, Step.bind_apply, Step.get_apply]
  dsimp only
  split
  · next hopen =>
    rw [hopen]
    exact passes_skipOpen (hp.frames_pos hopen) (Nat.lt_succ_self _)
  · next hopen =>
    rw [Bool.not_eq_true] at hopen
    rw [hopen]
    exact .ends

end Wireform.Json.Pull
