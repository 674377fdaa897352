import Mathlib.Data.List.Forall2

/-!
# Traversals that may fail

What a traversal of a list in `Except` says about the elements, and when two of them are the same.
-/

namespace Wireform

variable {ε α β : Type} {f g : α → Except ε β} {xs : List α} {ys : List β}

theorem bind_ok_iff {x : Except ε α} {f : α → Except ε β} {b : β} :
    x >>= f = .ok b ↔ ∃ a, x = .ok a ∧ f a = .ok b := by
  cases x with
  | ok a => exact ⟨fun h => ⟨a, rfl, h⟩, fun ⟨_, ha, h⟩ => Except.ok.inj ha ▸ h⟩
  | error e => exact ⟨nofun, nofun⟩

theorem map_ok_iff {x : Except ε α} {f : α → β} {b : β} :
    f <$> x = .ok b ↔ ∃ a, x = .ok a ∧ f a = b := by
  cases x with
  | ok a => exact ⟨fun h => ⟨a, rfl, Except.ok.inj h⟩, fun ⟨_, ha, h⟩ => Except.ok.inj ha ▸ h ▸ rfl⟩
  | error e => exact ⟨nofun, nofun⟩

/-- A traversal that succeeds answers each element, in order. -/
theorem forall₂_of_mapM_ok (h : xs.mapM f = .ok ys) :
    List.Forall₂ (fun x y => f x = .ok y) xs ys := by
  induction xs generalizing ys with
  | nil => cases h; exact .nil
  | cons x xs ih =>
    rw [List.mapM_cons] at h
    obtain ⟨y, hx, h⟩ := bind_ok_iff.1 h
    obtain ⟨zs, hxs, h⟩ := bind_ok_iff.1 h
    cases h
    exact .cons hx (ih hxs)

/-- A traversal that fails does so at the first element that does. -/
theorem exists_of_mapM_error {e : ε} (h : xs.mapM f = .error e) :
    ∃ before x after, xs = before ++ x :: after ∧ (∀ w ∈ before, ∃ y, f w = .ok y) ∧
      f x = .error e := by
  induction xs with
  | nil => cases h
  | cons x xs ih =>
    rw [List.mapM_cons] at h
    cases hx : f x with
    | error e' =>
      rw [hx] at h
      cases h
      exact ⟨[], x, xs, rfl, List.forall_mem_nil _, hx⟩
    | ok y =>
      have hrest : xs.mapM f = .error e := by
        cases hxs : xs.mapM f with
        | error e' =>
          rw [hx, hxs] at h
          cases h
          rfl
        | ok ys =>
          rw [hx, hxs] at h
          cases h
      obtain ⟨before, w, after, rfl, hbefore, hw⟩ := ih hrest
      exact ⟨x :: before, w, after, rfl, List.forall_mem_cons.2 ⟨⟨y, hx⟩, hbefore⟩, hw⟩

/-- In related lists each element has a partner. -/
theorem exists_of_forall₂ {R : α → β → Prop} (h : List.Forall₂ R xs ys) {x : α} (hx : x ∈ xs) :
    ∃ y ∈ ys, R x y := by
  induction h with
  | nil => cases hx
  | cons hr _ ih =>
    rcases List.mem_cons.1 hx with rfl | hx
    · exact ⟨_, List.mem_cons_self, hr⟩
    · obtain ⟨y, hy, hr⟩ := ih hx
      exact ⟨y, List.mem_cons_of_mem _ hy, hr⟩

/-- Lists have the same images just if they are related one by one by having the same image. -/
theorem map_eq_map_iff {γ : Type} {f : α → γ} {g : β → γ} :
    ys.map g = xs.map f ↔ List.Forall₂ (fun x y => g y = f x) xs ys := by
  rw [eq_comm, ← List.forall₂_eq_eq_eq, List.forall₂_map_left_iff, List.forall₂_map_right_iff]
  simp only [eq_comm]

theorem exists_ok_of_mapM_ok (h : xs.mapM f = .ok ys) {x : α} (hx : x ∈ xs) :
    ∃ y, f x = .ok y := by
  obtain ⟨y, -, hy⟩ := exists_of_forall₂ (forall₂_of_mapM_ok h) hx
  exact ⟨y, hy⟩

/-- The answer to the `i`-th element is the `i`-th answer. -/
theorem getElem?_of_mapM_ok (h : xs.mapM f = .ok ys) {i : Nat} {x : α} (hx : xs[i]? = some x) :
    ∃ y, ys[i]? = some y ∧ f x = .ok y := by
  have hall := forall₂_of_mapM_ok h
  clear h
  induction hall generalizing i with
  | nil => cases hx
  | cons hy _ ih =>
    cases i with
    | zero =>
      cases hx
      exact ⟨_, rfl, hy⟩
    | succ i => exact ih hx

/-- A traversal depends on its function at the elements only. -/
theorem mapM_congr (h : ∀ x ∈ xs, f x = g x) : xs.mapM f = xs.mapM g := by
  induction xs with
  | nil => rfl
  | cons x xs ih =>
    obtain ⟨hx, hxs⟩ := List.forall_mem_cons.1 h
    rw [List.mapM_cons, List.mapM_cons, hx, ih hxs]

theorem map_ok_congr {x y : Except ε α} (h : ∀ a, x = .ok a ↔ y = .ok a) (f : α → β) (b : β) :
    f <$> x = .ok b ↔ f <$> y = .ok b := by
  cases x with
  | ok a => rw [(h a).1 rfl]
  | error e =>
    cases y with
    | ok a => cases (h a).2 rfl
    | error e' => exact ⟨nofun, nofun⟩

/-- Two sequences succeed alike if their first parts do and, from there, their second parts. -/
theorem bind_ok_congr {x y : Except ε α} {f g : α → Except ε β} (h : ∀ a, x = .ok a ↔ y = .ok a)
    (hf : ∀ a, x = .ok a → ∀ b, f a = .ok b ↔ g a = .ok b) (b : β) :
    (x >>= f) = .ok b ↔ (y >>= g) = .ok b := by
  cases x with
  | ok a =>
    rw [(h a).1 rfl]
    exact hf a rfl b
  | error e =>
    cases y with
    | ok a => cases (h a).2 rfl
    | error e' => exact ⟨nofun, nofun⟩

/-- Traversals with the same results one by one have the same result. -/
theorem mapM_ok_congr_forall₂ {xs' : List α}
    (h : List.Forall₂ (fun x x' => ∀ y, f x = .ok y ↔ g x' = .ok y) xs xs') (ys : List β) :
    xs.mapM f = .ok ys ↔ xs'.mapM g = .ok ys := by
  induction h generalizing ys with
  | nil => exact Iff.rfl
  | cons hx _ ih =>
    rw [List.mapM_cons, List.mapM_cons]
    exact bind_ok_congr hx (fun y _ => bind_ok_congr ih fun _ _ _ => Iff.rfl) ys

/-- Two traversals succeed alike if their functions do at each element. -/
theorem mapM_ok_congr (h : ∀ x ∈ xs, ∀ y, f x = .ok y ↔ g x = .ok y) (ys : List β) :
    xs.mapM f = .ok ys ↔ xs.mapM g = .ok ys :=
  mapM_ok_congr_forall₂ (List.forall₂_same.2 h) ys

theorem mapM_ok {g : α → β} (h : ∀ x ∈ xs, f x = .ok (g x)) : xs.mapM f = .ok (xs.map g) := by
  induction xs with
  | nil => rfl
  | cons x xs ih =>
    obtain ⟨hx, hxs⟩ := List.forall_mem_cons.1 h
    rw [List.mapM_cons, hx, ih hxs]
    rfl

/-- Gathering the results in front of those found before. -/
theorem foldlM_cons_eq (xs : List α) (found : List β) :
    xs.foldlM (fun found x => (· :: found) <$> f x) found =
      (fun ys => ys.reverse ++ found) <$> xs.mapM f := by
  induction xs generalizing found with
  | nil => rfl
  | cons x xs ih =>
    rw [List.foldlM_cons, List.mapM_cons]
    cases f x with
    | error e => rfl
    | ok y =>
      refine (ih (y :: found)).trans ?_
      cases hxs : xs.mapM f with
      | error e => rfl
      | ok ys =>
        refine congrArg Except.ok ?_
        dsimp only
        rw [List.reverse_cons, List.append_assoc]
        rfl

end Wireform
