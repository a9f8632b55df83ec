import Mathlib.Data.List.Perm.Basic

/-!
# Going through a list

A function that may fail is applied to the items of a list one after the other, up to the first
failure.

## Main results

* `mapM_eq_ok_iff`: the list has results if every item has one;
* `mapM_perm`: the order of the items is that of the results, and matters for nothing else.
-/

namespace Flipbook

variable {α β γ ε : Type}

/-- Two steps succeed if each of them does. -/
theorem bind_eq_ok_iff {x : Except ε α} {f : α → Except ε β} {y : β} :
    (x >>= f) = .ok y ↔ ∃ a, x = .ok a ∧ f a = .ok y := by
  cases x with
  | error e => simp [Bind.bind, Except.bind]
  | ok a => simp [Bind.bind, Except.bind]

/-- Two steps fail if the first does, or the second after it. -/
theorem bind_eq_error_iff {x : Except ε α} {f : α → Except ε β} {e : ε} :
    (x >>= f) = .error e ↔ x = .error e ∨ ∃ a, x = .ok a ∧ f a = .error e := by
  cases x with
  | error e => simp [Bind.bind, Except.bind]
  | ok a => simp [Bind.bind, Except.bind]

/-- A result that is worked on is a result. -/
theorem map_eq_ok_iff {f : α → β} {r : Except ε α} {c : β} :
    f <$> r = .ok c ↔ ∃ b, r = .ok b ∧ f b = c := by
  cases r with
  | error e =>
    constructor
    · intro h
      cases h
    · rintro ⟨b, h, -⟩
      cases h
  | ok b =>
    constructor
    · intro h
      exact ⟨b, rfl, Except.ok.inj h⟩
    · rintro ⟨b, h, rfl⟩
      obtain rfl := Except.ok.inj h
      rfl

/-- Only errors are worked on. -/
theorem mapError_eq_ok_iff {δ : Type} {f : ε → δ} {r : Except ε α} {a : α} :
    r.mapError f = .ok a ↔ r = .ok a := by
  cases r with
  | error e => exact ⟨nofun, nofun⟩
  | ok b => simp [Except.mapError]

theorem mapError_eq_error_iff {δ : Type} {f : ε → δ} {r : Except ε α} {d : δ} :
    r.mapError f = .error d ↔ ∃ e, r = .error e ∧ f e = d := by
  cases r with
  | error e => simp [Except.mapError]
  | ok a => simp [Except.mapError]

/-- A result that passes a test is a result. -/
theorem exists_eq_ok_of_any {r : Except ε α} {p : α → Bool} (h : r.toOption.any p = true) :
    ∃ a, r = .ok a ∧ p a = true := by
  cases r with
  | error e => cases h
  | ok a => exact ⟨a, rfl, h⟩

/-- If every item has a result, so has the list. -/
theorem mapM_eq_ok {f : α → Except ε β} {g : α → β} {xs : List α} (h : ∀ x ∈ xs, f x = .ok (g x)) :
    xs.mapM f = .ok (xs.map g) := by
  induction xs with
  | nil => rfl
  | cons x xs ih =>
    rw [List.mapM_cons, h x List.mem_cons_self, ih fun y hy => h y (List.mem_cons_of_mem x hy)]
    rfl

/-- Functions that agree on a list have the same results for it. -/
theorem mapM_congr {m : Type → Type} [Monad m] [LawfulMonad m] {f g : α → m β} {xs : List α}
    (h : ∀ x ∈ xs, f x = g x) : xs.mapM f = xs.mapM g := by
  induction xs with
  | nil => rfl
  | cons x xs ih =>
    rw [List.mapM_cons, List.mapM_cons, h x List.mem_cons_self,
      ih fun y hy => h y (List.mem_cons_of_mem x hy)]

/-- The results of a list are those of its items, one by one. -/
theorem mapM_eq_ok_iff {f : α → Except ε β} {xs : List α} {ys : List β} :
    xs.mapM f = .ok ys ↔ List.Forall₂ (fun x y => f x = .ok y) xs ys := by
  induction xs generalizing ys with
  | nil => simp [Pure.pure, Except.pure, eq_comm]
  | cons x xs ih =>
    rw [List.mapM_cons, List.forall₂_cons_left_iff]
    simp only [← ih]
    cases hx : f x with
    | error e => simp [Bind.bind, Except.bind]
    | ok y =>
      cases hxs : xs.mapM f with
      | error e => simp [Bind.bind, Except.bind]
      | ok vs => simp [Bind.bind, Except.bind, Pure.pure, Except.pure, eq_comm]

theorem exists_mapM_eq_ok {f : α → Except ε β} {xs : List α} (h : ∀ x ∈ xs, ∃ y, f x = .ok y) :
    ∃ ys, xs.mapM f = .ok ys := by
  induction xs with
  | nil => exact ⟨[], rfl⟩
  | cons x xs ih =>
    obtain ⟨hx, hxs⟩ := List.forall_mem_cons.mp h
    obtain ⟨y, hy⟩ := hx
    obtain ⟨ys, hys⟩ := ih hxs
    exact ⟨y :: ys, by rw [List.mapM_cons, hy, hys]; rfl⟩

/-- What going through a list fails with is what it fails with for an item. -/
theorem exists_of_mapM_eq_error {f : α → Except ε β} {xs : List α} {e : ε}
    (h : xs.mapM f = .error e) : ∃ x ∈ xs, f x = .error e := by
  induction xs with
  | nil => cases h
  | cons x xs ih =>
    rw [List.mapM_cons, bind_eq_error_iff] at h
    rcases h with hx | ⟨y, -, hrest⟩
    · exact ⟨x, List.mem_cons_self, hx⟩
    · rw [bind_eq_error_iff] at hrest
      rcases hrest with hxs | ⟨ys, -, hpure⟩
      · obtain ⟨z, hz, hfails⟩ := ih hxs
        exact ⟨z, .tail x hz, hfails⟩
      · cases hpure

/-- Going through a list fails if it fails for an item. -/
theorem exists_mapM_eq_error_iff {f : α → Except ε β} {xs : List α} :
    (∃ e, xs.mapM f = .error e) ↔ ∃ x ∈ xs, ∃ e, f x = .error e := by
  induction xs with
  | nil => simp [Pure.pure, Except.pure]
  | cons x xs ih =>
    rw [List.exists_mem_cons_iff, ← ih, List.mapM_cons]
    cases hx : f x with
    | error e => simp [Bind.bind, Except.bind]
    | ok y =>
      cases hxs : xs.mapM f with
      | error e => simp [Bind.bind, Except.bind]
      | ok ys => simp [Bind.bind, Except.bind, Pure.pure, Except.pure]

/-- If the list has results, so has every item. -/
theorem exists_eq_ok_of_mapM {f : α → Except ε β} {xs : List α} {ys : List β}
    (h : xs.mapM f = .ok ys) : ∀ x ∈ xs, ∃ y, f x = .ok y := by
  intro x hx
  cases hfx : f x with
  | ok y => exact ⟨y, rfl⟩
  | error e =>
    obtain ⟨e', he'⟩ := exists_mapM_eq_error_iff.mpr ⟨x, hx, e, hfx⟩
    rw [h] at he'
    cases he'

/-- What is told by every result is told by the items already. -/
theorem map_eq_of_mapM {f : α → Except ε β} {g : β → γ} {k : α → γ} {xs : List α} {ys : List β}
    (h : xs.mapM f = .ok ys) (hk : ∀ x ∈ xs, ∀ y, f x = .ok y → g y = k x) :
    ys.map g = xs.map k := by
  have hresults := mapM_eq_ok_iff.mp h
  clear h
  induction hresults with
  | nil => rfl
  | cons hx _ ih =>
    rw [List.map_cons, List.map_cons, hk _ List.mem_cons_self _ hx,
      ih fun y hy => hk y (List.mem_cons_of_mem _ hy)]

/-- Every result is that of an item. -/
theorem exists_of_mem_mapM {f : α → Except ε β} {xs : List α} {ys : List β} {y : β}
    (h : xs.mapM f = .ok ys) (hy : y ∈ ys) : ∃ x ∈ xs, f x = .ok y := by
  have hresults := mapM_eq_ok_iff.mp h
  clear h
  induction hresults with
  | nil => cases hy
  | cons hx _ ih =>
    rcases List.mem_cons.mp hy with rfl | hrest
    · exact ⟨_, List.mem_cons_self, hx⟩
    · obtain ⟨x, hmem, hx⟩ := ih hrest
      exact ⟨x, List.mem_cons_of_mem _ hmem, hx⟩

/-- Rearranging the items rearranges the results. -/
theorem mapM_perm {f : α → Except ε β} {xs ys : List α} {zs : List β} (hperm : xs.Perm ys)
    (h : ys.mapM f = .ok zs) : ∃ ws, xs.mapM f = .ok ws ∧ ws.Perm zs := by
  obtain ⟨ws, hws, hwz⟩ := List.perm_comp_forall₂ hperm (mapM_eq_ok_iff.mp h)
  exact ⟨ws, mapM_eq_ok_iff.mpr hws, hwz⟩

theorem map_flatten_mapM_cons (f : β → Option (List α)) (x : β) (xs : List β) :
    ((x :: xs).mapM f).map List.flatten =
      (f x).bind fun items => ((xs.mapM f).map List.flatten).map fun more => items ++ more := by
  rw [List.mapM_cons]
  cases f x with
  | none => rfl
  | some items => cases xs.mapM f <;> simp

end Flipbook
