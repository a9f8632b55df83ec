import Mathlib.Data.List.Basic
import Flipbook.Archive.Pack

/-!
# Pieces of a list

Archives and tape records are pieces of a longer list. All pieces have the full length, up to the
last one, and put together they are the list again.

## Main results

* `flatten_chunks`: the pieces make up the list;
* `length_le_of_mem_chunks`, `length_of_mem_dropLast_chunks`: the length of a piece;
* `chunks_append`: where a piece ends, a list can be cut before it is split.
-/

namespace Flipbook

variable {β γ : Type} {size : Nat} {xs ys piece : List β}

@[simp]
theorem chunks_nil (size : Nat) : chunks size ([] : List β) = [] := by
  rw [chunks, if_pos (.inr rfl)]

theorem chunks_of_ne_nil (hsize : 0 < size) (hne : xs ≠ []) :
    chunks size xs = xs.take size :: chunks size (xs.drop size) := by
  rw [chunks, if_neg]
  rintro (hzero | hempty)
  · omega
  · exact hne (List.isEmpty_iff.mp hempty)

/-- What holds of no items, and of a list if it holds of what is left behind the first piece, holds
of every list. -/
theorem chunks_induction {motive : List β → Prop} (hsize : 0 < size) (nil : motive [])
    (step : ∀ xs, xs ≠ [] → motive (xs.drop size) → motive xs) (xs : List β) : motive xs := by
  induction h : xs.length using Nat.strongRecOn generalizing xs with
  | _ n ih =>
    by_cases hne : xs = []
    · rw [hne]
      exact nil
    · have hlength := List.length_pos_iff.mpr hne
      apply step xs hne
      exact ih (xs.drop size).length (by rw [List.length_drop]; omega) (xs.drop size) rfl

/-- The pieces make up the list. -/
theorem flatten_chunks (hsize : 0 < size) (xs : List β) : (chunks size xs).flatten = xs := by
  induction xs using chunks_induction hsize with
  | nil => rw [chunks_nil, List.flatten_nil]
  | step xs hne ih =>
    rw [chunks_of_ne_nil hsize hne, List.flatten_cons, ih, List.take_append_drop]

theorem ne_nil_of_mem_chunks (h : piece ∈ chunks size xs) : piece ≠ [] := by
  by_cases hsize : size = 0
  · rw [chunks, if_pos (.inl hsize)] at h
    cases h
  · have hpos := Nat.pos_of_ne_zero hsize
    induction xs using chunks_induction hpos with
    | nil =>
      rw [chunks_nil] at h
      cases h
    | step xs hne ih =>
      rw [chunks_of_ne_nil hpos hne, List.mem_cons] at h
      rcases h with rfl | hrest
      · simp [List.take_eq_nil_iff, hsize, hne]
      · exact ih hrest

theorem length_le_of_mem_chunks (hsize : 0 < size) (h : piece ∈ chunks size xs) :
    piece.length ≤ size := by
  induction xs using chunks_induction hsize with
  | nil =>
    rw [chunks_nil] at h
    cases h
  | step xs hne ih =>
    rw [chunks_of_ne_nil hsize hne, List.mem_cons] at h
    rcases h with rfl | hrest
    · exact List.length_take_le _ _
    · exact ih hrest

/-- Only the last piece may be shorter than the others. -/
theorem length_of_mem_dropLast_chunks (hsize : 0 < size) (h : piece ∈ (chunks size xs).dropLast) :
    piece.length = size := by
  induction xs using chunks_induction hsize with
  | nil =>
    rw [chunks_nil] at h
    cases h
  | step xs hne ih =>
    rw [chunks_of_ne_nil hsize hne] at h
    by_cases hrest : xs.drop size = []
    · rw [hrest, chunks_nil] at h
      cases h
    · have hmore : chunks size (xs.drop size) ≠ [] := by
        rw [chunks_of_ne_nil hsize hrest]
        exact List.cons_ne_nil _ _
      rw [List.dropLast_cons_of_ne_nil hmore, List.mem_cons] at h
      rcases h with rfl | hlater
      · -- Something is left behind this piece, so it was filled.
        have hlength := List.length_pos_iff.mpr hrest
        rw [List.length_drop] at hlength
        rw [List.length_take]
        omega
      · exact ih hlater

/-- A piece begins where a number of full pieces end. -/
theorem exists_eq_of_mem_chunks (hsize : 0 < size) (h : piece ∈ chunks size xs) :
    ∃ j, piece = (xs.drop (size * j)).take size := by
  induction xs using chunks_induction hsize with
  | nil =>
    rw [chunks_nil] at h
    cases h
  | step xs hne ih =>
    rw [chunks_of_ne_nil hsize hne, List.mem_cons] at h
    rcases h with rfl | hrest
    · exact ⟨0, by rw [Nat.mul_zero, List.drop_zero]⟩
    · obtain ⟨j, rfl⟩ := ih hrest
      exact ⟨j + 1, by rw [List.drop_drop, Nat.mul_succ, Nat.add_comm]⟩

/-- A list that fits into one piece is one. -/
theorem chunks_eq_singleton (hne : xs ≠ []) (h : xs.length ≤ size) : chunks size xs = [xs] := by
  have hlength := List.length_pos_iff.mpr hne
  rw [chunks_of_ne_nil (by omega) hne, List.take_of_length_le h, List.drop_of_length_le h,
    chunks_nil]

/-- A list can be cut where a piece ends. -/
theorem chunks_append (hsize : 0 < size) (h : size ∣ xs.length) (ys : List β) :
    chunks size (xs ++ ys) = chunks size xs ++ chunks size ys := by
  induction xs using chunks_induction hsize with
  | nil => rw [List.nil_append, chunks_nil, List.nil_append]
  | step xs hne ih =>
    have hle : size ≤ xs.length := Nat.le_of_dvd (List.length_pos_iff.mpr hne) h
    -- The cut stays at the end of a piece.
    have hrest : size ∣ (xs.drop size).length := by
      rw [List.length_drop]
      exact Nat.dvd_sub h (Nat.dvd_refl size)
    rw [chunks_of_ne_nil hsize (List.append_ne_nil_of_left_ne_nil hne ys),
      chunks_of_ne_nil hsize hne, List.take_append_of_le_length hle,
      List.drop_append_of_le_length hle, ih hrest, List.cons_append]

/-- Pieces of full length are as many as go into the list. -/
theorem length_chunks (hsize : 0 < size) (h : size ∣ xs.length) :
    (chunks size xs).length * size = xs.length := by
  induction xs using chunks_induction hsize with
  | nil => rw [chunks_nil, List.length_nil, List.length_nil, Nat.zero_mul]
  | step xs hne ih =>
    have hle : size ≤ xs.length := Nat.le_of_dvd (List.length_pos_iff.mpr hne) h
    have hrest : size ∣ (xs.drop size).length := by
      rw [List.length_drop]
      exact Nat.dvd_sub h (Nat.dvd_refl size)
    rw [chunks_of_ne_nil hsize hne, List.length_cons, Nat.succ_mul, ih hrest, List.length_drop]
    omega

section FixedWidth

variable {f : β → List γ} {width : Nat}

theorem take_flatMap (hf : ∀ x ∈ xs, (f x).length = width) (n : Nat) :
    (xs.flatMap f).take (width * n) = (xs.take n).flatMap f := by
  induction xs generalizing n with
  | nil => rw [List.flatMap_nil, List.take_nil, List.take_nil, List.flatMap_nil]
  | cons x xs ih =>
    obtain ⟨hx, hxs⟩ := List.forall_mem_cons.mp hf
    cases n with
    | zero => rw [Nat.mul_zero, List.take_zero, List.take_zero, List.flatMap_nil]
    | succ n =>
      rw [List.flatMap_cons, List.take_succ_cons, List.flatMap_cons, Nat.mul_succ, Nat.add_comm,
        ← hx, List.take_length_add_append, hx, ih hxs]

theorem drop_flatMap (hf : ∀ x ∈ xs, (f x).length = width) (n : Nat) :
    (xs.flatMap f).drop (width * n) = (xs.drop n).flatMap f := by
  induction xs generalizing n with
  | nil => rw [List.flatMap_nil, List.drop_nil, List.drop_nil, List.flatMap_nil]
  | cons x xs ih =>
    obtain ⟨hx, hxs⟩ := List.forall_mem_cons.mp hf
    cases n with
    | zero => rw [Nat.mul_zero, List.drop_zero, List.drop_zero]
    | succ n =>
      rw [List.flatMap_cons, List.drop_succ_cons, Nat.mul_succ, Nat.add_comm, ← hx,
        List.drop_length_add_append, hx, ih hxs]

theorem length_flatMap_const (hf : ∀ x ∈ xs, (f x).length = width) :
    (xs.flatMap f).length = width * xs.length := by
  rw [List.length_flatMap, List.map_congr_left hf, List.map_const', List.sum_replicate_nat,
    Nat.mul_comm]

/-- Among the bytes of all items, those of one item stand behind the ones of the items before. -/
theorem getElem?_flatMap_const (hf : ∀ x ∈ xs, (f x).length = width) (k : Nat) {r : Nat}
    (hr : r < width) : (xs.flatMap f)[width * k + r]? = xs[k]?.bind fun x => (f x)[r]? := by
  have hitem : xs[k]? = (xs.drop k).head? := List.head?_drop.symm
  rw [← List.getElem?_drop, drop_flatMap hf, hitem]
  cases hrest : xs.drop k with
  | nil => rfl
  | cons x rest =>
    have hx : (f x).length = width := hf x (List.mem_of_mem_drop (hrest ▸ List.mem_cons_self))
    rw [List.flatMap_cons, List.getElem?_append_left (by omega)]
    rfl

/-- Items that are written with a fixed number of bytes are split like their bytes. -/
theorem chunks_flatMap (hwidth : 0 < width) (hsize : 0 < size)
    (hf : ∀ x ∈ xs, (f x).length = width) :
    chunks (width * size) (xs.flatMap f) = (chunks size xs).map (List.flatMap f) := by
  induction xs using chunks_induction hsize with
  | nil => rw [List.flatMap_nil, chunks_nil, chunks_nil, List.map_nil]
  | step xs hne ih =>
    have hbytes : xs.flatMap f ≠ [] := by
      rw [← List.length_pos_iff, length_flatMap_const hf]
      exact Nat.mul_pos hwidth (List.length_pos_iff.mpr hne)
    rw [chunks_of_ne_nil (Nat.mul_pos hwidth hsize) hbytes, chunks_of_ne_nil hsize hne,
      take_flatMap hf, drop_flatMap hf, List.map_cons,
      ih fun x hx => hf x (List.mem_of_mem_drop hx)]

end FixedWidth

end Flipbook
