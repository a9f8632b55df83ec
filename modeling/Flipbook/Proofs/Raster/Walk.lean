import Flipbook.Raster.Line

/-!
# Lines with an end, and lines without one

A line goes on until it is at its end in both coordinates, and nothing else stops it. If it comes
there, it has visited so many pixels, one after the other, and what was done at them is the result
of the walk. Otherwise there is no result. In which numbers this is computed does not matter, as
long as sums and comparisons are the same.

## Main definitions

* `Visits`: the pixels of a line that comes to its end.
* `LineState.map`: a state, in other numbers.

## Main results

* `Visits.walk_eq`, `exists_visits_of_walk`: a walk has a result just if the line comes to its end;
* `not_visits_of_step_eq`: a line that does not move does not come to its end;
* `Visits.map`: a line in other numbers visits the same pixels.
-/

namespace Flipbook.Raster

section Loop

variable {α σ : Type} [Add α] [Neg α] [LE α] [DecidableLE α] [BEq α] {x₁ y₁ dx dy sx sy : α}
  {s : LineState α} {pixels others : List (α × α)}

/-- The pixels that a line visits from a state on. It goes on step by step until it is at its
end. -/
inductive Visits (x₁ y₁ dx dy sx sy : α) : LineState α → List (α × α) → Prop
  | arrived {s : LineState α} (hend : (s.x == x₁ && s.y == y₁) = true) :
      Visits x₁ y₁ dx dy sx sy s [(s.x, s.y)]
  | step {s : LineState α} {pixels : List (α × α)} (hend : ¬ (s.x == x₁ && s.y == y₁) = true)
      (rest : Visits x₁ y₁ dx dy sx sy (s.step dx dy sx sy) pixels) :
      Visits x₁ y₁ dx dy sx sy s ((s.x, s.y) :: pixels)

/-- There is one way only in which a line goes on. -/
theorem Visits.unique (h : Visits x₁ y₁ dx dy sx sy s pixels)
    (hothers : Visits x₁ y₁ dx dy sx sy s others) : pixels = others := by
  induction h generalizing others with
  | arrived hend =>
    cases hothers with
    | arrived _ => rfl
    | step hnot _ => exact absurd hend hnot
  | step hend _ ih =>
    cases hothers with
    | arrived hat => exact absurd hat hend
    | step _ rest => rw [ih rest]

/-- A walk along a line that comes to its end does something at each pixel that is visited. -/
theorem Visits.walk_eq (h : Visits x₁ y₁ dx dy sx sy s pixels) (visit : σ → α → α → σ)
    (state : σ) : s.walk visit x₁ y₁ dx dy sx sy state =
      some (pixels.foldl (fun state pixel => visit state pixel.1 pixel.2) state) := by
  induction h generalizing state with
  | arrived hend => rw [LineState.walk, if_pos hend, List.foldl_cons, List.foldl_nil]
  | step hend _ ih => rw [LineState.walk, if_neg hend, ih, List.foldl_cons]

/-- Only a line that comes to its end can be walked along. -/
theorem exists_visits_of_walk {visit : σ → α → α → σ} {state result : σ}
    (h : s.walk visit x₁ y₁ dx dy sx sy state = some result) :
    ∃ pixels, Visits x₁ y₁ dx dy sx sy s pixels := by
  -- The induction is on the steps of the walk, of which there are finitely many if it has a result.
  refine LineState.walk.partial_correctness visit x₁ y₁ dx dy sx sy
    (fun s _ _ => ∃ pixels, Visits x₁ y₁ dx dy sx sy s pixels) ?_ s state result h
  intro walk ih s state result hwalk
  dsimp only at hwalk
  split at hwalk
  next hend => exact ⟨_, .arrived hend⟩
  next hend =>
    obtain ⟨pixels, hpixels⟩ := ih _ _ _ hwalk
    exact ⟨_, .step hend hpixels⟩

/-- A walk without a result is one along a line that does not come to its end. -/
theorem walk_eq_none_iff (visit : σ → α → α → σ) (state : σ) :
    s.walk visit x₁ y₁ dx dy sx sy state = none ↔
      ¬ ∃ pixels, Visits x₁ y₁ dx dy sx sy s pixels := by
  constructor
  · rintro hnone ⟨pixels, hpixels⟩
    rw [hpixels.walk_eq] at hnone
    cases hnone
  · intro hvisits
    cases hwalk : s.walk visit x₁ y₁ dx dy sx sy state with
    | none => rfl
    | some result => exact absurd (exists_visits_of_walk hwalk) hvisits

/-- What is done on a walk is done at the pixels that are visited, in turn. -/
theorem walk_eq_map (visit : σ → α → α → σ) (state : σ) :
    s.walk visit x₁ y₁ dx dy sx sy state =
      (s.walk (fun pixels x y => pixels ++ [(x, y)]) x₁ y₁ dx dy sx sy []).map
        (List.foldl (fun state pixel => visit state pixel.1 pixel.2) state) := by
  by_cases hvisits : ∃ pixels, Visits x₁ y₁ dx dy sx sy s pixels
  · obtain ⟨pixels, hpixels⟩ := hvisits
    have hlist : pixels.foldl (fun pixels pixel => pixels ++ [(pixel.1, pixel.2)]) [] = pixels := by
      rw [List.foldl_append_eq_append, List.nil_append, ← List.flatMap_def]
      exact List.flatMap_singleton' pixels
    rw [hpixels.walk_eq, hpixels.walk_eq, hlist, Option.map_some]
  · rw [(walk_eq_none_iff visit state).mpr hvisits, (walk_eq_none_iff _ _).mpr hvisits,
      Option.map_none]

/-- A line that does not move and is not at its end does not come there. -/
theorem not_visits_of_step_eq (hend : ¬ (s.x == x₁ && s.y == y₁) = true)
    (hstep : s.step dx dy sx sy = s) : ¬ Visits x₁ y₁ dx dy sx sy s pixels := by
  intro h
  -- A step leads back to the same state, so that the line would be shorter by one pixel.
  induction h with
  | arrived hat => exact hend hat
  | step _ _ ih => exact ih (by rwa [hstep]) (by rw [hstep, hstep])

end Loop

section Map

variable {α β : Type} {f : α → β}

/-- A state, in other numbers. -/
def LineState.map (f : α → β) (s : LineState α) : LineState β :=
  ⟨f s.x, f s.y, f s.err⟩

variable [Add α] [Neg α] [LE α] [DecidableLE α] [Add β] [Neg β] [LE β] [DecidableLE β]
  (hadd : ∀ a b, f (a + b) = f a + f b) (hneg : ∀ a, f (-a) = -f a)
  (hle : ∀ a b, f a ≤ f b ↔ a ≤ b)

include hadd hneg hle in
/-- Steps are the same in other numbers. -/
theorem LineState.map_step (dx dy sx sy : α) (s : LineState α) :
    (s.step dx dy sx sy).map f = (s.map f).step (f dx) (f dy) (f sx) (f sy) := by
  have hhorizontal : -f dy ≤ f s.err + f s.err ↔ -dy ≤ s.err + s.err := by
    rw [← hneg, ← hadd, hle]
  have hvertical : f s.err + f s.err ≤ f dx ↔ s.err + s.err ≤ dx := by
    rw [← hadd, hle]
  simp only [step, map, hhorizontal, hvertical, LineState.mk.injEq, decide_eq_true_eq]
  refine ⟨?_, ?_, ?_⟩ <;> (repeat' split) <;> simp only [hadd, hneg]

include hadd hneg hle in
/-- A line visits the same pixels in other numbers. -/
theorem Visits.map [BEq α] [BEq β] (hbeq : ∀ a b, (f a == f b) = (a == b))
    {x₁ y₁ dx dy sx sy : α} {s : LineState α} {pixels : List (α × α)}
    (h : Visits x₁ y₁ dx dy sx sy s pixels) :
    Visits (f x₁) (f y₁) (f dx) (f dy) (f sx) (f sy) (s.map f) (pixels.map (Prod.map f f)) := by
  have hends (s : LineState α) : ((s.map f).x == f x₁ && (s.map f).y == f y₁) =
      (s.x == x₁ && s.y == y₁) := by
    rw [LineState.map, hbeq, hbeq]
  induction h with
  | @arrived s hend => exact .arrived ((hends s).trans hend)
  | @step s pixels hend _ ih =>
    rw [LineState.map_step hadd hneg hle] at ih
    exact .step (by rwa [hends]) ih

end Map

end Flipbook.Raster
