import Flipbook.Script.Timeline

/-!
# Stretches of time

A move goes on over a stretch of time, and an element may be seen during one. Moments are scalars:
between two frames there are others.

## Main definitions

* `Span.contains`: whether a moment lies in a stretch of time.
* `Span.progress`: how much of it has passed at a moment.
* `FrameRange.span`: the stretch of time that a run of frames takes.
-/

namespace Flipbook

variable {α : Type} [Scalar α]

open Scalar

/-- A stretch of time, both ends included. -/
structure Span (α : Type) where
  first : α
  last : α
  deriving DecidableEq, Repr

namespace Span

/-- Whether a stretch of time contains a moment. -/
def contains (span : Span α) (moment : α) : Bool :=
  decide (span.first ≤ moment) && decide (moment ≤ span.last)

/-- Whether an optional stretch of time contains a moment; without one, everything does. -/
def allows (span : Option (Span α)) (moment : α) : Bool :=
  match span with
  | none => true
  | some s => s.contains moment

/-- The fraction of a stretch of time that has passed at a moment. One without length is over at
once. -/
def progress (span : Span α) (moment : α) : α :=
  if span.last == span.first then
    if span.first ≤ moment then ofInt 1 else ofInt 0
  else clamp ((moment - span.first) / (span.last - span.first)) (ofInt 0) (ofInt 1)

end Span

/-- The stretch of time from the first to the last of a run of frames. -/
def FrameRange.span (range : FrameRange) : Span α :=
  ⟨ofNat range.first, ofNat range.last⟩

end Flipbook
