import Flipbook.Script.Token

/-!
# Well-formed timelines

What composing and tweening rely on when they are given a timeline: its names are resolved to
elements of earlier lines, its frame ranges lie within it, and its numbers are numbers.

## Main definitions

- `OneOfEach`: the changes of one move.
- `Resolved`: elements, moves and lines that fit together.
- `Timeline.WellFormed`: the property of a whole timeline.
-/

namespace Flipbook

/-- Scalars whose zero and one, which every pose starts from, are finite. -/
class FiniteUnits (α : Type) [Scalar α] : Prop where
  zero : Scalar.isFinite (Scalar.ofInt 0 : α) = true
  one : Scalar.isFinite (Scalar.ofInt 1 : α) = true

instance : FiniteUnits Float where
  zero := by decide
  one := by decide

instance : FiniteUnits Rat where
  zero := rfl
  one := rfl

variable {α : Type}

/-- A name is declared by an element in front of a line of the script. -/
def DeclaredBefore (elements : List (Element α)) (line : Nat) (id : String) : Prop :=
  ∃ e ∈ elements, e.id = id ∧ e.line < line

/-- The frame ranges that a script names. -/
def frameRanges (elements : List (Element α)) (moves : List (Move α))
    (lines : List (LineMark α)) : List FrameRange :=
  elements.filterMap Element.visible ++ (moves.map Move.range ++ lines.filterMap LineMark.range)

theorem DeclaredBefore.append {elements : List (Element α)} {line : Nat} {id : String}
    (h : DeclaredBefore elements line id) (more : List (Element α)) :
    DeclaredBefore (elements ++ more) line id := by
  obtain ⟨e, he, hid, hline⟩ := h
  exact ⟨e, List.mem_append_left more he, hid, hline⟩

section Ranges

variable {elements : List (Element α)} {moves : List (Move α)} {lines : List (LineMark α)}
  {r : FrameRange}

theorem mem_frameRanges_element {e : Element α} (h : r ∈ frameRanges (elements ++ [e]) moves lines) :
    r ∈ frameRanges elements moves lines ∨ r ∈ e.visible := by
  simp only [frameRanges, List.filterMap_append, List.mem_append] at h ⊢
  rcases h with (hold | hnew) | hrest
  · exact .inl (.inl hold)
  · exact .inr (by simpa using hnew)
  · exact .inl (.inr hrest)

theorem mem_frameRanges_move {m : Move α} (h : r ∈ frameRanges elements (moves ++ [m]) lines) :
    r ∈ frameRanges elements moves lines ∨ r = m.range := by
  simp only [frameRanges, List.map_append, List.mem_append] at h ⊢
  rcases h with hfirst | (hold | hnew) | hrest
  · exact .inl (.inl hfirst)
  · exact .inl (.inr (.inl hold))
  · exact .inr (by simpa using hnew)
  · exact .inl (.inr (.inr hrest))

theorem mem_frameRanges_mark {l : LineMark α} (h : r ∈ frameRanges elements moves (lines ++ [l])) :
    r ∈ frameRanges elements moves lines ∨ r ∈ l.range := by
  simp only [frameRanges, List.filterMap_append, List.mem_append] at h ⊢
  rcases h with hfirst | hmoves | hold | hnew
  · exact .inl (.inl hfirst)
  · exact .inl (.inr (.inl hmoves))
  · exact .inl (.inr (.inr hold))
  · exact .inr (by simpa using hnew)

end Ranges

variable [Scalar α]

open Scalar

structure Pose.Finite (pose : Pose α) : Prop where
  x : isFinite pose.x = true
  y : isFinite pose.y = true
  rotation : isFinite pose.rotation = true
  scaleX : isFinite pose.scaleX = true
  scaleY : isFinite pose.scaleY = true

def Transform.Finite : Transform α → Prop
  | .translate dx dy => isFinite dx = true ∧ isFinite dy = true
  | .rotate degrees => isFinite degrees = true
  | .scale sx sy => isFinite sx = true ∧ isFinite sy = true

/-- The changes of a move: there are some, they concern different channels, and their numbers are
finite. -/
structure OneOfEach (ops : List (Transform α)) : Prop where
  ne_nil : ops ≠ []
  channels : (ops.map Transform.channel).Nodup
  finite : ∀ op ∈ ops, op.Finite

/-- A blink that is visible at times and does not count backwards. -/
structure Blink.WellFormed (blink : Blink α) : Prop where
  on : ofInt 0 < blink.on
  off : ofInt 0 ≤ blink.off
  phase : ofInt 0 ≤ blink.phase

structure Element.WellFormed (element : Element α) : Prop where
  pose : element.pose.Finite
  blink : ∀ blink ∈ element.blink, blink.WellFormed

def LineMark.Finite (mark : LineMark α) : Prop :=
  mark.start.isFinite = true ∧ mark.finish.isFinite = true

/-- Dimensions that are positive and exact. -/
structure Canvas.WellFormed (canvas : Canvas) : Prop where
  width_pos : 0 < canvas.width
  width_le : canvas.width ≤ Script.greatestInteger
  height_pos : 0 < canvas.height
  height_le : canvas.height ≤ Script.greatestInteger

/-- Elements, moves and lines that fit together. -/
structure Resolved (elements : List (Element α)) (moves : List (Move α))
    (lines : List (LineMark α)) : Prop where
  /-- A name is the name of one element. -/
  ids : (elements.map Element.id).Nodup
  /-- Elements stand on lines of their own, in the order of the script. -/
  elementLines : (elements.map Element.line).Pairwise (· < ·)
  /-- So do moves. -/
  moveLines : (moves.map Move.line).Pairwise (· < ·)
  /-- So do lines. -/
  markLines : (lines.map LineMark.line).Pairwise (· < ·)
  /-- Moves know their positions. -/
  orders : moves.map Move.order = List.range moves.length
  /-- Every element has a finite pose and a proper blink. -/
  posed : ∀ e ∈ elements, e.WellFormed
  /-- Every move changes something, and no channel twice. -/
  ops : ∀ m ∈ moves, OneOfEach m.ops
  /-- Every line has two proper ends. -/
  ends : ∀ l ∈ lines, l.Finite
  /-- What moves is declared. -/
  moved : ∀ m ∈ moves, DeclaredBefore elements m.line m.elementId
  /-- What a line belongs to is declared. -/
  owned : ∀ l ∈ lines, ∀ id ∈ l.elementId, DeclaredBefore elements l.line id

/-- What a compiled script satisfies. -/
structure Timeline.WellFormed (timeline : Timeline α) : Prop where
  resolved : Resolved timeline.elements timeline.moves timeline.lines
  /-- Every frame range is in order and ends within the animation. -/
  ranges : ∀ r ∈ frameRanges timeline.elements timeline.moves timeline.lines,
    r.first ≤ r.last ∧ r.last ≤ timeline.totalFrames
  frames_pos : 1 ≤ timeline.totalFrames
  frames_le : timeline.totalFrames ≤ Script.greatestInteger
  rate_pos : 0 < timeline.frameRate
  canvas : timeline.canvas.WellFormed

section Growing

variable {elements : List (Element α)} {moves : List (Move α)} {lines : List (LineMark α)}

theorem resolved_nil : Resolved ([] : List (Element α)) [] [] where
  ids := List.nodup_nil
  elementLines := .nil
  moveLines := .nil
  markLines := .nil
  orders := rfl
  posed := List.forall_mem_nil _
  ops := List.forall_mem_nil _
  ends := List.forall_mem_nil _
  moved := List.forall_mem_nil _
  owned := List.forall_mem_nil _

/-- What relates every two items of a list in order goes on to a new one behind them. -/
theorem pairwise_map_append {β γ : Type} {r : γ → γ → Prop} {f : β → γ} {items : List β} {item : β}
    (h : (items.map f).Pairwise r) (hlast : ∀ i ∈ items, r (f i) (f item)) :
    ((items ++ [item]).map f).Pairwise r := by
  rw [List.map_append, List.pairwise_append]
  refine ⟨h, List.pairwise_singleton _ _, ?_⟩
  intro a ha b hb
  rw [List.map_singleton, List.mem_singleton] at hb
  obtain ⟨i, hi, rfl⟩ := List.mem_map.mp ha
  rw [hb]
  exact hlast i hi

/-- An element with a new name, on a later line, can be added. -/
theorem Resolved.addElement (h : Resolved elements moves lines) {e : Element α}
    (hid : ∀ d ∈ elements, d.id ≠ e.id) (hline : ∀ d ∈ elements, d.line < e.line)
    (he : e.WellFormed) : Resolved (elements ++ [e]) moves lines where
  ids := pairwise_map_append h.ids hid
  elementLines := pairwise_map_append h.elementLines hline
  moveLines := h.moveLines
  markLines := h.markLines
  orders := h.orders
  posed := List.forall_mem_append.mpr ⟨h.posed, List.forall_mem_singleton.mpr he⟩
  ops := h.ops
  ends := h.ends
  -- More elements declare more names.
  moved := fun m hm => (h.moved m hm).append [e]
  owned := fun l hl id hid' => (h.owned l hl id hid').append [e]

/-- A move of a declared element, on a later line, can be added; its position is the next one. -/
theorem Resolved.addMove (h : Resolved elements moves lines) {m : Move α}
    (horder : m.order = moves.length) (hline : ∀ n ∈ moves, n.line < m.line)
    (hops : OneOfEach m.ops) (hdeclared : DeclaredBefore elements m.line m.elementId) :
    Resolved elements (moves ++ [m]) lines where
  ids := h.ids
  elementLines := h.elementLines
  moveLines := pairwise_map_append h.moveLines hline
  markLines := h.markLines
  orders := by
    rw [List.map_append, h.orders, List.map_singleton, horder, List.length_append,
      List.length_singleton, List.range_succ]
  posed := h.posed
  ops := List.forall_mem_append.mpr ⟨h.ops, List.forall_mem_singleton.mpr hops⟩
  ends := h.ends
  moved := List.forall_mem_append.mpr ⟨h.moved, List.forall_mem_singleton.mpr hdeclared⟩
  owned := h.owned

/-- A line with a declared owner, or none, on a later line of the script, can be added. -/
theorem Resolved.addMark (h : Resolved elements moves lines) {l : LineMark α}
    (hline : ∀ k ∈ lines, k.line < l.line) (hends : l.Finite)
    (howned : ∀ id ∈ l.elementId, DeclaredBefore elements l.line id) :
    Resolved elements moves (lines ++ [l]) where
  ids := h.ids
  elementLines := h.elementLines
  moveLines := h.moveLines
  markLines := pairwise_map_append h.markLines hline
  orders := h.orders
  posed := h.posed
  ops := h.ops
  ends := List.forall_mem_append.mpr ⟨h.ends, List.forall_mem_singleton.mpr hends⟩
  moved := h.moved
  owned := List.forall_mem_append.mpr ⟨h.owned, List.forall_mem_singleton.mpr howned⟩

end Growing

end Flipbook
