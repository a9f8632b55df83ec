import Mathlib.Algebra.Order.Interval.Finset.Basic
import Mathlib.Data.Nat.Periodic
import Flipbook.Proofs.Number.Machine
import Flipbook.Proofs.Script.Compile
import Flipbook.Scene.Compose

/-!
# What is seen in a frame

The scene of a frame lists the elements that are seen in it, and the lines, in the order of the
script. A line that belongs to an element is seen only with the element, whatever becomes of the
pose of the element. Elements that blink are seen in the first part of each period; with whole
numbers, the same frames of each period are seen wherever the period is taken to begin, as long as
frame and phase add up exactly.

## Main definitions

* `FrameRange.Covers`: an optional run of frames contains a frame;
* `Element.SeenAt`: an element is seen in a frame;
* `Timeline.Shows`: what is drawn in a frame.

## Main results

* `shows_scene`: what the scene of a frame draws;
* `Blink.Counts.isOn_iff`: a blink of whole numbers;
* `card_seen_window`: the frames of one period in which an element is seen;
* `compile_composes`: all this for compiled scripts.
-/

namespace Flipbook

variable {α : Type}

/-- An optional run of frames contains a frame; without one, all frames are. -/
def FrameRange.Covers (range : Option FrameRange) (frame : Nat) : Prop :=
  ∀ r ∈ range, r.first ≤ frame ∧ frame ≤ r.last

instance (range : Option FrameRange) (frame : Nat) : Decidable (FrameRange.Covers range frame) :=
  inferInstanceAs (Decidable (∀ r ∈ range, r.first ≤ frame ∧ frame ≤ r.last))

section Counting

variable {on period first phase : Nat}

/-- Of the numbers in a window of the length of a period, as many have a small remainder as there
are small remainders, wherever the window begins. -/
theorem card_window (hon : on ≤ period) :
    ((Finset.Ico first (first + period)).filter fun n => (n + phase) % period < on).card = on := by
  have hperiodic : Function.Periodic (fun n => n % period < on) period := by
    intro n
    dsimp only
    rw [Nat.add_mod_right]
  have hsmall : (Finset.range period).filter (fun n => n % period < on) = Finset.range on := by
    ext n
    rw [Finset.mem_filter, Finset.mem_range, Finset.mem_range]
    constructor
    · rintro ⟨hn, hrest⟩
      rwa [Nat.mod_eq_of_lt hn] at hrest
    · intro hn
      rw [Nat.mod_eq_of_lt (hn.trans_le hon)]
      exact ⟨hn.trans_le hon, hn⟩
  -- The phase moves the window, and a window may begin anywhere.
  calc ((Finset.Ico first (first + period)).filter fun n => (n + phase) % period < on).card
      = (((Finset.Ico first (first + period)).map (addRightEmbedding phase)).filter
          fun n => n % period < on).card := by
        rw [Finset.filter_map, Finset.card_map]
        rfl
    _ = ((Finset.Ico (first + phase) (first + phase + period)).filter
          fun n => n % period < on).card := by
        rw [Finset.map_add_right_Ico, Nat.add_right_comm]
    _ = period.count fun n => n % period < on :=
        Nat.filter_Ico_card_eq_of_periodic _ _ _ hperiodic
    _ = on := by rw [Nat.count_eq_card_filter_range, hsmall, Finset.card_range]

end Counting

variable [Scalar α]

open Scalar

/-- An element is seen in a frame: its frames contain it, and it does not blink off. -/
def Element.SeenAt (e : Element α) (frame : Nat) : Prop :=
  FrameRange.Covers e.visible frame ∧ ∀ blink ∈ e.blink, blink.isOn (ofNat frame) = true

instance (e : Element α) (frame : Nat) : Decidable (e.SeenAt frame) :=
  inferInstanceAs (Decidable (_ ∧ ∀ blink ∈ e.blink, blink.isOn (ofNat frame) = true))

/-- A blink of whole numbers of frames, as far as scalars tell. -/
structure Blink.Counts (blink : Blink α) (on off phase : Nat) : Prop where
  on : (blink.on == ofNat on) = true
  off : (blink.off == ofNat off) = true
  phase : (blink.phase == ofNat phase) = true

section Blinking

variable [WholeScalar α] {blink : Blink α} {on off phase frame first : Nat} {e : Element α}

/-- The first frames of each period are the visible ones. -/
theorem Blink.Counts.isOn_iff (h : blink.Counts on off phase) (hpos : 0 < on)
    (hperiod : on + off ≤ Binary64.exactBound) (hsum : frame + phase ≤ Binary64.exactBound) :
    blink.isOn (ofNat frame) = true ↔ (frame + phase) % (on + off) < on := by
  have hrest : (frame + phase) % (on + off) ≤ Binary64.exactBound := (Nat.mod_le _ _).trans hsum
  rw [Blink.isOn, decide_eq_true_eq, WholeScalar.ofNat_add_of_beq hsum h.phase,
    WholeScalar.eq_of_beq hpos (by omega) h.on, WholeScalar.ofNat_add_of_beq hperiod h.off,
    WholeScalar.rem_ofNat hsum (by omega) hperiod, WholeScalar.ofNat_lt hrest (by omega)]

theorem Element.seenAt_iff (hblink : e.blink = some blink) (h : blink.Counts on off phase)
    (hpos : 0 < on) (hperiod : on + off ≤ Binary64.exactBound)
    (hsum : frame + phase ≤ Binary64.exactBound) :
    e.SeenAt frame ↔
      FrameRange.Covers e.visible frame ∧ (frame + phase) % (on + off) < on := by
  rw [Element.SeenAt, hblink]
  simp only [Option.mem_some_iff, forall_eq', h.isOn_iff hpos hperiod hsum]

/-- Being seen repeats with the period. -/
theorem Element.seenAt_add_period (hblink : e.blink = some blink) (h : blink.Counts on off phase)
    (hpos : 0 < on) (hsum : frame + (on + off) + phase ≤ Binary64.exactBound)
    (hcovers : FrameRange.Covers e.visible frame)
    (hcovers' : FrameRange.Covers e.visible (frame + (on + off))) :
    e.SeenAt (frame + (on + off)) ↔ e.SeenAt frame := by
  rw [seenAt_iff hblink h hpos (by omega) hsum, seenAt_iff hblink h hpos (by omega) (by omega),
    Nat.add_right_comm, Nat.add_mod_right]
  simp only [hcovers, hcovers']

/-- In every window of one period, an element is seen as often as it should be. -/
theorem card_seen_window (hblink : e.blink = some blink) (h : blink.Counts on off phase)
    (hpos : 0 < on) (hperiod : on + off ≤ Binary64.exactBound)
    (hsum : first + (on + off) + phase ≤ Binary64.exactBound + 1)
    (hcovers : ∀ n, first ≤ n → n < first + (on + off) → FrameRange.Covers e.visible n) :
    ((Finset.Ico first (first + (on + off))).filter e.SeenAt).card = on := by
  have hwindow : ((Finset.Ico first (first + (on + off))).filter fun n =>
      (n + phase) % (on + off) < on).card = on := card_window (Nat.le_add_right on off)
  refine Eq.trans (congrArg Finset.card (Finset.filter_congr fun n hn => ?_)) hwindow
  obtain ⟨hlow, hhigh⟩ := Finset.mem_Ico.mp hn
  rw [Element.seenAt_iff hblink h hpos hperiod (by omega)]
  simp only [hcovers n hlow hhigh, true_and]

end Blinking

section Ranges

variable [WholeScalar α] {range : Option FrameRange} {frame : Nat} {e : Element α}
  {mark : LineMark α} {shown : List String}

/-- Frames are compared as scalars, which are exact for them. -/
theorem allows_iff (hrange : ∀ r ∈ range, r.first ≤ Binary64.exactBound ∧
    r.last ≤ Binary64.exactBound) (hframe : frame ≤ Binary64.exactBound) :
    Span.allows (range.map FrameRange.span) (ofNat frame : α) = true ↔
      FrameRange.Covers range frame := by
  cases range with
  | none => simp [Span.allows, FrameRange.Covers]
  | some r =>
    obtain ⟨hfirst, hlast⟩ := hrange r rfl
    simp [Span.allows, Span.contains, FrameRange.span, FrameRange.Covers,
      WholeScalar.ofNat_le hfirst hframe, WholeScalar.ofNat_le hframe hlast]

theorem Element.visibleAt_iff (hrange : ∀ r ∈ e.visible, r.first ≤ Binary64.exactBound ∧
    r.last ≤ Binary64.exactBound) (hframe : frame ≤ Binary64.exactBound) :
    e.visibleAt (ofNat frame) = true ↔ e.SeenAt frame := by
  rw [Element.visibleAt, isVisible.eq_def, Bool.and_eq_true, allows_iff hrange hframe,
    Element.SeenAt]
  cases e.blink <;> simp

theorem LineMark.visibleAt_iff (hrange : ∀ r ∈ mark.range, r.first ≤ Binary64.exactBound ∧
    r.last ≤ Binary64.exactBound) (hframe : frame ≤ Binary64.exactBound) :
    mark.visibleAt shown (ofNat frame) = true ↔
      FrameRange.Covers mark.range frame ∧ ∀ id ∈ mark.elementId, id ∈ shown := by
  rw [LineMark.visibleAt, Bool.and_eq_true, allows_iff hrange hframe]
  cases mark.elementId <;> simp

end Ranges

namespace Timeline

variable {α : Type} [Trig α] {t : Timeline α} {frame : Nat}

/-- What is drawn in a frame: the elements that are seen, as they appear in it, and then the lines
that are seen, between the ends they are declared with. -/
structure Shows (t : Timeline α) (frame : Nat) (seen : List (Element α))
    (drawn : List (LineMark α × Nat)) (drawables : List (Drawable α)) : Prop where
  drawables_eq : drawables = seen.map (t.drawElement frame) ++
    drawn.map fun mark => .line mark.2 mark.1.start mark.1.finish
  /-- Elements come in the order of the script. -/
  elements : seen.Sublist t.elements
  /-- No element comes twice. -/
  ids : (seen.map Element.id).Nodup
  mem_seen : ∀ e ∈ t.elements, e ∈ seen ↔ e.SeenAt frame
  /-- So do lines, each with its position in the script. -/
  marks : drawn.Sublist t.lines.zipIdx
  /-- A line with an owner needs a drawing of the owner in the same frame. -/
  mem_drawn : ∀ mark ∈ t.lines.zipIdx, mark ∈ drawn ↔
    FrameRange.Covers mark.1.range frame ∧ ∀ id ∈ mark.1.elementId,
      ∃ source fit pose transform, .element id source fit pose transform ∈ drawables

/-- The lines of a frame, picked from those of the script. -/
theorem drawLines_eq (t : Timeline α) (frame : Nat) :
    t.drawLines frame = (t.lines.zipIdx.filter fun mark =>
      mark.1.visibleAt ((t.shown frame).map Element.id) (ofNat frame)).map fun mark =>
        .line mark.2 mark.1.start mark.1.finish := by
  rw [← List.filterMap_eq_map (f := fun mark : LineMark α × Nat =>
    Drawable.line mark.2 mark.1.start mark.1.finish), List.filterMap_filter]
  rfl

/-- An element is drawn if one of its name is seen. -/
theorem exists_element_mem_scene {id : String} :
    (∃ source fit pose transform,
        .element id source fit pose transform ∈ (t.scene frame).drawables) ↔
      id ∈ (t.shown frame).map Element.id := by
  rw [scene, drawLines_eq, List.mem_map]
  constructor
  · rintro ⟨source, fit, pose, transform, hmem⟩
    rcases List.mem_append.mp hmem with hmem | hmem
    · obtain ⟨e, he, hdrawn⟩ := List.mem_map.mp hmem
      exact ⟨e, he, (Drawable.element.inj hdrawn).1⟩
    · obtain ⟨mark, -, hdrawn⟩ := List.mem_map.mp hmem
      cases hdrawn
  · rintro ⟨e, he, rfl⟩
    exact ⟨_, _, _, _, List.mem_append_left _ (List.mem_map_of_mem he)⟩

theorem shows_scene (hids : (t.elements.map Element.id).Nodup)
    (hranges : ∀ r ∈ frameRanges t.elements t.moves t.lines, r.first ≤ Binary64.exactBound ∧
      r.last ≤ Binary64.exactBound) (hframe : frame ≤ Binary64.exactBound) [WholeScalar α] :
    ∃ seen drawn, t.Shows frame seen drawn (t.scene frame).drawables := by
  refine ⟨t.shown frame, t.lines.zipIdx.filter fun mark =>
    mark.1.visibleAt ((t.shown frame).map Element.id) (ofNat frame), ?_⟩
  have hseen : (t.shown frame).Sublist t.elements := List.filter_sublist
  constructor
  case drawables_eq => rw [scene, drawLines_eq]
  case elements => exact hseen
  case ids => exact hids.sublist (hseen.map _)
  case mem_seen =>
    -- The frames of elements and of lines are among those that the script was checked for.
    intro e he
    rw [shown, List.mem_filter, Element.visibleAt_iff (fun r hr => hranges r ?_) hframe]
    · simp only [he, true_and]
    · exact List.mem_append_left _ (List.mem_filterMap.mpr ⟨e, he, hr⟩)
  case marks => exact List.filter_sublist
  case mem_drawn =>
    intro mark hmark
    have hline : mark.1 ∈ t.lines := List.fst_mem_of_mem_zipIdx hmark
    rw [List.mem_filter, LineMark.visibleAt_iff (fun r hr => hranges r ?_) hframe]
    · simp only [hmark, true_and, exists_element_mem_scene]
    · exact List.mem_append_right _
        (List.mem_append_right _ (List.mem_filterMap.mpr ⟨_, hline, hr⟩))

/-- A frame that a timeline does not have is refused by its number. -/
theorem sceneAt_cases (ht : t.totalFrames ≤ Binary64.exactBound) (number : Binary64) :
    (∃ frame < t.totalFrames, number = .ofNat frame ∧ t.sceneAt number = .ok (t.scene frame)) ∨
      (¬ ∃ frame < t.totalFrames, number = .ofNat frame) ∧
        t.sceneAt number = .error (.frameOutside number (t.totalFrames - 1)) := by
  by_cases hframe : ∃ frame < t.totalFrames, number = .ofNat frame
  · obtain ⟨frame, hless, rfl⟩ := hframe
    refine .inl ⟨frame, hless, rfl, ?_⟩
    rw [sceneAt, Binary64.toNat?_ofNat (by omega)]
    exact if_pos hless
  · refine .inr ⟨hframe, ?_⟩
    rw [sceneAt]
    split
    next n hn =>
      refine if_neg fun hless => hframe ⟨n, hless, ?_⟩
      exact Binary64.eq_ofNat_of_toNat? hn (by omega)
    next => rfl

end Timeline

section Compiled

variable {α : Type} [Trig α] [FiniteUnits α] [WholeScalar α] {t : Timeline α}

/-- The scenes of a compiled script. A frame is refused just if the script does not have it; what
is drawn in the others is what the script says. An element that blinks with whole numbers is seen
again one period later, and in every window of one period it is seen as often as the script says,
as long as frame and phase add up to at most `2 ^ 53`. -/
theorem compile_composes {options : Script.Options} {text : String}
    (h : Script.compile options text = .ok t) :
    (∀ number : Binary64,
      (∃ e, t.sceneAt number = .error e) ↔ ¬ ∃ frame < t.totalFrames, number = .ofNat frame) ∧
    (∀ number e, t.sceneAt number = .error e → e = .frameOutside number (t.totalFrames - 1)) ∧
    (∀ frame < t.totalFrames, ∃ scene seen drawn, t.sceneAt (.ofNat frame) = .ok scene ∧
      t.Shows frame seen drawn scene.drawables) ∧
    ∀ e ∈ t.elements, ∀ blink ∈ e.blink, ∀ on off phase : Nat, blink.Counts on off phase →
      (∀ frame, frame + (on + off) < t.totalFrames →
        frame + (on + off) + phase ≤ Binary64.exactBound →
        FrameRange.Covers e.visible frame → FrameRange.Covers e.visible (frame + (on + off)) →
          (e.SeenAt (frame + (on + off)) ↔ e.SeenAt frame)) ∧
      ∀ first, first + (on + off) ≤ t.totalFrames →
        first + (on + off) + phase ≤ Binary64.exactBound + 1 →
        (∀ frame, first ≤ frame → frame < first + (on + off) →
          FrameRange.Covers e.visible frame) →
          ((Finset.Ico first (first + (on + off))).filter e.SeenAt).card = on := by
  have hwell := Script.compile_wellFormed h
  have hgreatest : Script.greatestInteger ≤ Binary64.exactBound := by decide
  have ht : t.totalFrames ≤ Binary64.exactBound := hwell.frames_le.trans hgreatest
  have hranges : ∀ r ∈ frameRanges t.elements t.moves t.lines,
      r.first ≤ Binary64.exactBound ∧ r.last ≤ Binary64.exactBound := by
    intro r hr
    obtain ⟨hordered, hlast⟩ := hwell.ranges r hr
    omega
  refine ⟨fun number => ?_, fun number e he => ?_, fun frame hframe => ?_, ?_⟩
  · rcases Timeline.sceneAt_cases ht number with ⟨frame, hless, rfl, hscene⟩ | ⟨hnone, hscene⟩
    · rw [hscene]
      exact ⟨nofun, fun hnone => absurd ⟨frame, hless, rfl⟩ hnone⟩
    · exact ⟨fun _ => hnone, fun _ => ⟨_, hscene⟩⟩
  · rcases Timeline.sceneAt_cases ht number with ⟨frame, -, -, hscene⟩ | ⟨-, hscene⟩
    · rw [hscene] at he
      cases he
    · rw [hscene] at he
      exact (Except.error.inj he).symm
  · rcases Timeline.sceneAt_cases ht (.ofNat frame) with ⟨n, hless, hsame, hscene⟩ | ⟨hnone, -⟩
    · obtain rfl := (Binary64.ofNat_inj (by omega) (by omega)).mp hsame
      obtain ⟨seen, drawn, hshows⟩ :=
        Timeline.shows_scene hwell.resolved.ids hranges (by omega : frame ≤ Binary64.exactBound)
      exact ⟨_, seen, drawn, hscene, hshows⟩
    · exact absurd ⟨frame, hframe, rfl⟩ hnone
  · intro e he blink hblink on off phase hcounts
    -- A script is refused unless its blinks are on at some time.
    have hon : 0 < on := by
      rcases Nat.eq_zero_or_pos on with rfl | hpos
      · exact absurd ((hwell.resolved.posed e he).blink blink hblink).on
          (WholeScalar.not_lt_of_beq hcounts.on)
      · exact hpos
    refine ⟨fun frame hframe hsum hcovers hcovers' => ?_, fun first hfirst hsum hcovers => ?_⟩
    · exact Element.seenAt_add_period hblink hcounts hon hsum hcovers hcovers'
    · exact card_seen_window hblink hcounts hon (by omega) hsum hcovers

end Compiled

/-- An element that blinks every other frame, from a phase on. -/
def winkElement (phase : Float) : Element Float where
  id := "a"
  source := "arrow.plt"
  pose := Pose.neutral
  fit := true
  visible := none
  blink := some ⟨1, 1, phase⟩
  line := 2

/-- Four frames with that element, and with a line that belongs to it. -/
def winkTimeline (phase : Float) : Timeline Float where
  elements := [winkElement phase]
  moves := []
  lines := [⟨⟨0, 0⟩, ⟨10, 10⟩, none, some "a", 3⟩]
  totalFrames := 4
  frameRate := Script.defaultFrameRate
  canvas := Script.defaultCanvas

theorem compile_composes_wink :
    Script.compile {} "frames 4\nelement a arrow.plt blink 1 1 7\nline 0 0 10 10 with a" =
        .ok (winkTimeline 7) ∧
      (∃ scene seen drawn, (winkTimeline 7).sceneAt (.ofNat 2) = .ok scene ∧
        (winkTimeline 7).Shows 2 seen drawn scene.drawables) ∧
      ((Finset.Ico 1 3).filter (winkElement 7).SeenAt).card = 1 := by
  have hcompiled : Script.compile {}
      "frames 4\nelement a arrow.plt blink 1 1 7\nline 0 0 10 10 with a" =
        .ok (winkTimeline 7) := by
    decide +kernel
  obtain ⟨-, -, hscene, hblink⟩ := compile_composes hcompiled
  have hcounts : (⟨1, 1, 7⟩ : Blink Float).Counts 1 1 7 :=
    ⟨by decide +kernel, by decide +kernel, by decide +kernel⟩
  exact ⟨hcompiled, hscene 2 (by decide),
    (hblink (winkElement 7) List.mem_cons_self ⟨1, 1, 7⟩ rfl 1 1 7 hcounts).2 1 (by decide)
      (by decide) fun _ _ _ => nofun⟩

/-- From a phase of `2 ^ 53` on, frame and phase do not add up exactly, and an element that should
blink every other frame is seen in all of them. -/
theorem not_blinking_far :
    Script.compile {}
        "frames 4\nelement a arrow.plt blink 1 1 9007199254740992\nline 0 0 10 10 with a" =
      .ok (winkTimeline 9007199254740992) ∧
      (⟨1, 1, 9007199254740992⟩ : Blink Float).Counts 1 1 9007199254740992 ∧
      (winkElement 9007199254740992).blink = some ⟨1, 1, 9007199254740992⟩ ∧
      (∀ frame, FrameRange.Covers (winkElement 9007199254740992).visible frame) ∧
      ((Finset.Ico 0 2).filter (winkElement 9007199254740992).SeenAt).card = 2 :=
  ⟨by decide +kernel, ⟨by decide +kernel, by decide +kernel, by decide +kernel⟩, rfl,
    fun _ => nofun, by decide +kernel⟩

end Flipbook
