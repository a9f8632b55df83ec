import Mathlib.Data.List.Basic
import Flipbook.Archive.Rechunk
import Flipbook.Proofs.Number.Order
import Flipbook.Proofs.Traverse

/-!
# Looking up the frames that a program plays

The frames that a program plays are looked up by counting. If the numbers that are present are
natural numbers below `2 ^ 53`, each step of counting meets another one of them, so counting ends
before it stalls: at the last frame, or at one that is missing.

## Main definitions

* `playedFiles`: the files that a program plays.

## Main results

* `playFrom_cases`: where counting ends;
* `playedFrames_eq_complete_iff`, `playedFrames_ne_endless`: what it tells;
* `rechunkPlayed_eq`: what is packed in place of an archive with a player.
-/

namespace Flipbook

open Binary64 (ofNat exactBound)

/-- The files that a program plays: all within its bounds but players. -/
def playedFiles (files : List SequenceFile) (bounds : FrameBounds) : List SequenceFile :=
  files.filter fun f =>
    !isPlayerFile f.file && bounds.firstFrame.le f.number && f.number.le bounds.lastFrame

variable {present : List Binary64}

/-- Counting passes a number that is present, so fewer of those that are present remain. -/
theorem length_remaining_lt {n : Nat} (hn : n < exactBound) (h : ofNat n ∈ present) :
    (present.filter fun a => (ofNat (n + 1)).le a).length <
      (present.filter fun a => (ofNat n).le a).length := by
  have hnext : (ofNat n).le (ofNat (n + 1)) = true :=
    (Binary64.ofNat_le_iff (by omega)).mpr (Nat.le_succ n)
  have hpassed : (ofNat (n + 1)).le (ofNat n) ≠ true := by
    rw [Ne, Binary64.le_ofNat_iff hn]
    omega
  -- What is behind the next number is behind this one, which is not behind the next itself.
  have hremaining : present.filter (fun a => (ofNat (n + 1)).le a) =
      (present.filter fun a => (ofNat n).le a).filter fun a => (ofNat (n + 1)).le a := by
    rw [List.filter_filter]
    refine List.filter_congr fun a _ => ?_
    rw [Bool.eq_iff_iff, Bool.and_eq_true]
    exact ⟨fun ha => ⟨ha, Binary64.le_trans hnext ha⟩, And.left⟩
  rw [hremaining, List.length_filter_lt_length_iff_exists]
  exact ⟨ofNat n, List.mem_filter.mpr ⟨h, Binary64.ofNat_le_self n⟩, hpassed⟩

/-- Counting from a natural number ends at the last number or at the first one that is missing. -/
theorem playFrom_cases (hpresent : ∀ a ∈ present, ∃ n < exactBound, a = ofNat n)
    (last : Binary64) (fuel n : Nat)
    (hfuel : (present.filter fun a => (ofNat n).le a).length < fuel) :
    (playFrom present last fuel (ofNat n) = .complete ∧
        ∀ k, (ofNat n).le (ofNat k) → (ofNat k).le last → ofNat k ∈ present) ∨
      ∃ k, playFrom present last fuel (ofNat n) = .missing (ofNat k) ∧
        (ofNat n).le (ofNat k) ∧ (ofNat k).le last ∧ ofNat k ∉ present := by
  -- There is more fuel than there are numbers ahead, and each step passes one of them.
  induction fuel generalizing n with
  | zero => cases hfuel
  | succ fuel ih =>
    rw [playFrom]
    by_cases hlast : (ofNat n).le last = true
    · rw [if_pos hlast]
      by_cases hmem : ofNat n ∈ present
      · rw [if_pos (List.contains_iff_mem.mpr hmem)]
        -- The number is present, so it is an exact one, and so is the next.
        obtain ⟨m, hm, heq⟩ := hpresent _ hmem
        have hle : n ≤ m := (Binary64.le_ofNat_iff hm).mp (heq ▸ Binary64.ofNat_le_self n)
        have hn : n < exactBound := Nat.lt_of_le_of_lt hle hm
        have hbehind : ∀ k, (ofNat n).le (ofNat k) = true ↔
            n = k ∨ (ofNat (n + 1)).le (ofNat k) := by
          intro k
          rw [Binary64.ofNat_le_iff (by omega), Binary64.ofNat_le_iff (by omega)]
          omega
        rw [Binary64.ofNat_add_one hn]
        have hremaining := length_remaining_lt hn hmem
        refine (ih (n + 1) (by omega)).imp ?_ ?_
        · rintro ⟨hcomplete, hall⟩
          refine ⟨hcomplete, fun k hk hklast => ?_⟩
          rcases (hbehind k).mp hk with rfl | hk
          · exact hmem
          · exact hall k hk hklast
        · rintro ⟨k, hmissing, hk, hrest⟩
          exact ⟨k, hmissing, (hbehind k).mpr (.inr hk), hrest⟩
      · rw [if_neg (by rwa [List.contains_iff_mem])]
        exact .inr ⟨n, rfl, Binary64.ofNat_le_self n, hlast, hmem⟩
    · rw [if_neg hlast]
      exact .inl ⟨rfl, fun k hk hklast => absurd (Binary64.le_trans hk hklast) hlast⟩

section Frames

variable {bounds : FrameBounds} (hfirst : ∃ n, bounds.firstFrame = ofNat n)
  (hpresent : ∀ a ∈ present, ∃ n < exactBound, a = ofNat n)
include hfirst hpresent

theorem playedFrames_cases :
    (playedFrames present bounds = .complete ∧
        ∀ k, bounds.firstFrame.le (ofNat k) → (ofNat k).le bounds.lastFrame → ofNat k ∈ present) ∨
      ∃ k, playedFrames present bounds = .missing (ofNat k) ∧
        bounds.firstFrame.le (ofNat k) ∧ (ofNat k).le bounds.lastFrame ∧ ofNat k ∉ present := by
  obtain ⟨n, hn⟩ := hfirst
  have hfuel : (present.filter fun a => (ofNat n).le a).length < present.length + 1 :=
    Nat.lt_succ_of_le (List.length_filter_le _ _)
  rw [playedFrames, hn]
  exact playFrom_cases hpresent bounds.lastFrame _ n hfuel

/-- A program can be played if all numbers within its bounds are present. -/
theorem playedFrames_eq_complete_iff : playedFrames present bounds = .complete ↔
    ∀ k, bounds.firstFrame.le (ofNat k) → (ofNat k).le bounds.lastFrame → ofNat k ∈ present := by
  rcases playedFrames_cases hfirst hpresent with ⟨hcomplete, hall⟩ | ⟨k, hmissing, hk⟩
  · exact iff_of_true hcomplete hall
  · rw [hmissing]
    exact iff_of_false nofun fun hall => hk.2.2 (hall k hk.1 hk.2.1)

/-- Counting does not stall. -/
theorem playedFrames_ne_endless : playedFrames present bounds ≠ .endless := by
  rcases playedFrames_cases hfirst hpresent with ⟨hcomplete, -⟩ | ⟨k, hmissing, -⟩
  · rw [hcomplete]
    exact nofun
  · rw [hmissing]
    exact nofun

end Frames

section Played

variable {files : List SequenceFile} {bounds : FrameBounds} {program : List UInt8}

/-- The first frame that a program plays has a natural number. -/
theorem exists_firstFrame_eq (h : playerBounds program = .ok bounds) :
    ∃ n, bounds.firstFrame = ofNat n := by
  simp only [playerBounds, bind_eq_ok_iff] at h
  obtain ⟨first, -, last, -, hbounds⟩ := h
  obtain rfl := Except.ok.inj hbounds
  exact Binary64.exists_digitsNumber_add_one first

theorem mem_playedFiles {f : SequenceFile} : f ∈ playedFiles files bounds ↔
    f ∈ files ∧ isPlayerFile f.file = false ∧ bounds.firstFrame.le f.number = true ∧
      f.number.le bounds.lastFrame = true := by
  rw [playedFiles, List.mem_filter, Bool.and_eq_true, Bool.and_eq_true, Bool.not_eq_true',
    and_assoc]

/-- An archive with a player is packed anew from the files that are played, once they are found. -/
theorem rechunkPlayed_eq {options : PackOptions} (hbounds : playerBounds program = .ok bounds)
    (hunplayed : options.player = none) : rechunkPlayed files program options =
      match playedFrames ((playedFiles files bounds).map SequenceFile.number) bounds with
      | .missing n => .error (.playedFileMissing n)
      | .endless => .error (.endlessPlayback bounds.lastFrame)
      | .complete => packSequence (playedFiles files bounds)
          { options with player := some (.existing program) } := by
  rw [rechunkPlayed, hbounds, hunplayed, Player.ofProgram, hbounds]
  rfl

end Played

end Flipbook
