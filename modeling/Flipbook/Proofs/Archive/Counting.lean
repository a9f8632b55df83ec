import Mathlib.Data.List.Dedup
import Flipbook.Proofs.Archive.Playback
import Flipbook.Proofs.Number.Stalling

/-!
# When looking up the frames of a program ends

The bounds of a program are whatever digits stand in it, so they may be far apart. Still, looking up
the frames between them ends soon: each number that counting meets is present or is the last one
looked up, and as long as counting gets on, it meets each of them once. But from `2 ^ 53` on it does
not get on. If all numbers up to there are present, and the program plays them, it never ends.

## Main definitions

* `PlaysBeyond`: all numbers from the first frame up to one from `2 ^ 53` on are played and present.

## Main results

* `playFrom_ofNat_endless`, `playFrom_ofNat_ne_endless`: counting from a number below `2 ^ 53`;
* `playsBeyond_iff_of_stalls`: counting from a number that is its own successor;
* `playback_ends_iff`: looking up the frames of a program ends, and how soon, unless the program
  plays beyond `2 ^ 53`.
-/

namespace Flipbook

open Binary64 (ofNat exactBound)

/-- A program plays a number from `2 ^ 53` on, and this and all that it plays before are present. -/
def PlaysBeyond (present : List Binary64) (bounds : FrameBounds) : Prop :=
  ∃ z, exactBound ≤ z ∧ bounds.firstFrame.le (ofNat z) ∧ (ofNat z).le bounds.lastFrame ∧
    ∀ k, bounds.firstFrame.le (ofNat k) → (ofNat k).le (ofNat z) → ofNat k ∈ present

section Counting

variable {present : List Binary64} {last z : Binary64} {fuel n : Nat}

/-- Counting goes on if a number is within the bounds and present. -/
theorem playFrom_succ (hlast : z.le last = true) (hmem : z ∈ present) (fuel : Nat) :
    playFrom present last (fuel + 1) z = playFrom present last fuel (z + 1) := by
  rw [playFrom, if_pos hlast, if_pos (List.contains_iff_mem.mpr hmem)]

/-- Otherwise it ends there. -/
theorem playFrom_succ_ne_endless (h : z.le last = true → z ∉ present) (fuel : Nat) :
    playFrom present last (fuel + 1) z ≠ .endless := by
  rw [playFrom]
  split
  next hlast =>
    rw [if_neg (by rw [List.contains_iff_mem]; exact h hlast)]
    intro hmissing
    cases hmissing
  next =>
    intro hcomplete
    cases hcomplete

/-- More fuel does not change where counting ends. -/
theorem playFrom_add (k : Nat) (h : playFrom present last fuel z ≠ .endless) :
    playFrom present last (fuel + k) z = playFrom present last fuel z := by
  induction fuel generalizing z with
  | zero => exact absurd rfl h
  | succ fuel ih =>
    rw [Nat.add_right_comm]
    -- Both counts take the same step, or end at the same number.
    by_cases hon : z.le last = true ∧ z ∈ present
    · rw [playFrom_succ hon.1 hon.2] at h ⊢
      rw [playFrom_succ hon.1 hon.2, ih h]
    · rw [playFrom, playFrom]
      split
      next hlast =>
        have habsent : ¬ present.contains z = true := fun hmem =>
          hon ⟨hlast, List.contains_iff_mem.mp hmem⟩
        rw [if_neg habsent, if_neg habsent]
      next => rfl

/-- Counting does not get past a number that is its own successor. -/
theorem playFrom_stalled (hstalls : z + 1 = z) (hlast : z.le last = true) (hmem : z ∈ present)
    (fuel : Nat) : playFrom present last fuel z = .endless := by
  induction fuel with
  | zero => rfl
  | succ fuel ih => rw [playFrom_succ hlast hmem, hstalls, ih]

/-- If all numbers up to `2 ^ 53` are present, counting gets there, and no further. -/
theorem playFrom_ofNat_endless (hn : n ≤ exactBound) (hlast : (ofNat exactBound).le last = true)
    (hpresent : ∀ k, n ≤ k → k ≤ exactBound → ofNat k ∈ present) (fuel : Nat) :
    playFrom present last fuel (ofNat n) = .endless := by
  induction fuel generalizing n with
  | zero => rfl
  | succ fuel ih =>
    have hmem := hpresent n (Nat.le_refl n) hn
    rcases Nat.eq_or_lt_of_le hn with rfl | hlt
    · exact playFrom_stalled (by decide +kernel) hlast hmem _
    · have hplayed : (ofNat n).le last = true :=
        Binary64.le_trans ((Binary64.ofNat_le_iff hn).mpr hn) hlast
      rw [playFrom_succ hplayed hmem, Binary64.ofNat_add_one hlt]
      exact ih hlt fun k hk => hpresent k (Nat.le_of_succ_le hk)

/-- If one of them is not, or is not played, counting ends once it has met all that are. -/
theorem playFrom_ofNat_ne_endless (hn : n ≤ exactBound)
    (h : ¬ ((ofNat exactBound).le last = true ∧
      ∀ k, n ≤ k → k ≤ exactBound → ofNat k ∈ present))
    (hfuel : (present.dedup.filter fun a => (ofNat n).le a).length < fuel) :
    playFrom present last fuel (ofNat n) ≠ .endless := by
  -- Each step passes one of the numbers that are present, and there are fewer of them ahead.
  induction fuel generalizing n with
  | zero => cases hfuel
  | succ fuel ih =>
    by_cases hon : (ofNat n).le last = true ∧ ofNat n ∈ present
    · rcases Nat.eq_or_lt_of_le hn with rfl | hlt
      · refine absurd ⟨hon.1, fun k hleast hmost => ?_⟩ h
        rw [Nat.le_antisymm hmost hleast]
        exact hon.2
      · have hremaining := length_remaining_lt hlt (List.mem_dedup.mpr hon.2)
        rw [playFrom_succ hon.1 hon.2, Binary64.ofNat_add_one hlt]
        refine ih hlt (fun hall => h ⟨hall.1, fun k hleast hmost => ?_⟩) (by omega)
        rcases Nat.eq_or_lt_of_le hleast with rfl | hbehind
        · exact hon.2
        · exact hall.2 k hbehind hmost
    · exact playFrom_succ_ne_endless (fun hlast hmem => hon ⟨hlast, hmem⟩) fuel

end Counting

section Bounds

variable {present : List Binary64} {bounds : FrameBounds} {n : Nat}

/-- A program whose first frame is below `2 ^ 53` plays beyond if it plays `2 ^ 53`, and all numbers
up to there are present. -/
theorem playsBeyond_ofNat_iff (hfirst : bounds.firstFrame = ofNat n) (hn : n ≤ exactBound) :
    PlaysBeyond present bounds ↔ (ofNat exactBound).le bounds.lastFrame = true ∧
      ∀ k, n ≤ k → k ≤ exactBound → ofNat k ∈ present := by
  rw [PlaysBeyond, hfirst]
  constructor
  · rintro ⟨z, hz, -, hlast, hall⟩
    refine ⟨Binary64.le_trans ((Binary64.ofNat_le_iff (Nat.le_refl _)).mpr hz) hlast, ?_⟩
    intro k hleast hmost
    exact hall k ((Binary64.ofNat_le_iff hn).mpr hleast)
      ((Binary64.ofNat_le_iff hmost).mpr (Nat.le_trans hmost hz))
  · rintro ⟨hlast, hall⟩
    refine ⟨exactBound, Nat.le_refl _, (Binary64.ofNat_le_iff hn).mpr hn, hlast, ?_⟩
    intro k hleast hmost
    rw [Binary64.ofNat_le_iff hn] at hleast
    by_cases hk : k ≤ exactBound
    · exact hall k hleast hk
    · -- A greater number that is rounded to `2 ^ 53` is this number.
      have hbeyond : (ofNat exactBound).le (ofNat k) = true :=
        (Binary64.ofNat_le_iff (Nat.le_refl _)).mpr (by omega)
      rw [Binary64.eq_of_le_of_le hmost hbeyond]
      exact hall exactBound hn (Nat.le_refl _)

/-- A program whose first frame is its own successor plays beyond if it plays it, and it is
present. -/
theorem playsBeyond_iff_of_stalls (hfirst : bounds.firstFrame = ofNat n)
    (hstalls : ofNat n + 1 = ofNat n) :
    PlaysBeyond present bounds ↔
      (ofNat n).le bounds.lastFrame = true ∧ ofNat n ∈ present := by
  have hn : exactBound ≤ n := by
    by_contra hsmall
    rw [Binary64.ofNat_add_one (by omega), Binary64.ofNat_inj (by omega) (by omega)] at hstalls
    omega
  rw [PlaysBeyond, hfirst]
  constructor
  · rintro ⟨z, -, hfirst, hlast, hall⟩
    exact ⟨Binary64.le_trans hfirst hlast, hall n (Binary64.ofNat_le_self n) hfirst⟩
  · rintro ⟨hlast, hmem⟩
    refine ⟨n, hn, Binary64.ofNat_le_self n, hlast, fun k hleast hmost => ?_⟩
    rw [Binary64.eq_of_le_of_le hmost hleast]
    exact hmem

variable {program : List UInt8}

theorem exists_digits_of_playerBounds (h : playerBounds program = .ok bounds) :
    ∃ cs, bounds.firstFrame = digitsNumber cs + 1 := by
  simp only [playerBounds, bind_eq_ok_iff] at h
  obtain ⟨first, -, last, -, hbounds⟩ := h
  exact ⟨first, by rw [← Except.ok.inj hbounds]⟩

/-- Counting from the first frame of a program never ends if the program plays beyond `2 ^ 53`. Else
it ends with at most one step more than there are numbers. -/
theorem playFrom_firstFrame (h : playerBounds program = .ok bounds) (present : List Binary64) :
    (PlaysBeyond present bounds →
        ∀ fuel, playFrom present bounds.lastFrame fuel bounds.firstFrame = .endless) ∧
      (¬ PlaysBeyond present bounds → playFrom present bounds.lastFrame (present.dedup.length + 1)
        bounds.firstFrame ≠ .endless) := by
  obtain ⟨cs, hfirst⟩ := exists_digits_of_playerBounds h
  -- The first frame comes behind a number that is written out, so counting is exact there or stalls.
  rcases Binary64.digitsNumber_add_one_cases cs with ⟨n, hn, heq⟩ | hstalls
  · rw [heq] at hfirst
    rw [playsBeyond_ofNat_iff hfirst (Nat.le_of_lt hn), hfirst]
    exact ⟨fun hall => playFrom_ofNat_endless (Nat.le_of_lt hn) hall.1 hall.2,
      fun hnot => playFrom_ofNat_ne_endless (Nat.le_of_lt hn) hnot
        (Nat.lt_succ_of_le (List.length_filter_le _ _))⟩
  · obtain ⟨n, hn⟩ := exists_firstFrame_eq h
    rw [← hfirst, hn] at hstalls
    rw [playsBeyond_iff_of_stalls hn hstalls, hn]
    exact ⟨fun hall => playFrom_stalled hstalls hall.1 hall.2,
      fun hnot => playFrom_succ_ne_endless (fun hlast hmem => hnot ⟨hlast, hmem⟩) _⟩

/-- Looking up the frames of a program ends at the last frame or at one that is missing, with at
most one step more than there are numbers, unless the program plays beyond `2 ^ 53`. Then it never
ends. -/
theorem playback_ends_iff (hbounds : playerBounds program = .ok bounds)
    (files : List SequenceFile) :
    let numbers := (playedFiles files bounds).map SequenceFile.number
    let lookUp (steps : Nat) := playFrom numbers bounds.lastFrame steps bounds.firstFrame
    (¬ PlaysBeyond numbers bounds ↔ lookUp (numbers.dedup.length + 1) = .complete ∨
        ∃ n, lookUp (numbers.dedup.length + 1) = .missing n) ∧
      (PlaysBeyond numbers bounds ↔ ∀ steps, lookUp steps = .endless) ∧
      playedFrames numbers bounds = lookUp (numbers.dedup.length + 1) := by
  intro numbers lookUp
  obtain ⟨hbeyond, hends⟩ := playFrom_firstFrame hbounds numbers
  have hsettled : ∀ outcome : Playback,
      outcome ≠ .endless ↔ outcome = .complete ∨ ∃ n, outcome = .missing n := by
    rintro (_ | n | _) <;> simp
  refine ⟨?_, ?_, ?_⟩
  · rw [← hsettled]
    exact ⟨hends, fun hsome hplays => hsome (hbeyond hplays _)⟩
  · refine ⟨hbeyond, fun hall => ?_⟩
    by_contra hnot
    exact hends hnot (hall _)
  · -- The check has one step for each file, and there are no more numbers than files.
    by_cases hplays : PlaysBeyond numbers bounds
    · exact (hbeyond hplays _).trans (hbeyond hplays _).symm
    · have hlength : numbers.dedup.length ≤ numbers.length := (List.dedup_sublist _).length_le
      have hmore := playFrom_add (numbers.length - numbers.dedup.length) (hends hplays)
      rwa [Nat.add_right_comm, Nat.add_sub_cancel' hlength] at hmore

/-- The frame of a number. -/
def numberedFrame (number : Binary64) : SequenceFile :=
  ⟨number, ⟨"BINARY", "DATA Frame", "", [7]⟩⟩

/-- A program for more frames than any archive holds. -/
def vastProgram : List UInt8 :=
  encodeLatin1 "1 LET F=0\r2 IF F>100000000000000000000 THEN 3".toList

def vastBounds : FrameBounds :=
  ⟨.ofNat 1, .ofNat (10 ^ 20)⟩

/-- Two frames are found, and the third one is missing. -/
theorem playback_ends_iff_vastProgram :
    playerBounds vastProgram = .ok vastBounds ∧
      ¬ PlaysBeyond ((playedFiles [numberedFrame 2, numberedFrame 1] vastBounds).map
        SequenceFile.number) vastBounds ∧
      playedFrames ((playedFiles [numberedFrame 2, numberedFrame 1] vastBounds).map
        SequenceFile.number) vastBounds = .missing 3 := by
  have hbounds : playerBounds vastProgram = .ok vastBounds := by decide +kernel
  have hmissing : playedFrames ((playedFiles [numberedFrame 2, numberedFrame 1] vastBounds).map
      SequenceFile.number) vastBounds = .missing 3 := by
    decide +kernel
  obtain ⟨hends, -, hchecked⟩ := playback_ends_iff hbounds [numberedFrame 2, numberedFrame 1]
  exact ⟨hbounds, hends.mpr (.inr ⟨3, hchecked.symm.trans hmissing⟩), hmissing⟩

/-- A program that plays the file `2 ^ 53` alone. -/
def farProgram : List UInt8 :=
  encodeLatin1 "1 LET F=9007199254740991\r2 IF F>9007199254740992 THEN 3".toList

def farBounds : FrameBounds :=
  ⟨.ofNat exactBound, .ofNat exactBound⟩

/-- The file is there, but looking it up never ends, since the next number is the same. -/
theorem playback_endless_farProgram :
    playerBounds farProgram = .ok farBounds ∧
      ∀ steps, playFrom ((playedFiles [numberedFrame (.ofNat exactBound)] farBounds).map
        SequenceFile.number) farBounds.lastFrame steps farBounds.firstFrame = .endless := by
  have hnumbers : (playedFiles [numberedFrame (.ofNat exactBound)] farBounds).map
      SequenceFile.number = [.ofNat exactBound] := by
    decide +kernel
  refine ⟨by decide +kernel, fun steps => ?_⟩
  rw [hnumbers]
  exact playFrom_stalled (by decide +kernel) (Binary64.ofNat_le_self _)
    (List.mem_singleton_self _) _

end Bounds

end Flipbook
