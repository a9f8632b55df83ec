import Flipbook.Proofs.Schedule.Stopping
import Flipbook.Proofs.Schedule.Writing

/-!
# The order of computations, writes and reports

What a run promises at every moment, whatever the order in which computations and writes end,
whichever of them fail, and whenever the run is asked to stop.

## Main results

* `Session.inOrder_of_reachable`: computations, writes and reports are in order in every session
  that can be reached.
-/

namespace Flipbook

variable {β : Type}

namespace Session

/-- Computations, writes and reports are in order, and no more than so many computations are under
way. -/
structure InOrder (concurrency : Nat) (s : Session β) : Prop where
  /-- The frames 0, 1, 2, … are to be written in ascending order, each exactly once. -/
  writes : s.writeCalls.map Prod.fst = List.range s.writeCalls.length
  /-- Each is to be written with the value that was computed for it. -/
  values : ∀ p ∈ s.writeCalls, (p.1, .ok p.2) ∈ s.computed
  /-- Each write has ended, or is under way. -/
  wrote : s.wrote.map Prod.fst ++ s.writing = s.writeCalls.map Prod.fst
  /-- At most one write is under way. -/
  oneWrite : s.writing.length ≤ 1
  /-- Frames are computed in ascending order, each at most once. -/
  computes : s.computeCalls = List.range s.computeCalls.length
  /-- Each computation has ended, once, or is under way. -/
  computed : (s.computed.map Prod.fst ++ s.computing).Perm s.computeCalls
  /-- No more computations than that are under way. -/
  bounded : s.computing.length ≤ concurrency
  /-- Frames are reported in ascending order, each at most once. -/
  reports : s.reportCalls = List.range s.reportCalls.length
  /-- The frames reported are those written successfully, except for the last one while the run has
  not taken note of its write. -/
  reported : s.successes = s.reportCalls ∨
    ∃ frame, s.successes = s.reportCalls ++ [frame] ∧ .ok () ∈ s.answers
  /-- Each result on its way to the buffer will be accepted. -/
  accepted : ∀ p ∈ s.arriving, (s.run.buffer.put p.1 p.2).isSome

/-- The frames of successful writes. -/
theorem map_fst_filter_sound (n : Nat) :
    ((sound n).filter fun w => w.2.isOk).map Prod.fst = List.range n := by
  have hall : (sound n).filter (fun w => w.2.isOk) = sound n :=
    List.filter_eq_self.mpr fun w hw => by
      obtain ⟨frame, -, rfl⟩ := List.mem_map.mp hw
      rfl
  rw [hall, sound, List.map_map]
  exact List.map_id _

/-- The frames reported are those written successfully that have been taken note of. -/
theorem Writing.successes_eq {s : Session β} (h : Writing s) :
    s.successes = s.reportCalls ∨
      ∃ frame, s.successes = s.reportCalls ++ [frame] ∧ .ok () ∈ s.answers := by
  rw [h.reports, successes]
  cases h.written with
  | busy hw hc hr hs =>
    rcases hs with ⟨-, -, hwrote⟩ | ⟨result, -, hanswers, hwrote⟩
    · rw [hwrote]
      exact .inl (map_fst_filter_sound _)
    · rw [hwrote, List.filter_append, List.map_append, map_fst_filter_sound]
      cases result with
      | ok => exact .inr ⟨_, rfl, by simp [hanswers]⟩
      | error e => exact .inl (List.append_nil _)
  | quiet hw hc hr hs =>
    rw [hs.2.2]
    exact .inl (map_fst_filter_sound _)
  | broken hw hc hr hs =>
    rw [hs.2.2, List.filter_append, List.map_append, map_fst_filter_sound]
    exact .inl (List.append_nil _)

/-- There are no more workers than the concurrency. -/
theorem workerCount_le (count : Nat) (total : Binary64) : Run.workerCount count total ≤ count := by
  unfold Run.workerCount
  split
  · exact Nat.min_le_left _ _
  · exact Nat.le_refl _
  · exact Nat.zero_le _
  · exact Nat.zero_le _

/-- For any number of frames and any concurrency, computations, writes and reports are in order,
whatever happens. -/
theorem inOrder_of_reachable {total : Binary64} {count : Nat} {aborted : Bool}
    {reportFault : Nat → Option Error} {s : Session β}
    (h : Reachable
      (Run.fresh (Run.frameCount total) (Run.workerCount count total) aborted reportFault) s) :
    InOrder count s := by
  have hcontrol := control_of_reachable h
  have hframes := frames_of_reachable h
  have hwriting := writing_of_reachable h
  have hworkers := hcontrol.workers
  have hle := (keeps_of_steps h).workers
  have hbound := workerCount_le count total
  simp only [opening_run, Run.fresh] at hle
  exact
    { writes := hwriting.calls
      values := fun p hp => hwriting.values p (List.mem_append_left _ hp)
      wrote := by rw [hwriting.wrote_append.1, hwriting.calls]
      oneWrite := hwriting.wrote_append.2
      computes := by rw [hframes.calls, List.length_range]
      computed := by rw [hframes.calls]; exact hframes.begun
      bounded := by omega
      reports := by rw [hwriting.reports, List.length_range]
      reported := hwriting.successes_eq
      accepted := fun p hp => hframes.put_isSome hp }

/-- Two workers, of whom the one with the later frame is done first: its frame is written second. -/
theorem inOrder_two_frames :
    ∃ s : Session Nat,
      Reachable (Run.fresh (Run.frameCount 2) (Run.workerCount 2 2) false fun _ => none) s ∧
        s.computed.map Prod.fst = [1, 0] ∧ s.writeCalls = [(0, 10), (1, 11)] ∧
        s.reportCalls = [0] ∧ InOrder 2 s := by
  have hbegun : Reachable (Run.fresh (Run.frameCount 2) (Run.workerCount 2 2) false fun _ => none)
      _ := reachable_launch (β := Nat) _ _ _ _
  have hlater := hbegun.tail (.computed 11 0 (show 1 ∈ _ by decide))
  have hfirst := hlater.tail (.computed 10 0 (show 0 ∈ _ by decide))
  have hwriting := hfirst.trans (steps_serve 4 _ rfl)
  have hwritten := hwriting.tail (.wrote (.ok ()) 0 (show 0 ∈ _ by decide))
  have hnext := hwritten.trans (steps_serve 1 _ rfl)
  exact ⟨_, hnext, rfl, rfl, rfl, inOrder_of_reachable hnext⟩

end Session

end Flipbook
