import Flipbook.Proofs.Schedule.Session

/-!
# Stopping a run

A run is stopped when a failure is noted or an abort is noticed, and it stays stopped. From then on
nothing more is written; after an abort nothing more is computed.

## Main definitions

* `Run.Keeps`: what a run never changes or takes back;
* `Session.Noted`: why a run is stopped, as an invariant.

## Main results

* `Session.keeps_of_steps`: nothing is taken back, whatever happens;
* `Session.computeCalls_of_aborted`: after an abort no computation is begun;
* `Session.writeCalls_of_stopped`: once a run is stopped no write is begun;
* `Session.noted_of_reachable`: a run is stopped exactly by failures and by a noticed abort.
-/

namespace Flipbook

variable {β : Type}

namespace Run

/-- What a run never changes or takes back. -/
structure Keeps (run next : Run β) : Prop where
  /-- The number of frames stays. -/
  total : next.total = run.total
  /-- The receiver of reports stays. -/
  reportFault : next.reportFault = run.reportFault
  /-- Workers that are done stay done. -/
  workers : next.workers ≤ run.workers
  /-- A stopped run stays stopped. -/
  stopped : run.stopped → next.stopped
  /-- A run that was asked to stop stays asked. -/
  aborted : run.aborted → next.aborted

theorem Keeps.refl (run : Run β) : Keeps run run :=
  ⟨rfl, rfl, Nat.le_refl _, id, id⟩

theorem Keeps.trans {run next last : Run β} (h : Keeps run next) (h' : Keeps next last) :
    Keeps run last :=
  ⟨h'.total.trans h.total, h'.reportFault.trans h.reportFault, Nat.le_trans h'.workers h.workers,
    h'.stopped ∘ h.stopped, h'.aborted ∘ h.aborted⟩

/-- A worker that is to begin a frame takes nothing back. -/
theorem Advance.keeps {run next : Run β} {demands : List (Demand β)}
    (h : Advance run next demands) : Keeps run next := by
  cases h with
  | done | cancelled | next => exact ⟨rfl, rfl, by simp, by simp, id⟩

/-- A turn takes nothing back. -/
theorem Effect.keeps {run next : Run β} {turn : Turn β} {demands : List (Demand β)}
    (h : Effect run turn next demands) : Keeps run next := by
  cases h with
  | advance ha => exact ha.keeps
  | failed => exact ⟨rfl, rfl, Nat.sub_le _ _, fun _ => rfl, id⟩
  | unclaimed => exact .refl _
  | _ => exact ⟨rfl, rfl, Nat.le_refl _, id, id⟩

/-- A turn of a run that was asked to stop begins no computation. -/
theorem Effect.compute_eq_nil {run next : Run β} {turn : Turn β} {demands : List (Demand β)}
    (h : Effect run turn next demands) (aborted : run.aborted) :
    demands.filterMap Demand.compute? = [] := by
  cases h with
  | advance ha =>
    cases ha with
    | next _ _ asked => simp [asked] at aborted
    | done | cancelled => rfl
  | _ => rfl

/-- A turn of a stopped run begins no write. -/
theorem Effect.write_eq_nil {run next : Run β} {turn : Turn β} {demands : List (Demand β)}
    (h : Effect run turn next demands) (stopped : run.stopped) :
    demands.filterMap Demand.write? = [] := by
  cases h with
  | advance ha => cases ha <;> rfl
  | flushedFirst _ running | wroteNext _ _ _ running => simp [running] at stopped
  | _ => rfl

end Run

namespace Session

/-- Nothing is taken back by anything that can happen. -/
theorem Step.keeps {s t : Session β} (h : Step s t) : Run.Keeps s.run t.run := by
  cases h with
  | begin => exact s.run.advance_cases.keeps
  | @turn before after turn =>
    have heffect := Run.take_cases { s.run with queue := before ++ after } turn
    exact ⟨heffect.keeps.total, heffect.keeps.reportFault, heffect.keeps.workers,
      heffect.keeps.stopped, heffect.keeps.aborted⟩
  | abort => exact ⟨rfl, rfl, Nat.le_refl _, id, fun _ => rfl⟩
  | _ => exact ⟨rfl, rfl, Nat.le_refl _, id, id⟩

/-- Nothing is ever taken back. -/
theorem keeps_of_steps {s t : Session β} (h : Relation.ReflTransGen Step s t) :
    Run.Keeps s.run t.run := by
  induction h with
  | refl => exact .refl _
  | tail _ hstep ih => exact ih.trans hstep.keeps

/-- After an abort no computation is begun. -/
theorem computeCalls_of_aborted {s t : Session β} (h : Relation.ReflTransGen Step s t)
    (aborted : s.run.aborted) : t.computeCalls = s.computeCalls := by
  induction h with
  | refl => rfl
  | @tail t u hsteps hstep ih =>
    have haborted := (keeps_of_steps hsteps).aborted aborted
    rw [← ih]
    cases hstep with
    | begin =>
      have heffect := Run.Effect.advance t.run.advance_cases
      rw [computeCalls_follow, heffect.compute_eq_nil haborted]
      exact List.append_nil _
    | @turn before after turn =>
      have heffect := Run.take_cases { t.run with queue := before ++ after } turn
      rw [computeCalls_follow, heffect.compute_eq_nil haborted, computeCalls_note,
        List.append_nil]
    | _ => rfl

/-- Once a run is stopped no write is begun. -/
theorem writeCalls_of_stopped {s t : Session β} (h : Relation.ReflTransGen Step s t)
    (stopped : s.run.stopped) : t.writeCalls = s.writeCalls := by
  induction h with
  | refl => rfl
  | @tail t u hsteps hstep ih =>
    have hstopped := (keeps_of_steps hsteps).stopped stopped
    rw [← ih]
    cases hstep with
    | begin =>
      have heffect := Run.Effect.advance t.run.advance_cases
      rw [writeCalls_follow, heffect.write_eq_nil hstopped]
      exact List.append_nil _
    | @turn before after turn =>
      have heffect := Run.take_cases { t.run with queue := before ++ after } turn
      rw [writeCalls_follow, heffect.write_eq_nil hstopped, writeCalls_note, List.append_nil]
    | _ => rfl

/-- Why a run is stopped, and what it fails with. -/
structure Noted (s : Session β) : Prop where
  /-- A run is stopped by failures and by a noticed abort. -/
  stopped : s.run.stopped = true ↔ s.failures ≠ [] ∨ s.run.cancelled = true
  /-- An abort is noticed only if there was one. -/
  aborted : s.run.cancelled = true → s.run.aborted = true
  /-- The first failure is kept. -/
  failure : s.run.failure = s.failures.head?

/-- A worker that is to begin a frame notices an abort, and nothing else. -/
theorem Noted.advance {s : Session β} (h : Noted s) {next : Run β} {demands : List (Demand β)}
    (advance : Run.Advance s.run next demands) : Noted (s.follow (next, demands)) := by
  cases advance with
  | done | next => exact ⟨h.stopped, h.aborted, h.failure⟩
  | cancelled running aborted => exact ⟨by simp, fun _ => aborted, h.failure⟩

/-- What stops a run is noted, and nothing else. -/
theorem Noted.step {s t : Session β} (h : Noted s) (step : Step s t) : Noted t := by
  cases step with
  | @begin n idle =>
    have hidle : Noted { s with idle := n } := ⟨h.stopped, h.aborted, h.failure⟩
    exact hidle.advance s.run.advance_cases
  | @turn before after turn =>
    have heffect := Run.take_cases { s.run with queue := before ++ after } turn
    generalize { s.run with queue := before ++ after }.take turn = next at heffect ⊢
    obtain ⟨next, demands⟩ := next
    cases heffect with
    | advance ha =>
      have hleft : Noted { s.note (.flushed (.ok ())) with
          run := { s.run with queue := before ++ after } } :=
        ⟨by simpa using h.stopped, h.aborted, by simpa using h.failure⟩
      exact hleft.advance ha
    | @failed e =>
      refine ⟨by simp, h.aborted, ?_⟩
      show s.run.failure.or (some e) = (s.failures ++ [e]).head?
      rw [h.failure, List.head?_append]
      rfl
    | _ => exact ⟨by simpa using h.stopped, h.aborted, by simpa using h.failure⟩
  | abort => exact ⟨h.stopped, fun _ => rfl, h.failure⟩
  | _ => exact ⟨h.stopped, h.aborted, h.failure⟩

/-- Why a run is stopped is noted in every session that can be reached. -/
theorem noted_of_reachable {total : Option Nat} {workers : Nat} {aborted : Bool}
    {reportFault : Nat → Option Error} {s : Session β}
    (h : Reachable (Run.fresh total workers aborted reportFault) s) : Noted s := by
  induction h with
  | refl => exact ⟨by simp [Run.fresh], nofun, rfl⟩
  | tail _ hstep ih => exact ih.step hstep

end Session

end Flipbook
