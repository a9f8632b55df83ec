import Flipbook.Proofs.Schedule.Frames

/-!
# Writing in order

Frames are written in ascending order, one at a time, and each is reported once its write has
succeeded. After a write or a report that failed nothing is written any more.

## Main definitions

* `Session.answers`: how the writes ended that have not been taken note of;
* `Session.Written`: what has been written and what is being written;
* `Session.Writing`: the writes in order, as an invariant.

## Main results

* `Session.writing_of_reachable`: the order is kept in every session that can be reached;
* `Session.Writing.wrote_append`: every write has ended, or is the only one under way.
-/

namespace Flipbook

variable {β : Type}

namespace Turn

/-- How the write ended that a turn is about, whatever it waits for. -/
@[simp]
def answer? : Turn β → Option (Except Error Unit)
  | .wrote result => some result
  | .wait _ turn => turn.answer?
  | _ => none

@[simp]
theorem answer?_after (rounds : Nat) (turn : Turn β) :
    (turn.after rounds).answer? = turn.answer? := by
  cases rounds <;> rfl

end Turn

@[simp]
theorem Run.answer?_headTurn (run : Run β) : run.headTurn.answer? = none := by
  unfold headTurn
  cases run.chainError <;> rfl

namespace Session

/-- How the writes ended that have not been taken note of. -/
def answers (s : Session β) : List (Except Error Unit) :=
  s.run.queue.filterMap Turn.answer?

/-- The writes of so many frames, all successful. -/
def sound (n : Nat) : List (Nat × Except Error Unit) :=
  (List.range n).map fun frame => (frame, .ok ())

/-- What has been written and what is being written. -/
inductive Written (s : Session β) : Prop where
  /-- A frame is being written, after all the frames before it. -/
  | busy (writing : s.run.current.writing = some s.run.written)
      (calls : s.writeCalls.length = s.run.written + 1)
      (remaining : s.run.current.remaining.map Prod.fst =
        List.range' (s.run.written + 1) (s.run.buffer.next - (s.run.written + 1)))
      (wrote : s.writing = [s.run.written] ∧ s.answers = [] ∧ s.wrote = sound s.run.written ∨
        ∃ result, s.writing = [] ∧ s.answers = [result] ∧
          s.wrote = sound s.run.written ++ [(s.run.written, result)])
  /-- All the frames whose writing was begun were written. -/
  | quiet (writing : s.run.current.writing = none) (calls : s.writeCalls.length = s.run.written)
      (reason : s.run.written = s.run.buffer.next ∨ s.run.stopped ∨ ¬ s.Unbroken)
      (wrote : s.writing = [] ∧ s.answers = [] ∧ s.wrote = sound s.run.written)
  /-- A frame could not be written. -/
  | broken {e : Error} (writing : s.run.current.writing = none)
      (calls : s.writeCalls.length = s.run.written + 1) (reason : ¬ s.Unbroken)
      (wrote : s.writing = [] ∧ s.answers = [] ∧
        s.wrote = sound s.run.written ++ [(s.run.written, .error e)])

/-- The writes in order. -/
structure Writing (s : Session β) : Prop where
  /-- Writes are demanded in ascending order. -/
  calls : s.writeCalls.map Prod.fst = List.range s.writeCalls.length
  /-- What is written, and what is left to be written, are the values computed. -/
  values : ∀ p ∈ s.writeCalls ++ s.run.current.remaining, (p.1, .ok p.2) ∈ s.computed
  /-- Only frames whose turn has come are written. -/
  le_next : s.writeCalls.length ≤ s.run.buffer.next
  /-- The frames written are reported in ascending order. -/
  reports : s.reportCalls = List.range s.run.written
  /-- What has been written and what is being written. -/
  written : Written s

@[simp]
theorem sound_succ (n : Nat) : sound (n + 1) = sound n ++ [(n, .ok ())] := by
  rw [sound, List.range_succ, List.map_append, ← sound]
  rfl

/-- A write that has ended and has not been taken note of is that of the frame being written. -/
theorem Writing.of_answer {s : Session β} (h : Writing s) {result : Except Error Unit}
    (answer : result ∈ s.answers) :
    s.run.current.writing = some s.run.written ∧ s.writeCalls.length = s.run.written + 1 ∧
      s.run.current.remaining.map Prod.fst =
        List.range' (s.run.written + 1) (s.run.buffer.next - (s.run.written + 1)) ∧
      s.writing = [] ∧ s.answers = [result] ∧
      s.wrote = sound s.run.written ++ [(s.run.written, result)] := by
  cases h.written with
  | busy hw hc hr hs =>
    rcases hs with ⟨-, hanswers, -⟩ | ⟨result', hwriting, hanswers, hwrote⟩
    · simp [hanswers] at answer
    · rw [hanswers, List.mem_singleton] at answer
      subst answer
      exact ⟨hw, hc, hr, hwriting, hanswers, hwrote⟩
  | quiet _ _ _ hs | broken _ _ _ hs => simp [hs.2.1] at answer

/-- If nothing is being written and nothing has failed, exactly the frames written were to be
written. -/
theorem Writing.of_unbroken {s : Session β} (h : Writing s)
    (quiet : s.run.current.writing = none) (unbroken : s.Unbroken) :
    s.writeCalls.length = s.run.written ∧ (s.run.written = s.run.buffer.next ∨ s.run.stopped) ∧
      s.writing = [] ∧ s.answers = [] ∧ s.wrote = sound s.run.written := by
  cases h.written with
  | busy hw => simp [hw] at quiet
  | quiet hw hc hr hs =>
    refine ⟨hc, ?_, hs⟩
    rcases hr with hr | hr | hr
    · exact .inl hr
    · exact .inr hr
    · exact absurd unbroken hr
  | broken _ _ hr => exact absurd unbroken hr

/-- The order of writes depends on the writes, and on what is ready to be written. -/
theorem Writing.congr {s t : Session β} (h : Writing s) (calls : t.writeCalls = s.writeCalls)
    (reports : t.reportCalls = s.reportCalls) (written : t.run.written = s.run.written)
    (frame : t.run.current.writing = s.run.current.writing)
    (remaining : t.run.current.remaining = s.run.current.remaining)
    (next : t.run.buffer.next = s.run.buffer.next) (stopped : s.run.stopped → t.run.stopped)
    (unbroken : t.Unbroken → s.Unbroken) (writing : t.writing = s.writing)
    (wrote : t.wrote = s.wrote) (answers : t.answers.Perm s.answers)
    (computed : s.computed ⊆ t.computed) : Writing t where
  calls := by rw [calls, h.calls]
  values := fun p hp => computed (h.values p (by rwa [calls, remaining] at hp))
  le_next := by rw [calls, next]; exact h.le_next
  reports := by rw [reports, written, h.reports]
  written := by
    have hnil : s.answers = [] → t.answers = [] := fun hs => by
      rw [hs] at answers
      exact answers.eq_nil
    cases h.written with
    | busy hw hc hr hs =>
      refine .busy (by rw [frame, written, hw]) (by rw [calls, written, hc])
        (by rw [remaining, written, next, hr]) ?_
      rcases hs with ⟨hwriting, hanswers, hwrote⟩ | ⟨result, hwriting, hanswers, hwrote⟩
      · exact .inl ⟨by rw [writing, written, hwriting], hnil hanswers,
          by rw [wrote, written, hwrote]⟩
      · rw [hanswers] at answers
        exact .inr ⟨result, by rw [writing, hwriting], List.perm_singleton.mp answers,
          by rw [wrote, written, hwrote]⟩
    | quiet hw hc hr hs =>
      refine .quiet (by rw [frame, hw]) (by rw [calls, written, hc]) ?_
        ⟨by rw [writing, hs.1], hnil hs.2.1, by rw [wrote, written, hs.2.2]⟩
      rw [written, next]
      exact hr.imp_right (Or.imp stopped (mt unbroken))
    | broken hw hc hr hs =>
      exact .broken (by rw [frame, hw]) (by rw [calls, written, hc]) (mt unbroken hr)
        ⟨by rw [writing, hs.1], hnil hs.2.1, by rw [wrote, written, hs.2.2]⟩

/-- If no write is demanded and nothing is left to be written, the order of writes depends on what
is reported and on what has been written. -/
theorem Writing.rest {s t : Session β} (h : Writing s) (calls : t.writeCalls = s.writeCalls)
    (computed : t.computed = s.computed) (remaining : t.run.current.remaining = [])
    (next : s.run.buffer.next ≤ t.run.buffer.next)
    (reports : t.reportCalls = List.range t.run.written) (written : Written t) : Writing t where
  calls := by rw [calls, h.calls]
  values := fun p hp => by
    rw [calls, remaining, List.append_nil] at hp
    rw [computed]
    exact h.values p (List.mem_append_left _ hp)
  le_next := by
    rw [calls]
    exact Nat.le_trans h.le_next next
  reports := reports
  written := written

/-- A turn that neither writes nor reports keeps the order, if it passes on what it was answered. -/
theorem Writing.passive {s : Session β} (h : Writing s) {before after posted : List (Turn β)}
    {turn : Turn β} (queue : s.run.queue = before ++ turn :: after) {next : Run β}
    (hnext : next.queue = before ++ after ++ posted)
    (answers : posted.filterMap Turn.answer? = turn.answer?.toList)
    (same : next.written = s.run.written ∧ next.current.writing = s.run.current.writing ∧
      next.current.remaining = s.run.current.remaining ∧ next.buffer.next = s.run.buffer.next)
    (stopped : s.run.stopped → next.stopped)
    (unbroken : ((s.note turn).follow (next, [])).Unbroken → s.Unbroken) :
    Writing ((s.note turn).follow (next, [])) := by
  obtain ⟨hwritten, hframe, hremaining, hbuffer⟩ := same
  exact h.congr (by simp) (by simp) hwritten hframe hremaining hbuffer stopped unbroken (by simp)
    rfl (filterMap_perm _ queue hnext answers) (List.Subset.refl _)

/-- A flush that begins writes on from where the last one has ended, if there is anything to
write. -/
theorem Writing.flush {s : Session β} (h : Writing s) (front : Front s) (frames : Frames s)
    {before after : List (Turn β)} (queue : s.run.queue = before ++ .flush :: after)
    {next : Run β} {demands : List (Demand β)}
    (effect : Run.Effect { s.run with queue := before ++ after } .flush next demands) :
    Writing ((s.note .flush).follow (next, demands)) := by
  obtain ⟨-, -, -, hquiet, hunbroken⟩ := front.of_flush (count_pos queue)
  obtain ⟨hc, hr, hwriting, hanswers, hwrote⟩ := h.of_unbroken hquiet hunbroken
  have htaken := ReorderBuffer.takeReady_taken frames.ahead
  have hleft : (before ++ after ++ [Turn.adopt]).filterMap Turn.answer? = [] := by
    simpa [answers, queue] using hanswers
  cases effect with
  | flushedNothing ends =>
    refine h.rest (by simp) rfl rfl htaken.next_le (by simpa using h.reports)
      (.quiet rfl (by simpa using hc) ?_ ⟨by simpa using hwriting, hleft, hwrote⟩)
    rcases ends with hnil | hstopped
    · rw [show s.run.buffer.takeReady.1 = [] from hnil] at htaken
      exact (hr.imp_left fun hr => hr.trans htaken.next_eq.symm).imp_right .inl
    · exact .inr (.inl hstopped)
  | @flushedFirst frame value rest ready running =>
    have hr := hr.resolve_right (by simp [show s.run.stopped = false from running])
    rw [show s.run.buffer.takeReady.1 = _ from ready] at htaken
    -- What is ready begins with the first frame that is not written.
    obtain ⟨hframe, hnext, hrest⟩ := htaken.of_cons
    rw [← hr] at hframe hnext hrest
    subst hframe
    exact
      { calls := by simp [h.calls, hc, List.range_succ]
        values := fun p hp => by
          have hp : p ∈ s.writeCalls ∨ p ∈ (s.run.written, value) :: rest := by
            simpa [List.filterMap_cons] using hp
          rcases hp with hp | hp
          · exact h.values p (List.mem_append_left _ hp)
          · have hpending := List.mem_append_right s.arriving (htaken.values p hp)
            obtain ⟨v, hv, hmem⟩ := frames.values _ hpending
            cases hv
            exact hmem
        le_next := by simpa [hc] using hnext
        reports := by simpa [List.filterMap_cons] using h.reports
        written := .busy rfl (by simp [hc]) hrest
          (.inl ⟨by simp [hwriting], hleft, hwrote⟩) }

/-- A write that ended is reported if it succeeded, and the next one follows. -/
theorem Writing.wroteFrame {s : Session β} (h : Writing s) {result : Except Error Unit}
    {before after : List (Turn β)} (queue : s.run.queue = before ++ .wrote result :: after)
    {next : Run β} {demands : List (Demand β)}
    (effect : Run.Effect { s.run with queue := before ++ after } (.wrote result) next demands) :
    Writing ((s.note (.wrote result)).follow (next, demands)) := by
  have hmem : result ∈ s.answers := List.mem_filterMap.mpr ⟨.wrote result, by simp [queue], rfl⟩
  obtain ⟨hw, hc, hr, hwriting, hanswers, hwrote⟩ := h.of_answer hmem
  have hle := h.le_next
  -- It was the only answer, so none is left in the queue.
  have hleft : (before ++ after).filterMap Turn.answer? = [] := by
    have hlength := congrArg List.length hanswers
    simp only [answers, queue, List.filterMap_append, List.filterMap_cons, Turn.answer?,
      List.length_append, List.length_cons, List.length_nil] at hlength
    rw [← List.length_eq_zero_iff, List.filterMap_append, List.length_append]
    omega
  have hleave (adopted : Bool) : (before ++ after ++ if adopted then [Turn.leave] else []).filterMap
      Turn.answer? = [] := by
    rw [List.filterMap_append, hleft]
    cases adopted <;> rfl
  cases effect with
  | unclaimed writing => simp [hw] at writing
  | @unreported frame e writing fault =>
    obtain rfl : s.run.written = frame := by simpa [hw] using writing
    refine h.rest (by simp [List.filterMap_cons]) rfl rfl le_rfl
      (by simp [h.reports, List.range_succ])
      (.quiet rfl (by simpa [List.filterMap_cons] using hc) (.inr (.inr ?_))
        ⟨by simpa [List.filterMap_cons] using hwriting, hleave _, by simp [hwrote]⟩)
    exact fun hunbroken => hunbroken.2 e rfl
  | @wroteLast frame writing fault ends =>
    obtain rfl : s.run.written = frame := by simpa [hw] using writing
    refine h.rest (by simp [List.filterMap_cons]) rfl rfl le_rfl
      (by simp [h.reports, List.range_succ])
      (.quiet rfl (by simpa [List.filterMap_cons] using hc) ?_
        ⟨by simpa [List.filterMap_cons] using hwriting, hleave _, by simp [hwrote]⟩)
    rcases ends with hnil | hstopped
    · -- Nothing is left, so every frame whose turn had come is written.
      left
      have hlength := congrArg List.length hr
      rw [show s.run.current.remaining = [] from hnil] at hlength
      simp only [List.map_nil, List.length_nil, List.length_range'] at hlength
      simp only [follow_run]
      omega
    · exact .inr (.inl hstopped)
  | @wroteNext frame next value rest writing fault remaining running =>
    obtain rfl : s.run.written = frame := by simpa [hw] using writing
    have hvalues := h.values
    rw [show s.run.current.remaining = _ from remaining] at hr hvalues
    have hlength := congrArg List.length hr
    simp only [List.map_cons, List.length_cons, List.length_range'] at hlength
    -- Something is left, and its numbers begin with that of the next frame.
    have hcount : s.run.buffer.next - (s.run.written + 1) =
        s.run.buffer.next - (s.run.written + 1 + 1) + 1 := by omega
    rw [hcount, List.range'_succ, List.map_cons, List.cons.injEq] at hr
    obtain ⟨rfl, hr⟩ := hr
    exact
      { calls := by simp [List.filterMap_cons, h.calls, hc, List.range_succ]
        values := fun p hp => hvalues p (by simpa [List.filterMap_cons] using hp)
        le_next := by
          rw [writeCalls_follow, writeCalls_note, List.length_append, hc]
          show s.run.written + 1 + 1 ≤ s.run.buffer.next
          omega
        reports := by simp [List.filterMap_cons, h.reports, List.range_succ]
        written := .busy rfl (by simp [List.filterMap_cons, hc]) hr
          (.inl ⟨by simp [List.filterMap_cons, hwriting], hleft, by simp [hwrote]⟩) }
  | @unwritten frame e writing =>
    obtain rfl : s.run.written = frame := by simpa [hw] using writing
    refine h.rest (by simp) rfl rfl le_rfl (by simpa using h.reports)
      (.broken rfl (by simpa using hc) ?_ ⟨by simpa using hwriting, hleave _, hwrote⟩)
    exact fun hunbroken => hunbroken.2 _ rfl

/-- Whatever a worker that is to begin a frame does keeps the order of writes. -/
theorem Writing.advance {s : Session β} (h : Writing s) {next : Run β} {demands : List (Demand β)}
    (advance : Run.Advance s.run next demands) : Writing (s.follow (next, demands)) := by
  cases advance with
  | done | cancelled | next =>
    exact h.congr (by simp) (by simp) rfl rfl rfl rfl (by simp) id (by simp) rfl (.refl _)
      (List.Subset.refl _)

/-- Whatever a turn leads to keeps the order of writes. -/
theorem Writing.turn {s : Session β} (h : Writing s) (front : Front s) (frames : Frames s)
    {before after : List (Turn β)} {turn : Turn β}
    (queue : s.run.queue = before ++ turn :: after) {next : Run β} {demands : List (Demand β)}
    (effect : Run.Effect { s.run with queue := before ++ after } turn next demands) :
    Writing ((s.note turn).follow (next, demands)) := by
  cases effect with
  | flushedNothing ends => exact h.flush front frames queue (.flushedNothing ends)
  | flushedFirst ready running => exact h.flush front frames queue (.flushedFirst ready running)
  | unclaimed writing => exact h.wroteFrame queue (.unclaimed writing)
  | unreported writing fault => exact h.wroteFrame queue (.unreported writing fault)
  | wroteLast writing fault ends => exact h.wroteFrame queue (.wroteLast writing fault ends)
  | wroteNext writing fault remaining running =>
    exact h.wroteFrame queue (.wroteNext writing fault remaining running)
  | unwritten writing => exact h.wroteFrame queue (.unwritten writing)
  | @arrived frame value buffer hput =>
    have hnext := ReorderBuffer.eq_of_put_eq_some hput
    refine h.passive queue rfl ?_ ⟨rfl, rfl, rfl, by simp [hnext]⟩ id id
    by_cases hc : s.run.chain = 0 <;> simp [hc]
  | refused | uncomputed | unflushed =>
    exact h.passive queue rfl (by simp) ⟨rfl, rfl, rfl, rfl⟩ id id
  | failed =>
    exact h.passive queue (List.append_nil _).symm (by simp) ⟨rfl, rfl, rfl, rfl⟩ (fun _ => rfl) id
  | @waited rounds turn =>
    refine h.passive queue rfl ?_ ⟨rfl, rfl, rfl, rfl⟩ id id
    cases hanswer : turn.answer? <;> simp [hanswer]
  | advance ha =>
    -- The turn is taken first, and what its worker does comes after that.
    have hleft : Writing { s.note (.flushed (.ok ())) with
        run := { s.run with queue := before ++ after } } :=
      h.congr rfl rfl rfl rfl rfl rfl id id rfl rfl
        (filterMap_perm _ queue (List.append_nil _).symm (by simp)) (List.Subset.refl _)
    exact hleft.advance ha
  | adopted =>
    refine h.passive queue rfl ?_ ⟨rfl, rfl, rfl, rfl⟩ id id
    cases s.run.current.ended <;> simp
  | left =>
    refine h.passive queue rfl ?_ ⟨rfl, rfl, rfl, rfl⟩ id id
    by_cases hlast : 1 < s.run.chain <;> simp [hlast]
  | passed | leftFailing =>
    -- A chain that has failed is not unbroken, so there is nothing to show of it.
    refine h.passive queue rfl ?_ ⟨rfl, rfl, rfl, rfl⟩ id
      (fun hunbroken => absurd hunbroken.1 (Option.some_ne_none _))
    by_cases hlast : 1 < s.run.chain <;> simp [hlast]

/-- Everything that can happen keeps the order of writes. -/
theorem Writing.step {s t : Session β} (h : Writing s) (front : Front s) (frames : Frames s)
    (step : Step s t) : Writing t := by
  cases step with
  | @begin n idle =>
    have hidle : Writing { s with idle := n } :=
      h.congr rfl rfl rfl rfl rfl rfl id id rfl rfl (.refl _) (List.Subset.refl _)
    exact hidle.advance s.run.advance_cases
  | turn idle queue => exact h.turn front frames queue (Run.take_cases _ _)
  | computed value rounds computing | computeFailed value rounds computing
  | computeRaised value rounds computing =>
    exact h.congr rfl rfl rfl rfl rfl rfl id id rfl rfl (by simp [answers])
      (List.subset_append_left _ _)
  | @wrote frame result rounds writing =>
    cases h.written with
    | busy hw hc hr hs =>
      rcases hs with ⟨hwriting, hanswers, hwrote⟩ | ⟨_, hwriting, -, -⟩
      · obtain rfl : frame = s.run.written := by simpa [hwriting] using writing
        exact
          { calls := h.calls
            values := h.values
            le_next := h.le_next
            reports := h.reports
            written := .busy hw hc hr (.inr ⟨result, by simp [hwriting],
              by simpa [answers] using hanswers, by simp [hwrote]⟩) }
      · simp [hwriting] at writing
    | quiet _ _ _ hs | broken _ _ _ hs => simp [hs.1] at writing
  | abort => exact h.congr rfl rfl rfl rfl rfl rfl id id rfl rfl (.refl _) (List.Subset.refl _)

/-- The order of writes is kept in every session that can be reached. -/
theorem writing_of_reachable {total : Option Nat} {workers : Nat} {aborted : Bool}
    {reportFault : Nat → Option Error} {s : Session β}
    (h : Reachable (Run.fresh total workers aborted reportFault) s) : Writing s := by
  induction h with
  | refl =>
    exact
      { calls := rfl
        values := nofun
        le_next := Nat.le_refl _
        reports := rfl
        written := .quiet rfl rfl (.inl rfl) ⟨rfl, rfl, rfl⟩ }
  | tail hreach hstep ih =>
    exact ih.step (control_of_reachable hreach).front (frames_of_reachable hreach) hstep

/-- Every write has ended, or is the only one under way. -/
theorem Writing.wrote_append {s : Session β} (h : Writing s) :
    s.wrote.map Prod.fst ++ s.writing = List.range s.writeCalls.length ∧
      s.writing.length ≤ 1 := by
  have hsound (n : Nat) : (sound n).map Prod.fst = List.range n := by
    rw [sound, List.map_map]
    exact List.map_id _
  cases h.written with
  | busy hw hc hr hs =>
    rw [hc, List.range_succ]
    rcases hs with ⟨hwriting, -, hwrote⟩ | ⟨result, hwriting, -, hwrote⟩
    · rw [hwrote, hsound, hwriting]
      exact ⟨rfl, Nat.le_refl _⟩
    · rw [hwrote, List.map_append, hsound, hwriting, List.append_nil]
      exact ⟨rfl, Nat.zero_le _⟩
  | quiet hw hc hr hs =>
    rw [hs.2.2, hsound, hs.1, hc, List.append_nil]
    exact ⟨rfl, Nat.zero_le _⟩
  | broken hw hc hr hs =>
    rw [hs.2.2, List.map_append, hsound, hs.1, hc, List.append_nil, List.range_succ]
    exact ⟨rfl, Nat.zero_le _⟩

end Session

end Flipbook
