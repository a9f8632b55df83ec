import Flipbook.Proofs.Schedule.Buffer
import Flipbook.Proofs.Schedule.Control
import Flipbook.Proofs.Schedule.Stopping
import Mathlib.Data.Prod.Lex

/-!
# What a session has left to do

Every frame that has not been begun, every result that waits, and every turn in the queue gives rise
to a bounded number of turns. Counting them all, whatever happens leaves less to do, but for two
things: a turn that waits does so for one round less, and an abort is only asked for. As a turn may
be given any number of rounds to wait when a computation or a write ends, the rounds are counted
apart.

## Main definitions

* `Session.effort`: the turns that are left, apart from waiting;
* `Session.delay`: the rounds that the turns in the queue wait.

## Main results

* `Session.descends_turn`: a turn leaves less to do;
* `Session.descends_step`: so does everything else, if it changes anything.
-/

namespace Flipbook

variable {β : Type}

/-- Removes at least as many results from the buffer as are yielded. -/
theorem ReorderBuffer.length_takeUpTo_le (fuel : Nat) (buffer : ReorderBuffer Nat β) :
    (takeUpTo fuel buffer).1.length + (takeUpTo fuel buffer).2.pending.length ≤
      buffer.pending.length := by
  induction fuel generalizing buffer with
  | zero => simp [takeUpTo]
  | succ fuel ih =>
    unfold takeUpTo
    split
    next => simp
    next index value hsome =>
      have hlt : (buffer.remove index).length < buffer.pending.length :=
        ReorderBuffer.length_remove_lt (List.mem_of_find?_eq_some hsome)
      have hrest := ih ⟨buffer.next + 1, buffer.remove index⟩
      have hvalue : (value.map fun v => (index, v)).toList.length ≤ 1 := by
        cases value <;> simp
      simp only [List.length_append] at hrest ⊢
      omega

namespace Turn

/-- The turns that a turn of a kind leads to at most, with itself. -/
@[simp]
def Kind.effort : Kind → Nat
  | .computed => 12
  | .flush => 3
  | .flushed | .wrote | .adopt => 2
  | .failed | .pass | .leave => 1

/-- The rounds that a turn waits. -/
@[simp]
def delay : Turn β → Nat
  | .wait rounds turn => turn.delay + rounds + 1
  | _ => 0

@[simp]
theorem delay_after (rounds : Nat) (turn : Turn β) :
    (turn.after rounds).delay = turn.delay + rounds := by
  cases rounds <;> rfl

/-- The turns that turns lead to at most. -/
def efforts : List (Turn β) → Nat
  | [] => 0
  | turn :: turns => turn.kind.effort + efforts turns

/-- The rounds that turns wait. -/
def delays : List (Turn β) → Nat
  | [] => 0
  | turn :: turns => turn.delay + delays turns

@[simp]
theorem efforts_nil : efforts ([] : List (Turn β)) = 0 :=
  rfl

@[simp]
theorem delays_nil : delays ([] : List (Turn β)) = 0 :=
  rfl

@[simp]
theorem efforts_cons (turn : Turn β) (turns : List (Turn β)) :
    efforts (turn :: turns) = turn.kind.effort + efforts turns :=
  rfl

@[simp]
theorem delays_cons (turn : Turn β) (turns : List (Turn β)) :
    delays (turn :: turns) = turn.delay + delays turns :=
  rfl

@[simp]
theorem efforts_append (turns more : List (Turn β)) :
    efforts (turns ++ more) = efforts turns + efforts more := by
  induction turns with
  | nil => simp
  | cons turn turns ih => rw [List.cons_append, efforts_cons, efforts_cons, ih, Nat.add_assoc]

@[simp]
theorem delays_append (turns more : List (Turn β)) :
    delays (turns ++ more) = delays turns + delays more := by
  induction turns with
  | nil => simp
  | cons turn turns ih => rw [List.cons_append, delays_cons, delays_cons, ih, Nat.add_assoc]

end Turn

namespace Run

theorem abort_eq_self {run : Run β} (h : run.aborted = true) : run.abort = run := by
  rw [abort, ← h]

/-- The number of frames that have not been begun. -/
def left (run : Run β) : Nat :=
  run.total.getD 0 - run.nextFrame

@[simp]
theorem delay_headTurn (run : Run β) : run.headTurn.delay = 0 := by
  unfold headTurn
  cases run.chainError <;> rfl

/-- A frame that is begun is left no more. -/
theorem Advance.left {run next : Run β} {demands : List (Demand β)} (h : Advance run next demands)
    (htotal : run.total ≠ none) :
    next.left + (demands.filterMap Demand.compute?).length ≤ run.left ∧
      demands.filterMap Demand.write? = [] := by
  cases h with
  | done | cancelled => exact ⟨Nat.le_refl _, rfl⟩
  | next running hleft =>
    refine ⟨?_, rfl⟩
    obtain ⟨total, htotal⟩ := Option.ne_none_iff_exists'.mp htotal
    have hlt := hleft total htotal
    simp only [Run.left, htotal, Option.getD_some, List.filterMap_cons, List.filterMap_nil,
      Demand.compute?, List.length_singleton]
    omega

/-- A worker that is to begin a frame does not ask the run to stop. -/
theorem Advance.aborted_eq {run next : Run β} {demands : List (Demand β)}
    (h : Advance run next demands) : next.aborted = run.aborted := by
  cases h <;> rfl

/-- Workers that begin leave the queue alone. -/
theorem queue_startWorkers (n : Nat) (run : Run β) : (startWorkers n run).1.queue = run.queue := by
  induction n generalizing run with
  | zero => rfl
  | succ n ih => exact (ih _).trans run.advance_cases.frame.1

/-- No turn asks the run to stop. -/
theorem Effect.aborted_eq {run next : Run β} {turn : Turn β} {demands : List (Demand β)}
    (h : Effect run turn next demands) : next.aborted = run.aborted := by
  cases h with
  | advance ha => exact ha.aborted_eq
  | _ => rfl

end Run

namespace Session

/-- The turns that are left in a session at most, apart from waiting. -/
def effort (s : Session β) : Nat :=
  s.idle + 13 * s.run.left + 13 * s.computing.length + Turn.efforts s.run.queue +
    5 * s.run.chain + 3 * s.run.buffer.pending.length + 3 * s.run.current.remaining.length +
    3 * s.writing.length

/-- The rounds that the turns in the queue wait. -/
def delay (s : Session β) : Nat :=
  Turn.delays s.run.queue

/-- There is less to do than before: fewer turns, or as many that wait for fewer rounds. -/
def Descends (s t : Session β) : Prop :=
  t.effort < s.effort ∧ t.delay ≤ s.delay ∨ t.effort = s.effort ∧ t.delay < s.delay

theorem ne_of_effort_lt {s t : Session β} (h : t.effort < s.effort) : t ≠ s := by
  rintro rfl
  exact Nat.lt_irrefl _ h

theorem Descends.ne {s t : Session β} (h : Descends s t) : t ≠ s := by
  rintro rfl
  obtain ⟨hless, -⟩ | ⟨-, hless⟩ := h <;> exact Nat.lt_irrefl _ hless

theorem Descends.add_lt {s t : Session β} (h : Descends s t) :
    t.effort + t.delay < s.effort + s.delay := by
  rcases h with ⟨hless, hle⟩ | ⟨hsame, hless⟩ <;> omega

/-- A turn leaves less to do. -/
theorem descends_turn {s : Session β} (h : Front s) (htotal : s.run.total ≠ none)
    {before after : List (Turn β)} {turn : Turn β} (queue : s.run.queue = before ++ turn :: after)
    {next : Run β} {demands : List (Demand β)}
    (effect : Run.Effect { s.run with queue := before ++ after } turn next demands) :
    Descends s ((s.note turn).follow (next, demands)) := by
  have hpos := count_pos queue
  -- One case for each kind of turn. Only a turn that waits leads to as many turns as before.
  simp only [Descends, effort, delay, follow_run, follow_idle, follow_computing, follow_writing,
    note_idle, note_computing, note_writing, List.length_append, List.length_map, queue]
  cases effect with
  | arrived hput =>
    have hbuffer := ReorderBuffer.eq_of_put_eq_some hput
    left
    by_cases hbroken : s.run.chainError = none <;> split <;>
      (simp [Run.left, hbuffer, hbroken]; omega)
  | refused | uncomputed | unflushed =>
    left
    simp [Run.left]
    omega
  | failed =>
    left
    simp [Run.left]
  | @waited rounds turn =>
    right
    simp [Run.left]
    omega
  | advance ha =>
    obtain ⟨hleft, hwrite⟩ := ha.left htotal
    obtain ⟨hqueue, hbuffer, hchain, -, hcurrent⟩ := ha.frame
    left
    simp [hqueue, hbuffer, hchain, hcurrent, hwrite]
    simp only [Run.left] at hleft ⊢
    omega
  | flushedNothing hends =>
    have hbuffer := ReorderBuffer.length_takeUpTo_le s.run.buffer.size s.run.buffer
    left
    simp [Run.left, ReorderBuffer.takeReady]
    omega
  | flushedFirst hready hrunning =>
    have hbuffer := ReorderBuffer.length_takeUpTo_le s.run.buffer.size s.run.buffer
    have hlength := congrArg List.length hready
    left
    simp [Run.left, ReorderBuffer.takeReady, List.filterMap_cons] at hlength ⊢
    omega
  | passed =>
    -- The chain of flushes gets shorter, since it was not empty.
    obtain ⟨hchain, -⟩ := h.of_pass hpos
    left
    split <;> (simp [Run.left]; omega)
  | unclaimed hwriting =>
    left
    simp [Run.left]
  | unreported | wroteLast | unwritten =>
    left
    split <;> simp [Run.left, List.filterMap_cons] <;> omega
  | wroteNext hwriting hfault hremaining hrunning =>
    dsimp only at hremaining
    left
    simp [Run.left, hremaining, List.filterMap_cons]
    omega
  | adopted =>
    left
    split
    · simp [Run.left]
      omega
    · simp [Run.left]
  | left | leftFailing =>
    obtain ⟨hchain, -⟩ := h.of_leave hpos
    left
    split <;> (simp [Run.left]; omega)

/-- A worker that begins leaves less to do. -/
theorem effort_begin {s : Session β} {n : Nat} (idle : s.idle = n + 1)
    (htotal : s.run.total ≠ none) :
    ({ s with idle := n }.follow s.run.advance).effort < s.effort := by
  have ha := s.run.advance_cases
  obtain ⟨hleft, hwrite⟩ := ha.left htotal
  obtain ⟨hqueue, hbuffer, hchain, -, hcurrent⟩ := ha.frame
  simp only [effort, follow_run, follow_idle, follow_computing, follow_writing, hqueue, hbuffer,
    hchain, hcurrent, hwrite, List.length_append, idle, List.map_nil, List.length_nil]
  omega

/-- A computation that ends leaves less to do, but its turn may wait. -/
theorem effort_endCompute {s : Session β} {frame : Nat} (computing : frame ∈ s.computing)
    (result : Except Error β) (rounds : Nat) (turn : Turn β) :
    (s.endCompute frame result (turn.after rounds)).effort < s.effort ∧
      (s.endCompute frame result (turn.after rounds)).delay = s.delay + turn.delay + rounds := by
  have hpos := List.length_pos_of_mem computing
  have hkind : turn.kind.effort ≤ 12 := by
    cases turn.kind <;> decide
  constructor
  · simp [effort, List.length_erase_of_mem computing, Run.left, -Turn.Kind.effort]
    omega
  · simp [delay]
    omega

/-- A write that ends leaves less to do, but its turn may wait. -/
theorem effort_endWrite {s : Session β} {frame : Nat} (writing : frame ∈ s.writing)
    (result : Except Error Unit) (rounds : Nat) :
    (s.endWrite frame result (.after rounds (.wrote result))).effort < s.effort ∧
      (s.endWrite frame result (.after rounds (.wrote result))).delay = s.delay + rounds := by
  have hpos := List.length_pos_of_mem writing
  constructor
  · simp [effort, List.length_erase_of_mem writing, Run.left]
    omega
  · simp [delay]

/-- What is left to do, rounds of waiting and an abort that may be asked for among it. -/
def remainder (s : Session β) : Nat ×ₗ Nat :=
  toLex (s.effort, s.delay + (!s.run.aborted).toNat)

/-- Whatever happens leaves less to do, unless it changes nothing. -/
theorem remainder_lt_of_step {s t : Session β} (h : Control s) (htotal : s.run.total ≠ none)
    (step : Step s t) (changed : t ≠ s) : t.remainder < s.remainder := by
  -- An abort that was asked for is not taken back.
  have haborted : (!t.run.aborted).toNat ≤ (!s.run.aborted).toNat := by
    have hkept := step.keeps.aborted
    cases hs : s.run.aborted with
    | true => rw [hkept hs]
    | false => exact Bool.toNat_le _
  rw [remainder, remainder, Prod.Lex.toLex_lt_toLex]
  cases step with
  | begin idle => exact .inl (effort_begin idle htotal)
  | turn idle queue =>
    obtain ⟨hless, -⟩ | ⟨hsame, hless⟩ :=
      descends_turn h.front htotal queue (Run.take_cases _ _)
    · exact .inl hless
    · exact .inr ⟨hsame, Nat.add_lt_add_of_lt_of_le hless haborted⟩
  | computed value rounds computing => exact .inl (effort_endCompute computing _ rounds _).1
  | computeFailed e rounds computing => exact .inl (effort_endCompute computing _ rounds _).1
  | computeRaised e rounds computing => exact .inl (effort_endCompute computing _ rounds _).1
  | wrote result rounds writing => exact .inl (effort_endWrite writing result rounds).1
  | abort =>
    have hasked : s.run.aborted = false := by
      refine Bool.eq_false_iff.mpr fun hasked => changed ?_
      rw [Run.abort_eq_self hasked]
    right
    simp [effort, delay, Run.left, hasked]

/-- A session begins with a bounded number of turns to come. -/
theorem effort_opening_fresh {total workers : Nat} (h : workers ≤ total) (aborted : Bool)
    (reportFault : Nat → Option Error) :
    (opening (Run.fresh (some total) workers aborted reportFault : Run β)).effort ≤ 14 * total := by
  simp [effort, Run.left, Run.fresh, ReorderBuffer.start]
  omega

/-- A session never forgets how many frames there are. -/
theorem total_ne_none {total workers : Nat} {aborted : Bool} {reportFault : Nat → Option Error}
    {s : Session β} (h : Reachable (Run.fresh (some total) workers aborted reportFault) s) :
    s.run.total ≠ none := by
  rw [(keeps_of_steps h).total]
  exact Option.some_ne_none total

/-- No session has more turns to come than at its beginning. -/
theorem effort_le_of_reachable {total workers : Nat} {aborted : Bool}
    {reportFault : Nat → Option Error} {s : Session β}
    (h : Reachable (Run.fresh (some total) workers aborted reportFault) s)
    (bounded : workers ≤ total) : s.effort ≤ 14 * total := by
  induction h with
  | refl => exact effort_opening_fresh bounded aborted reportFault
  | @tail s t hreach step ih =>
    by_cases hsame : t = s
    · rwa [hsame]
    · have hlt :=
        remainder_lt_of_step (control_of_reachable hreach) (total_ne_none hreach) step hsame
      rw [remainder, remainder, Prod.Lex.toLex_lt_toLex] at hlt
      have hle : t.effort ≤ s.effort := hlt.elim Nat.le_of_lt fun heq => Nat.le_of_eq heq.1
      exact Nat.le_trans hle ih

/-- When all workers are done, nothing is left. -/
theorem Control.atRest {s : Session β} (h : Control s) (done : s.run.workers = 0) : AtRest s := by
  have hworkers := h.workers
  have hchain : s.run.chain = 0 := by omega
  have hwaiting : s.waiting = 0 := by omega
  obtain ⟨htokens, hwriting, -⟩ := h.front.of_chain_eq_zero hchain
  refine ⟨by omega, List.length_eq_zero_iff.mp (by omega), hwriting, ?_⟩
  -- Every turn is that of a worker or that of the first flush, and there is none of either.
  refine List.eq_nil_iff_forall_not_mem.mpr fun turn hturn => ?_
  have hidle : turn.kind.isWork = false := by
    have hcount := List.countP_eq_zero.mp hwaiting turn hturn
    simpa using hcount
  have hcount := count_pos_of_mem hturn rfl
  cases hkind : turn.kind with
  | computed | flushed | failed => rw [hkind] at hidle; cases hidle
  | flush => rw [hkind, htokens.flush] at hcount; cases hcount
  | pass => rw [hkind, htokens.pass] at hcount; cases hcount
  | wrote => rw [hkind, htokens.wrote] at hcount; cases hcount
  | adopt => rw [hkind, htokens.adopt] at hcount; cases hcount
  | leave => rw [hkind, htokens.leave] at hcount; cases hcount

/-- A session at rest can only be asked to stop. -/
theorem AtRest.eq_abort_of_step {s t : Session β} (rest : AtRest s) (step : Step s t) :
    t = { s with run := s.run.abort } := by
  cases step with
  | begin idle => rw [rest.idle] at idle; cases idle
  | turn idle queue => exact absurd (rest.queue.symm.trans queue) (by simp)
  | computed _ _ computing => rw [rest.computing] at computing; cases computing
  | computeFailed _ _ computing => rw [rest.computing] at computing; cases computing
  | computeRaised _ _ computing => rw [rest.computing] at computing; cases computing
  | wrote _ _ writing => rw [rest.writing] at writing; cases writing
  | abort => rfl

end Session

end Flipbook
