import Flipbook.Proofs.Schedule.Session

/-!
# Workers and the chain of flushes

Each worker that is not done is in exactly one place: it has not begun, its frame is being computed,
it has a turn in the queue, or it waits for its flush in the chain. The first flush of the chain, if
there is one, is in exactly one of three states: ready to begin, about to be passed over, or under
way; and a flush under way either has a write or has ended.

## Main results

* `Session.Control`: the accounts of workers and of the chain, as an invariant;
* `Session.control_of_reachable`: it holds in every session that can be reached;
* `Session.AtRest.chain_eq_zero`: at rest no flush is left.
-/

namespace Flipbook

variable {β : Type}

/-- What a turn is about. -/
inductive Turn.Kind where
  | computed | flushed | failed | flush | pass | wrote | adopt | leave
  deriving DecidableEq

namespace Turn

/-- What a turn is about, whatever it waits for. -/
@[simp]
def kind : Turn β → Kind
  | .computed .. => .computed
  | .flushed _ => .flushed
  | .failed _ => .failed
  | .flush => .flush
  | .pass _ => .pass
  | .wrote _ => .wrote
  | .adopt => .adopt
  | .leave => .leave
  | .wait _ turn => turn.kind

@[simp]
theorem kind_after (rounds : Nat) (turn : Turn β) : (turn.after rounds).kind = turn.kind := by
  cases rounds <;> rfl

/-- The number of turns of a kind. -/
def tally (turns : List (Turn β)) (kind : Kind) : Nat :=
  (turns.map Turn.kind).count kind

@[simp]
theorem tally_nil (kind : Kind) : tally ([] : List (Turn β)) kind = 0 :=
  rfl

@[simp]
theorem tally_cons (turn : Turn β) (turns : List (Turn β)) (kind : Kind) :
    tally (turn :: turns) kind = (if turn.kind = kind then 1 else 0) + tally turns kind := by
  rw [tally, List.map_cons, List.count_cons, Nat.add_comm]
  simp [tally]

@[simp]
theorem tally_append (turns more : List (Turn β)) (kind : Kind) :
    tally (turns ++ more) kind = tally turns kind + tally more kind := by
  simp [tally]

/-- Whether a worker goes on with turns of a kind. -/
def Kind.isWork (kind : Kind) : Bool :=
  kind matches .computed | .flushed | .failed

/-- The number of turns with which a worker goes on. -/
def work (turns : List (Turn β)) : Nat :=
  turns.countP fun turn => turn.kind.isWork

@[simp]
theorem work_nil : work ([] : List (Turn β)) = 0 :=
  rfl

@[simp]
theorem work_cons (turn : Turn β) (turns : List (Turn β)) :
    work (turn :: turns) = work turns + turn.kind.isWork.toNat := by
  rw [work, List.countP_cons]
  cases h : turn.kind.isWork <;> simp [work]

@[simp]
theorem work_append (turns more : List (Turn β)) :
    work (turns ++ more) = work turns + work more := by
  simp [work]

end Turn

@[simp]
theorem Run.kind_headTurn (run : Run β) :
    run.headTurn.kind = if run.chainError = none then .flush else .pass := by
  unfold headTurn
  cases run.chainError <;> rfl

namespace Session

/-- The number of turns of a kind in the queue. -/
def count (s : Session β) (kind : Turn.Kind) : Nat :=
  Turn.tally s.run.queue kind

/-- The number of workers that have a turn in the queue. -/
def waiting (s : Session β) : Nat :=
  Turn.work s.run.queue

/-- The numbers of turns about the first flush of the chain. -/
structure Tokens (s : Session β) (flush pass wrote adopt leave : Nat) : Prop where
  flush : s.count .flush = flush
  pass : s.count .pass = pass
  wrote : s.count .wrote = wrote
  adopt : s.count .adopt = adopt
  leave : s.count .leave = leave

/-- The chain has not failed, and neither has the flush that left it last. -/
def Unbroken (s : Session β) : Prop :=
  s.run.chainError = none ∧ ∀ e, s.run.current.ended ≠ some (.error e)

/-- The states of the first flush of the chain. -/
inductive Front (s : Session β) : Prop where
  /-- There is no flush. -/
  | empty (chain : s.run.chain = 0) (tokens : s.Tokens 0 0 0 0 0) (writing : s.writing = [])
      (quiet : s.run.current.writing = none) (sound : s.run.chainError ≠ none ∨ s.Unbroken)
  /-- The flush is ready to begin. -/
  | ready (chain : 0 < s.run.chain) (tokens : s.Tokens 1 0 0 0 0) (writing : s.writing = [])
      (quiet : s.run.current.writing = none) (sound : s.Unbroken)
  /-- The flush is about to be passed over. -/
  | failing (chain : 0 < s.run.chain) (tokens : s.Tokens 0 1 0 0 0) (writing : s.writing = [])
      (quiet : s.run.current.writing = none) (broken : s.run.chainError ≠ none)
  /-- The flush is under way, with a write that has not been taken note of. -/
  | busy {frame wrote : Nat} (chain : 0 < s.run.chain)
      (tokens : s.Tokens 0 0 wrote (if s.run.current.adopted then 0 else 1) 0)
      (write : s.run.current.writing = some frame ∧ s.run.current.ended = none)
      (writing : s.writing = [frame] ∧ wrote = 0 ∨ s.writing = [] ∧ wrote = 1)
      (sound : s.run.chainError = none)
  /-- The flush is under way, and has ended. -/
  | ended (chain : 0 < s.run.chain)
      (tokens : s.Tokens 0 0 0 (if s.run.current.adopted then 0 else 1)
        (if s.run.current.adopted then 1 else 0))
      (quiet : s.run.current.writing = none) (done : s.run.current.ended ≠ none)
      (writing : s.writing = []) (sound : s.run.chainError = none)

/-- The accounts of workers and of the chain. -/
structure Control (s : Session β) : Prop where
  /-- Each worker that is not done is in exactly one place. -/
  workers : s.run.workers = s.idle + s.computing.length + s.waiting + s.run.chain
  /-- The first flush of the chain is in exactly one state. -/
  front : Front s

/-- The state of the first flush depends on the chain and its turns alone. -/
theorem Front.congr {s t : Session β} (h : Front s) (chain : 0 < t.run.chain ↔ 0 < s.run.chain)
    (chainError : t.run.chainError = s.run.chainError) (current : t.run.current = s.run.current)
    (writing : t.writing = s.writing)
    (htokens : ∀ {a b c d e}, s.Tokens a b c d e → t.Tokens a b c d e) : Front t := by
  have hsound (h : s.Unbroken) : t.Unbroken := by rwa [Unbroken, chainError, current]
  cases h with
  | empty hc ht hw hq hs =>
    rw [← chainError] at hs
    rw [← current] at hq
    exact .empty (by omega) (htokens ht) (writing.trans hw) hq (hs.imp_right hsound)
  | ready hc ht hw hq hs =>
    rw [← current] at hq
    exact .ready (chain.mpr hc) (htokens ht) (writing.trans hw) hq (hsound hs)
  | failing hc ht hw hq hb =>
    rw [← chainError] at hb
    rw [← current] at hq
    exact .failing (chain.mpr hc) (htokens ht) (writing.trans hw) hq hb
  | busy hc ht hr hw hs =>
    rw [← current] at ht hr
    rw [← writing] at hw
    exact .busy (chain.mpr hc) (htokens ht) hr hw (chainError.trans hs)
  | ended hc ht hq hd hw hs =>
    rw [← current] at ht hq hd
    exact .ended (chain.mpr hc) (htokens ht) hq hd (writing.trans hw) (chainError.trans hs)

section Turns

variable {s t : Session β} {before after posted : List (Turn β)} {turn : Turn β}

/-- The turns of a kind after one was taken and others were posted. -/
theorem count_taken (queue : s.run.queue = before ++ turn :: after)
    (next : t.run.queue = before ++ after ++ posted) (kind : Turn.Kind) :
    t.count kind = s.count kind + Turn.tally posted kind - if turn.kind = kind then 1 else 0 := by
  rw [count, count, queue, next]
  simp only [Turn.tally_append, Turn.tally_cons]
  omega

/-- There are as many turns of a kind as before if those posted make up for the one taken. -/
theorem count_le (queue : s.run.queue = before ++ turn :: after)
    (next : t.run.queue = before ++ after ++ posted) {kind : Turn.Kind}
    (same : (if turn.kind = kind then 1 else 0) ≤ Turn.tally posted kind) :
    s.count kind ≤ t.count kind := by
  rw [count_taken queue next]
  omega

/-- A turn that is in the queue is counted. -/
theorem count_pos_of_mem {kind : Turn.Kind} (h : turn ∈ s.run.queue) (same : turn.kind = kind) :
    0 < s.count kind :=
  List.count_pos_iff.mpr (same ▸ List.mem_map_of_mem h)

/-- A turn that is taken from the queue was counted. -/
theorem count_pos (queue : s.run.queue = before ++ turn :: after) : 0 < s.count turn.kind :=
  count_pos_of_mem (by simp [queue]) rfl

/-- The turns about the first flush after one was taken and others were posted. -/
theorem Tokens.taken {a b c d e a' b' c' d' e' : Nat} (h : s.Tokens a b c d e)
    (queue : s.run.queue = before ++ turn :: after)
    (next : t.run.queue = before ++ after ++ posted)
    (counts :
      (a + Turn.tally posted .flush - if turn.kind = .flush then 1 else 0) = a' ∧
      (b + Turn.tally posted .pass - if turn.kind = .pass then 1 else 0) = b' ∧
      (c + Turn.tally posted .wrote - if turn.kind = .wrote then 1 else 0) = c' ∧
      (d + Turn.tally posted .adopt - if turn.kind = .adopt then 1 else 0) = d' ∧
      (e + Turn.tally posted .leave - if turn.kind = .leave then 1 else 0) = e') :
    t.Tokens a' b' c' d' e' := by
  obtain ⟨ha, hb, hc, hd, he⟩ := counts
  exact ⟨by rw [count_taken queue next, h.flush, ha], by rw [count_taken queue next, h.pass, hb],
    by rw [count_taken queue next, h.wrote, hc], by rw [count_taken queue next, h.adopt, hd],
    by rw [count_taken queue next, h.leave, he]⟩

/-- The turns about the first flush after others were posted. -/
theorem Tokens.append {a b c d e a' b' c' d' e' : Nat} (h : s.Tokens a b c d e)
    (next : t.run.queue = s.run.queue ++ posted)
    (counts :
      a + Turn.tally posted .flush = a' ∧ b + Turn.tally posted .pass = b' ∧
      c + Turn.tally posted .wrote = c' ∧ d + Turn.tally posted .adopt = d' ∧
      e + Turn.tally posted .leave = e') :
    t.Tokens a' b' c' d' e' := by
  obtain ⟨rfl, rfl, rfl, rfl, rfl⟩ := counts
  have hcount (kind : Turn.Kind) : t.count kind = s.count kind + Turn.tally posted kind := by
    rw [count, next, Turn.tally_append, ← count]
  exact ⟨by rw [hcount, h.flush], by rw [hcount, h.pass], by rw [hcount, h.wrote],
    by rw [hcount, h.adopt], by rw [hcount, h.leave]⟩

end Turns

/-- If there is no flush, nothing of it is under way. -/
theorem Front.of_chain_eq_zero {s : Session β} (h : Front s) (chain : s.run.chain = 0) :
    s.Tokens 0 0 0 0 0 ∧ s.writing = [] ∧ s.run.current.writing = none ∧
      (s.run.chainError ≠ none ∨ s.Unbroken) := by
  cases h with
  | empty hc ht hw hq hs => exact ⟨ht, hw, hq, hs⟩
  | ready hc | failing hc | busy hc | ended hc => omega

/-- If the first flush can begin, nothing of it is under way. -/
theorem Front.of_flush {s : Session β} (h : Front s) (flush : 0 < s.count .flush) :
    0 < s.run.chain ∧ s.Tokens 1 0 0 0 0 ∧ s.writing = [] ∧ s.run.current.writing = none ∧
      s.Unbroken := by
  cases h with
  | ready hc ht hw hq hs => exact ⟨hc, ht, hw, hq, hs⟩
  | empty _ ht | failing _ ht | busy _ ht | ended _ ht => exact absurd ht.flush (Nat.ne_of_gt flush)

/-- If the first flush can be passed over, nothing of it is under way. -/
theorem Front.of_pass {s : Session β} (h : Front s) (pass : 0 < s.count .pass) :
    0 < s.run.chain ∧ s.Tokens 0 1 0 0 0 ∧ s.writing = [] ∧ s.run.current.writing = none ∧
      s.run.chainError ≠ none := by
  cases h with
  | failing hc ht hw hq hb => exact ⟨hc, ht, hw, hq, hb⟩
  | empty _ ht | ready _ ht | busy _ ht | ended _ ht => exact absurd ht.pass (Nat.ne_of_gt pass)

/-- If a write has ended, it is that of the flush under way. -/
theorem Front.of_wrote {s : Session β} (h : Front s) (wrote : 0 < s.count .wrote) :
    ∃ frame, 0 < s.run.chain ∧ s.Tokens 0 0 1 (if s.run.current.adopted then 0 else 1) 0 ∧
      s.run.current.writing = some frame ∧ s.run.current.ended = none ∧ s.writing = [] ∧
      s.run.chainError = none := by
  cases h with
  | @busy frame n hc ht hr hw hs =>
    have hn := ht.wrote
    rcases hw with ⟨-, rfl⟩ | ⟨hw, rfl⟩
    · omega
    · exact ⟨frame, hc, ht, hr.1, hr.2, hw, hs⟩
  | empty _ ht | ready _ ht | failing _ ht | ended _ ht => exact absurd ht.wrote (Nat.ne_of_gt wrote)

/-- If there is a turn for it, the chain has not yet taken note of the flush under way. -/
theorem Tokens.adopted_eq_false {s : Session β} {a b c e : Nat}
    (h : s.Tokens a b c (if s.run.current.adopted then 0 else 1) e) (adopt : 0 < s.count .adopt) :
    s.run.current.adopted = false := by
  refine Bool.eq_false_iff.mpr fun hadopted => ?_
  rw [h.adopt, if_pos hadopted] at adopt
  exact Nat.lt_irrefl 0 adopt

/-- If the chain can take note of the flush under way, it has not yet done so. -/
theorem Front.of_adopt {s : Session β} (h : Front s) (adopt : 0 < s.count .adopt) :
    s.run.current.adopted = false ∧ 0 < s.run.chain ∧ s.run.chainError = none ∧
      ((∃ frame wrote, s.Tokens 0 0 wrote 1 0 ∧
          (s.run.current.writing = some frame ∧ s.run.current.ended = none) ∧
          (s.writing = [frame] ∧ wrote = 0 ∨ s.writing = [] ∧ wrote = 1)) ∨
        s.Tokens 0 0 0 1 0 ∧ s.run.current.writing = none ∧ s.run.current.ended ≠ none ∧
          s.writing = []) := by
  cases h with
  | @busy frame n hc ht hr hw hs =>
    have hadopted := ht.adopted_eq_false adopt
    rw [hadopted] at ht
    exact ⟨hadopted, hc, hs, .inl ⟨frame, n, ht, hr, hw⟩⟩
  | ended hc ht hq hd hw hs =>
    have hadopted := ht.adopted_eq_false adopt
    rw [hadopted] at ht
    exact ⟨hadopted, hc, hs, .inr ⟨ht, hq, hd, hw⟩⟩
  | empty _ ht | ready _ ht | failing _ ht => exact absurd ht.adopt (Nat.ne_of_gt adopt)

/-- If the flush under way can leave the chain, it has ended. -/
theorem Front.of_leave {s : Session β} (h : Front s) (leave : 0 < s.count .leave) :
    0 < s.run.chain ∧ s.Tokens 0 0 0 0 1 ∧ s.run.current.writing = none ∧
      s.run.current.ended ≠ none ∧ s.writing = [] ∧ s.run.chainError = none := by
  cases h with
  | ended hc ht hq hd hw hs =>
    cases hadopted : s.run.current.adopted with
    | true => exact ⟨hc, by simpa [hadopted] using ht, hq, hd, hw, hs⟩
    | false =>
      have hn := ht.leave
      simp only [hadopted, Bool.false_eq_true, if_false] at hn
      omega
  | empty _ ht | ready _ ht | failing _ ht | busy _ ht => exact absurd ht.leave (Nat.ne_of_gt leave)

/-- If the first flush of a chain that has failed is gone, the next one is to be passed over. -/
theorem Front.of_broken {s : Session β} {chain : Nat} (left : s.run.chain = chain - 1)
    (tokens : s.Tokens 0 (if 1 < chain then 1 else 0) 0 0 0) (writing : s.writing = [])
    (quiet : s.run.current.writing = none) (broken : s.run.chainError ≠ none) : Front s := by
  by_cases hlast : 1 < chain
  · rw [if_pos hlast] at tokens
    exact .failing (by omega) tokens writing quiet broken
  · rw [if_neg hlast] at tokens
    exact .empty (by omega) tokens writing quiet (.inl broken)

/-- If the first flush of a chain that has not failed is gone, the next one is ready to begin. -/
theorem Front.of_unbroken {s : Session β} {chain : Nat} (left : s.run.chain = chain - 1)
    (tokens : s.Tokens (if 1 < chain then 1 else 0) 0 0 0 0) (writing : s.writing = [])
    (quiet : s.run.current.writing = none) (unbroken : s.Unbroken) : Front s := by
  by_cases hlast : 1 < chain
  · rw [if_pos hlast] at tokens
    exact .ready (by omega) tokens writing quiet unbroken
  · rw [if_neg hlast] at tokens
    exact .empty (by omega) tokens writing quiet (.inr unbroken)

/-- A turn takes the first flush from one state to another. -/
theorem Front.turn {s : Session β} (h : Front s) {before after : List (Turn β)} {turn : Turn β}
    (queue : s.run.queue = before ++ turn :: after) {next : Run β} {demands : List (Demand β)}
    (effect : Run.Effect { s.run with queue := before ++ after } turn next demands) :
    Front ((s.note turn).follow (next, demands)) := by
  have hpos := count_pos queue
  cases effect with
  | arrived hput =>
    rcases Nat.eq_zero_or_pos s.run.chain with hzero | hc
    · obtain ⟨ht, hw, hq, hs⟩ := h.of_chain_eq_zero hzero
      rw [← List.append_nil s.writing] at hw
      by_cases hbroken : s.run.chainError = none
      · exact .ready (Nat.succ_pos _) (ht.taken queue rfl (by simp [hzero, hbroken])) hw hq
          (hs.resolve_left (· hbroken))
      · exact .failing (Nat.succ_pos _) (ht.taken queue rfl (by simp [hzero, hbroken])) hw hq
          hbroken
    · exact h.congr (by simp [hc]) rfl rfl (by simp) fun ht =>
        ht.taken queue rfl (by simp [Nat.ne_of_gt hc])
  | refused | uncomputed | unflushed =>
    exact h.congr Iff.rfl rfl rfl (by simp) fun ht => ht.taken queue rfl (by simp)
  | @waited rounds turn =>
    refine h.congr Iff.rfl rfl rfl (by simp) fun ht => ht.taken queue rfl ?_
    cases hkind : turn.kind <;> simp [hkind]
  | failed =>
    exact h.congr Iff.rfl rfl rfl (by simp) fun ht =>
      ht.taken queue (List.append_nil _).symm (by simp)
  | advance ha =>
    have hqueue : next.queue = before ++ after ++ [] := by cases ha <;> simp
    exact h.congr (by cases ha <;> simp) (by cases ha <;> rfl) (by cases ha <;> rfl)
      (by cases ha <;> simp) fun ht => ht.taken queue hqueue (by simp)
  -- The first flush begins.
  | flushedNothing hends =>
    obtain ⟨hc, ht, hw, -, hs⟩ := h.of_flush hpos
    exact .ended hc (ht.taken queue rfl (by simp)) rfl (by rintro ⟨⟩) (by simpa using hw) hs.1
  | flushedFirst hready hrunning =>
    obtain ⟨hc, ht, hw, -, hs⟩ := h.of_flush hpos
    exact .busy hc (ht.taken queue rfl (by simp)) ⟨rfl, rfl⟩ (.inl ⟨by simp [hw], rfl⟩) hs.1
  | passed =>
    obtain ⟨-, ht, hw, hq, -⟩ := h.of_pass hpos
    refine .of_broken rfl (ht.taken queue rfl ?_) (by simpa using hw) hq (by rintro ⟨⟩)
    by_cases hlast : 1 < s.run.chain <;> simp [hlast]
  | unclaimed hwriting =>
    obtain ⟨frame, -, -, hr, -⟩ := h.of_wrote hpos
    exact absurd (hr.symm.trans hwriting) (by rintro ⟨⟩)
  | unreported | wroteLast | unwritten =>
    obtain ⟨-, hc, ht, -, -, hw, hs⟩ := h.of_wrote hpos
    refine .ended hc (ht.taken queue rfl ?_) rfl (by rintro ⟨⟩) (by simpa using hw) hs
    cases hadopted : s.run.current.adopted <;> simp [hadopted]
  | wroteNext hwriting hfault hremaining hrunning =>
    obtain ⟨-, hc, ht, -, hn, hw, hs⟩ := h.of_wrote hpos
    exact .busy hc (ht.taken queue (List.append_nil _).symm (by simp)) ⟨rfl, hn⟩
      (.inl ⟨by simp [hw, List.filterMap_cons], rfl⟩) hs
  | adopted =>
    obtain ⟨hadopted, hc, hs, ⟨frame, n, ht, hr, hw⟩ | ⟨ht, hq, hd, hw⟩⟩ := h.of_adopt hpos
    · rw [← List.append_nil s.writing] at hw
      exact .busy hc (ht.taken queue rfl (by simp [hr.2])) hr hw hs
    · refine .ended hc (ht.taken queue rfl ?_) hq hd (by simpa using hw) hs
      simp [Option.isSome_iff_ne_none.mpr hd]
  | left hended =>
    obtain ⟨-, ht, hq, -, hw, hs⟩ := h.of_leave hpos
    refine .of_unbroken rfl (ht.taken queue rfl ?_) (by simpa using hw) hq ⟨hs, hended⟩
    by_cases hlast : 1 < s.run.chain <;> simp [hlast]
  | leftFailing =>
    obtain ⟨-, ht, hq, -, hw, -⟩ := h.of_leave hpos
    refine .of_broken rfl (ht.taken queue rfl ?_) (by simpa using hw) hq (by rintro ⟨⟩)
    by_cases hlast : 1 < s.run.chain <;> simp [hlast]

/-- The account of workers after a turn was taken and others were posted. -/
theorem workers_taken {s : Session β} (h : Control s) {before after posted : List (Turn β)}
    {turn : Turn β} (queue : s.run.queue = before ++ turn :: after) {next : Run β}
    {demands : List (Demand β)} (taken added computing : Nat)
    (posts : next.queue = before ++ after ++ posted) (hturn : Turn.work [turn] = taken)
    (hposted : Turn.work posted = added)
    (hdemands : (demands.filterMap Demand.compute?).length = computing)
    (change : next.workers + s.run.chain + taken = s.run.workers + computing + next.chain + added) :
    ((s.note turn).follow (next, demands)).run.workers =
      ((s.note turn).follow (next, demands)).idle +
        ((s.note turn).follow (next, demands)).computing.length +
        ((s.note turn).follow (next, demands)).waiting +
        ((s.note turn).follow (next, demands)).run.chain := by
  have hworkers := h.workers
  rw [waiting, queue] at hworkers
  rw [waiting]
  simp only [follow_run, follow_idle, follow_computing, note_idle, note_computing,
    List.length_append, posts, Turn.work_append, Turn.work_cons, Turn.work_nil] at hworkers hturn ⊢
  omega

/-- A worker that goes on with a turn is not done. -/
theorem Control.workers_pos {s : Session β} (h : Control s) {turn : Turn β}
    (mem : turn ∈ s.run.queue) (work : turn.kind.isWork) : 0 < s.run.workers := by
  have hworkers := h.workers
  have hwaiting : 0 < s.waiting := List.countP_pos_iff.mpr ⟨turn, mem, work⟩
  omega

/-- A turn moves the worker it is about from one place to another. -/
theorem Control.turn {s : Session β} (h : Control s) {before after : List (Turn β)} {turn : Turn β}
    (queue : s.run.queue = before ++ turn :: after) {next : Run β} {demands : List (Demand β)}
    (effect : Run.Effect { s.run with queue := before ++ after } turn next demands) :
    Control ((s.note turn).follow (next, demands)) := by
  refine ⟨?_, h.front.turn queue effect⟩
  have hpos := count_pos queue
  have hmem : turn ∈ s.run.queue := by simp [queue]
  cases effect with
  | arrived =>
    -- The worker waits for its flush, which may get its turn at once.
    have hposted : Turn.work (if s.run.chain = 0 then
        [Run.headTurn { s.run with queue := before ++ after }] else []) = 0 := by
      split
      · by_cases hbroken : s.run.chainError = none <;> simp [hbroken, Turn.Kind.isWork]
      · rfl
    exact workers_taken h queue 1 0 0 rfl rfl hposted rfl (by dsimp only; omega)
  | refused | uncomputed | unflushed =>
    exact workers_taken h queue 1 1 0 rfl rfl rfl rfl rfl
  | flushedNothing | flushedFirst => exact workers_taken h queue 0 0 0 rfl rfl rfl rfl rfl
  | @waited rounds turn =>
    exact workers_taken h queue _ _ 0 rfl rfl (by simp) rfl rfl
  | failed =>
    have hw := h.workers_pos hmem rfl
    exact workers_taken h queue 1 0 0 (List.append_nil _).symm rfl rfl rfl (by dsimp only; omega)
  | advance ha =>
    have hw := h.workers_pos hmem rfl
    have hposts : next.queue = before ++ after ++ [] := by cases ha <;> simp
    cases ha with
    | done => exact workers_taken h queue 1 0 0 hposts rfl rfl rfl (by dsimp only; omega)
    | cancelled => exact workers_taken h queue 1 0 0 hposts rfl rfl rfl (by dsimp only; omega)
    | next => exact workers_taken h queue 1 0 1 hposts rfl rfl rfl (by dsimp only; omega)
  | unclaimed | wroteNext =>
    exact workers_taken h queue 0 0 0 (List.append_nil _).symm rfl rfl rfl rfl
  | unreported | wroteLast | unwritten =>
    refine workers_taken h queue 0 0 0 rfl rfl ?_ rfl rfl
    cases s.run.current.adopted <;> rfl
  | adopted =>
    refine workers_taken h queue 0 0 0 rfl rfl ?_ rfl rfl
    cases s.run.current.ended <;> rfl
  | passed =>
    obtain ⟨hc, -⟩ := h.front.of_pass hpos
    refine workers_taken h queue 0 1 0 rfl rfl ?_ rfl (by dsimp only; omega)
    split <;> rfl
  | left | leftFailing =>
    obtain ⟨hc, -⟩ := h.front.of_leave hpos
    refine workers_taken h queue 0 1 0 rfl rfl ?_ rfl (by dsimp only; omega)
    split <;> rfl

/-- The accounts when a computation ends. -/
theorem Control.endCompute {s : Session β} (h : Control s) {frame : Nat} (result : Except Error β)
    {turn : Turn β} (rounds : Nat) (computing : frame ∈ s.computing)
    (work : turn.kind.isWork) : Control (s.endCompute frame result (turn.after rounds)) := by
  have hpos := List.length_pos_of_mem computing
  constructor
  · have hworkers := h.workers
    have hwaiting : (s.endCompute frame result (turn.after rounds)).waiting = s.waiting + 1 := by
      simp [waiting, work]
    rw [hwaiting]
    simp only [endCompute_run, endCompute_idle, endCompute_computing, Run.post,
      List.length_erase_of_mem computing]
    omega
  · refine h.front.congr Iff.rfl rfl rfl rfl fun ht => ht.append rfl ?_
    cases hkind : turn.kind <;> simp_all [Turn.Kind.isWork]

/-- The state of the first flush when a write ends. -/
theorem Front.endWrite {s : Session β} (h : Front s) {frame : Nat} (result : Except Error Unit)
    (rounds : Nat) (writing : frame ∈ s.writing) :
    Front (s.endWrite frame result (.after rounds (.wrote result))) := by
  cases h with
  | @busy current n hc ht hr hw hs =>
    rcases hw with ⟨hw, rfl⟩ | ⟨hw, -⟩
    · exact .busy hc (ht.append rfl (by simp)) hr (.inr ⟨by simp_all, rfl⟩) hs
    · simp [hw] at writing
  | empty _ _ hw | ready _ _ hw | failing _ _ hw | ended _ _ _ _ hw => simp [hw] at writing

/-- Everything that can happen keeps the accounts. -/
theorem Control.step {s t : Session β} (h : Control s) (step : Step s t) : Control t := by
  cases step with
  | @begin n idle =>
    have ha := s.run.advance_cases
    generalize s.run.advance = next at ha ⊢
    obtain ⟨next, demands⟩ := next
    -- A worker that begins posts no turn: it is done, or demands its frame.
    have hqueue : next.queue = s.run.queue ++ [] := by cases ha <;> simp
    constructor
    · have hworkers := h.workers
      rw [waiting] at hworkers ⊢
      cases ha with
      | done | cancelled | next =>
        simp only [follow_run, follow_idle, follow_computing, List.length_append,
          List.filterMap_nil, List.filterMap_cons, Demand.compute?, List.length_nil,
          List.length_cons]
        omega
    · exact h.front.congr (by cases ha <;> simp) (by cases ha <;> rfl) (by cases ha <;> rfl)
        (by cases ha <;> simp) fun ht => ht.append hqueue (by simp)
  | turn idle queue => exact h.turn queue (Run.take_cases _ _)
  | computed value rounds computing => exact h.endCompute _ rounds computing rfl
  | computeFailed e rounds computing => exact h.endCompute _ rounds computing rfl
  | computeRaised e rounds computing => exact h.endCompute _ rounds computing rfl
  | wrote result rounds writing =>
    refine ⟨?_, h.front.endWrite result rounds writing⟩
    simpa [waiting, Turn.Kind.isWork] using h.workers
  | abort =>
    exact ⟨h.workers, h.front.congr Iff.rfl rfl rfl rfl fun ht =>
      ht.append (List.append_nil _).symm (by simp)⟩

/-- The accounts are kept in every session that can be reached. -/
theorem control_of_reachable {total : Option Nat} {workers : Nat} {aborted : Bool}
    {reportFault : Nat → Option Error} {s : Session β}
    (h : Reachable (Run.fresh total workers aborted reportFault) s) : Control s := by
  induction h with
  | refl =>
    exact ⟨rfl, .empty rfl ⟨rfl, rfl, rfl, rfl, rfl⟩ rfl rfl (.inr ⟨rfl, nofun⟩)⟩
  | tail _ hstep ih => exact ih.step hstep

/-- At rest no flush is left, and every worker is done. -/
theorem AtRest.done {s : Session β} (h : AtRest s) (control : Control s) :
    s.run.chain = 0 ∧ s.run.workers = 0 := by
  have hcount (kind : Turn.Kind) : s.count kind = 0 := by rw [count, h.queue, Turn.tally_nil]
  have hchain : s.run.chain = 0 := by
    cases control.front with
    | empty hc => exact hc
    | ready _ ht => exact absurd ht.flush (by simp [hcount])
    | failing _ ht => exact absurd ht.pass (by simp [hcount])
    | busy _ ht _ hw =>
      rcases hw with ⟨hw, -⟩ | ⟨-, rfl⟩
      · simp [h.writing] at hw
      · exact absurd ht.wrote (by simp [hcount])
    | ended _ ht =>
      cases hadopted : s.run.current.adopted with
      | true => exact absurd ht.leave (by simp [hadopted, hcount])
      | false => exact absurd ht.adopt (by simp [hadopted, hcount])
  refine ⟨hchain, ?_⟩
  rw [control.workers, h.idle, h.computing, hchain, waiting, h.queue]
  rfl

end Session

end Flipbook
