import Mathlib.Data.List.Induction
import Mathlib.Data.List.Iterate
import Mathlib.Data.List.Nodup
import Mathlib.Data.List.Perm.Basic
import Flipbook.Proofs.Number.Order
import Flipbook.Proofs.Schedule.Buffer

/-!
# Each result once, in its turn

Results are put into a reorder buffer and taken from it in any order of calls. Whatever the indexes
are, those that are delivered are met by adding one over and over, and each result that was accepted
has either been delivered or waits.

With integers as indexes, the results that have been delivered are those that were accepted for the
integers from the first one up to the next turn, as long as adding one is exact, which it is from
`-2 ^ 53` up to `2 ^ 53 - 1`. At `2 ^ 53` it leads nowhere: the turn stays, and the same index is
accepted and delivered again.

## Main definitions

* `Call`, `History`: calls to a buffer, and what has become of the results.
* `History.InTurn`: what has been delivered, if counting is exact.
* `History.Reliable`: what can be relied on at any time.

## Main results

* `Drained.account`: each result that waited is taken or goes on waiting;
* `History.account_run`: what was accepted is delivered or waits;
* `History.reliable_run`: each result is delivered once, and in its turn.
-/

namespace Flipbook.ReorderBuffer

/-- A call to a buffer. -/
inductive Call (ι β : Type) where
  /-- A result arrives. -/
  | put (index : ι) (value : β)
  | takeReady
  deriving DecidableEq, Repr

/-- A buffer with what has become of the results that were put into it. -/
structure History (ι β : Type) where
  buffer : ReorderBuffer ι β
  /-- The results that were put and not refused, in the order of their calls. -/
  accepted : List (ι × β)
  /-- The results that were taken, call after call. -/
  delivered : List (ι × β)
  deriving DecidableEq, Repr

/-- A result as it waits in a buffer. -/
def waiting {ι β : Type} (p : ι × β) : ι × Option β :=
  (p.1, some p.2)

section Index

variable {ι β : Type}

theorem waiting_injective : Function.Injective (waiting : ι × β → ι × Option β) := by
  rintro ⟨i, v⟩ ⟨j, w⟩ h
  simpa [waiting] using h

theorem map_fst_waiting (ps : List (ι × β)) : (ps.map waiting).map Prod.fst = ps.map Prod.fst := by
  rw [List.map_map]
  rfl

/-- Each result that waited is taken, or goes on waiting, if no two of them have the same index. -/
theorem Drained.account [DecidableEq ι] [Add ι] [OfNat ι 1] {buffer rest : ReorderBuffer ι β}
    {ready : List (ι × β)} (h : Drained buffer ready rest)
    (hdistinct : (buffer.pending.map Prod.fst).Nodup) :
    buffer.pending.Perm (ready.map waiting ++ rest.pending) := by
  have hready : (ready.map waiting).Nodup := by
    have hnodup := h.nodup
    rw [← map_fst_waiting] at hnodup
    exact hnodup.of_map
  rw [h.kept]
  refine (List.perm_ext_iff_of_nodup hdistinct.of_map ?_).mpr fun q => ?_
  · refine List.nodup_append.mpr ⟨hready, hdistinct.of_map.filter _, ?_⟩
    rintro q hq r hr rfl
    obtain ⟨p, hp, rfl⟩ := List.mem_map.mp hq
    exact of_decide_eq_true (List.mem_filter.mp hr).2 (List.mem_map_of_mem hp)
  · simp only [List.mem_append, List.mem_filter, decide_eq_true_eq]
    constructor
    · intro hq
      by_cases htaken : q.1 ∈ ready.map Prod.fst
      · -- The result that was taken under this index is the one that waited.
        obtain ⟨p, hp, hindex⟩ := List.mem_map.mp htaken
        have hsame := List.inj_on_of_nodup_map hdistinct (h.values p hp) hq hindex
        exact .inl (List.mem_map.mpr ⟨p, hp, hsame⟩)
      · exact .inr ⟨hq, htaken⟩
    · rintro (hq | ⟨hq, -⟩)
      · obtain ⟨p, hp, rfl⟩ := List.mem_map.mp hq
        exact h.values p hp
      · exact hq

namespace History

/-- No call has been made to a buffer that begins with an index. -/
def start (index : ι) : History ι β :=
  ⟨.start index, [], []⟩

/-- What holds of a history with indexes of any type. -/
structure Account [Add ι] [OfNat ι 1] (index : ι) (h : History ι β) : Prop where
  /-- No two results wait under one index. -/
  distinct : (h.buffer.pending.map Prod.fst).Nodup
  /-- Each result that was accepted is delivered, or it waits. -/
  account : (h.accepted.map waiting).Perm (h.delivered.map waiting ++ h.buffer.pending)
  /-- The indexes delivered are met by counting on from the first one. -/
  indexes : h.delivered.map Prod.fst = List.iterate (· + 1) index h.delivered.length
  next_eq : h.buffer.next = (· + 1)^[h.delivered.length] index

theorem account_start [Add ι] [OfNat ι 1] (index : ι) : (start index : History ι β).Account index :=
  ⟨List.nodup_nil, .refl _, rfl, rfl⟩

/-- What waits are results. -/
theorem Account.isSome_of_mem [Add ι] [OfNat ι 1] {index : ι} {h : History ι β}
    (account : h.Account index) {p : ι × Option β} (hp : p ∈ h.buffer.pending) : p.2.isSome := by
  obtain ⟨q, -, rfl⟩ := List.mem_map.mp (account.account.mem_iff.mpr (List.mem_append_right _ hp))
  rfl

variable [DecidableEq ι] [Add ι] [OfNat ι 1] {index : ι} {h : History ι β}

/-- What would be taken now. -/
theorem Account.drained (account : h.Account index) :
    Drained h.buffer h.buffer.takeReady.1 h.buffer.takeReady.2 :=
  takeReady_drained fun _ => account.isSome_of_mem

variable [LT ι] [DecidableLT ι]

/-- What a call leaves. A result that is refused changes nothing. -/
def after (h : History ι β) : Call ι β → History ι β
  | .put index value =>
    match h.buffer.put index (some value) with
    | none => h
    | some buffer => { h with buffer, accepted := h.accepted ++ [(index, value)] }
  | .takeReady =>
    let (ready, buffer) := h.buffer.takeReady
    { h with buffer, delivered := h.delivered ++ ready }

/-- What a sequence of calls leaves. -/
def run (index : ι) (calls : List (Call ι β)) : History ι β :=
  calls.foldl after (start index)

theorem run_concat (index : ι) (calls : List (Call ι β)) (call : Call ι β) :
    run index (calls ++ [call]) = (run index calls).after call := by
  rw [run, List.foldl_append]
  rfl

theorem Account.after_put (account : h.Account index) (i : ι) (v : β) :
    (h.after (.put i v)).Account index := by
  rw [after]
  split
  · exact account
  next buffer hput =>
    obtain rfl := eq_of_put_eq_some hput
    -- The index did not wait, or the result would have been refused.
    have hnew : i ∉ h.buffer.pending.map Prod.fst := by
      intro hmem
      rw [put_eq_none_iff.mpr (.inr hmem)] at hput
      cases hput
    refine ⟨?_, ?_, account.indexes, account.next_eq⟩
    · rw [List.map_append]
      refine List.nodup_append.mpr ⟨account.distinct, List.nodup_singleton i, ?_⟩
      intro a ha b hb hab
      obtain rfl : b = i := List.mem_singleton.mp hb
      exact hnew (hab ▸ ha)
    · rw [List.map_append, ← List.append_assoc]
      exact account.account.append (.refl _)

theorem Account.after_takeReady (account : h.Account index) :
    (h.after .takeReady).Account index := by
  have hdrained := account.drained
  simp only [after]
  generalize h.buffer.takeReady = taken at hdrained ⊢
  refine ⟨?_, ?_, ?_, ?_⟩
  · rw [hdrained.kept]
    exact account.distinct.sublist (List.filter_sublist.map Prod.fst)
  · rw [List.map_append, List.append_assoc]
    exact account.account.trans (.append_left _ (hdrained.account account.distinct))
  · rw [List.map_append, account.indexes, hdrained.indexes, account.next_eq, List.length_append,
      List.iterate_add]
  · rw [List.length_append, Nat.add_comm, Function.iterate_add_apply, ← account.next_eq]
    exact hdrained.next_eq

/-- Each call keeps the account. -/
theorem Account.after (account : h.Account index) (call : Call ι β) :
    (h.after call).Account index := by
  cases call with
  | put i v => exact account.after_put i v
  | takeReady => exact account.after_takeReady

/-- The account holds at any time. -/
theorem account_run (index : ι) (calls : List (Call ι β)) : (run index calls).Account index := by
  induction calls using List.reverseRecOn with
  | nil => exact account_start index
  | append_singleton calls call ih =>
    rw [run_concat]
    exact ih.after call

end History

end Index

section Integers

open Binary64 (exactBound finite)

/-- Whether the index of a call is an integer, if it has one. -/
def Call.isInteger {β : Type} : Call Binary64 β → Bool
  | .put index _ => index.isInteger
  | .takeReady => true

/-- The range of the integers to which adding one is exact. -/
def CountsOn (index : Binary64) : Prop :=
  -.ofNat exactBound ≤ index ∧ index < .ofNat exactBound

instance : DecidablePred CountsOn := fun _ => inferInstanceAs (Decidable (_ ∧ _))

variable {β : Type} {a : Int}

theorem countsOn_iff : CountsOn (finite a) ↔ -(exactBound : Int) ≤ a ∧ a < exactBound := by
  have hbound : Binary64.ofNat exactBound = finite (exactBound : Int) :=
    Binary64.ofNat_eq_finite (Nat.le_refl _)
  rw [CountsOn, hbound]
  show (finite (-(exactBound : Int))).le (finite a) = true ∧
    finite a < finite (exactBound : Int) ↔ _
  rw [Binary64.finite_le_finite, Binary64.finite_lt_finite, decide_eq_true_eq, ← Rat.intCast_neg,
    Rat.intCast_le_intCast, Rat.intCast_lt_intCast]

theorem finite_add_one (h : CountsOn (finite a)) : finite a + 1 = finite (a + 1 : Int) := by
  have hone : (1 : Binary64) = finite (1 : Nat) := Binary64.ofNat_eq_finite (by decide)
  obtain ⟨hlow, hhigh⟩ := countsOn_iff.mp h
  rw [hone]
  show Binary64.round (a + (1 : Nat)) = _
  rw [← Binary64.round_intCast (n := a + 1) (by omega), Rat.intCast_add]
  rfl

/-- Counting through the range meets the integers one after the other. -/
theorem iterate_add_one (n : Nat) (a : Int)
    (h : ∀ i ∈ List.iterate (· + 1) (finite a) n, CountsOn i) :
    (· + 1)^[n] (finite a) = finite (a + n : Int) ∧
      List.iterate (· + 1) (finite a) n =
        (List.range n).map fun k : Nat => finite (a + k : Int) := by
  induction n generalizing a with
  | zero => simp
  | succ n ih =>
    rw [List.iterate] at h ⊢
    have hsucc := finite_add_one (h _ (List.mem_cons_self ..))
    rw [hsucc] at h ⊢
    obtain ⟨hnext, hindexes⟩ := ih (a + 1) fun i hi => h i (List.mem_cons_of_mem _ hi)
    have hshift : ∀ k : Nat, a + 1 + (k : Int) = a + (k + 1 : Nat) := fun k => by omega
    constructor
    · rw [Function.iterate_succ_apply, hsucc, hnext, hshift]
    · rw [hindexes, List.range_succ_eq_map, List.map_cons, List.map_map]
      simp [hshift, Function.comp_def]

/-- Every index that waits is an integer whose turn is still to come. -/
def Upcoming (buffer : ReorderBuffer Binary64 β) : Prop :=
  ∀ p ∈ buffer.pending, p.1.isInteger = true ∧ ¬ p.1 < buffer.next

theorem upcoming_put {buffer next : ReorderBuffer Binary64 β} {index : Binary64} {value : Option β}
    (h : buffer.Upcoming) (hinteger : index.isInteger = true)
    (hput : buffer.put index value = some next) : next.Upcoming := by
  have hahead : ¬ index < buffer.next := by
    intro hlt
    rw [put_eq_none_iff.mpr (.inl hlt)] at hput
    cases hput
  obtain rfl := eq_of_put_eq_some hput
  intro p hp
  rcases List.mem_append.mp hp with hp | hp
  · exact h p hp
  · obtain rfl := List.mem_singleton.mp hp
    exact ⟨hinteger, hahead⟩

/-- What goes on waiting is behind all that is taken. -/
theorem Drained.upcoming {buffer rest : ReorderBuffer Binary64 β} {ready : List (Binary64 × β)}
    (h : Drained buffer ready rest) (hupcoming : buffer.Upcoming) (hnext : buffer.next = finite a)
    (hexact : ∀ p ∈ ready, CountsOn p.1) : rest.Upcoming := by
  have hcounts : ∀ i ∈ ready.map Prod.fst, CountsOn i := by simpa using hexact
  rw [h.indexes, hnext] at hcounts
  obtain ⟨hrest, hindexes⟩ := iterate_add_one _ a hcounts
  intro p hp
  rw [h.kept, List.mem_filter, decide_eq_true_eq, h.indexes, hnext, hindexes] at hp
  obtain ⟨hwaits, hother⟩ := hp
  obtain ⟨hinteger, hahead⟩ := hupcoming p hwaits
  obtain ⟨b, hb⟩ := Binary64.exists_eq_finite_of_isInteger hinteger
  rw [hnext, hb, Binary64.finite_lt_finite, Rat.intCast_lt_intCast] at hahead
  rw [h.next_eq, hnext, hrest, hb, Binary64.finite_lt_finite, Rat.intCast_lt_intCast]
  refine ⟨hb ▸ hinteger, fun hlt => hother ?_⟩
  -- An integer in front of the next turn is one of those that were taken.
  refine List.mem_map.mpr ⟨(b - a).toNat, List.mem_range.mpr (by omega), ?_⟩
  rw [show a + ((b - a).toNat : Int) = b by omega, hb]

namespace History

/-- What has been delivered are the results that were accepted for the integers from `a` up to the
next turn, in this order. -/
structure InTurn (a : Int) (h : History Binary64 β) : Prop where
  next_eq : h.buffer.next = finite (a + h.delivered.length : Int)
  indexes : h.delivered.map Prod.fst =
    (List.range h.delivered.length).map fun k : Nat => finite (a + k : Int)
  mem_iff : ∀ p, p ∈ h.delivered ↔ p ∈ h.accepted ∧ p.1 < h.buffer.next

/-- What can be relied on, whatever the calls were that led to `h`. -/
structure Reliable (a : Int) (h : History Binary64 β) : Prop where
  /-- A result is refused if its turn is over or its index waits, and only then. -/
  refused_iff : ∀ index value, h.buffer.put index (some value) = none ↔
    index < h.buffer.next ∨ index ∈ h.buffer.pending.map Prod.fst
  /-- A result that is refused changes nothing. -/
  refused : ∀ index value, h.buffer.put index (some value) = none →
    h.after (.put index value) = h
  /-- The results are delivered in their turn, as long as counting is exact. -/
  inTurn : (∀ p ∈ h.delivered, CountsOn p.1) → h.InTurn a
  /-- Each result that was accepted is delivered or waits: one or the other, and once. -/
  account : (h.accepted.map waiting).Perm (h.delivered.map waiting ++ h.buffer.pending)
  /-- After all is taken whose turn has come, the result whose turn is next does not wait. -/
  stuck : (h.after .takeReady).buffer.next ∉
    (h.after .takeReady).buffer.pending.map Prod.fst
  size_eq : h.buffer.size + h.delivered.length = h.accepted.length

variable {calls : List (Call Binary64 β)}

/-- Below `2 ^ 53` the indexes delivered are consecutive integers. -/
theorem Account.iterate_eq {h : History Binary64 β} (account : h.Account (finite a))
    (hexact : ∀ p ∈ h.delivered, CountsOn p.1) :
    h.buffer.next = finite (a + h.delivered.length : Int) ∧
      h.delivered.map Prod.fst =
        (List.range h.delivered.length).map fun k : Nat => finite (a + k : Int) := by
  rw [account.indexes, account.next_eq]
  refine iterate_add_one _ a fun i hi => ?_
  rw [← account.indexes] at hi
  obtain ⟨p, hp, rfl⟩ := List.mem_map.mp hi
  exact hexact p hp

/-- The turn of a result that waits is still to come. -/
theorem upcoming_run (hcalls : ∀ call ∈ calls, call.isInteger = true)
    (hexact : ∀ p ∈ (run (finite a) calls).delivered, CountsOn p.1) :
    (run (finite a) calls).buffer.Upcoming := by
  -- From the last call: what is delivered before it is delivered in the end.
  induction calls using List.reverseRecOn with
  | nil => exact List.forall_mem_nil _
  | append_singleton calls call ih =>
    have haccount := account_run (β := β) (finite a) calls
    have hbefore := ih fun call hcall => hcalls call (List.mem_append_left _ hcall)
    rw [run_concat] at hexact ⊢
    generalize run (finite a) calls = h at haccount hbefore hexact ⊢
    cases call with
    | put i v =>
      rw [after] at hexact ⊢
      split
      next hput => exact hbefore (by simpa only [hput] using hexact)
      next buffer hput =>
        have hinteger : i.isInteger = true := hcalls (.put i v) (by simp)
        exact upcoming_put (hbefore (by simpa only [hput] using hexact)) hinteger hput
    | takeReady =>
      have hdelivered : ∀ p ∈ h.delivered, CountsOn p.1 := fun p hp =>
        hexact p (List.mem_append_left _ hp)
      exact haccount.drained.upcoming (hbefore hdelivered)
        (haccount.iterate_eq hdelivered).1 fun p hp => hexact p (List.mem_append_right _ hp)

/-- The results delivered are those that were accepted and whose turn is over. -/
theorem inTurn_run (hcalls : ∀ call ∈ calls, call.isInteger = true)
    (hexact : ∀ p ∈ (run (finite a) calls).delivered, CountsOn p.1) :
    (run (finite a) calls).InTurn a := by
  have haccount := account_run (finite a) calls
  have hupcoming := upcoming_run hcalls hexact
  generalize run (finite a) calls = h at haccount hupcoming hexact ⊢
  obtain ⟨hnext, hindexes⟩ := haccount.iterate_eq hexact
  refine ⟨hnext, hindexes, fun p => ?_⟩
  have hmem : p ∈ h.accepted ↔ p ∈ h.delivered ∨ waiting p ∈ h.buffer.pending := by
    rw [← List.mem_map_of_injective waiting_injective, haccount.account.mem_iff, List.mem_append,
      List.mem_map_of_injective waiting_injective]
  rw [hmem]
  -- The indexes delivered are in front of the next turn, those that wait are not.
  constructor
  · intro hp
    have hindex : p.1 ∈ h.delivered.map Prod.fst := List.mem_map_of_mem hp
    rw [hindexes] at hindex
    obtain ⟨k, hk, heq⟩ := List.mem_map.mp hindex
    refine ⟨.inl hp, ?_⟩
    rw [← heq, hnext, Binary64.finite_lt_finite, Rat.intCast_lt_intCast]
    have := List.mem_range.mp hk
    omega
  · rintro ⟨hp | hp, hlt⟩
    · exact hp
    · exact absurd hlt (hupcoming _ hp).2

/-- Each result is delivered once and in its turn: this can be relied on after any calls. -/
theorem reliable_run (a : Int) (calls : List (Call Binary64 β))
    (hcalls : ∀ call ∈ calls, call.isInteger = true) :
    (run (finite a) calls).Reliable a := by
  have haccount := account_run (finite a) calls
  exact
    { refused_iff := fun _ _ => put_eq_none_iff
      refused := fun index value hput => by rw [after, hput]
      inTurn := inTurn_run hcalls
      account := haccount.account
      stuck := by
        rw [← has_iff, Bool.not_eq_true]
        exact haccount.drained.stuck
      size_eq := by
        have hlength := haccount.account.length_eq
        rw [List.length_append, List.length_map, List.length_map] at hlength
        rw [size, hlength, Nat.add_comm] }

/-- The second result comes before the first one, and one comes late and is refused. -/
def lateCalls : List (Call Binary64 Char) :=
  [.put 0 'b', .takeReady, .put (-1) 'a', .put 2 'd', .takeReady, .put 0 'x', .put 1 'c',
    .takeReady]

theorem reliable_run_lateCalls :
    (∀ call ∈ lateCalls, call.isInteger = true) ∧
      (run (finite (-1 : Int)) lateCalls).delivered = [(-1, 'a'), (0, 'b'), (1, 'c'), (2, 'd')] ∧
      (run (finite (-1 : Int)) lateCalls).Reliable (-1) ∧
      (run (finite (-1 : Int)) lateCalls).InTurn (-1) := by
  have hcalls : ∀ call ∈ lateCalls, call.isInteger = true := by decide +kernel
  have hreliable := reliable_run (-1) lateCalls hcalls
  exact ⟨hcalls, by decide +kernel, hreliable, hreliable.inTurn (by decide +kernel)⟩

/-- The index `2 ^ 53` is delivered, and arrives again. -/
def stallingCalls : List (Call Binary64 Char) :=
  [.put (.ofNat exactBound) 'a', .takeReady, .put (.ofNat exactBound) 'b', .takeReady]

/-- At `2 ^ 53` the turn stays, and an index is delivered twice. -/
theorem not_inTurn_stallingCalls :
    (∀ call ∈ stallingCalls, call.isInteger = true) ∧
      (run (finite (exactBound : Int)) stallingCalls).delivered =
        [(.ofNat exactBound, 'a'), (.ofNat exactBound, 'b')] ∧
      ¬ (run (finite (exactBound : Int)) stallingCalls).InTurn exactBound := by
  have hdelivered : (run (finite (exactBound : Int)) stallingCalls).delivered =
      [(.ofNat exactBound, 'a'), (.ofNat exactBound, 'b')] := by
    decide +kernel
  refine ⟨by decide +kernel, hdelivered, fun h => ?_⟩
  -- Two results were delivered, but the turn is that of the first one.
  have hnext := h.next_eq
  rw [hdelivered] at hnext
  revert hnext
  decide +kernel

end History

end Integers

end Flipbook.ReorderBuffer
