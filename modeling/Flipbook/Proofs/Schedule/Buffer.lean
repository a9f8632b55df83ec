import Mathlib.Data.List.Basic
import Mathlib.Data.List.Iterate
import Mathlib.Data.Nat.SuccPred
import Flipbook.Schedule.ReorderBuffer

/-!
# Taking results in their turn

What comes out of a reorder buffer. The indexes of the results that are taken are met by counting
on, and those that are kept have other ones. If the indexes are natural numbers, every result is a
value and its turn is still to come, then the results that are taken are those of consecutive
indexes, and the buffer keeps exactly the later ones.

## Main definitions

* `Drained`: what is taken from a buffer, and what it keeps, whatever the indexes are.
* `Taken`: the same for natural numbers.

## Main results

* `takeReady_drained`, `takeReady_taken`: the results taken, the results kept, and the next turn;
* `put_eq_none_iff`, `put_isSome_iff`: a result is refused only if its turn is over or its index
  waits already.
-/

namespace Flipbook.ReorderBuffer

variable {β : Type}

section Index

variable {ι : Type} [DecidableEq ι] {buffer next : ReorderBuffer ι β} {index : ι}
  {value : Option β}

theorem has_iff : buffer.has index = true ↔ index ∈ buffer.pending.map Prod.fst := by
  simp [has]

/-- Removing an index that waits leaves fewer results. -/
theorem length_remove_lt {p : ι × Option β} (h : p ∈ buffer.pending) :
    (buffer.remove p.1).length < buffer.pending.length := by
  rw [remove, List.length_filter_lt_length_iff_exists]
  exact ⟨p, h, by simp⟩

section Put

variable [LT ι] [DecidableLT ι]

/-- A result is refused if its turn is over or its index waits already. -/
theorem put_eq_none_iff : buffer.put index value = none ↔
    index < buffer.next ∨ index ∈ buffer.pending.map Prod.fst := by
  rw [← has_iff, put]
  split
  next hrefused => exact iff_of_true rfl hrefused
  next haccepted => exact iff_of_false nofun haccepted

/-- A result that is accepted waits behind the others. -/
theorem eq_of_put_eq_some (h : buffer.put index value = some next) :
    next = { buffer with pending := buffer.pending ++ [(index, value)] } := by
  unfold put at h
  split at h
  · cases h
  · exact (Option.some.inj h).symm

end Put

variable [Add ι] [OfNat ι 1]

/-- `ready` is the run of results whose turn has come in `buffer`, and `rest` is what they leave. -/
structure Drained (buffer : ReorderBuffer ι β) (ready : List (ι × β)) (rest : ReorderBuffer ι β) :
    Prop where
  /-- The indexes are met by counting on from the one whose turn it was. -/
  indexes : ready.map Prod.fst = List.iterate (· + 1) buffer.next ready.length
  /-- No index is taken twice. -/
  nodup : (ready.map Prod.fst).Nodup
  next_eq : rest.next = (· + 1)^[ready.length] buffer.next
  /-- The results are those that were put into the buffer. -/
  values : ∀ p ∈ ready, (p.1, some p.2) ∈ buffer.pending
  /-- Exactly the results with other indexes stay. -/
  kept : rest.pending = buffer.pending.filter fun p => decide (p.1 ∉ ready.map Prod.fst)
  /-- The result whose turn is next has not arrived. -/
  stuck : rest.has rest.next = false

/-- With enough fuel, the whole run of results is taken whose turn has come. -/
theorem takeUpTo_drained (fuel : Nat) (buffer : ReorderBuffer ι β) (hsize : buffer.size ≤ fuel)
    (hvalues : ∀ p ∈ buffer.pending, p.2.isSome) :
    Drained buffer (takeUpTo fuel buffer).1 (takeUpTo fuel buffer).2 := by
  -- Each result that is taken leaves fewer of them, so that the fuel lasts.
  induction fuel generalizing buffer with
  | zero =>
    have hnil : buffer.pending = [] := List.length_eq_zero_iff.mp (Nat.le_zero.mp hsize)
    exact
      { indexes := rfl
        nodup := List.nodup_nil
        next_eq := rfl
        values := List.forall_mem_nil _
        kept := by simp [takeUpTo, hnil]
        stuck := by simp [takeUpTo, has, hnil] }
  | succ fuel ih =>
    unfold takeUpTo
    split
    next hnone =>
      exact
        { indexes := rfl
          nodup := List.nodup_nil
          next_eq := rfl
          values := List.forall_mem_nil _
          kept := by simp
          stuck := by simpa [has, List.find?_eq_none] using hnone }
    next index value hsome =>
      have hmem := List.mem_of_find?_eq_some hsome
      obtain rfl : index = buffer.next := by simpa using List.find?_some hsome
      obtain ⟨v, rfl⟩ := Option.isSome_iff_exists.mp (hvalues _ hmem)
      have hlt : (buffer.remove buffer.next).length < buffer.size := length_remove_lt hmem
      have hrest := ih ⟨buffer.next + 1, buffer.remove buffer.next⟩
        (Nat.le_of_lt_succ (Nat.lt_of_lt_of_le hlt hsize))
        fun p hp => hvalues p (List.mem_of_mem_filter hp)
      -- What is taken next has other indexes, since this one has been removed.
      have hother : ∀ p ∈ (takeUpTo fuel ⟨buffer.next + 1, buffer.remove buffer.next⟩).1,
          p.1 ≠ buffer.next := fun p hp =>
        of_decide_eq_true (List.mem_filter.mp (hrest.values p hp)).2
      exact
        { indexes := congrArg (buffer.next :: ·) hrest.indexes
          nodup := List.nodup_cons.mpr ⟨by simpa using fun v hv => hother _ hv rfl, hrest.nodup⟩
          next_eq := hrest.next_eq
          values := List.forall_mem_cons.mpr
            ⟨hmem, fun p hp => List.mem_of_mem_filter (hrest.values p hp)⟩
          kept := by
            rw [hrest.kept, remove, List.filter_filter]
            refine List.filter_congr fun p _ => ?_
            rw [← Bool.decide_and]
            exact decide_eq_decide.mpr (by simp [and_comm])
          stuck := hrest.stuck }

/-- The whole run of results is taken whose turn has come. -/
theorem takeReady_drained (hvalues : ∀ p ∈ buffer.pending, p.2.isSome) :
    Drained buffer buffer.takeReady.1 buffer.takeReady.2 :=
  takeUpTo_drained buffer.size buffer (Nat.le_refl _) hvalues

end Index

/-- Every result that waits is a value, and its turn is still to come. -/
def Ahead (buffer : ReorderBuffer Nat β) : Prop :=
  ∀ p ∈ buffer.pending, buffer.next ≤ p.1 ∧ p.2.isSome

/-- `ready` are the results whose turn has come in `buffer`, and `rest` is what they leave. -/
structure Taken (buffer : ReorderBuffer Nat β) (ready : List (Nat × β))
    (rest : ReorderBuffer Nat β) : Prop where
  /-- Turns only go forward. -/
  next_le : buffer.next ≤ rest.next
  /-- The results have consecutive indexes, from the turn of `buffer` up to that of `rest`. -/
  indexes : ready.map Prod.fst = List.range' buffer.next (rest.next - buffer.next)
  /-- The results are those that were put into the buffer. -/
  values : ∀ p ∈ ready, (p.1, some p.2) ∈ buffer.pending
  /-- Exactly the results with a later turn stay. -/
  kept : rest.pending = buffer.pending.filter fun p => decide (rest.next ≤ p.1)
  /-- The result whose turn is next has not arrived. -/
  stuck : rest.has rest.next = false

/-- Counting on from a natural number. -/
theorem iterate_eq_range' (n k : Nat) : List.iterate (· + 1) n k = List.range' n k := by
  induction k generalizing n with
  | zero => rfl
  | succ k ih => rw [List.iterate, List.range'_succ, ih]

/-- Exactly the run of results whose turn has come is taken. -/
theorem takeReady_taken {buffer : ReorderBuffer Nat β} (h : buffer.Ahead) :
    Taken buffer buffer.takeReady.1 buffer.takeReady.2 := by
  have hdrained := takeReady_drained fun p hp => (h p hp).2
  generalize buffer.takeReady = taken at hdrained ⊢
  have hnext : taken.2.next = buffer.next + taken.1.length :=
    hdrained.next_eq.trans (Nat.succ_iterate _ _)
  have hindexes := hdrained.indexes
  rw [iterate_eq_range'] at hindexes
  exact
    { next_le := by omega
      indexes := by rw [hindexes, hnext, Nat.add_sub_cancel_left]
      values := hdrained.values
      kept := by
        rw [hdrained.kept]
        refine List.filter_congr fun p hp => decide_eq_decide.mpr ?_
        have hle := (h p hp).1
        rw [hindexes, List.mem_range'_1, hnext]
        omega
      stuck := hdrained.stuck }

/-- If no result was taken, the turn stays. -/
theorem Taken.next_eq {buffer rest : ReorderBuffer Nat β} (h : Taken buffer [] rest) :
    rest.next = buffer.next := by
  have hindexes := congrArg List.length h.indexes
  have hle := h.next_le
  simp only [List.map_nil, List.length_nil, List.length_range'] at hindexes
  omega

/-- The first result that was taken is the one whose turn it was. -/
theorem Taken.of_cons {buffer rest : ReorderBuffer Nat β} {index : Nat} {value : β}
    {ready : List (Nat × β)} (h : Taken buffer ((index, value) :: ready) rest) :
    index = buffer.next ∧ buffer.next + 1 ≤ rest.next ∧
      ready.map Prod.fst = List.range' (buffer.next + 1) (rest.next - (buffer.next + 1)) := by
  have hlength := congrArg List.length h.indexes
  simp only [List.map_cons, List.length_cons, List.length_range'] at hlength
  have hcount : rest.next - buffer.next = rest.next - (buffer.next + 1) + 1 := by omega
  have hindexes := h.indexes
  rw [hcount, List.range'_succ, List.map_cons, List.cons.injEq] at hindexes
  exact ⟨hindexes.1, by omega, hindexes.2⟩

/-- A result is accepted unless its turn is over or its index waits already. -/
theorem put_isSome_iff {buffer : ReorderBuffer Nat β} {index : Nat} {value : Option β} :
    (buffer.put index value).isSome ↔
      buffer.next ≤ index ∧ index ∉ buffer.pending.map Prod.fst := by
  rw [Option.isSome_iff_ne_none, Ne, put_eq_none_iff, not_or, Nat.not_lt]

end Flipbook.ReorderBuffer
