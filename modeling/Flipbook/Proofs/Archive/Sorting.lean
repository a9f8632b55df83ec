import Mathlib.Data.List.Nodup
import Mathlib.Data.List.Perm.Subperm
import Flipbook.Archive.Pack
import Flipbook.Proofs.Number.Natural

/-!
# Sorting numbered files

Sorting by number rearranges the files, whatever their numbers are. Files with different numbers
have only one order, to which sorting brings any arrangement of them. Nothing is wrong with this
order just if the numbers count up by one and no file is empty.

## Main definitions

* `Consecutive`: files whose numbers count up by one.
* `SequenceFile.Indexed`: a file whose number is a natural number below `2 ^ 53`.
* `numbered`: files that count from a natural number.

## Main results

* `sortByNumber_perm`: sorting loses and invents no file;
* `sortByNumber_eq_of_perm`: sorting finds the only order;
* `sequenceFault_eq_none_iff`: what can be packed;
* `exists_consecutive`: files without gaps count up in some order;
* `sortByNumber_of_perm`, `sequenceFault_of_perm`: both for files that count from a natural number.
-/

namespace Flipbook

section Bisection

variable {β : Type} {before related : β → β → Bool}

/-- Splitting off a chain keeps the list. -/
theorem splitChain_append (xs : List β) :
    (splitChain related xs).1 ++ (splitChain related xs).2 = xs := by
  fun_induction splitChain related xs with
  | case1 a b rest _ chain others heq ih =>
    rw [heq] at ih
    exact congrArg (a :: ·) ih
  | case2 => rfl
  | case3 => simp

/-- The sorted start and the rest make up the list. -/
theorem sortedStart_perm (xs : List β) :
    ((sortedStart before xs).1 ++ (sortedStart before xs).2).Perm xs := by
  unfold sortedStart
  split
  next a b rest =>
    split
    · dsimp only
      refine (List.Perm.append_right _ (List.reverse_perm _)).trans (List.Perm.of_eq ?_)
      exact splitChain_append (a :: b :: rest)
    · exact List.Perm.of_eq (splitChain_append (a :: b :: rest))
  next => rw [List.append_nil]

/-- Inserting an item adds just this item. -/
theorem insertSorted_perm (sorted : List β) (item : β) :
    (insertSorted before sorted item).Perm (item :: sorted) := by
  rw [insertSorted]
  refine List.perm_middle.trans (List.Perm.cons item ?_)
  rw [List.take_append_drop]

/-- Sorting by bisection rearranges the list. -/
theorem bisectionSort_perm (xs : List β) : (bisectionSort before xs).Perm xs := by
  have hfold : ∀ (rest start : List β),
      (rest.foldl (insertSorted before) start).Perm (start ++ rest) := by
    intro rest
    induction rest with
    | nil => intro start; rw [List.foldl_nil, List.append_nil]
    | cons item rest ih =>
      intro start
      rw [List.foldl_cons]
      refine (ih _).trans ?_
      refine ((insertSorted_perm start item).append_right rest).trans ?_
      exact List.perm_middle.symm
  rw [bisectionSort]
  exact (hfold _ _).trans (sortedStart_perm xs)

end Bisection

/-- Sorting by number rearranges the files. -/
theorem sortByNumber_perm (files : List SequenceFile) : (sortByNumber files).Perm files := by
  rw [sortByNumber]
  split
  · exact bisectionSort_perm files
  · exact List.mergeSort_perm files _

/-- The exact value of the number of a file; 0 if it has none. -/
def SequenceFile.value (f : SequenceFile) : Rat :=
  match f.number with
  | .finite q => q
  | _ => 0

section Order

variable {files ordered : List SequenceFile}

theorem pairwise_sortByNumber (h : ∀ f ∈ files, f.number = .finite f.value) :
    (sortByNumber files).Pairwise fun a b => a.value ≤ b.value := by
  have hnan : ¬ (files.any fun f => f.number = .nan) = true := by
    rw [List.any_eq_true]
    rintro ⟨f, hf, hfnan⟩
    rw [decide_eq_true_eq, h f hf] at hfnan
    cases hfnan
  have hcompare : ∀ a ∈ files, ∀ b ∈ files,
      (!b.number.lt a.number) = decide (a.value ≤ b.value) := by
    intro a ha b hb
    rw [h a ha, h b hb, Binary64.lt, ← decide_not, decide_eq_decide, Rat.not_lt]
  rw [sortByNumber, if_neg hnan]
  -- The comparison orders finite numbers only, so the values are sorted in place of the files.
  refine List.pairwise_map.mp ?_
  rw [List.map_mergeSort (s := fun p q : Rat => decide (p ≤ q)) hcompare]
  refine (List.pairwise_mergeSort ?_ ?_ _).imp of_decide_eq_true
  · simp only [decide_eq_true_eq]
    exact fun _ _ _ => Rat.le_trans
  · intro p q
    rw [← Bool.decide_or]
    exact decide_eq_true Rat.le_total

/-- Sorting brings any arrangement of files with different numbers into their order. -/
theorem sortByNumber_eq_of_perm (h : ∀ f ∈ ordered, f.number = .finite f.value)
    (hordered : ordered.Pairwise fun a b => a.value < b.value) (hperm : files.Perm ordered) :
    sortByNumber files = ordered := by
  have hsorted : (sortByNumber files).Perm ordered := (sortByNumber_perm files).trans hperm
  -- Files that are in order both ways round have the same number, and so are the same.
  refine hsorted.eq_of_pairwise ?_
    (pairwise_sortByNumber fun f hf => h f (hperm.mem_iff.mp hf)) (hordered.imp Rat.le_of_lt)
  intro a b ha hb hab hba
  have hnodup : (ordered.map SequenceFile.value).Nodup :=
    List.pairwise_map.mpr (hordered.imp Rat.ne_of_lt)
  exact List.inj_on_of_nodup_map hnodup (hsorted.mem_iff.mp ha) hb (Rat.le_antisymm hab hba)

end Order

/-- The number of a file is an integer of at most 53 bits. -/
def SequenceFile.Counted (f : SequenceFile) : Prop :=
  ∃ n : Int, f.number = .ofInt n ∧ n.natAbs < Binary64.exactBound

/-- Files whose numbers count up by one. -/
def Consecutive (files : List SequenceFile) : Prop :=
  files.IsChain fun a b => b.value = a.value + 1

section Counting

variable {f previous : SequenceFile} {files : List SequenceFile}

theorem SequenceFile.Counted.exists_value (h : f.Counted) :
    ∃ n : Int, f.value = n ∧ f.number = .finite f.value ∧ n.natAbs < Binary64.exactBound := by
  obtain ⟨n, hn, hlt⟩ := h
  have hround : Binary64.ofInt n = .finite n := Binary64.round_intCast (Nat.le_of_lt hlt)
  rw [hround] at hn
  have hvalue : f.value = n := by rw [value, hn]
  exact ⟨n, hvalue, by rw [hn, hvalue], hlt⟩

theorem SequenceFile.Counted.number_eq (h : f.Counted) : f.number = .finite f.value := by
  obtain ⟨n, -, hnumber, -⟩ := h.exists_value
  exact hnumber

theorem Consecutive.pairwise (h : Consecutive files) :
    files.Pairwise fun a b => a.value < b.value := by
  have htrans : Trans (fun a b : SequenceFile => a.value < b.value)
      (fun a b : SequenceFile => a.value < b.value) fun a b => a.value < b.value :=
    ⟨fun hab hbc => by grind⟩
  refine (List.IsChain.imp (fun a b hab => ?_) h).pairwise
  grind

/-- Sorting finds the consecutive order if there is one. -/
theorem sortByNumber_of_consecutive {ordered : List SequenceFile}
    (hnumbers : ∀ f ∈ files, f.Counted) (hperm : files.Perm ordered)
    (hordered : Consecutive ordered) : sortByNumber files = ordered := by
  refine sortByNumber_eq_of_perm (fun f hf => ?_) hordered.pairwise hperm
  exact (hnumbers f (hperm.mem_iff.mpr hf)).number_eq

/-- Nothing is wrong with a file that is not empty and whose number is the next one. -/
theorem fileFault_eq_none_iff (hprevious : previous.Counted) (hf : f.Counted) :
    fileFault (some previous.number) f = none ↔
      f.value = previous.value + 1 ∧ f.file.data ≠ [] := by
  obtain ⟨m, hm, hmnumber, hmlt⟩ := hprevious.exists_value
  have hnext : previous.number + 1 = .finite (previous.value + 1) := by
    have hone : (1 : Binary64) = .finite (1 : Int) := Binary64.ofNat_eq_finite (by decide)
    rw [hmnumber, hm, hone]
    show Binary64.round (m + (1 : Int)) = .finite (m + (1 : Int))
    rw [← Rat.intCast_add, Binary64.round_intCast (by omega)]
  -- A file with the next number does not repeat one, so only the gap is left to be compared.
  have hrepeated : previous.value + 1 ≠ previous.value := by grind
  rw [fileFault, hnext, hmnumber, hf.number_eq]
  simp only [Binary64.same, Binary64.finite.injEq, decide_eq_true_eq, List.isEmpty_iff]
  grind

/-- What can be packed behind a file. -/
theorem sequenceFault_some_eq_none_iff (hprevious : previous.Counted)
    (h : ∀ f ∈ files, f.Counted) :
    sequenceFault (some previous.number) files = none ↔
      (∀ f ∈ files, f.file.data ≠ []) ∧ Consecutive (previous :: files) := by
  induction files generalizing previous with
  | nil => simp [sequenceFault, Consecutive]
  | cons f files ih =>
    obtain ⟨hf, hfiles⟩ := List.forall_mem_cons.mp h
    rw [sequenceFault, Option.or_eq_none_iff, fileFault_eq_none_iff hprevious hf, ih hf hfiles,
      List.forall_mem_cons, Consecutive, Consecutive, List.isChain_cons_cons]
    tauto

/-- Nothing is wrong with files whose numbers count up by one, if none of them is empty. -/
theorem sequenceFault_eq_none_iff (h : ∀ f ∈ files, f.Counted) :
    sequenceFault none files = none ↔ (∀ f ∈ files, f.file.data ≠ []) ∧ Consecutive files := by
  cases files with
  | nil => simp [sequenceFault, Consecutive]
  | cons f files =>
    obtain ⟨hf, hfiles⟩ := List.forall_mem_cons.mp h
    have hfile : fileFault none f = none ↔ f.file.data ≠ [] := by simp [fileFault]
    rw [sequenceFault, Option.or_eq_none_iff, hfile, sequenceFault_some_eq_none_iff hf hfiles,
      List.forall_mem_cons, and_assoc]

end Counting

/-- The number of a file is a natural number below `2 ^ 53`. -/
def SequenceFile.Indexed (f : SequenceFile) : Prop :=
  ∃ n < Binary64.exactBound, f.number = .ofNat n

section Indexed

variable {files ordered : List SequenceFile} {f : SequenceFile}

theorem SequenceFile.Indexed.counted (h : f.Indexed) : f.Counted := by
  obtain ⟨n, hn, hnumber⟩ := h
  exact ⟨n, hnumber, hn⟩

theorem SequenceFile.Indexed.exists_value (h : f.Indexed) :
    ∃ n < Binary64.exactBound, f.number = .ofNat n ∧ f.value = n := by
  obtain ⟨n, hn, hnumber⟩ := h
  refine ⟨n, hn, hnumber, ?_⟩
  rw [SequenceFile.value, hnumber, Binary64.ofNat_eq_finite (Nat.le_of_lt hn)]

theorem SequenceFile.value_eq_iff {n : Nat} (hn : n < Binary64.exactBound) (h : f.Indexed) :
    f.value = n ↔ f.number = .ofNat n := by
  obtain ⟨m, hm, hnumber, hvalue⟩ := h.exists_value
  rw [hnumber, hvalue, Rat.natCast_inj, Binary64.ofNat_inj (by omega) (by omega)]

/-- The first two of some files in ascending order have numbers next to each other, if no number
between them is left out. -/
theorem value_eq_add_one_of_dense {a b : SequenceFile} {rest : List SequenceFile} (ha : a.Indexed)
    (hb : b.Indexed) (hordered : (a :: b :: rest).Pairwise fun a b => a.value < b.value)
    (hdense : ∀ k : Nat, a.value < k → k < b.value → ∃ c ∈ a :: b :: rest, c.value = k) :
    b.value = a.value + 1 := by
  rw [List.pairwise_cons, List.pairwise_cons, List.forall_mem_cons] at hordered
  obtain ⟨⟨hab, -⟩, hrest, -⟩ := hordered
  obtain ⟨m, -, -, hm⟩ := ha.exists_value
  obtain ⟨n, -, -, hn⟩ := hb.exists_value
  rw [hm, hn] at hdense
  rw [hm, hn, Rat.natCast_lt_natCast] at hab
  have hnext : n = m + 1 := by
    by_contra hgap
    -- A file with the next number would have to stand between the two.
    obtain ⟨c, hc, hcvalue⟩ := hdense (m + 1) (Rat.natCast_lt_natCast.mpr (by omega))
      (Rat.natCast_lt_natCast.mpr (by omega))
    rw [List.mem_cons, List.mem_cons] at hc
    rcases hc with rfl | rfl | hc
    · rw [hm, Rat.natCast_inj] at hcvalue
      omega
    · rw [hn, Rat.natCast_inj] at hcvalue
      omega
    · have hbc := hrest c hc
      rw [hn, hcvalue, Rat.natCast_lt_natCast] at hbc
      omega
  rw [hm, hn, hnext]
  exact Rat.natCast_add m 1

/-- Files in ascending order count up if no number between two of them is left out. -/
theorem consecutive_of_dense (hindexed : ∀ f ∈ ordered, f.Indexed)
    (hordered : ordered.Pairwise fun a b => a.value < b.value)
    (hdense : ∀ a ∈ ordered, ∀ b ∈ ordered, ∀ k : Nat, a.value < k → k < b.value →
      ∃ c ∈ ordered, c.value = k) : Consecutive ordered := by
  induction ordered with
  | nil => exact .nil
  | cons a rest ih =>
    obtain ⟨ha, hrest⟩ := List.forall_mem_cons.mp hindexed
    obtain ⟨hlt, hordered'⟩ := List.pairwise_cons.mp hordered
    have hconsecutive : Consecutive rest := by
      refine ih hrest hordered' fun b hb c hc k hbk hkc => ?_
      obtain ⟨d, hd, hdk⟩ := hdense b (.tail a hb) c (.tail a hc) k hbk hkc
      rcases List.mem_cons.mp hd with rfl | hd
      · -- The first file is in front of all between which there may be a gap.
        have hdb := hlt b hb
        grind
      · exact ⟨d, hd, hdk⟩
    cases rest with
    | nil => exact .singleton a
    | cons b rest =>
      have hb : b ∈ a :: b :: rest := .tail a List.mem_cons_self
      refine .cons_cons (value_eq_add_one_of_dense ha (hindexed b hb) hordered ?_) hconsecutive
      exact hdense a List.mem_cons_self b hb

/-- Files that count up have different numbers. -/
theorem nodup_number_of_consecutive (hperm : ordered.Perm files)
    (hconsecutive : Consecutive ordered) : (files.map SequenceFile.number).Nodup := by
  rw [← (hperm.map SequenceFile.number).nodup_iff, List.Nodup, List.pairwise_map]
  refine hconsecutive.pairwise.imp ?_
  intro a b hab heq
  rw [SequenceFile.value, SequenceFile.value, heq] at hab
  exact Rat.lt_irrefl hab

/-- Files with different numbers count up in some order if no number between two of them is left
out. -/
theorem exists_consecutive (hindexed : ∀ f ∈ files, f.Indexed)
    (hnodup : (files.map SequenceFile.number).Nodup)
    (hdense : ∀ a ∈ files, ∀ b ∈ files, ∀ k : Nat, a.value < k → k < b.value →
      ∃ c ∈ files, c.value = k) : ∃ ordered, ordered.Perm files ∧ Consecutive ordered := by
  have hperm := sortByNumber_perm files
  have hfinite : ∀ f ∈ files, f.number = .finite f.value :=
    fun f hf => (hindexed f hf).counted.number_eq
  have hdistinct : (sortByNumber files).Pairwise fun a b => a.number ≠ b.number :=
    List.pairwise_map.mp ((hperm.map SequenceFile.number).nodup_iff.mpr hnodup)
  refine ⟨sortByNumber files, hperm, consecutive_of_dense ?_ ?_ ?_⟩
  · exact fun f hf => hindexed f (hperm.mem_iff.mp hf)
  · refine ((pairwise_sortByNumber hfinite).and hdistinct).imp_of_mem ?_
    rintro a b ha hb ⟨hle, hne⟩
    refine Rat.lt_of_le_of_ne hle fun heq => hne ?_
    rw [hfinite a (hperm.mem_iff.mp ha), hfinite b (hperm.mem_iff.mp hb), heq]
  · simpa only [hperm.mem_iff] using hdense

/-- There are no more files with different numbers than there are numbers. -/
theorem length_le_exactBound (hindexed : ∀ f ∈ files, f.Indexed)
    (hnodup : (files.map SequenceFile.number).Nodup) : files.length ≤ Binary64.exactBound := by
  have hsub : files.map SequenceFile.number ⊆ (List.range Binary64.exactBound).map .ofNat := by
    intro a ha
    obtain ⟨f, hf, rfl⟩ := List.mem_map.mp ha
    obtain ⟨n, hn, hnumber⟩ := hindexed f hf
    rw [hnumber]
    exact List.mem_map_of_mem (List.mem_range.mpr hn)
  have hle := (List.subperm_of_subset hnodup hsub).length_le
  rwa [List.length_map, List.length_map, List.length_range] at hle

end Indexed

/-- Files with consecutive numbers. -/
def numbered (first : Nat) (files : List FrameFile) : List SequenceFile :=
  (files.zipIdx first).map fun p => ⟨.ofNat p.2, p.1⟩

section Numbered

variable {first : Nat} {files : List FrameFile}

/-- The first of consecutive files, and the others. -/
theorem numbered_cons (first : Nat) (file : FrameFile) (files : List FrameFile) :
    numbered first (file :: files) = ⟨.ofNat first, file⟩ :: numbered (first + 1) files :=
  rfl

/-- Each file of consecutive ones has a number that counts from the first. -/
theorem numbered_eq (first : Nat) (files : List FrameFile) :
    numbered first files = files.zipIdx.map fun p => ⟨.ofNat (first + p.2), p.1⟩ := by
  rw [numbered, List.zipIdx_eq_map_add (i := first), List.map_map]
  rfl

/-- The number of consecutive files. -/
@[simp]
theorem length_numbered (first : Nat) (files : List FrameFile) :
    (numbered first files).length = files.length := by
  rw [numbered, List.length_map, List.length_zipIdx]

/-- The files without their numbers. -/
theorem map_file_numbered (first : Nat) (files : List FrameFile) :
    (numbered first files).map SequenceFile.file = files := by
  induction files generalizing first with
  | nil => rfl
  | cons file files ih => rw [numbered_cons, List.map_cons, ih]

/-- The numbers without their files. -/
theorem map_number_numbered (first : Nat) (files : List FrameFile) :
    (numbered first files).map SequenceFile.number =
      (List.range' first files.length).map .ofNat := by
  rw [numbered, List.map_map, ← List.zipIdx_map_snd, List.map_map]
  rfl

/-- The numbers count from the first one. -/
theorem exists_of_mem_numbered {f : SequenceFile} (hf : f ∈ numbered first files) :
    ∃ n, f.number = .ofNat n ∧ first ≤ n ∧ n < first + files.length := by
  induction files generalizing first with
  | nil => cases hf
  | cons file files ih =>
    rw [numbered_cons, List.mem_cons] at hf
    rw [List.length_cons]
    rcases hf with rfl | hf
    · exact ⟨first, rfl, Nat.le_refl _, by omega⟩
    · obtain ⟨n, hn, hle, hlt⟩ := ih hf
      exact ⟨n, hn, by omega, by omega⟩

theorem counted_of_mem_numbered {f : SequenceFile} (h : first + files.length ≤ Binary64.exactBound)
    (hf : f ∈ numbered first files) : f.Counted := by
  obtain ⟨n, hn, -, hlt⟩ := exists_of_mem_numbered hf
  exact ⟨n, hn, by omega⟩

theorem value_ofNat {n : Nat} (h : n ≤ Binary64.exactBound) (file : FrameFile) :
    SequenceFile.value ⟨.ofNat n, file⟩ = n := by
  rw [SequenceFile.value, Binary64.ofNat_eq_finite h]

/-- Files that count from a natural number are consecutive. -/
theorem consecutive_numbered (h : first + files.length ≤ Binary64.exactBound) :
    Consecutive (numbered first files) := by
  induction files generalizing first with
  | nil => exact .nil
  | cons file files ih =>
    rw [List.length_cons] at h
    have hrest : Consecutive (numbered (first + 1) files) := ih (by omega)
    cases files with
    | nil => exact .singleton _
    | cons next files =>
      refine .cons_cons ?_ hrest
      rw [value_ofNat (by omega), value_ofNat (by omega), Rat.natCast_add]
      rfl

/-- Sorting brings any arrangement of consecutive files into their order. -/
theorem sortByNumber_of_perm {arranged : List SequenceFile}
    (h : first + files.length ≤ Binary64.exactBound)
    (hperm : arranged.Perm (numbered first files)) :
    sortByNumber arranged = numbered first files :=
  sortByNumber_of_consecutive (fun _ hf => counted_of_mem_numbered h (hperm.mem_iff.mp hf)) hperm
    (consecutive_numbered h)

/-- Nothing is wrong with consecutive files that are not empty. -/
theorem sequenceFault_numbered (h : first + files.length ≤ Binary64.exactBound)
    (hdata : ∀ file ∈ files, file.data ≠ []) :
    sequenceFault none (numbered first files) = none := by
  refine (sequenceFault_eq_none_iff fun f hf => counted_of_mem_numbered h hf).mpr
    ⟨?_, consecutive_numbered h⟩
  rw [← map_file_numbered first files, List.forall_mem_map] at hdata
  exact hdata

/-- Nothing is wrong with consecutive files in any arrangement. -/
theorem sequenceFault_of_perm {arranged : List SequenceFile}
    (h : first + files.length ≤ Binary64.exactBound) (hdata : ∀ file ∈ files, file.data ≠ [])
    (hperm : arranged.Perm (numbered first files)) :
    sequenceFault none (sortByNumber arranged) = none := by
  rw [sortByNumber_of_perm h hperm]
  exact sequenceFault_numbered h hdata

end Numbered

end Flipbook
