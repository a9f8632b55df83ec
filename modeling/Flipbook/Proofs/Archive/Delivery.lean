import Flipbook.Proofs.Archive.Writer

/-!
# Archive sets up to the first refusal

A set that is given files only as long as nothing fails, and is closed then, makes at most one
request that is refused, and that is its last one: an archive that was refused leaves nothing
behind for the set to hand over when it is closed. What the store accepted is therefore the start
of what packing the files makes.

## Main results

* `exists_accepted_eq_take`: if only the last request was refused, the first archives were accepted;
* `ArchiveSet.accepted_until_last`, `ArchiveSet.accepted_until_close`: no other request is refused;
* `offered_of_closed`, `exists_kept`: all archives of the files were requested, and the first ones
  were accepted;
* `exists_attempt_of_add`, `exists_attempt_of_close`: a set fails only if the store does.
-/

namespace Flipbook

theorem givenFiles_map_add {files : List FrameFile} (h : ∀ file ∈ files, file.data ≠ []) :
    givenFiles (files.map .add) = files := by
  induction files with
  | nil => rfl
  | cons file files ih =>
    obtain ⟨hfile, hrest⟩ := List.forall_mem_cons.mp h
    rw [List.map_cons, givenFiles, if_neg hfile, ih hrest]

/-- If all requests but the last one were accepted, the archives accepted are the first ones. -/
theorem exists_accepted_eq_take {attempts : List Attempt}
    (h : ∀ attempt ∈ attempts.dropLast, attempt.answer = .ok ()) :
    ∃ m, accepted attempts = (attempts.map Attempt.archive).take m ∧
      ((∀ attempt ∈ attempts, attempt.answer = .ok ()) → m = attempts.length) := by
  by_cases hall : ∀ attempt ∈ attempts, attempt.answer = .ok ()
  · refine ⟨attempts.length, ?_, fun _ => rfl⟩
    rw [accepted_eq_map hall, List.take_of_length_le (Nat.le_of_eq (List.length_map _))]
  · refine ⟨attempts.length - 1, ?_, fun hok => absurd hok hall⟩
    cases attempts using List.reverseRecOn with
    | nil => exact absurd (List.forall_mem_nil _) hall
    | append_singleton attempts attempt =>
      rw [List.dropLast_concat] at h
      -- It is the last one that was refused.
      have hrefused : accepted [attempt] = [] := by
        cases hanswer : attempt.answer with
        | error e => simp [accepted, hanswer]
        | ok done =>
          refine absurd (fun other hother => ?_) hall
          rcases List.mem_append.mp hother with hother | hother
          · exact h other hother
          · rw [List.mem_singleton.mp hother, hanswer]
      rw [accepted_append, accepted_eq_map h, hrefused, List.append_nil, List.map_append,
        List.length_append, List.length_singleton, Nat.add_sub_cancel, List.take_left']
      rw [List.length_map]

namespace ArchiveWriter

variable {writer next : ArchiveWriter} {archive : PackedArchive}

/-- A writer that makes an archive keeps nothing for the next one. -/
theorem current_of_flush (h : writer.flush = .ok (next, some archive)) : next.current = [] := by
  unfold flush at h
  split at h
  · cases h
  · obtain ⟨sealed, -, hnext⟩ := bind_eq_ok_iff.mp h
    cases hnext
    rfl

theorem current_of_take_add {file : FrameFile}
    (h : writer.take (.add file) = .ok (next, some archive)) : next.current = [] := by
  rw [take] at h
  unfold add at h
  split at h
  · cases h
  · split at h
    · cases h
    · obtain ⟨entry, -, hnext⟩ := bind_eq_ok_iff.mp h
      dsimp only at hnext
      split at hnext
      · exact current_of_flush hnext
      · cases hnext

/-- A writer that keeps nothing has nothing to hand over when it is closed. -/
theorem take_close_of_empty (h : writer.current = []) :
    ∃ next, writer.take .close = .ok (next, none) := by
  cases hclosed : writer.closed with
  | true => exact ⟨writer, by rw [take, close, if_pos hclosed]⟩
  | false =>
    refine ⟨{ writer with closed := true }, ?_⟩
    rw [take_close hclosed, flush, if_pos (by simp [h])]

end ArchiveWriter

namespace ArchiveSet

variable {σ : Type} [Zip.Codec] {store : ArchiveStore σ} {set : ArchiveSet σ}

/-- A call leads to one request at most. -/
theorem attempts_cases (store : ArchiveStore σ) (set : ArchiveSet σ) (call : SetCall) :
    set.attempts store call = [] ∨ ∃ writer archive,
      set.writer.take call = .ok (writer, some archive) ∧
        set.attempts store call = [⟨archive, (set.serve store call).2.result⟩] := by
  unfold attempts
  split
  next writer archive htake => exact .inr ⟨writer, archive, htake, rfl⟩
  next => exact .inl rfl

/-- The answer to a request is that to the call that led to it. -/
theorem answer_of_mem_attempts {call : SetCall} {attempt : Attempt}
    (h : attempt ∈ set.attempts store call) : attempt.answer = (set.serve store call).2.result := by
  rcases attempts_cases store set call with hnone | ⟨-, archive, -, hone⟩
  · rw [hnone] at h
    cases h
  · rw [hone] at h
    rw [List.mem_singleton.mp h]

/-- Behind an archive that was handed over, closing leads to no request. -/
theorem attempts_close_of_handed {file : FrameFile} {writer : ArchiveWriter}
    {archive : PackedArchive} (h : set.writer.take (.add file) = .ok (writer, some archive)) :
    (set.serve store (.add file)).1.attempts store .close = [] := by
  have hcurrent : (set.serve store (.add file)).1.writer.current = [] := by
    have hempty := ArchiveWriter.current_of_take_add h
    rw [serve_eq, h, follow, deliver]
    split <;> exact hempty
  obtain ⟨next, hnext⟩ := ArchiveWriter.take_close_of_empty hcurrent
  rw [attempts, hnext]

/-- If nothing was refused before a set is closed, all requests but the last one were accepted. -/
theorem accepted_until_close {calls : List SetCall}
    (h : ∀ attempt ∈ (run store set calls).2, attempt.answer = .ok ()) :
    ∀ attempt ∈ (run store set (calls ++ [.close])).2.dropLast, attempt.answer = .ok () := by
  rw [run_concat, next]
  intro attempt hattempt
  rcases attempts_cases store (run store set calls).1 .close with hnone | ⟨-, archive, -, hone⟩
  · rw [hnone, List.append_nil] at hattempt
    exact h attempt (List.dropLast_subset _ hattempt)
  · rw [hone, List.dropLast_concat] at hattempt
    exact h attempt hattempt

/-- If nothing was refused before the last file, all requests but the last one were accepted. -/
theorem accepted_until_last {calls : List SetCall} {file : FrameFile}
    (h : ∀ attempt ∈ (run store set calls).2, attempt.answer = .ok ()) :
    ∀ attempt ∈ (run store set (calls ++ [.add file] ++ [.close])).2.dropLast,
      attempt.answer = .ok () := by
  rcases attempts_cases store (run store set calls).1 (.add file) with
    hnone | ⟨writer, archive, htake, hone⟩
  · apply accepted_until_close
    rw [run_concat, next, hnone, List.append_nil]
    exact h
  · rw [run_concat, run_concat, next, next, attempts_close_of_handed htake, hone, List.append_nil,
      List.dropLast_concat]
    exact h

/-- If a call is taken and fails, it is the store that refuses an archive. -/
theorem exists_attempt_of_error {call : SetCall} {e : Error}
    (htake : ∃ result, set.writer.take call = .ok result)
    (h : (set.serve store call).2.result = .error e) :
    ∃ archive, set.attempts store call = [⟨archive, .error e⟩] := by
  obtain ⟨⟨writer, handed⟩, hresult⟩ := htake
  cases handed with
  | none =>
    rw [serve_eq, hresult, follow] at h
    cases h
  | some archive => exact ⟨archive, by rw [attempts, hresult, h]⟩

end ArchiveSet

section Packed

variable {σ : Type} [Zip.Codec] {store : ArchiveStore σ} {state : σ} {options : PackOptions}
  {capacity first : Nat} {layout : ArchiveLayout} {files : List FrameFile} {file : FrameFile}

/-- Adding a file that is not empty to an open set never fails by itself. -/
theorem PackingProgress.take_add_isOk (husable : options.Usable capacity first layout)
    {full current : List ArchiveEntry} {archives : List PackedArchive}
    {session : ArchiveSet σ × List Attempt}
    (h : PackingProgress store state options layout files false full current archives session)
    (hdata : file.data ≠ []) (hcount : files.length < Binary64.exactBound) :
    ∃ result, session.1.writer.take (.add file) = .ok result := by
  obtain ⟨full', current', archives', hadded⟩ := h.add husable hdata hcount
  cases htake : session.1.writer.take (.add file) with
  | ok result => exact ⟨result, rfl⟩
  | error e =>
    -- A file that is refused would not be counted.
    have hbefore := congrArg ArchiveWriter.count h.writer_eq
    have hafter := congrArg ArchiveWriter.count hadded.writer_eq
    rw [ArchiveSet.next_of_error htake] at hafter
    rw [hbefore, List.length_append, List.length_singleton] at hafter
    exact absurd hafter (Nat.ne_of_lt (Nat.lt_succ_self _))

/-- A set that is given files and then closed has requested all archives of them, each of them once,
in order. Those that the store accepted are its archives. -/
theorem offered_of_closed (husable : options.Usable capacity first layout)
    (hdata : ∀ file ∈ files, file.data ≠ []) (hcount : files.length ≤ Binary64.exactBound)
    {archives : List PackedArchive} (hpack : packFrames layout options files = .ok archives)
    {session : ArchiveSet σ × List Attempt}
    (hrun : ArchiveSet.run store ⟨⟨options, layout, [], 0, 0, false, []⟩, state⟩
      (files.map .add ++ [.close]) = session) :
    (session.1.stored, session.2) = store.offer state archives ∧
      session.1.writer.archives = accepted session.2 := by
  have hgiven : givenFiles (files.map .add ++ [.close]) = files := by
    rw [givenFiles_close, givenFiles_map_add hdata]
  obtain ⟨full, current, handed, h⟩ :=
    progress_run store state husable (files.map .add ++ [.close]) (by rwa [hgiven])
  rw [hgiven, hrun, decide_eq_true (List.mem_append_right _ List.mem_cons_self)] at h
  have hall := h.archives_eq_take husable.room hpack
  rw [if_pos rfl, List.take_length] at hall
  rw [h.offered, hall, h.writer_eq]
  exact ⟨rfl, rfl⟩

/-- If only the last request was refused, the archives of the set are the first ones that packing
its files makes. -/
theorem exists_kept (husable : options.Usable capacity first layout)
    (hlayout : options.layout = .ok layout) (hdata : ∀ file ∈ files, file.data ≠ [])
    (hcount : files.length < Binary64.exactBound) {session : ArchiveSet σ × List Attempt}
    (hrun : ArchiveSet.run store ⟨⟨options, layout, [], 0, 0, false, []⟩, state⟩
      (files.map .add ++ [.close]) = session)
    (hlast : ∀ attempt ∈ session.2.dropLast, attempt.answer = .ok ()) :
    ∃ kept archives, packSequence (numbered 1 files) options = .ok archives ∧
      (session.1.stored, session.2) = store.offer state archives ∧
        accepted session.2 = archives.take kept ∧
          session.1.writer.archives = archives.take kept ∧
            ((∀ attempt ∈ session.2, attempt.answer = .ok ()) → kept = archives.length) := by
  have hgiven := givenFiles_map_add hdata
  obtain ⟨archives, hpack⟩ : ∃ archives, packFrames layout options files = .ok archives :=
    husable.packFrames_isOk (by omega)
  have hsequence := packSequence_givenFiles hlayout
    (show (givenFiles (files.map .add)).length < Binary64.exactBound by rwa [hgiven])
  rw [hgiven, hpack] at hsequence
  obtain ⟨hoffered, hstored⟩ :=
    offered_of_closed husable hdata (Nat.le_of_lt hcount) hpack hrun
  -- The archives requested are those of the files, and so the first ones of them were accepted.
  obtain ⟨kept, hkept, hall⟩ := exists_accepted_eq_take hlast
  have harchives : session.2.map Attempt.archive = archives := by
    rw [congrArg Prod.snd hoffered, store.map_archive_offer]
  rw [harchives] at hkept
  rw [← List.length_map (f := Attempt.archive), harchives] at hall
  exact ⟨kept, archives, hsequence, hoffered, hkept, hstored.trans hkept, hall⟩

/-- A file that a set fails to take, though it is not empty and the set is open, makes an archive
that the store refuses. -/
theorem exists_attempt_of_add (husable : options.Usable capacity first layout)
    (hdata : ∀ other ∈ files ++ [file], other.data ≠ [])
    (hcount : files.length < Binary64.exactBound) {session : ArchiveSet σ × List Attempt}
    (hrun : ArchiveSet.run store ⟨⟨options, layout, [], 0, 0, false, []⟩, state⟩
      (files.map .add) = session) {e : Error}
    (hfailed : (session.1.add store file).2.result = .error e) :
    ∃ archive, session.1.attempts store (.add file) = [⟨archive, .error e⟩] := by
  have hgiven : givenFiles (files.map .add) = files :=
    givenFiles_map_add fun other hother => hdata other (List.mem_append_left _ hother)
  obtain ⟨full, current, handed, h⟩ :=
    progress_run store state husable (files.map .add) (by rw [hgiven]; omega)
  have hopen : .close ∉ files.map SetCall.add := by simp
  rw [hgiven, hrun, decide_eq_false hopen] at h
  have hfile : file.data ≠ [] := hdata file (List.mem_append_right _ List.mem_cons_self)
  exact ArchiveSet.exists_attempt_of_error (h.take_add_isOk husable hfile hcount) hfailed

/-- If closing fails, it is the store that refuses an archive. -/
theorem exists_attempt_of_close (husable : options.Usable capacity first layout)
    {calls : List SetCall} (hcount : (givenFiles calls).length ≤ Binary64.exactBound)
    {session : ArchiveSet σ × List Attempt}
    (hrun : ArchiveSet.run store ⟨⟨options, layout, [], 0, 0, false, []⟩, state⟩ calls = session)
    {e : Error} (hfailed : (session.1.close store).2.result = .error e) :
    ∃ archive, session.1.attempts store .close = [⟨archive, .error e⟩] := by
  obtain ⟨full, current, handed, h⟩ := progress_run store state husable calls hcount
  rw [hrun] at h
  exact ArchiveSet.exists_attempt_of_error (h.take_close_isOk husable hcount) hfailed

end Packed

end Flipbook
