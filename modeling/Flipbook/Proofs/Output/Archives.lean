import Flipbook.Proofs.Archive.Delivery
import Flipbook.Proofs.Output.Animate
import Flipbook.Proofs.Script.Compile
import Flipbook.Zip.Read

/-!
# Archive sets of animations

However the export of an archive set ends, there are so many frames that were given to the set, and
the store was asked to take exactly the archives that packing the files of these frames makes. Only
the last one of them can have been refused. An export that is cancelled tells how many frames there
are, unless the store or the receiver of reports raised the cancellation: that is passed on.

## Main definitions

* `ArchiveTarget.file`: the file of a frame;
* `SetWritten`: a set was given the files of some frames and then closed;
* `ArchiveSetExported`: what an archive set amounts to when its export has settled.

## Main results

* `DeviceProfile.data_ne_nil_of_emit`: no device stores a frame as an empty file;
* `archives_writes_ok`, `archives_writes`: writing frames adds their files to the set;
* `archives_writes_error`: a write fails only if the store refuses an archive;
* `archiveSet_exported`: every export of an archive set amounts to this.
-/

namespace Flipbook

section Files

variable {α : Type}

/-- No device stores a frame as an empty file. -/
theorem DeviceProfile.data_ne_nil_of_emit [Scalar α] {profile : DeviceProfile} {canvas : Canvas}
    {frame : Binary64} {strokes : List (Stroke α)} {file : FrameFile}
    (h : profile.emit canvas frame strokes = .ok file) : file.data ≠ [] := by
  obtain ⟨data, hdata, hfile⟩ := bind_eq_ok_iff.mp h
  obtain rfl := Except.ok.inj hfile
  cases profile with
  | tek4010 =>
    -- The byte that switches back to text is always there.
    obtain ⟨points, -, hpoints⟩ := bind_eq_ok_iff.mp hdata
    obtain rfl := Except.ok.inj hpoints
    simp
  | tek4050r12 =>
    obtain ⟨commands, -, hcommands⟩ := map_eq_ok_iff.mp hdata
    obtain rfl := hcommands
    simp [Device.tapeRecords, Device.endOfTape]
  | tga =>
    obtain ⟨image, -, himage⟩ := map_eq_ok_iff.mp hdata
    obtain rfl := himage
    simp [Raster.Image.toTga, Raster.tgaHeader]

variable [Trig α]

/-- The file of a frame: its strokes, displaced, as the device stores them. -/
def ArchiveTarget.file (target : ArchiveTarget α) (timeline : Timeline α) (library : Library α)
    (frame : Nat) : Except Error FrameFile := do
  let strokes ← (timeline.scene frame).flatten library timeline.canvas
  let shifted ← (shiftStrokes target.shift timeline.canvas.extent strokes).mapError .source
  (target.device.emit timeline.canvas (.ofNat frame) shifted).mapError .source

variable {timeline : Timeline α} {library : Library α} {target : ArchiveTarget α}

/-- The file of a frame is not empty. -/
theorem ArchiveTarget.data_ne_nil_of_file {frame : Nat} {file : FrameFile}
    (h : target.file timeline library frame = .ok file) : file.data ≠ [] := by
  obtain ⟨strokes, -, hstrokes⟩ := bind_eq_ok_iff.mp h
  obtain ⟨shifted, -, hshifted⟩ := bind_eq_ok_iff.mp hstrokes
  exact DeviceProfile.data_ne_nil_of_emit (mapError_eq_ok_iff.mp hshifted)

/-- A frame has a file unless one of its drawings cannot be used. -/
theorem ArchiveTarget.exists_source_of_file {frame : Nat} {err : Error}
    (h : target.file timeline library frame = .error err) : ∃ fault, err = .source fault := by
  rcases bind_eq_error_iff.mp h with hscene | ⟨strokes, -, h⟩
  · obtain hparts | ⟨parts, -, hpure⟩ := bind_eq_error_iff.mp hscene
    · obtain ⟨drawable, -, hdrawable⟩ := exists_of_mapM_eq_error hparts
      cases drawable with
      | element =>
        obtain hmissing | ⟨drawing, -, hpure⟩ := bind_eq_error_iff.mp hdrawable
        · unfold Library.get at hmissing
          split at hmissing
          · cases hmissing
          · exact ⟨_, (Except.error.inj hmissing).symm⟩
        · cases hpure
      | line => cases hdrawable
    · cases hpure
  · rcases bind_eq_error_iff.mp h with hshift | ⟨shifted, -, hemit⟩
    · obtain ⟨fault, -, rfl⟩ := mapError_eq_error_iff.mp hshift
      exact ⟨fault, rfl⟩
    · obtain ⟨fault, -, rfl⟩ := mapError_eq_error_iff.mp hemit
      exact ⟨fault, rfl⟩

theorem Script.totalFrames_lt_of_compile [FiniteUnits α] {options : Script.Options} {text : String}
    {timeline : Timeline α} (h : Script.compile options text = .ok timeline) :
    timeline.totalFrames < Binary64.exactBound := by
  have hle := (compile_yields options text timeline h).frames_le
  exact Nat.lt_of_le_of_lt hle (by decide)

end Files

section Writes

variable {calls : List (Nat × FrameFile)}

/-- The calls of a set that add the files of some frames. -/
def addCalls (calls : List (Nat × FrameFile)) : List SetCall :=
  (calls.map Prod.snd).map .add

theorem addCalls_concat (calls : List (Nat × FrameFile)) (frame : Nat) (file : FrameFile) :
    addCalls (calls ++ [(frame, file)]) = addCalls calls ++ [.add file] := by
  simp [addCalls]

/-- Frames from the first one on stay so without the last one. -/
theorem frames_concat {frame : Nat} {file : FrameFile}
    (h : (calls ++ [(frame, file)]).map Prod.fst =
      List.range (calls ++ [(frame, file)]).length) :
    calls.map Prod.fst = List.range calls.length ∧ frame = calls.length := by
  rw [List.length_append, List.length_singleton, List.range_succ, List.map_append] at h
  obtain ⟨hbefore, hlast⟩ := List.append_inj' h rfl
  exact ⟨hbefore, List.singleton_inj.mp hlast⟩

variable {α σ : Type} [Scalar α] [Zip.Codec] {device : DeviceProfile} {canvas : Canvas}
  {shift : Point α} {store : ArchiveStore σ} {set : ArchiveSet σ}

/-- Writing the next frame adds its file to the set. -/
theorem archives_write (device : DeviceProfile) (canvas : Canvas) (shift : Point α)
    (store : ArchiveStore σ) (set : ArchiveSet σ) {n : Nat} (hn : n ≤ Binary64.exactBound)
    (file : FrameFile) :
    ∃ next pace, (archiveRenderer device canvas shift store).write ⟨n, set⟩ (.ofNat n) file =
      (⟨next, (set.add store file).1⟩, ⟨(set.add store file).2.result, pace⟩) ∧
        ((set.add store file).2.result = .ok () → next = n + 1) := by
  have hsame : (Binary64.ofNat n).same (.ofNat n) = true := by
    simp [Binary64.same_ofNat hn hn]
  rw [Renderer.write, if_pos hsame]
  dsimp only [archiveRenderer]
  cases hresult : (set.add store file).2.result with
  | ok done => exact ⟨n + 1, _, rfl, fun _ => rfl⟩
  | error e => exact ⟨n, _, rfl, nofun⟩

/-- Writing one more frame adds one more file. -/
theorem archives_writes_concat (hcount : calls.length ≤ Binary64.exactBound)
    (hwritten : ((archiveRenderer device canvas shift store).writes ⟨0, set⟩ calls).1 =
      ⟨calls.length, (set.run store (addCalls calls)).1⟩) (file : FrameFile) :
    ∃ next, (archiveRenderer device canvas shift store).writes ⟨0, set⟩
          (calls ++ [(calls.length, file)]) =
        (⟨next, (set.run store (addCalls calls ++ [.add file])).1⟩,
          ((archiveRenderer device canvas shift store).writes ⟨0, set⟩ calls).2 ++
            [(calls.length, ((set.run store (addCalls calls)).1.add store file).2.result)]) ∧
      (((set.run store (addCalls calls)).1.add store file).2.result = .ok () →
        next = calls.length + 1) := by
  obtain ⟨next, pace, hwrite, hnext⟩ :=
    archives_write device canvas shift store (set.run store (addCalls calls)).1 hcount file
  refine ⟨next, ?_, hnext⟩
  rw [Renderer.writes_append, hwritten]
  simp only [Renderer.writes, hwrite, ArchiveSet.run_concat, ArchiveSet.next, ArchiveSet.serve]

/-- If the frames from the first one on are all written, their files are all added to the set, and
no archive is refused. -/
theorem archives_writes_ok (hframes : calls.map Prod.fst = List.range calls.length)
    (hcount : calls.length ≤ Binary64.exactBound)
    (hok : ∀ write ∈ ((archiveRenderer device canvas shift store).writes ⟨0, set⟩ calls).2,
      write.2 = .ok ()) :
    ((archiveRenderer device canvas shift store).writes ⟨0, set⟩ calls).1 =
        ⟨calls.length, (set.run store (addCalls calls)).1⟩ ∧
      ∀ attempt ∈ (set.run store (addCalls calls)).2, attempt.answer = .ok () := by
  -- By induction from the end, since it is the last write that tells what is written next.
  induction calls using List.reverseRecOn with
  | nil => exact ⟨rfl, List.forall_mem_nil _⟩
  | append_singleton calls call ih =>
    obtain ⟨frame, file⟩ := call
    obtain ⟨hbefore, rfl⟩ := frames_concat hframes
    rw [List.length_append, List.length_singleton] at hcount
    have hbound : calls.length ≤ Binary64.exactBound := by omega
    have hprefix : ∀ write ∈ ((archiveRenderer device canvas shift store).writes ⟨0, set⟩ calls).2,
        write.2 = .ok () := by
      intro write hwrite
      apply hok
      rw [Renderer.writes_append]
      exact List.mem_append_left _ hwrite
    obtain ⟨hwritten, haccepted⟩ := ih hbefore hbound hprefix
    obtain ⟨next, hwrites, hnext⟩ := archives_writes_concat hbound hwritten file
    rw [hwrites] at hok ⊢
    -- The last write was successful, so the next frame is expected, and its archive was accepted.
    have hresult := hok _ (List.mem_append_right _ List.mem_cons_self)
    rw [addCalls_concat, hnext hresult, List.length_append, List.length_singleton]
    refine ⟨rfl, ?_⟩
    rw [ArchiveSet.run_concat, ArchiveSet.next]
    intro attempt hattempt
    rcases List.mem_append.mp hattempt with hattempt | hattempt
    · exact haccepted attempt hattempt
    · exact (ArchiveSet.answer_of_mem_attempts hattempt).trans hresult

/-- If all frames but the last one are written, it is that one's file that is added next, and the
set tells how writing it ends. -/
theorem archives_writes_last {frame : Nat} {file : FrameFile}
    (hframes : (calls ++ [(frame, file)]).map Prod.fst =
      List.range (calls ++ [(frame, file)]).length)
    (hcount : (calls ++ [(frame, file)]).length ≤ Binary64.exactBound)
    (hok : ∀ write ∈ ((archiveRenderer device canvas shift store).writes ⟨0, set⟩
      (calls ++ [(frame, file)])).2.dropLast, write.2 = .ok ()) :
    ((archiveRenderer device canvas shift store).writes ⟨0, set⟩
          (calls ++ [(frame, file)])).1.output = (set.run store (addCalls calls ++ [.add file])).1 ∧
      (∀ {n e}, (n, .error e) ∈ ((archiveRenderer device canvas shift store).writes ⟨0, set⟩
          (calls ++ [(frame, file)])).2 →
        ((set.run store (addCalls calls)).1.add store file).2.result = .error e) ∧
      ∀ attempt ∈ (set.run store (addCalls calls)).2, attempt.answer = .ok () := by
  obtain ⟨hbefore, rfl⟩ := frames_concat hframes
  rw [List.length_append, List.length_singleton] at hcount
  have hbound : calls.length ≤ Binary64.exactBound := by omega
  rw [Renderer.writes_append] at hok
  dsimp only [Renderer.writes] at hok
  rw [List.dropLast_concat] at hok
  obtain ⟨hwritten, haccepted⟩ := archives_writes_ok hbefore hbound hok
  obtain ⟨next, hwrites, -⟩ := archives_writes_concat hbound hwritten file
  rw [hwrites]
  refine ⟨rfl, fun hfailed => ?_, haccepted⟩
  -- Only the last write can be the one that failed.
  rcases List.mem_append.mp hfailed with hearlier | hlast
  · cases hok _ hearlier
  · exact (congrArg Prod.snd (List.mem_singleton.mp hlast)).symm

/-- If all frames but the last one are written, all their files are added to the set, and no archive
but the last one is refused, even if the set is closed after that. -/
theorem archives_writes (hframes : calls.map Prod.fst = List.range calls.length)
    (hcount : calls.length ≤ Binary64.exactBound)
    (hok : ∀ write ∈ ((archiveRenderer device canvas shift store).writes ⟨0, set⟩ calls).2.dropLast,
      write.2 = .ok ()) :
    ((archiveRenderer device canvas shift store).writes ⟨0, set⟩ calls).1.output =
        (set.run store (addCalls calls)).1 ∧
      ∀ attempt ∈ (set.run store (addCalls calls ++ [.close])).2.dropLast,
        attempt.answer = .ok () := by
  cases calls using List.reverseRecOn with
  | nil => exact ⟨rfl, ArchiveSet.accepted_until_close (List.forall_mem_nil _)⟩
  | append_singleton calls call =>
    obtain ⟨houtput, -, haccepted⟩ := archives_writes_last hframes hcount hok
    rw [addCalls_concat]
    exact ⟨houtput, ArchiveSet.accepted_until_last haccepted⟩

/-- Finalizing closes the set. -/
theorem archives_finish {rendering : Rendering (ArchiveSet σ)}
    (h : rendering.output = (set.run store (addCalls calls)).1) :
    ((archiveRenderer device canvas shift store).finish rendering).1.output =
        (set.run store (addCalls calls ++ [.close])).1 ∧
      ((archiveRenderer device canvas shift store).finish rendering).2 =
        ((set.run store (addCalls calls)).1.close store).2.result := by
  rw [ArchiveSet.run_concat, ← h]
  constructor
  · rw [ArchiveSet.next, ← h]
    rfl
  · rfl

variable {state : σ} {options : PackOptions} {capacity first : Nat} {layout : ArchiveLayout}

/-- If all frames but the last one are written, and that one is not, it is the store that refuses an
archive. -/
theorem archives_writes_error (husable : options.Usable capacity first layout)
    (hset : set = ⟨⟨options, layout, [], 0, 0, false, []⟩, state⟩)
    (hdata : ∀ file ∈ calls.map Prod.snd, file.data ≠ [])
    (hframes : calls.map Prod.fst = List.range calls.length)
    (hcount : calls.length ≤ Binary64.exactBound)
    (hok : ∀ write ∈ ((archiveRenderer device canvas shift store).writes ⟨0, set⟩ calls).2.dropLast,
      write.2 = .ok ())
    {frame : Nat} {e : Error} (hfailed : (frame, .error e) ∈
      ((archiveRenderer device canvas shift store).writes ⟨0, set⟩ calls).2) :
    ∃ attempt ∈ (set.run store (addCalls calls)).2, attempt.answer = .error e := by
  cases calls using List.reverseRecOn with
  | nil => cases hfailed
  | append_singleton calls call =>
    obtain ⟨-, herror, -⟩ := archives_writes_last hframes hcount hok
    rw [List.map_append, List.map_singleton] at hdata
    rw [List.length_append, List.length_singleton] at hcount
    subst hset
    obtain ⟨archive, hattempt⟩ := exists_attempt_of_add husable hdata
      (by rw [List.length_map]; omega) rfl (herror hfailed)
    refine ⟨⟨archive, .error e⟩, ?_, rfl⟩
    rw [addCalls_concat, ArchiveSet.run_concat, ArchiveSet.next]
    exact List.mem_append_right _ (hattempt ▸ List.mem_cons_self)

end Writes

namespace Session

variable {β : Type} {s : Session β}

/-- All writes that have ended were successful, but for the last one. -/
theorem Writing.ok_of_mem_dropLast (h : Writing s) :
    ∀ write ∈ s.wrote.dropLast, write.2 = .ok () := by
  have hsound {n : Nat} : ∀ write ∈ sound n, write.2 = .ok () := by
    intro write hwrite
    obtain ⟨frame, -, rfl⟩ := List.mem_map.mp hwrite
    rfl
  have hshape : ∃ n, s.wrote = sound n ∨ ∃ result, s.wrote = sound n ++ [(n, result)] := by
    cases h.written with
    | busy _ _ _ hwrote =>
      rcases hwrote with ⟨-, -, hwrote⟩ | ⟨result, -, -, hwrote⟩
      · exact ⟨_, .inl hwrote⟩
      · exact ⟨_, .inr ⟨result, hwrote⟩⟩
    | quiet _ _ _ hwrote => exact ⟨_, .inl hwrote.2.2⟩
    | broken _ _ _ hwrote => exact ⟨_, .inr ⟨_, hwrote.2.2⟩⟩
  obtain ⟨n, hwrote | ⟨result, hwrote⟩⟩ := hshape
  · rw [hwrote]
    exact fun write hwrite => hsound write (List.dropLast_subset _ hwrite)
  · rw [hwrote, List.dropLast_concat]
    exact hsound

/-- If as many frames were written successfully as writes have ended, no write failed. -/
theorem ok_of_length_successes (h : s.wrote.length ≤ s.successes.length) :
    ∀ write ∈ s.wrote, write.2 = .ok () := by
  rw [successes, List.length_map] at h
  intro write hwrite
  have hall := List.length_filter_eq_length_iff.mp
    (Nat.le_antisymm (List.length_filter_le _ _) h) write hwrite
  cases hresult : write.2 with
  | ok done => rfl
  | error e => simp [hresult, Except.isOk, Except.toBool] at hall

/-- If no write failed, as many frames were written successfully as writes have ended. -/
theorem length_successes (h : ∀ {frame e}, (frame, .error e) ∉ s.wrote) :
    s.successes.length = s.wrote.length := by
  rw [successes, List.length_map]
  refine List.length_filter_eq_length_iff.mpr ?_
  rintro ⟨frame, result⟩ hwrite
  cases result with
  | ok done => rfl
  | error e => exact absurd hwrite h

end Session

/-- The error of a frame is that of a frame, unless it was raised in place of a text. -/
theorem Error.eq_textless_of_ofFrame {frame n : Nat} {e : Error}
    (h : ofFrame frame e = .cancelled n) : e = .textless (.cancelled n) := by
  cases e with
  | textless instead => exact congrArg textless h
  | _ => cases h

namespace ExportTask

variable {α β σ : Type} {task : ExportTask α β σ} {s : Session β}

/-- When no write is under way, the renderer has answered all of them. -/
theorem Answers.rendered_eq (h : task.Answers s) (writing : Session.Writing s)
    (quiet : s.writing = []) : (task.rendered s).2 = s.wrote := by
  have hframes := writing.wrote_append.1
  rw [quiet, List.append_nil, ← writing.calls] at hframes
  have hrendered := task.renderer.map_fst_writes ⟨0, task.output⟩ s.writeCalls
  refine (h.wrote.eq_of_length ?_).symm
  rw [← List.length_map (f := Prod.fst), hframes, rendered, ← hrendered, List.length_map]

/-- What is written is what the task computes of the frames, from the first one on. -/
theorem Answers.mapM_encode (h : task.Answers s) (writing : Session.Writing s) :
    (List.range s.writeCalls.length).mapM task.encode = .ok (s.writeCalls.map Prod.snd) := by
  rw [mapM_eq_ok_iff, ← writing.calls, List.forall₂_map_left_iff, List.forall₂_map_right_iff,
    List.forall₂_same]
  intro call hcall
  exact (h.computed _ (writing.values call (List.mem_append_left _ hcall))).symm

/-- No more frames are written than there are. -/
theorem Sound.writeCalls_le {concurrency : Binary64} {aborted : Bool}
    {reportFault : Nat → Option Error} {e : Export β σ}
    (h : task.Sound concurrency aborted reportFault e) :
    e.session.writeCalls.length ≤ task.total := by
  have hwritten := (Session.writing_of_reachable h.session).le_next
  have hbuffered := (Session.frames_of_reachable h.session).next_le
  have hbegun := (Session.underway_of_reachable h.session).bounded _ h.total_eq
  omega

section Settled

variable {concurrency : Binary64} {e : Export β σ} {frames : Except Error Nat}
  {finalized : Rendering σ × Except Error Unit} {result : Except Error Nat}

/-- When no write is under way, as many writes have ended as were begun. -/
theorem length_wrote (writing : Session.Writing s) (quiet : s.writing = []) :
    s.wrote.length = s.writeCalls.length := by
  have hframes := congrArg List.length writing.wrote_append.1
  rwa [quiet, List.append_nil, List.length_map, List.length_range] at hframes

/-- Without an error all frames were written, each write was successful, and so was finalizing. -/
theorem Settled.written (h : task.Settled concurrency e frames finalized result)
    (writing : Session.Writing e.session) (quiet : e.session.writing = [])
    (bounded : e.session.writeCalls.length ≤ task.total) {n : Nat} (hn : result = .ok n) :
    n = task.total ∧ e.session.writeCalls.length = task.total ∧
      (∀ write ∈ e.session.wrote, write.2 = .ok ()) ∧ finalized.2 = .ok () := by
  obtain ⟨hfinalized, -, hn, hsuccesses⟩ := h.complete hn
  have hall : e.session.successes.length = task.total := by rw [hsuccesses, List.length_range]
  have hsome : e.session.successes.length ≤ e.session.wrote.length := by
    rw [Session.successes, List.length_map]
    exact List.length_filter_le _ _
  have hwrote := length_wrote writing quiet
  exact ⟨hn, by omega, Session.ok_of_length_successes (by omega), hfinalized⟩

/-- If an export was cancelled, the error tells how many frames were written, unless a report or
finalizing raised it, or a frame in place of the text of its error. -/
theorem Settled.cancelled_cases (h : task.Settled concurrency e frames finalized result)
    {workers : Nat} (hworkers : Run.concurrency? concurrency = .ok workers)
    (writing : Session.Writing e.session) (quiet : e.session.writing = [])
    (hresult : result = (conclude frames finalized.2).1) {n : Nat}
    (hn : result = .error (.cancelled n)) :
    n = e.session.writeCalls.length ∨
      (∃ frame, e.session.run.reportFault frame = some (.cancelled n)) ∨
      (∃ frame, (frame, .error (.textless (.cancelled n))) ∈ e.session.computed ∨
        (frame, .error (.textless (.cancelled n))) ∈ e.session.wrote) ∨
      finalized.2 = .error (.cancelled n) := by
  have hending := h.ending hworkers
  cases hframes : frames with
  | ok m =>
    rw [hframes] at hresult
    cases hfinalized : finalized.2 with
    | ok done =>
      rw [hresult, hfinalized] at hn
      cases hn
    | error err =>
      rw [hresult, hfinalized] at hn
      exact .inr (.inr (.inr (congrArg Except.error (Except.error.inj hn))))
  | error err =>
    have herr : err = .cancelled n := Except.error.inj ((h.framesError hframes).symm.trans hn)
    rw [hframes, herr] at hending
    -- Two of the endings raise this error of their own: a report that failed, and the cancellation
    -- itself. A frame that failed does so only through its text.
    generalize hcancelled : (Except.error (.cancelled n) : Except Error Nat) = ended at hending
    cases hending with
    | complete => cases hcancelled
    | @failed frame cause _ _ hcause =>
      obtain rfl := Error.eq_textless_of_ofFrame (Except.error.inj hcancelled).symm
      exact .inr (.inr (.inl ⟨frame, hcause⟩))
    | @unreported frame cause _ _ fault =>
      rw [← Except.error.inj hcancelled] at fault
      exact .inr (.inl ⟨frame, fault⟩)
    | cancelled sound =>
      obtain rfl := Error.cancelled.inj (Except.error.inj hcancelled)
      left
      rw [← length_wrote writing quiet]
      exact Session.length_successes fun hfailed => sound _ (.wrote hfailed)

end Settled

end ExportTask

section Targets

variable {α : Type} {target : ArchiveTarget α} {stem : String} {writer : ArchiveWriter}

/-- The player that leads every archive of a target, if there is to be one. -/
def ArchiveTarget.player? (target : ArchiveTarget α) : Except OutputError (Option Player) :=
  match target.playerDelay with
  | none => .ok none
  | some delay => some <$> Player.ofDelay delay

/-- How the files of a target are packed. -/
def ArchiveTarget.packOptions (target : ArchiveTarget α) (stem : String)
    (player : Option Player) : PackOptions where
  capacity := target.capacity
  naming := target.device.naming
  stem := stem
  firstNumber := target.firstNumber
  player := player

/-- A target is accepted if its player can be made and the files of its archives have a place. -/
theorem ArchiveTarget.exists_of_writer (h : target.writer stem = .ok writer) :
    ∃ player layout, target.player? = .ok player ∧
      (target.packOptions stem player).layout = .ok layout ∧
        writer = ⟨target.packOptions stem player, layout, [], 0, 0, false, []⟩ := by
  unfold ArchiveTarget.writer at h
  split at h
  · cases h
  · obtain ⟨player, hplayer, hstart⟩ : ∃ player, target.player? = .ok player ∧
        ArchiveWriter.start (target.packOptions stem player) = .ok writer := by
      cases hdelay : target.playerDelay with
      | none =>
        rw [hdelay] at h
        exact ⟨none, by rw [player?, hdelay], h⟩
      | some delay =>
        rw [hdelay] at h
        obtain ⟨player, hplayer, hstart⟩ := bind_eq_ok_iff.mp h
        refine ⟨player, ?_, hstart⟩
        rw [player?, hdelay]
        exact hplayer
    obtain ⟨layout, hlayout, hwriter⟩ := start_eq_ok_iff.mp hstart
    exact ⟨player, layout, hplayer, hlayout, hwriter⟩

/-- The player of a target can be made. -/
theorem ArchiveTarget.made_of_player {player : Option Player} (h : target.player? = .ok player) :
    ∀ p, player = some p → p.Made := by
  rintro p rfl
  unfold player? at h
  split at h
  next => cases h
  next delay _ =>
    obtain ⟨made, hmade, heq⟩ := map_eq_ok_iff.mp h
    obtain rfl := Option.some.inj heq
    exact .inl ⟨delay, hmade⟩

end Targets

/-- The number of frames and the names of the archives, or the error. -/
def ExportOutcome.named {σ : Type} (outcome : ExportOutcome (ArchiveSet σ)) :
    Except Error (Nat × List String) :=
  outcome.result.map fun frames => (frames, outcome.output.writer.archives.map PackedArchive.name)

theorem ExportOutcome.result_of_named_ok {σ : Type} {outcome : ExportOutcome (ArchiveSet σ)}
    {n : Nat} {names : List String} (h : outcome.named = .ok (n, names)) :
    outcome.result = .ok n ∧ outcome.output.writer.archives.map PackedArchive.name = names := by
  obtain ⟨frames, hframes, hnamed⟩ := map_eq_ok_iff.mp h
  obtain ⟨rfl, rfl⟩ := Prod.mk.inj hnamed
  exact ⟨hframes, rfl⟩

theorem ExportOutcome.result_of_named_error {σ : Type} {outcome : ExportOutcome (ArchiveSet σ)}
    {e : Error} (h : outcome.named = .error e) : outcome.result = .error e := by
  unfold named at h
  cases hresult : outcome.result with
  | ok frames =>
    rw [hresult] at h
    cases h
  | error err =>
    rw [hresult] at h
    exact congrArg Except.error (Except.error.inj h)

section Exported

variable {α σ : Type} [Trig α] [Zip.Codec]

/-- What an archive set amounts to when its export has settled: it was given the files of the first
`frames` frames, they make up `archives`, and the store accepted the first `kept` of these. -/
structure ArchiveSetExported (timeline : Timeline α) (library : Library α)
    (target : ArchiveTarget α) (options : PackOptions) (store : ArchiveStore σ) (stored : σ)
    (reportFault : Nat → Option Error) (session : Session FrameFile)
    (outcome : ExportOutcome (ArchiveSet σ)) (frames kept : Nat) (files : List FrameFile)
    (archives : List PackedArchive) (attempts : List Attempt) : Prop where
  /-- No more frames are written than there are. -/
  frames_le : frames ≤ timeline.totalFrames
  /-- The files are those of the first frames. -/
  encoded : (List.range frames).mapM (target.file timeline library) = .ok files
  /-- The archives are those that packing the files at once makes. -/
  packed : packSequence (numbered 1 files) options = .ok archives
  /-- The store was asked to take all of them, each of them once, in order. -/
  offered : (outcome.output.stored, attempts) = store.offer stored archives
  /-- It accepted the first ones. -/
  accepted : accepted attempts = archives.take kept
  /-- These are the archives of the set. -/
  set : outcome.output.writer.archives = archives.take kept
  /-- They are all of them unless one was refused. -/
  all : (∀ attempt ∈ attempts, attempt.answer = .ok ()) → kept = archives.length
  /-- A write fails only if the store refuses an archive. -/
  refused : ∀ {frame e}, (frame, .error e) ∈ session.wrote →
    ∃ attempt ∈ attempts, attempt.answer = .error e
  /-- Unless there is an error, all frames and all archives are there, and they are the result. -/
  complete : ∀ {n names}, outcome.named = .ok (n, names) →
    frames = timeline.totalFrames ∧ n = frames ∧ kept = archives.length ∧
      names = archives.map PackedArchive.name
  /-- If the export was cancelled, the error tells the number of frames. It is another one only if
  the store or the receiver of reports raised it, or the store raised a value without a text, which
  raises it when its text is asked for. -/
  cancelled : ∀ {n}, outcome.named = .error (.cancelled n) →
    n = frames ∨
      (∃ attempt ∈ attempts, attempt.answer = .error (.cancelled n) ∨
        attempt.answer = .error (.textless (.cancelled n))) ∨
      ∃ frame, reportFault frame = some (.cancelled n)

variable {timeline : Timeline α} {library : Library α} {target : ArchiveTarget α}
  {store : ArchiveStore σ} {stored : σ} {options : PackOptions} {capacity first : Nat}
  {layout : ArchiveLayout} {concurrency : Binary64} {aborted : Bool}
  {reportFault : Nat → Option Error} {e : Export FrameFile (ArchiveSet σ)}

/-- A set was given the files of some frames, one after the other, and then closed. -/
structure SetWritten (store : ArchiveStore σ) (set : ArchiveSet σ) (s : Session FrameFile)
    (finalized : Rendering (ArchiveSet σ) × Except Error Unit) : Prop where
  /-- The output is the set, closed. -/
  output : finalized.1.output = (set.run store (addCalls s.writeCalls ++ [.close])).1
  /-- Finalizing fails if closing does. -/
  answer : finalized.2 = ((set.run store (addCalls s.writeCalls)).1.close store).2.result
  /-- Only the last archive may have been refused. -/
  last : ∀ attempt ∈ (set.run store (addCalls s.writeCalls ++ [.close])).2.dropLast,
    attempt.answer = .ok ()
  /-- If all writes were successful, no archive was refused before the end. -/
  sound : (∀ write ∈ s.wrote, write.2 = .ok ()) →
    ∀ attempt ∈ (set.run store (addCalls s.writeCalls)).2, attempt.answer = .ok ()
  /-- If a write failed, an archive was refused. -/
  refused : ∀ {frame e}, (frame, .error e) ∈ s.wrote →
    ∃ attempt ∈ (set.run store (addCalls s.writeCalls)).2, attempt.answer = .error e

namespace SetWritten

variable {set : ArchiveSet σ} {s : Session FrameFile}
  {finalized : Rendering (ArchiveSet σ) × Except Error Unit}

theorem attempts_eq (store : ArchiveStore σ) (set : ArchiveSet σ) (s : Session FrameFile) :
    (set.run store (addCalls s.writeCalls ++ [.close])).2 =
      (set.run store (addCalls s.writeCalls)).2 ++
        (set.run store (addCalls s.writeCalls)).1.attempts store .close := by
  rw [ArchiveSet.run_concat, ArchiveSet.next]

omit [Trig α] in
/-- If everything was successful, no archive was refused. -/
theorem forall_ok (h : SetWritten store set s finalized)
    (hwrites : ∀ write ∈ s.wrote, write.2 = .ok ()) (hfinalized : finalized.2 = .ok ()) :
    ∀ attempt ∈ (set.run store (addCalls s.writeCalls ++ [.close])).2, attempt.answer = .ok () := by
  rw [attempts_eq]
  intro attempt hattempt
  rcases List.mem_append.mp hattempt with hattempt | hattempt
  · exact h.sound hwrites attempt hattempt
  · exact (ArchiveSet.answer_of_mem_attempts hattempt).trans (h.answer.symm.trans hfinalized)

/-- If finalizing failed, an archive was refused. -/
theorem exists_refused (h : SetWritten store set s finalized)
    (husable : options.Usable capacity first layout)
    (hset : set = ⟨⟨options, layout, [], 0, 0, false, []⟩, stored⟩)
    (hdata : ∀ file ∈ s.writeCalls.map Prod.snd, file.data ≠ [])
    (hcount : s.writeCalls.length ≤ Binary64.exactBound) {err : Error}
    (hfailed : finalized.2 = .error err) :
    ∃ attempt ∈ (set.run store (addCalls s.writeCalls ++ [.close])).2,
      attempt.answer = .error err := by
  have hgiven : (givenFiles (addCalls s.writeCalls)).length ≤ Binary64.exactBound := by
    rw [addCalls, givenFiles_map_add hdata, List.length_map]
    exact hcount
  have hrun := congrArg (ArchiveSet.run store · (addCalls s.writeCalls)) hset.symm
  obtain ⟨archive, hclose⟩ :=
    exists_attempt_of_close husable hgiven hrun (h.answer.symm.trans hfailed)
  refine ⟨⟨archive, .error err⟩, ?_, rfl⟩
  rw [attempts_eq, hclose]
  exact List.mem_append_right _ List.mem_cons_self

end SetWritten

section Settled

variable (husable : options.Usable capacity first layout)
  (htotal : timeline.totalFrames < Binary64.exactBound)
  (h : (archiveTask timeline library target store ⟨options, layout, [], 0, 0, false, []⟩
    stored).Sound concurrency aborted reportFault e)
include h

/-- The files that are written are those of the first frames. -/
theorem mapM_file : (List.range e.session.writeCalls.length).mapM (target.file timeline library) =
    .ok (e.session.writeCalls.map Prod.snd) :=
  h.answers.mapM_encode (Session.writing_of_reachable h.session)

/-- None of them is empty. -/
theorem data_ne_nil : ∀ file ∈ e.session.writeCalls.map Prod.snd, file.data ≠ [] := by
  intro file hfile
  obtain ⟨frame, -, hframe⟩ := exists_of_mem_mapM (mapM_file h) hfile
  exact ArchiveTarget.data_ne_nil_of_file hframe

include htotal in
theorem length_writeCalls_lt : e.session.writeCalls.length < Binary64.exactBound :=
  Nat.lt_of_le_of_lt h.writeCalls_le htotal

include husable htotal in
/-- When the export has settled, the set was given all that was written, and closed. -/
theorem setWritten_of_settled {frames : Except Error Nat}
    {finalized : Rendering (ArchiveSet σ) × Except Error Unit}
    (stage : e.stage = .settled frames finalized) {set : ArchiveSet σ}
    (hset : set = ⟨⟨options, layout, [], 0, 0, false, []⟩, stored⟩) :
    SetWritten store set e.session finalized := by
  have hfinish := (h.settled stage).finish
  have writing := Session.writing_of_reachable h.session
  have hcount := Nat.le_of_lt (length_writeCalls_lt htotal h)
  obtain ⟨result, hresult⟩ := h.framesResult_isSome (by rw [stage]; exact nofun)
  -- The frames are at rest, so no write is under way, and the renderer has answered all of them.
  have hrendered : ((archiveRenderer target.device timeline.canvas target.shift store).writes
      ⟨0, set⟩ e.session.writeCalls).2 = e.session.wrote := by
    rw [hset]
    exact h.answers.rendered_eq writing (h.atRest hresult).writing
  -- All writes but the last one were successful, so what was written is what the set was given.
  have hok := writing.ok_of_mem_dropLast
  rw [← hrendered] at hok
  obtain ⟨houtput, hlast⟩ := archives_writes writing.calls hcount hok
  have hclosed : finalized.1.output =
        (set.run store (addCalls e.session.writeCalls ++ [.close])).1 ∧
      finalized.2 =
        ((set.run store (addCalls e.session.writeCalls)).1.close store).2.result := by
    rw [hfinish]
    rw [hset] at houtput ⊢
    exact archives_finish houtput
  refine ⟨hclosed.1, hclosed.2, hlast, ?_, ?_⟩
  · intro hwrites
    rw [← hrendered] at hwrites
    exact (archives_writes_ok writing.calls hcount hwrites).2
  · intro frame err hfailed
    rw [← hrendered] at hfailed
    exact archives_writes_error husable hset (data_ne_nil h) writing.calls hcount hok hfailed

include husable htotal in
/-- Whatever happens, an archive set that can be packed amounts to this when its export has
settled. -/
theorem exists_exported (hlayout : options.layout = .ok layout) {workers : Nat}
    (hworkers : Run.concurrency? concurrency = .ok workers) {frames : Except Error Nat}
    {finalized : Rendering (ArchiveSet σ) × Except Error Unit}
    (stage : e.stage = .settled frames finalized) :
    ∃ count kept files archives attempts, ArchiveSetExported timeline library target options store
      stored reportFault e.session (e.outcome frames finalized) count kept files archives
        attempts := by
  have hsettled := h.settled stage
  have writing := Session.writing_of_reachable h.session
  have hle : e.session.writeCalls.length ≤ timeline.totalFrames := h.writeCalls_le
  have hcount := length_writeCalls_lt htotal h
  obtain ⟨result, hresult⟩ := h.framesResult_isSome (by rw [stage]; exact nofun)
  have hquiet := (h.atRest hresult).writing
  have hwritten := setWritten_of_settled husable htotal h stage rfl
  have hrun : ArchiveSet.run store ⟨⟨options, layout, [], 0, 0, false, []⟩, stored⟩
      ((e.session.writeCalls.map Prod.snd).map .add ++ [.close]) =
    ArchiveSet.run store ⟨⟨options, layout, [], 0, 0, false, []⟩, stored⟩
      (addCalls e.session.writeCalls ++ [.close]) := rfl
  obtain ⟨kept, archives, hpacked, hoffered, haccepted, hstored, hall⟩ := exists_kept husable
    hlayout (data_ne_nil h) (by rwa [List.length_map]) hrun hwritten.last
  rw [← hwritten.output] at hoffered hstored
  -- The frames counted are those that were begun to be written.
  refine ⟨_, kept, _, archives, _, hle, mapM_file h, hpacked, hoffered, haccepted, hstored, hall,
    ?_, ?_, ?_⟩
  · intro frame err hfailed
    obtain ⟨attempt, hattempt, hanswer⟩ := hwritten.refused hfailed
    rw [SetWritten.attempts_eq]
    exact ⟨attempt, List.mem_append_left _ hattempt, hanswer⟩
  · intro n names hnamed
    obtain ⟨hresult, rfl⟩ := ExportOutcome.result_of_named_ok hnamed
    obtain ⟨hn, hframes, hwrites, hfinalized⟩ := hsettled.written writing hquiet hle hresult
    -- All writes and finalizing were successful, so nothing was refused.
    have hkept := hall (hwritten.forall_ok hwrites hfinalized)
    refine ⟨hframes, hn.trans hframes.symm, hkept, ?_⟩
    rw [hkept, List.take_length] at hstored
    exact congrArg (List.map PackedArchive.name) hstored
  · intro n hnamed
    have hresult := ExportOutcome.result_of_named_error hnamed
    rcases hsettled.cancelled_cases hworkers writing hquiet rfl hresult with
      hn | ⟨frame, hfault⟩ | ⟨frame, hcomputed | hwrote⟩ | hfailed
    · exact .inl hn
    · rw [(Session.keeps_of_steps h.session).reportFault] at hfault
      exact .inr (.inr ⟨frame, hfault⟩)
    · -- What computing a frame fails with has a text.
      obtain ⟨fault, hfault⟩ :=
        ArchiveTarget.exists_source_of_file (h.answers.computed _ hcomputed).symm
      cases hfault
    · obtain ⟨attempt, hattempt, hanswer⟩ := hwritten.refused hwrote
      rw [SetWritten.attempts_eq]
      exact .inr (.inl ⟨attempt, List.mem_append_left _ hattempt, .inr hanswer⟩)
    · obtain ⟨attempt, hattempt, hanswer⟩ := hwritten.exists_refused husable rfl (data_ne_nil h)
        (Nat.le_of_lt hcount) hfailed
      exact .inr (.inl ⟨attempt, hattempt, .inl hanswer⟩)

end Settled

/-- For every script, and every target that is accepted: however the export of the archive set goes
on and ends, the store accepted the first archives that packing the files of the first frames
makes. They are all of them unless it refused one, and the files of all frames unless there is an
error. What `animate` does is one of these exports. -/
theorem archiveSet_exported [FiniteUnits α] {scriptOptions : Script.Options} {text : String}
    (hcompiled : Script.compile scriptOptions text = .ok timeline)
    {loader : String → Except Error (Drawing α)}
    (hloaded : (Library.load timeline loader).result = .ok library) {options : ExportOptions}
    {writer : ArchiveWriter} (hwriter : target.writer options.outputPath = .ok writer)
    (hvalid : (target.firstNumber.getD 1).Valid) {workers : Nat}
    (hworkers : Run.concurrency? options.concurrency = .ok workers) {τ : Type}
    (outlets : Outlets τ σ) (stored : σ) :
    ∃ player, target.player? = .ok player ∧
      (∀ {aborted reportFault e frames finalized},
        (archiveTask timeline library target outlets.store writer stored).Reachable
            options.concurrency aborted reportFault e →
          e.stage = .settled frames finalized →
            ∃ count kept files archives attempts, ArchiveSetExported timeline library target
              (target.packOptions options.outputPath player) outlets.store stored reportFault
                e.session (e.outcome frames finalized) count kept files archives attempts) ∧
      (∃ outcome, (archiveTask timeline library target outlets.store writer stored).Performs
          options outcome ∧
        (animate timeline (.archives target) loader options outlets stored).result =
            outcome.named ∧
          (animate timeline (.archives target) loader options outlets stored).stored =
            outcome.output.stored) ∧
      ∀ {profile : DeviceProfile} {canvas : Canvas} {frame : Binary64}
        {strokes : List (Stroke α)} {file : FrameFile},
        profile.emit canvas frame strokes = .ok file → file.data ≠ [] := by
  have htotal := Script.totalFrames_lt_of_compile hcompiled
  obtain ⟨player, layout, hplayer, hlayout, rfl⟩ := ArchiveTarget.exists_of_writer hwriter
  obtain ⟨capacity, first, hlays⟩ := PackOptions.exists_lays hlayout
  have husable : (target.packOptions options.outputPath player).Usable capacity first layout :=
    ⟨hlays, hvalid, ArchiveTarget.made_of_player hplayer⟩
  refine ⟨player, hplayer, ?_, ?_, DeviceProfile.data_ne_nil_of_emit⟩
  · intro aborted reportFault e frames finalized hreachable stage
    exact exists_exported husable htotal (ExportTask.sound_of_reachable hreachable) hlayout hworkers
      stage
  · refine ⟨_, exportFrames_reachable _ options (archiveRenderer_timely _ _ _ _), ?_⟩
    unfold animate exportArchives
    dsimp only
    rw [hloaded, hwriter]
    exact ⟨rfl, rfl⟩

end Exported

/-- Archives for the flash drive with one frame each. -/
def singleTarget : ArchiveTarget Float where
  capacity := 1
  device := .tek4050r12
  firstNumber := none
  playerDelay := none
  originShift := none

/-- A store that is full after one archive. -/
def smallStore : ArchiveStore StoreLog :=
  memoryStore fun request => if request = 0 then none else some (.system "disk full")

/-- The second archive is refused while two frames are computed at the same time: one of three
frames is stored. -/
theorem archiveSet_exported_blank :
    Script.compile {} "frames 3\ncanvas 2 1" = .ok blankTimeline ∧
      ∃ writer player, singleTarget.writer "reel" = .ok writer ∧ singleTarget.player? = .ok player ∧
        ∃ e frames finalized,
          (archiveTask blankTimeline ⟨[]⟩ singleTarget smallStore writer .empty).Reachable 2 false
              (fun _ => none) e ∧
            e.stage = .settled frames finalized ∧
            (e.outcome frames finalized).named = .error (.frameFailed 1 (.system "disk full")) ∧
            ∃ count kept files archives attempts, ArchiveSetExported blankTimeline ⟨[]⟩
              singleTarget (singleTarget.packOptions "reel" player) smallStore .empty
                (fun _ => none) e.session (e.outcome frames finalized) count kept files archives
                  attempts := by
  have hcompiled : Script.compile {} "frames 3\ncanvas 2 1" = .ok blankTimeline := by
    decide +kernel
  -- What the writer is does not matter, as long as the target is accepted.
  have haccepted : (singleTarget.writer "reel").toOption.isSome = true := by decide +kernel
  cases hwriter : singleTarget.writer "reel" with
  | error e =>
    rw [hwriter] at haccepted
    cases haccepted
  | ok writer =>
    obtain ⟨player, hplayer, hexported, ⟨outcome, hperforms, hresult, -⟩, -⟩ :=
      archiveSet_exported hcompiled
        (show (Library.load blankTimeline fun _ => .error (.system "no drawings")).result =
          .ok ⟨[]⟩ from rfl)
        (show singleTarget.writer (ExportOptions.mk "reel" 2 fun _ => false).outputPath =
          .ok writer from hwriter)
        (Binary64.valid_ofNat (n := 1) (by decide)) (show Run.concurrency? 2 = .ok 2 by rfl)
        (⟨fun _ => 0, brokenEncoder, smallStore⟩ : Outlets Nat StoreLog) .empty
    obtain ⟨e, frames, finalized, hreachable, stage, rfl⟩ := hperforms
    exact ⟨hcompiled, writer, player, rfl, hplayer, e, frames, finalized, hreachable, stage,
      hresult.symm.trans (by decide +kernel), hexported hreachable stage⟩

/-- Archives with two frames each, whose first number has no successor. -/
def vastTarget : ArchiveTarget Float where
  capacity := 2
  device := .tek4010
  firstNumber := some (.ofNat Binary64.exactBound)
  playerDelay := none
  originShift := none

/-- A store that calls the rendering off after one archive. -/
def fickleStore : ArchiveStore StoreLog :=
  memoryStore fun request => if request = 0 then none else some (.cancelled 99)

/-- All three frames are written, but the store refuses the last archive with a cancellation of its
own, whose frame the error tells. And the two files of the archive that it accepted have one name,
so that its zip file holds one of them. -/
theorem animate_vastTarget :
    ∃ animation : Animation Nat StoreLog,
      animation = animate blankTimeline (.archives vastTarget)
        (fun _ => .error (.system "no drawings")) ⟨"reel", 1, fun _ => false⟩
        ⟨fun _ => 0, brokenEncoder, fickleStore⟩ .empty ∧
      animation.result = .error (.cancelled 99) ∧ blankTimeline.totalFrames < 99 ∧
      (animation.stored.taken.map fun file => (Zip.read file.2).toOption.map List.length) =
        [some 1] ∧
      ∃ files archives,
        (List.range blankTimeline.totalFrames).mapM (vastTarget.file blankTimeline ⟨[]⟩) =
          .ok files ∧
        packSequence (numbered 1 files) (vastTarget.packOptions "reel" none) = .ok archives ∧
        archives.map (fun archive => archive.entries.length) = [2, 1] := by
  -- The files are packed as they come, since they are consecutive and not empty.
  have hlayout :
      (vastTarget.packOptions "reel" none).layout = .ok ⟨2, .ofNat Binary64.exactBound⟩ := by
    decide +kernel
  obtain ⟨files, hfiles, hsound⟩ := exists_eq_ok_of_any
    (r := (List.range blankTimeline.totalFrames).mapM (vastTarget.file blankTimeline ⟨[]⟩))
    (p := fun files => files.length = 3 && files.all (fun file => file.data ≠ []) &&
      (packFrames ⟨2, .ofNat Binary64.exactBound⟩ (vastTarget.packOptions "reel" none)
        files).toOption.any fun archives =>
          archives.map (fun archive => archive.entries.length) = [2, 1])
    (by decide +kernel)
  simp only [Bool.and_eq_true, decide_eq_true_eq, List.all_eq_true] at hsound
  obtain ⟨⟨hlength, hdata⟩, hpacked⟩ := hsound
  obtain ⟨archives, hpacked, hlengths⟩ := exists_eq_ok_of_any hpacked
  have hbound : 1 + files.length ≤ Binary64.exactBound := by
    rw [hlength]
    decide
  exact ⟨_, rfl, by decide +kernel, by decide, by decide +kernel, files, archives, hfiles,
    (packSequence_numbered hlayout hdata hbound).trans hpacked, of_decide_eq_true hlengths⟩

end Flipbook
