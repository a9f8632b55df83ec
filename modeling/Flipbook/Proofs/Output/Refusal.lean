import Flipbook.Output.Renderer
import Flipbook.Proofs.Archive.Split
import Flipbook.Proofs.Archive.Writer
import Flipbook.Zip.Read

/-!
# Frames that go with a refused archive

Frames are written to an archive set one after the other, and whoever writes them may go on after a
write that failed, or try the same frame again. A write that is turned down at once leaves all as it
was. One that fills an archive which the store then refuses does not: the files of that archive are
gone, and the writes of all of them but the last one had been successful. Ending the output does not
bring them back, and does not fail for them.

## Main definitions

* `Renderer.tryWrites`: writes, with the outcome of each;
* `acceptedFiles`, `refusals`: the files whose write was successful, and how often an archive was
  refused;
* `ArchiveWriter.frames`: the frames in the archives that were stored;
* `WritesKept`: what an archive set under way has made of the files that were accepted.

## Main results

* `WritesKept.write`: what one write leaves, as an invariant;
* `WritesKept.tryWrites`: what any writes leave;
* `accepted_stored_iff`: the accepted files are the stored ones unless an archive of several frames
  was refused.
-/

namespace Flipbook

section Trials

variable {α β σ : Type}

/-- Writes frames one after the other, whatever comes of each of them. -/
def Renderer.tryWrites (renderer : Renderer α β σ) (state : Rendering σ) :
    List (Binary64 × β) → Rendering σ × List (β × WriteOutcome)
  | [] => (state, [])
  | (frame, value) :: rest =>
    let (state, outcome) := renderer.write state frame value
    let (state, trials) := renderer.tryWrites state rest
    (state, (value, outcome) :: trials)

/-- Whether a write was successful. -/
def WriteOutcome.succeeded (outcome : WriteOutcome) : Bool :=
  outcome.result.isOk

/-- Whether a write failed although it waited for the store, which has refused an archive then. -/
def WriteOutcome.refused (outcome : WriteOutcome) : Bool :=
  !outcome.succeeded && decide (outcome.pace = .atRest)

/-- The values whose writes were successful. -/
def acceptedFiles (trials : List (β × WriteOutcome)) : List β :=
  (trials.filter fun trial => trial.2.succeeded).map Prod.fst

/-- How often an archive was refused. -/
def refusals (trials : List (β × WriteOutcome)) : Nat :=
  trials.countP fun trial => trial.2.refused

variable {value : β} {outcome : WriteOutcome}

theorem acceptedFiles_cons (trial : β × WriteOutcome) (trials : List (β × WriteOutcome)) :
    acceptedFiles (trial :: trials) = acceptedFiles [trial] ++ acceptedFiles trials := by
  rw [acceptedFiles, acceptedFiles, acceptedFiles, ← List.map_append, ← List.filter_append,
    List.singleton_append]

theorem refusals_cons (trial : β × WriteOutcome) (trials : List (β × WriteOutcome)) :
    refusals (trial :: trials) = refusals [trial] + refusals trials := by
  rw [refusals, refusals, refusals, ← List.countP_append, List.singleton_append]

theorem acceptedFiles_of_failed (h : outcome.succeeded = false) :
    acceptedFiles [(value, outcome)] = [] := by
  simp [acceptedFiles, h]

theorem refusals_singleton (trial : β × WriteOutcome) :
    refusals [trial] = if trial.2.refused then 1 else 0 := by
  rw [refusals, List.countP_singleton]

end Trials

/-- The frames in the archives that were stored. -/
def ArchiveWriter.frames (writer : ArchiveWriter) : List ArchiveEntry :=
  writer.archives.flatMap fun archive => archive.entries.drop writer.options.leaders

/-- What an archive set under way has made of the files that were accepted: those in `kept` are in
its archives, and those in `pending` wait for the next one. Each refusal has cost the files that
waited at that time, one less than an archive. -/
structure WritesKept (options : PackOptions) (layout : ArchiveLayout) (accepted : List FrameFile)
    (refused : Nat) (kept pending : List FrameFile) (writer : ArchiveWriter) : Prop where
  options_eq : writer.options = options
  layout_eq : writer.layout = layout
  isOpen : writer.closed = false
  stored : List.Forall₂ options.naming.Writes kept writer.frames
  current : List.Forall₂ options.naming.Writes pending writer.current
  /-- The numbers that wait are proper ones. -/
  whole : ∀ e ∈ writer.current, Binary64.Whole (1 + options.leaders) e.number
  room : pending.length < layout.framesPerArchive
  /-- No file is there twice or out of place. -/
  sublist : (kept ++ pending).Sublist accepted
  /-- All files are accounted for. -/
  length : accepted.length =
    kept.length + pending.length + refused * (layout.framesPerArchive - 1)

section Frames

variable {options : PackOptions} {frames : List ArchiveEntry} {archive : PackedArchive}
  {writer : ArchiveWriter} {index : Nat}

/-- The frames of one more archive come behind those that are stored. -/
theorem ArchiveWriter.frames_stored (hoptions : writer.options = options) (hne : frames ≠ [])
    (hseal : sealArchive options index frames = .ok archive) :
    (writer.stored archive).frames = writer.frames ++ frames := by
  obtain ⟨-, -, hentries⟩ := sealArchive_eq_ok_iff.mp hseal
  rw [ArchiveWriter.frames, ArchiveWriter.stored, List.flatMap_append, List.flatMap_singleton,
    hoptions, (withPlayer_eq_ok hne hentries).drop_leaders, ← hoptions]
  rfl

end Frames

namespace WritesKept

variable {σ : Type} {options : PackOptions} {capacity first : Nat} {layout : ArchiveLayout}
  {accepted kept pending : List FrameFile} {refused : Nat} {writer : ArchiveWriter}
  {file : FrameFile}

/-- Between two archives no file waits. -/
theorem between {frames : List ArchiveEntry} (husable : options.Usable capacity first layout)
    (hoptions : writer.options = options) (hlayout : writer.layout = layout)
    (hopen : writer.closed = false) (hcurrent : writer.current = [])
    (hframes : writer.frames = frames) (hstored : List.Forall₂ options.naming.Writes kept frames)
    (hsublist : kept.Sublist accepted)
    (hlength : accepted.length = kept.length + refused * (layout.framesPerArchive - 1)) :
    WritesKept options layout accepted refused kept [] writer where
  options_eq := hoptions
  layout_eq := hlayout
  isOpen := hopen
  stored := by rwa [hframes]
  current := by
    rw [hcurrent]
    exact .nil
  whole := by
    rw [hcurrent]
    exact List.forall_mem_nil _
  room := husable.room
  sublist := by rwa [List.append_nil]
  length := hlength

theorem start (husable : options.Usable capacity first layout) :
    WritesKept options layout [] 0 [] [] ⟨options, layout, [], 0, 0, false, []⟩ :=
  between husable rfl rfl rfl rfl rfl .nil (.refl _) (by simp)

/-- A file that is not empty waits for the next archive, or is the last one that it takes. -/
theorem add (h : WritesKept options layout accepted refused kept pending writer)
    (husable : options.Usable capacity first layout) (hdata : file.data ≠ [])
    (hcount : writer.count < Binary64.exactBound) :
    ∃ next, next.count = writer.count + 1 ∧
      (writer.add file = .ok (next, none) ∧
        WritesKept options layout (accepted ++ [file]) refused kept (pending ++ [file]) next ∨
      ∃ archive, writer.add file = .ok (next, some archive) ∧
        WritesKept options layout (accepted ++ [file]) refused (kept ++ (pending ++ [file])) []
          (next.stored archive) ∧
        WritesKept options layout accepted (refused + 1) kept [] next) := by
  have hmod := Nat.mod_le writer.count layout.framesPerArchive
  have hplace : writer.count % layout.framesPerArchive < Binary64.exactBound := by omega
  obtain ⟨entry, hentry⟩ := husable.entry_isOk hplace file
  obtain ⟨hnumber, hwrites⟩ := toEntry_eq_ok_iff.mp hentry
  have hwhole : ∀ e ∈ writer.current ++ [entry], Binary64.Whole (1 + options.leaders) e.number := by
    refine List.forall_mem_append.mpr ⟨h.whole, List.forall_mem_singleton.mpr ?_⟩
    rw [hnumber]
    exact husable.whole_numberAt (by omega)
  have hcurrent := List.rel_append h.current (List.Forall₂.cons hwrites .nil)
  have hroom := h.room
  have haccounted := h.length
  rw [← h.options_eq, ← h.layout_eq] at hentry
  have hadd := ArchiveWriter.take_add h.isOpen hdata hentry
  by_cases hlast : (writer.current ++ [entry]).length = writer.layout.framesPerArchive
  · have hfull : pending.length + 1 = layout.framesPerArchive := by
      rw [← h.layout_eq, ← hlast, ← hcurrent.length_eq, List.length_append, List.length_singleton]
    obtain ⟨archive, hseal⟩ := sealArchive_isOk husable.made hwhole writer.archiveIndex
    rw [if_pos (by simpa using hlast), ArchiveWriter.flush_of_ne_nil (by simp)
      (by rw [h.options_eq]; exact hseal)] at hadd
    refine ⟨_, rfl, .inr ⟨archive, hadd, ?_, ?_⟩⟩
    · -- The archive is stored, with what waited and the file.
      refine between husable h.options_eq h.layout_eq h.isOpen rfl
        (ArchiveWriter.frames_stored h.options_eq (by simp) hseal)
        (List.rel_append h.stored hcurrent) ?_ ?_
      · rw [← List.append_assoc]
        exact h.sublist.append (.refl _)
      · simp only [List.length_append, List.length_singleton]
        omega
    · -- The archive is refused, and what waited is gone with it.
      refine between husable h.options_eq h.layout_eq h.isOpen rfl rfl h.stored ?_ ?_
      · exact (List.sublist_append_left kept pending).trans h.sublist
      · rw [Nat.succ_mul]
        omega
  · rw [if_neg (by simpa using hlast)] at hadd
    refine ⟨_, rfl, .inl ⟨hadd, h.options_eq, h.layout_eq, h.isOpen, h.stored, hcurrent, hwhole,
      ?_, ?_, ?_⟩⟩
    · rw [← hcurrent.length_eq, h.layout_eq, List.length_append, List.length_singleton] at hlast
      rw [List.length_append, List.length_singleton]
      omega
    · rw [← List.append_assoc]
      exact h.sublist.append (.refl _)
    · simp only [List.length_append, List.length_singleton]
      omega

/-- A write that was turned down leaves all as it was. -/
theorem turnedDown (h : WritesKept options layout accepted refused kept pending writer) (e : Error)
    (n : Nat) :
    WritesKept options layout (accepted ++ acceptedFiles [(file, ⟨.error e, .rounds n⟩)])
      (refused + refusals [(file, ⟨.error e, .rounds n⟩)]) kept pending writer := by
  rw [acceptedFiles_of_failed rfl, List.append_nil, refusals_singleton, if_neg (by exact nofun)]
  exact h

section Writing

variable {α : Type} [Scalar α] [Zip.Codec] {device : DeviceProfile} {canvas : Canvas}
  {shift : Point α} {store : ArchiveStore σ} {state rendering : Rendering (ArchiveSet σ)}

/-- One write. If it fails, it changes something just if an archive was refused. -/
theorem write (h : WritesKept options layout accepted refused kept pending state.output.writer)
    (husable : options.Usable capacity first layout)
    (hcount : state.output.writer.count < Binary64.exactBound) {frame : Binary64}
    {next : Rendering (ArchiveSet σ)} {outcome : WriteOutcome}
    (hwrite : (archiveRenderer device canvas shift store).write state frame file =
      (next, outcome)) :
    (∃ kept pending, WritesKept options layout (accepted ++ acceptedFiles [(file, outcome)])
        (refused + refusals [(file, outcome)]) kept pending next.output.writer) ∧
      next.output.writer.count ≤ state.output.writer.count + 1 ∧
      (outcome.succeeded = false → (next = state ↔ outcome.refused = false)) := by
  rw [Renderer.write] at hwrite
  split at hwrite
  next =>
    by_cases hdata : file.data = []
    · obtain ⟨e, hadd⟩ : ∃ e, state.output.add store file =
          (state.output, ⟨.error (.output e), false⟩) := ArchiveSet.add_refused (.inl hdata)
      simp only [archiveRenderer, hadd] at hwrite
      obtain ⟨rfl, rfl⟩ := Prod.mk.inj hwrite
      exact ⟨⟨_, _, h.turnedDown _ _⟩, Nat.le_succ _, fun _ => ⟨fun _ => rfl, fun _ => rfl⟩⟩
    · obtain ⟨writer, hnext, ⟨hadd, hkept⟩ | ⟨archive, hadd, hstored, hlost⟩⟩ :=
        h.add husable hdata hcount
      · simp only [archiveRenderer, ArchiveSet.add, hadd, ArchiveSet.follow] at hwrite
        obtain ⟨rfl, rfl⟩ := Prod.mk.inj hwrite
        refine ⟨⟨_, _, hkept⟩, Nat.le_of_eq hnext, fun hfailed => ?_⟩
        cases hfailed
      · rcases hput : store.put state.output.stored archive.name archive.toZip with ⟨after, answer⟩
        simp only [archiveRenderer, ArchiveSet.add, hadd, ArchiveSet.follow, ArchiveSet.deliver,
          hput] at hwrite
        cases answer with
        | ok done =>
          obtain ⟨rfl, rfl⟩ := Prod.mk.inj hwrite
          refine ⟨⟨_, _, hstored⟩, Nat.le_of_eq hnext, fun hfailed => ?_⟩
          cases hfailed
        | error e =>
          obtain ⟨rfl, rfl⟩ := Prod.mk.inj hwrite
          rw [acceptedFiles_of_failed rfl, List.append_nil, refusals_singleton, if_pos rfl]
          refine ⟨⟨_, _, hlost⟩, Nat.le_of_eq hnext, fun _ => ⟨fun hsame => ?_, fun hkept => ?_⟩⟩
          · -- The file is gone, but the writer has counted it.
            have hcounted := congrArg (·.output.writer.count) hsame
            dsimp only at hcounted
            omega
          · cases hkept
  next =>
    -- A frame out of turn is turned down before the archives come into it.
    obtain ⟨rfl, rfl⟩ := Prod.mk.inj hwrite
    exact ⟨⟨_, _, h.turnedDown _ _⟩, Nat.le_succ _, fun _ => ⟨fun _ => rfl, fun _ => rfl⟩⟩

/-- Any writes, by induction on them: each goes on from what the one before has left. -/
theorem tryWrites (husable : options.Usable capacity first layout)
    {calls : List (Binary64 × FrameFile)} {trials : List (FrameFile × WriteOutcome)}
    (h : WritesKept options layout accepted refused kept pending state.output.writer)
    (hcount : state.output.writer.count + calls.length ≤ Binary64.exactBound)
    (htry : (archiveRenderer device canvas shift store).tryWrites state calls =
      (rendering, trials)) :
    (∃ kept pending, WritesKept options layout (accepted ++ acceptedFiles trials)
        (refused + refusals trials) kept pending rendering.output.writer) ∧
      rendering.output.writer.count ≤ state.output.writer.count + calls.length := by
  induction calls generalizing state accepted refused kept pending trials with
  | nil =>
    obtain ⟨rfl, rfl⟩ := Prod.mk.inj htry
    exact ⟨⟨_, _, (List.append_nil accepted).symm ▸ h⟩, Nat.le_refl _⟩
  | cons call calls ih =>
    obtain ⟨frame, file⟩ := call
    rcases hwrite : (archiveRenderer device canvas shift store).write state frame file with
      ⟨next, outcome⟩
    rcases hrest : (archiveRenderer device canvas shift store).tryWrites next calls with
      ⟨after, rest⟩
    rw [Renderer.tryWrites, hwrite] at htry
    dsimp only at htry
    rw [hrest] at htry
    obtain ⟨rfl, rfl⟩ := Prod.mk.inj htry
    rw [List.length_cons] at hcount
    obtain ⟨⟨kept, pending, hnext⟩, hless, -⟩ := h.write husable (by omega) hwrite
    obtain ⟨⟨kept, pending, hafter⟩, hbound⟩ := ih hnext (by omega) hrest
    rw [List.append_assoc, Nat.add_assoc, ← acceptedFiles_cons, ← refusals_cons] at hafter
    exact ⟨⟨kept, pending, hafter⟩, by rw [List.length_cons]; omega⟩

end Writing

/-- Once the set has ended, what waited is stored, too. -/
theorem close [Zip.Codec] {store : ArchiveStore σ} {set : ArchiveSet σ}
    (h : WritesKept options layout accepted refused kept pending set.writer)
    (husable : options.Usable capacity first layout)
    (hok : (set.close store).2.result = .ok ()) :
    List.Forall₂ options.naming.Writes (kept ++ pending) (set.close store).1.writer.frames := by
  have htake := ArchiveWriter.take_close h.isOpen
  rw [ArchiveWriter.take] at htake
  rw [ArchiveSet.close, htake] at hok ⊢
  by_cases hnone : set.writer.current = []
  · have hpending : pending = [] := List.forall₂_nil_right_iff.mp (hnone ▸ h.current)
    rw [ArchiveWriter.flush, if_pos (by simp [hnone]), hpending, List.append_nil]
    exact h.stored
  · obtain ⟨archive, hseal⟩ := sealArchive_isOk husable.made h.whole set.writer.archiveIndex
    have hflush : ArchiveWriter.flush { set.writer with closed := true } =
        .ok ({ set.writer with
          current := [], archiveIndex := set.writer.archiveIndex + 1, closed := true },
          some archive) :=
      ArchiveWriter.flush_of_ne_nil hnone (by rw [h.options_eq]; exact hseal)
    rw [hflush, ArchiveSet.follow, ArchiveSet.deliver] at hok ⊢
    -- Closing fails if the last archive is refused.
    generalize store.put set.stored archive.name archive.toZip = answered at hok ⊢
    obtain ⟨after, answer⟩ := answered
    cases answer with
    | ok done =>
      dsimp only
      rw [ArchiveWriter.frames_stored (by exact h.options_eq) hnone hseal]
      exact List.rel_append h.stored h.current
    | error e => cases hok

end WritesKept

section Outcome

variable {α σ : Type} [Scalar α] [Zip.Codec] {device : DeviceProfile} {canvas : Canvas}
  {shift : Point α} {store : ArchiveStore σ} {state : σ} {options : PackOptions}
  {writer : ArchiveWriter} {calls : List (Binary64 × FrameFile)}
  {rendering : Rendering (ArchiveSet σ)} {trials : List (FrameFile × WriteOutcome)}

/-- Frames are written one after the other, and some writes fail. One more write that fails leaves
all as it was unless an archive was refused. Once the output has ended without failure, the stored
frames are among the accepted files, in order; all but the last file of each refused archive are
missing, so that none is missing just if no archive was refused or each archive takes one frame. -/
theorem accepted_stored_iff (hstart : ArchiveWriter.start options = .ok writer)
    (hvalid : (options.firstNumber.getD 1).Valid)
    (hmade : ∀ player, options.player = some player → player.Made)
    (hfew : calls.length < Binary64.exactBound)
    (htry : (archiveRenderer device canvas shift store).tryWrites ⟨0, ⟨writer, state⟩⟩ calls =
      (rendering, trials)) :
    (∀ frame file next outcome,
      (archiveRenderer device canvas shift store).write rendering frame file = (next, outcome) →
        outcome.succeeded = false → (next = rendering ↔ outcome.refused = false)) ∧
    ∀ ended, (archiveRenderer device canvas shift store).finish rendering = (ended, .ok ()) →
      ∃ kept, kept.Sublist (acceptedFiles trials) ∧
        List.Forall₂ options.naming.Writes kept ended.output.writer.frames ∧
        (acceptedFiles trials).length =
          kept.length + refusals trials * (writer.layout.framesPerArchive - 1) ∧
        (List.Forall₂ options.naming.Writes (acceptedFiles trials) ended.output.writer.frames ↔
          refusals trials = 0 ∨ writer.layout.framesPerArchive = 1) := by
  obtain ⟨layout, hlayout, rfl⟩ := start_eq_ok_iff.mp hstart
  obtain ⟨capacity, first, hlays⟩ := PackOptions.exists_lays hlayout
  have husable : options.Usable capacity first layout := ⟨hlays, hvalid, hmade⟩
  obtain ⟨⟨kept, pending, hkept⟩, hcount⟩ :=
    WritesKept.tryWrites husable (WritesKept.start husable) (by simpa using Nat.le_of_lt hfew) htry
  rw [List.nil_append, Nat.zero_add] at hkept
  rw [Nat.zero_add] at hcount
  constructor
  case left =>
    intro frame file next outcome hwrite hfailed
    exact (hkept.write husable (by omega) hwrite).2.2 hfailed
  case right =>
    intro ended hfinish
    obtain ⟨rfl, hok⟩ := Prod.mk.inj hfinish
    have hstored := hkept.close husable hok
    have hsum : (acceptedFiles trials).length =
        (kept ++ pending).length + refusals trials * (layout.framesPerArchive - 1) := by
      rw [List.length_append]
      exact hkept.length
    refine ⟨kept ++ pending, hkept.sublist, hstored, hsum, fun hall => ?_, fun hnone => ?_⟩
    · -- Nothing is missing, so the refused archives have cost nothing.
      have hlength := hall.length_eq.trans hstored.length_eq.symm
      have hcost : refusals trials * (layout.framesPerArchive - 1) = 0 := by omega
      have hroom := hkept.room
      exact (Nat.mul_eq_zero.mp hcost).imp_right fun h => by dsimp only; omega
    · -- The refused archives have cost nothing, so what is kept is all of it.
      have hcost : refusals trials * (layout.framesPerArchive - 1) = 0 := by
        rcases hnone with hnone | hone
        · rw [hnone, Nat.zero_mul]
        · dsimp only at hone
          rw [hone]
          rfl
      rw [hcost, Nat.add_zero] at hsum
      rw [← hkept.sublist.eq_of_length hsum.symm]
      exact hstored

end Outcome

/-- Archives of two frames each. -/
def pairOptions : PackOptions where
  capacity := 2
  naming := .sequence
  stem := "reel"
  firstNumber := none
  player := none

/-- A writer of archives of two frames each, before its first file. -/
def pairWriter : ArchiveWriter where
  options := pairOptions
  layout := ⟨2, 1⟩
  current := []
  archiveIndex := 0
  count := 0
  closed := false
  archives := []

/-- A drawing of one byte. -/
def byteFile (byte : UInt8) : FrameFile where
  type := "BINARY"
  label := "DATA"
  extension := "tek"
  data := [byte]

/-- Device files in archives of two, for a store that refuses the first archive. -/
def pairRenderer : Renderer Rat FrameFile (ArchiveSet StoreLog) :=
  archiveRenderer .tek4010 ⟨2, 1⟩ ⟨0, 0⟩
    (memoryStore fun request => if request = 0 then some (.system "disk full") else none)

/-- Two frames; the second one is written again, since it fills the archive that is refused. -/
def pairCalls : List (Binary64 × FrameFile) :=
  [(0, byteFile 65), (1, byteFile 66), (1, byteFile 66)]

/-- What the writes of two frames lead to. -/
def pairTrials : Rendering (ArchiveSet StoreLog) × List (FrameFile × WriteOutcome) :=
  pairRenderer.tryWrites ⟨0, ⟨pairWriter, .empty⟩⟩ pairCalls

/-- The first frame is missing: one file is lost by the one refusal. -/
theorem accepted_stored_iff_pair :
    ArchiveWriter.start pairOptions = .ok pairWriter ∧
      ∃ ended kept, pairRenderer.finish pairTrials.1 = (ended, .ok ()) ∧
        kept.Sublist (acceptedFiles pairTrials.2) ∧
        List.Forall₂ pairOptions.naming.Writes kept ended.output.writer.frames ∧
        (acceptedFiles pairTrials.2).length = kept.length + 1 * (2 - 1) := by
  have hstart : ArchiveWriter.start pairOptions = .ok pairWriter := by decide +kernel
  obtain ⟨-, hkept⟩ := accepted_stored_iff hstart
    (Binary64.valid_ofNat (n := 1) (by decide)) nofun (by decide)
    (show pairRenderer.tryWrites ⟨0, ⟨pairWriter, .empty⟩⟩ pairCalls =
      (pairTrials.1, pairTrials.2) from rfl)
  have hended : (pairRenderer.finish pairTrials.1).2 = .ok () := by decide +kernel
  obtain ⟨kept, hsublist, hwrites, hlength, -⟩ := hkept _ (Prod.ext rfl hended)
  have hrefused : refusals pairTrials.2 = 1 := by decide +kernel
  rw [hrefused] at hlength
  exact ⟨hstart, _, kept, Prod.ext rfl hended, hsublist, hwrites, hlength⟩

/-- Both frames were accepted, and the output ended without failure, but the second one is all that
was stored, under the number of the first. -/
theorem accepted_file_lost :
    acceptedFiles pairTrials.2 = [byteFile 65, byteFile 66] ∧
      (pairRenderer.finish pairTrials.1).2 = .ok () ∧
      (pairRenderer.finish pairTrials.1).1.output.writer.frames =
        [⟨1, "frame_0001.tek", [66]⟩] := by
  decide +kernel

end Flipbook
