import Flipbook.Proofs.Archive.Chunks
import Flipbook.Proofs.Archive.Names
import Flipbook.Proofs.Archive.Sorting
import Flipbook.Proofs.Traverse

/-!
# What packing depends on

Once a sequence is sorted and checked, its numbers are forgotten: the archives are made of the files
in their order. Of the files only what their names keep matters, and of a player only the programs
that it makes.

## Main definitions

* `framesOf`, `packFrames`: the files of a sequence in their order, and their archives.
* `Naming.store`, `Naming.restore`: a file as it is stored, and as it is read back.

## Main results

* `packSequence_eq`: packing forgets the numbers of the files;
* `packFrames_kept`, `packSequence_player`: what does not matter;
* `readArchiveFile_store`: what is stored is read back;
* `packFrames_oneArchive`: the only archive of files that one archive holds.
-/

namespace Flipbook

/-- The files of a sequence in the order of their numbers. -/
def framesOf (files : List SequenceFile) : List FrameFile :=
  (sortByNumber files).map SequenceFile.file

/-- A sequence has as many frames as files. -/
@[simp]
theorem length_framesOf (files : List SequenceFile) : (framesOf files).length = files.length := by
  rw [framesOf, List.length_map, (sortByNumber_perm files).length_eq]

/-- A sequence with files has frames. -/
theorem framesOf_ne_nil {files : List SequenceFile} (hne : files ≠ []) : framesOf files ≠ [] := by
  rw [← List.length_pos_iff, length_framesOf]
  exact List.length_pos_iff.mpr hne

/-- What holds of all files of a sequence holds of its frames. -/
theorem forall_mem_framesOf {files : List SequenceFile} {P : FrameFile → Prop}
    (h : ∀ f ∈ files, P f.file) : ∀ file ∈ framesOf files, P file := by
  rw [framesOf, List.forall_mem_map]
  exact fun f hf => h f ((sortByNumber_perm files).mem_iff.mp hf)

/-- The archives of files in their order. -/
def packFrames (layout : ArchiveLayout) (options : PackOptions) (frames : List FrameFile) :
    Except OutputError (List PackedArchive) := do
  let entries ← frames.zipIdx.mapM fun p => layout.entry options.naming p.2 p.1
  (chunks layout.framesPerArchive entries).zipIdx.mapM fun p => sealArchive options p.2 p.1

section Forgetting

variable {files : List SequenceFile} {options : PackOptions} {layout : ArchiveLayout}

/-- Packing forgets the numbers of the files. -/
theorem packSequence_eq (hlayout : options.layout = .ok layout)
    (hfault : sequenceFault none (sortByNumber files) = none) :
    packSequence files options = packFrames layout options (framesOf files) := by
  rw [packSequence, packFrames, framesOf, hlayout, List.zipIdx_map, List.mapM_map]
  dsimp only [bind, Except.bind]
  rw [hfault]
  rfl

/-- Consecutive files are packed in their order. -/
theorem packSequence_numbered {first : Nat} {frames : List FrameFile}
    (hlayout : options.layout = .ok layout) (hdata : ∀ file ∈ frames, file.data ≠ [])
    (hbound : first + frames.length ≤ Binary64.exactBound) :
    packSequence (numbered first frames) options = packFrames layout options frames := by
  rw [packSequence_eq hlayout (sequenceFault_of_perm hbound hdata (.refl _)), framesOf,
    sortByNumber_of_perm hbound (.refl _), map_file_numbered]

/-- Options that do not make sense are refused before the files are looked at. -/
theorem packSequence_error {e : OutputError} (hlayout : options.layout = .error e)
    (files : List SequenceFile) : packSequence files options = .error e := by
  rw [packSequence, hlayout]
  rfl

/-- What the names do not keep of a file does not matter. -/
theorem packFrames_kept (layout : ArchiveLayout) (options : PackOptions)
    (frames : List FrameFile) :
    packFrames layout options (frames.map options.naming.kept) =
      packFrames layout options frames := by
  have hentry : ∀ p : FrameFile × Nat,
      layout.entry options.naming p.2 (options.naming.kept p.1) =
        layout.entry options.naming p.2 p.1 := by
    intro p
    rw [ArchiveLayout.entry, ArchiveLayout.entry, FrameFile.toEntry, FrameFile.toEntry,
      Naming.format_kept, Naming.kept_data]
  rw [packFrames, packFrames, List.zipIdx_map, List.mapM_map]
  exact congrArg (· >>= _) (mapM_congr fun p _ => hentry p)

/-- Players that make the same programs fill the same archives. -/
theorem packSequence_player {player player' : Player}
    (hsame : ∀ bounds, player.file bounds = player'.file bounds) (files : List SequenceFile)
    (options : PackOptions) :
    packSequence files { options with player := some player } =
      packSequence files { options with player := some player' } := by
  have hseal : sealArchive { options with player := some player } =
      sealArchive { options with player := some player' } := by
    funext index frames
    rw [sealArchive, sealArchive, withPlayer, withPlayer]
    dsimp only
    split <;> simp_all
  rw [packSequence, packSequence, hseal]
  rfl

/-- A file that is packed is not empty. -/
theorem data_ne_nil_of_sequenceFault {previous : Option Binary64}
    (h : sequenceFault previous files = none) : ∀ f ∈ files, f.file.data ≠ [] := by
  induction files generalizing previous with
  | nil => exact fun _ hf => absurd hf List.not_mem_nil
  | cons f files ih =>
    rw [sequenceFault, Option.or_eq_none_iff] at h
    rw [List.forall_mem_cons]
    refine ⟨fun hdata => ?_, ih h.2⟩
    have hfault := h.1
    cases previous with
    | none => simp [fileFault, hdata] at hfault
    | some p =>
      simp only [fileFault, hdata] at hfault
      split at hfault
      · cases hfault
      · split at hfault <;> cases hfault

end Forgetting

/-- The entry that a file is stored in. -/
def Naming.store (naming : Naming) (f : SequenceFile) : ArchiveEntry where
  number := f.number
  name := (naming.format f.number f.file).toOption.getD ""
  data := f.file.data

/-- A file that is read back from its entry. -/
def Naming.restore (naming : Naming) (f : SequenceFile) : SequenceFile :=
  ⟨f.number, naming.kept f.file⟩

/-- A file that can be found again by the name of its entry. -/
def Naming.Finds (naming : Naming) (f : SequenceFile) : Prop :=
  ∃ n, f.number = .ofNat n ∧ 0 < n ∧ n < listedBound ∧ naming.Names f.file

section OneArchive

variable {naming : Naming} {f : SequenceFile} {first : Nat} {frames : List FrameFile}

/-- The entry of a file, if it has a name. -/
theorem toEntry_eq (h : naming.Finds f) : f.file.toEntry f.number naming = .ok (naming.store f) := by
  obtain ⟨n, hn, hpos, hlt, hnames⟩ := h
  obtain ⟨name, hname⟩ := Naming.format_isOk hpos hlt hnames
  rw [FrameFile.toEntry, Naming.store, hn, hname]
  rfl

/-- A stored file is read back. -/
theorem readArchiveFile_store (h : naming.Finds f) :
    readArchiveFile naming (Zip.Listed.ofEntry ⟨(naming.store f).name, (naming.store f).data⟩) =
      .ok (naming.restore f) := by
  obtain ⟨n, hn, hpos, hlt, hnames⟩ := h
  obtain ⟨name, hname⟩ := Naming.format_isOk hpos hlt hnames
  have hstored : (naming.store f).name = name := by
    rw [Naming.store, hn, hname]
    rfl
  rw [hstored, Naming.restore, hn]
  exact readArchiveFile_of_format hpos hlt hnames hname

/-- Consecutive files can be found again as long as their numbers fit into a name. -/
theorem finds_of_mem_numbered (hpos : 0 < first) (h : first + frames.length ≤ listedBound)
    (hnames : ∀ file ∈ frames, naming.Names file) (hf : f ∈ numbered first frames) :
    naming.Finds f := by
  obtain ⟨n, hn, hle, hlt⟩ := exists_of_mem_numbered hf
  have hfile : f.file ∈ (numbered first frames).map SequenceFile.file := List.mem_map_of_mem hf
  rw [map_file_numbered] at hfile
  exact ⟨n, hn, by omega, by omega, hnames _ hfile⟩

/-- Restoring consecutive files keeps their numbers. -/
theorem map_restore_numbered (naming : Naming) (first : Nat) (frames : List FrameFile) :
    (numbered first frames).map naming.restore = numbered first (frames.map naming.kept) := by
  induction frames generalizing first with
  | nil => rfl
  | cons file frames ih =>
    rw [numbered_cons, List.map_cons, List.map_cons, numbered_cons, ih]
    rfl

/-- A positive number is one that options accept. -/
theorem positive?_ofNat {n : Nat} (hpos : 0 < n) (h : n ≤ Binary64.exactBound) :
    (Binary64.ofNat n).positive? = some n := by
  rw [Binary64.positive?, Binary64.toNat?_ofNat h, Option.filter_some,
    if_pos (decide_eq_true hpos)]

/-- The number of a file counts from that of the first file in its archive. -/
theorem numberAt_eq_ofNat {layout : ArchiveLayout} {position : Nat}
    (hfirst : layout.firstFrameNumber = .ofNat first) (hpos : 0 < first)
    (h : first + position % layout.framesPerArchive < Binary64.exactBound) :
    layout.numberAt position = .ofNat (first + position % layout.framesPerArchive) := by
  obtain ⟨before, rfl⟩ := Nat.exists_eq_succ_of_ne_zero (Nat.pos_iff_ne_zero.mp hpos)
  rw [ArchiveLayout.numberAt, hfirst, Binary64.ofNat_sub_one (by omega),
    Binary64.ofNat_add (by omega)]
  congr 1
  omega

/-- The number of a file in an archive that holds it and all before it. -/
theorem numberAt_ofNat {layout : ArchiveLayout} {position : Nat}
    (hfirst : layout.firstFrameNumber = .ofNat first) (hpos : 0 < first)
    (hroom : position < layout.framesPerArchive) (h : first + position < listedBound) :
    layout.numberAt position = .ofNat (first + position) := by
  have hbound := listedBound_lt
  have hmod := Nat.mod_eq_of_lt hroom
  rw [numberAt_eq_ofNat hfirst hpos (by omega), hmod]

/-- Frames that fit into one archive are sealed in it. -/
theorem packFrames_oneArchive {layout : ArchiveLayout} {options : PackOptions} (hne : frames ≠ [])
    (hfirst : layout.firstFrameNumber = .ofNat first) (hpos : 0 < first)
    (hroom : frames.length ≤ layout.framesPerArchive)
    (h : first + frames.length ≤ listedBound)
    (hnames : ∀ file ∈ frames, options.naming.Names file) :
    packFrames layout options frames =
      (sealArchive options 0 ((numbered first frames).map options.naming.store)).map
        fun archive => [archive] := by
  -- All positions are within the archive, so the numbers count up from the first one.
  have hentries : (frames.zipIdx.mapM fun p => layout.entry options.naming p.2 p.1) =
      .ok ((numbered first frames).map options.naming.store) := by
    rw [numbered_eq, List.map_map]
    refine mapM_eq_ok fun p hp => ?_
    have hlt : p.2 < frames.length := by
      have := List.snd_lt_of_mem_zipIdx hp
      omega
    have hmem := List.fst_mem_of_mem_zipIdx hp
    rw [ArchiveLayout.entry, numberAt_ofNat hfirst hpos (by omega) (by omega)]
    refine toEntry_eq (f := ⟨.ofNat (first + p.2), p.1⟩) ⟨first + p.2, rfl, by omega, by omega, ?_⟩
    exact hnames _ hmem
  have hlength : ((numbered first frames).map options.naming.store).length = frames.length := by
    rw [List.length_map, length_numbered]
  have hstored : (numbered first frames).map options.naming.store ≠ [] := by
    rw [← List.length_pos_iff, hlength]
    exact List.length_pos_iff.mpr hne
  rw [packFrames, hentries]
  show ((chunks layout.framesPerArchive
    ((numbered first frames).map options.naming.store)).zipIdx.mapM fun p =>
      sealArchive options p.2 p.1) = _
  rw [chunks_eq_singleton hstored (by omega), List.zipIdx_singleton, List.mapM_cons]
  cases sealArchive options 0 ((numbered first frames).map options.naming.store) <;> rfl

end OneArchive

end Flipbook
