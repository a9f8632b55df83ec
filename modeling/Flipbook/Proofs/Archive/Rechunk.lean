import Mathlib.Control.Monad.Basic
import Flipbook.Proofs.Archive.Packing
import Flipbook.Proofs.Archive.Playback
import Flipbook.Proofs.Archive.Program
import Flipbook.Zip.Read

/-!
# Splitting an archive anew is packing anew

A sequence that was packed into one archive, and is split anew, gives the archives that packing the
sequence with the new options gives. If the archive has a player, the new archives have players with
the same delay.

## Main definitions

* `Zip.Restores`: what is expected of reading a zip file.
* `PackOptions.OneArchive`: the options for which a sequence fits into one archive.

## Main results

* `rechunk_packSequence`: splitting anew is packing anew.
-/

namespace Flipbook

deriving instance DecidableEq for Zip.Listed

/-- Reading the zip file of some entries gives them back, in any order. -/
def Zip.Restores [Zip.Codec] (entries : List Zip.Entry) : Prop :=
  ∃ listed, Zip.Codec.read (Zip.Codec.write entries) = .ok listed ∧
    listed.Perm (entries.map Zip.Listed.ofEntry)

section Reading

variable [Zip.Codec] {archive : PackedArchive} {naming : Naming} {stored : List SequenceFile}

/-- The files of an archive are read back in any order. -/
theorem readArchiveFiles_toZip (hentries : archive.entries = stored.map naming.store)
    (hfinds : ∀ f ∈ stored, naming.Finds f)
    (hzip : Zip.Restores (archive.entries.map fun e => ⟨e.name, e.data⟩)) :
    ∃ arranged, readArchiveFiles naming archive.toZip = .ok arranged ∧
      arranged.Perm (stored.map naming.restore) := by
  obtain ⟨listed, hread, hperm⟩ := hzip
  rw [hentries, List.map_map, List.map_map] at hperm
  have hstored : (stored.map (Zip.Listed.ofEntry ∘ (fun e : ArchiveEntry => ⟨e.name, e.data⟩) ∘
      naming.store)).mapM (readArchiveFile naming) = .ok (stored.map naming.restore) := by
    rw [List.mapM_map]
    exact mapM_eq_ok fun f hf => readArchiveFile_store (hfinds f hf)
  obtain ⟨arranged, harranged, hrestored⟩ := mapM_perm hperm hstored
  refine ⟨arranged, ?_, hrestored⟩
  rw [readArchiveFiles, PackedArchive.toZip, hread]
  exact harranged

end Reading

section Repacking

variable {files arranged : List SequenceFile} {options : PackOptions} {first : Nat}

/-- Files that were read back are packed like those that were stored. -/
theorem packSequence_restored (hfault : sequenceFault none (sortByNumber files) = none)
    (h : first + files.length ≤ listedBound)
    (hperm : arranged.Perm (numbered first ((framesOf files).map options.naming.kept))) :
    packSequence arranged options = packSequence files options := by
  have hbound := listedBound_lt
  have hlength : ((framesOf files).map options.naming.kept).length = files.length := by
    rw [List.length_map, length_framesOf]
  have hsorted := sortByNumber_of_perm (by omega) hperm
  have hdata : ∀ file ∈ (framesOf files).map options.naming.kept, file.data ≠ [] := by
    simp only [framesOf, List.forall_mem_map, Naming.kept_data]
    exact data_ne_nil_of_sequenceFault hfault
  cases hlayout : options.layout with
  | error e => rw [packSequence_error hlayout, packSequence_error hlayout]
  | ok layout =>
    have hfault' : sequenceFault none (sortByNumber arranged) = none :=
      sequenceFault_of_perm (by omega) hdata hperm
    have hframes : framesOf arranged = (framesOf files).map options.naming.kept := by
      rw [framesOf, hsorted, map_file_numbered]
    rw [packSequence_eq hlayout hfault', packSequence_eq hlayout hfault, hframes,
      packFrames_kept]

end Repacking

section Playing

variable {arranged : List SequenceFile} {frames : List FrameFile} {options : PackOptions}
  {delay : Binary64} {player : FrameFile} {first : Nat}

/-- An archive without a player is packed like any sequence. -/
theorem rechunkFiles_unplayed (h : ∀ f ∈ arranged, isPlayerFile f.file = false) :
    rechunkFiles arranged options = packSequence arranged options := by
  have hplayers : (arranged.filter fun f => isPlayerFile f.file) = [] := by
    rw [List.filter_eq_nil_iff]
    exact fun f hf => by rw [h f hf]; exact Bool.false_ne_true
  rw [rechunkFiles, hplayers]

/-- The frames that a player plays are found among the files of its archive. -/
theorem playedFiles_perm (h : first + frames.length < listedBound)
    (hframes : ∀ file ∈ frames, isPlayerFile file = false) (hplayer : isPlayerFile player = true)
    (hperm : arranged.Perm (⟨.ofNat first, player⟩ :: numbered (first + 1) frames)) :
    (playedFiles arranged ⟨.ofNat (first + 1), .ofNat (first + frames.length)⟩).Perm
      (numbered (first + 1) frames) := by
  have hbound := listedBound_lt
  refine (hperm.filter _).trans ?_
  dsimp only
  rw [List.filter_cons_of_neg (by simp [hplayer]), List.filter_eq_self.mpr]
  intro f hf
  obtain ⟨n, hn, hle, hlt⟩ := exists_of_mem_numbered hf
  have hfile : f.file ∈ (numbered (first + 1) frames).map SequenceFile.file :=
    List.mem_map_of_mem hf
  rw [map_file_numbered] at hfile
  rw [hframes _ hfile, hn, Binary64.le_ofNat (by omega) (by omega),
    Binary64.le_ofNat (by omega) (by omega), decide_eq_true hle, decide_eq_true (by omega)]
  rfl

/-- All frames that a player plays are present. -/
theorem playedFrames_eq_complete {chosen : List SequenceFile}
    (h : first + frames.length < listedBound)
    (hperm : chosen.Perm (numbered (first + 1) frames)) :
    playedFrames (chosen.map SequenceFile.number)
      ⟨.ofNat (first + 1), .ofNat (first + frames.length)⟩ = .complete := by
  have hbound := listedBound_lt
  have hmem : ∀ a, a ∈ chosen.map SequenceFile.number ↔
      ∃ n, (first + 1 ≤ n ∧ n < first + 1 + frames.length) ∧ .ofNat n = a := by
    intro a
    rw [(hperm.map _).mem_iff, map_number_numbered, List.mem_map]
    simp only [List.mem_range'_1]
  rw [playedFrames_eq_complete_iff ⟨first + 1, rfl⟩]
  · intro n hfirst hlast
    rw [Binary64.ofNat_le_iff (by omega)] at hfirst
    rw [Binary64.le_ofNat_iff (by omega)] at hlast
    exact (hmem _).mpr ⟨n, by omega, rfl⟩
  · intro a ha
    obtain ⟨n, hn, rfl⟩ := (hmem a).mp ha
    exact ⟨n, by omega, rfl⟩

/-- A program that was built anew and one that is set to the frames of each archive are the same. -/
theorem existing_file_eq {last : Nat} (hpos : 0 < first) (hfirst : first < Binary64.exactBound)
    (hlast : last < Binary64.exactBound) (bounds : FrameBounds) :
    (Player.existing (buildPlayerProgram ⟨.ofNat first, .ofNat last⟩ delay)).file bounds =
      (Player.fresh delay).file bounds := by
  rw [Player.file, Player.file, setPlayerBounds_build hpos hfirst hlast]
  rfl

/-- An archive with a player is packed like its frames, with players of the same delay. -/
theorem rechunkFiles_played (h : first + frames.length < listedBound)
    (hframes : ∀ file ∈ frames, isPlayerFile file = false) (hplayer : isPlayerFile player = true)
    (hdata : player.data =
      buildPlayerProgram ⟨.ofNat (first + 1), .ofNat (first + frames.length)⟩ delay)
    (hperm : arranged.Perm (⟨.ofNat first, player⟩ :: numbered (first + 1) frames))
    (hoptions : options.player = none) :
    ∃ chosen, chosen.Perm (numbered (first + 1) frames) ∧ rechunkFiles arranged options =
      packSequence chosen { options with player := some (.fresh delay) } := by
  have hbound := listedBound_lt
  have hchosen := playedFiles_perm h hframes hplayer hperm
  refine ⟨_, hchosen, ?_⟩
  -- No frame is taken for a player, so there is one player in the archive.
  have hplayers : (arranged.filter fun f => isPlayerFile f.file) = [⟨.ofNat first, player⟩] := by
    rw [← List.perm_singleton]
    refine (hperm.filter _).trans (List.Perm.of_eq ?_)
    rw [List.filter_cons_of_pos (by simpa using hplayer), List.filter_eq_nil_iff.mpr]
    intro f hf
    have hfile : f.file ∈ (numbered (first + 1) frames).map SequenceFile.file :=
      List.mem_map_of_mem hf
    rw [map_file_numbered] at hfile
    rw [hframes _ hfile]
    exact Bool.false_ne_true
  have hbounds : playerBounds (buildPlayerProgram
      ⟨.ofNat (first + 1), .ofNat (first + frames.length)⟩ delay) =
        .ok ⟨.ofNat (first + 1), .ofNat (first + frames.length)⟩ :=
    playerBounds_build (Nat.succ_pos first) (by omega) (by omega)
  rw [rechunkFiles, hplayers]
  show rechunkPlayed arranged player.data options = _
  rw [hdata, rechunkPlayed_eq hbounds hoptions, playedFrames_eq_complete h hchosen]
  exact packSequence_player (existing_file_eq (Nat.succ_pos first) (by omega) (by omega)) _ _

end Playing

/-- The number of files in an archive that holds a whole sequence, with its player. -/
def PackOptions.fileCount (options : PackOptions) (files : List SequenceFile) : Nat :=
  files.length + if options.player.isSome then 1 else 0

/-- The options put a whole sequence into one archive, whose files have numbers that fit into their
names. -/
structure PackOptions.OneArchive (options : PackOptions) (files : List SequenceFile)
    (first : Nat) : Prop where
  /-- The archive has room for all files. -/
  capacity : ∃ room, options.capacity.positive? = some room ∧ options.fileCount files ≤ room
  /-- The numbers of the files count from the first one. -/
  firstNumber : options.firstNumber.getD 1 = .ofNat first
  /-- The first number is positive. -/
  pos : 0 < first
  /-- The last number fits into a name. -/
  numbers : first + options.fileCount files ≤ listedBound

section OneArchive

variable {files : List SequenceFile} {p : PackOptions} {first : Nat}

/-- The layout without a player. -/
theorem PackOptions.OneArchive.layout_unplayed (h : p.OneArchive files first)
    (hplayer : p.player = none) :
    ∃ room, p.layout = .ok ⟨room, .ofNat first⟩ ∧ files.length ≤ room ∧
      first + files.length ≤ listedBound := by
  obtain ⟨room, hroom, hcount⟩ := h.capacity
  have hnumbers := h.numbers
  have hbound := listedBound_lt
  simp only [fileCount, hplayer, Option.isSome_none, Bool.false_eq_true, if_false,
    Nat.add_zero] at hcount hnumbers
  have hfirst : (Binary64.ofNat first).positive? = some first := positive?_ofNat h.pos (by omega)
  refine ⟨room, ?_, hcount, hnumbers⟩
  rw [layout, hroom, h.firstNumber]
  simp only [hfirst, hplayer, Option.isNone_none, if_true]

/-- The layout with a player, which takes the first place. -/
theorem PackOptions.OneArchive.layout_played (h : p.OneArchive files first) {player : Player}
    (hplayer : p.player = some player) (hne : files ≠ []) :
    ∃ room, p.layout = .ok ⟨room, .ofNat (first + 1)⟩ ∧ files.length ≤ room ∧
      first + files.length < listedBound := by
  obtain ⟨room, hroom, hcount⟩ := h.capacity
  have hnumbers := h.numbers
  have hbound := listedBound_lt
  have hlength := List.length_pos_iff.mpr hne
  simp only [fileCount, hplayer, Option.isSome_some, if_true] at hcount hnumbers
  have hfirst : (Binary64.ofNat first).positive? = some first := positive?_ofNat h.pos (by omega)
  refine ⟨room - 1, ?_, by omega, by omega⟩
  rw [layout, hroom, h.firstNumber]
  simp only [hfirst, hplayer, Option.isNone_some, Bool.false_eq_true, if_false]
  rw [if_neg (by omega), Binary64.ofNat_add_one (by omega)]

/-- The only archive of a sequence without a player. -/
theorem packSequence_unplayed (h : p.OneArchive files first) (hplayer : p.player = none)
    (hne : files ≠ []) (hfault : sequenceFault none (sortByNumber files) = none)
    (hnames : ∀ f ∈ files, p.naming.Names f.file) :
    ∃ archive, packSequence files p = .ok [archive] ∧
      archive.entries = (numbered first (framesOf files)).map p.naming.store := by
  obtain ⟨room, hlayout, hroom, hnumbers⟩ := h.layout_unplayed hplayer
  have hlength := length_framesOf files
  refine ⟨⟨0, archiveName p.stem (String.ofList (suffixChars 0)), _⟩, ?_, rfl⟩
  rw [← hlength] at hroom hnumbers
  rw [packSequence_eq hlayout hfault, packFrames_oneArchive (framesOf_ne_nil hne) rfl h.pos hroom
    hnumbers (forall_mem_framesOf hnames), sealArchive, withPlayer, hplayer]
  rfl

/-- The frames of an archive behind the player that is made for them. -/
theorem withPlayer_numbered {player : Player} {frames : List FrameFile} {file : FrameFile}
    (hplayer : p.player = some player) (hne : frames ≠ [])
    (hnumbers : first + frames.length < listedBound)
    (hfile : player.file ⟨.ofNat (first + 1), .ofNat (first + frames.length)⟩ = .ok file)
    (hfinds : p.naming.Finds ⟨.ofNat first, file⟩) :
    withPlayer p ((numbered (first + 1) frames).map p.naming.store) =
      .ok (p.naming.store ⟨.ofNat first, file⟩ ::
        (numbered (first + 1) frames).map p.naming.store) := by
  have hbound := listedBound_lt
  have hlength := List.length_pos_iff.mpr hne
  generalize hentries : (numbered (first + 1) frames).map p.naming.store = entries
  -- The player is made for the numbers of the first and the last frame.
  have hall : entries.map ArchiveEntry.number =
      (List.range' (first + 1) frames.length).map .ofNat := by
    rw [← hentries, List.map_map, ← map_number_numbered]
    rfl
  have hhead : entries.head?.map ArchiveEntry.number = some (.ofNat (first + 1)) := by
    rw [← List.head?_map, hall, List.head?_map, List.head?_range', if_neg (by omega),
      Option.map_some]
  have hlast : entries.getLast?.map ArchiveEntry.number =
      some (.ofNat (first + frames.length)) := by
    rw [← List.getLast?_map, hall, List.getLast?_map, List.getLast?_range', if_neg (by omega),
      Option.map_some]
    congr 2
    omega
  obtain ⟨head, hheadEq, hheadNumber⟩ := Option.map_eq_some_iff.mp hhead
  obtain ⟨last, hlastEq, hlastNumber⟩ := Option.map_eq_some_iff.mp hlast
  have hentry := toEntry_eq hfinds
  rw [withPlayer, hplayer, hheadEq, hlastEq]
  dsimp only
  rw [hheadNumber, hlastNumber, hfile, Binary64.ofNat_sub_one (by omega)]
  show (file.toEntry (.ofNat first) p.naming >>= fun entry => .ok (entry :: entries)) = _
  dsimp only at hentry
  rw [hentry]
  rfl

/-- The contents of a player are its program. -/
theorem playerFile_data (program : List UInt8) : (playerFile program).data = program :=
  rfl

/-- The player of an archive can be listed. -/
theorem listable_playerFile {program : List UInt8} (h : program.length < Binary64.exactBound) :
    (playerFile program).Listable where
  type_ne := (by decide : "ASCII".toList ≠ [])
  type_length := (by decide : "ASCII".toList.length ≤ 7)
  type_upper := (by decide : "ASCII".toList.all Char.isUpper = true)
  label_head := (by decide : playerLabel.toList.head?.any isBlank = false)
  label_last := (by decide : playerLabel.toList.getLast?.any isBlank = false)
  label_slash := (by decide : '/' ∉ playerLabel.toList)
  label_line := (by decide : playerLabel.toList.any isLineEnd = false)
  size_lt := h

/-- The only archive of a sequence with a player on the flash drive. -/
theorem packSequence_played (h : p.OneArchive files first) {delay : Binary64}
    (hdelay : delay.Valid) (hplayer : p.player = some (.fresh delay)) (hne : files ≠ [])
    (hnaming : p.naming = .flashDrive)
    (hfault : sequenceFault none (sortByNumber files) = none)
    (hnames : ∀ f ∈ files, p.naming.Names f.file) :
    ∃ archive, packSequence files p = .ok [archive] ∧
      ∃ player, player = playerFile (buildPlayerProgram
          ⟨.ofNat (first + 1), .ofNat (first + files.length)⟩ delay) ∧
        p.naming.Finds ⟨.ofNat first, player⟩ ∧ archive.entries =
          (⟨.ofNat first, player⟩ :: numbered (first + 1) (framesOf files)).map p.naming.store := by
  obtain ⟨room, hlayout, hroom, hnumbers⟩ := h.layout_played hplayer hne
  have hbound := listedBound_lt
  have hlength := length_framesOf files
  have hframes := framesOf_ne_nil hne
  -- The program is short enough for its size to be listed.
  have hsize : (buildPlayerProgram ⟨.ofNat (first + 1), .ofNat (first + files.length)⟩ delay).length
      < Binary64.exactBound := by
    refine length_build_lt ?_ (Binary64.valid_ofNat (by omega)) hdelay
    show (Binary64.ofNat (first + 1) - 1).Valid
    rw [Binary64.ofNat_sub_one (by omega)]
    exact Binary64.valid_ofNat (by omega)
  have hfinds : p.naming.Finds ⟨.ofNat first, playerFile (buildPlayerProgram
      ⟨.ofNat (first + 1), .ofNat (first + files.length)⟩ delay)⟩ := by
    refine ⟨first, rfl, h.pos, by omega, ?_⟩
    rw [hnaming]
    exact listable_playerFile hsize
  refine ⟨⟨0, archiveName p.stem (String.ofList (suffixChars 0)), _⟩, ?_, _, rfl, hfinds, rfl⟩
  have hroom' : (framesOf files).length ≤ room := by omega
  rw [packSequence_eq hlayout hfault, packFrames_oneArchive hframes rfl (Nat.succ_pos first)
    hroom' (by omega) (forall_mem_framesOf hnames), sealArchive,
    withPlayer_numbered hplayer hframes (by omega) (by rw [hlength]; rfl) hfinds]
  rfl

end OneArchive

section Rechunk

variable {files : List SequenceFile} {p q : PackOptions} {first : Nat} {layout : ArchiveLayout}

/-- The frames that are read back are not taken for players. -/
theorem isPlayerFile_framesOf {naming : Naming} (h : ∀ f ∈ files, naming.Accepts f.file) :
    ∀ file ∈ (framesOf files).map naming.kept, isPlayerFile file = false := by
  rw [List.forall_mem_map]
  have hkept : ∀ f ∈ files, isPlayerFile (naming.kept f.file) = false :=
    fun f hf => Naming.isPlayerFile_kept (h f hf)
  exact forall_mem_framesOf (P := fun file => isPlayerFile (naming.kept file) = false) hkept

variable [Zip.Codec]

/-- Once an archive is read, splitting it anew is a matter of its files. -/
theorem rechunk_of_read {bytes : List UInt8} {arranged : List SequenceFile}
    (hq : q.layout = .ok layout) (hread : readArchiveFiles q.naming bytes = .ok arranged) :
    rechunk bytes q = (rechunkFiles arranged q).mapError .output := by
  rw [rechunk, hread, rechunkEntries, hq]

/-- An archive without a player is packed anew like its files. -/
theorem rechunk_unplayed (hp : p.OneArchive files first) (hplayer : p.player = none)
    (hne : files ≠ []) (hfault : sequenceFault none (sortByNumber files) = none)
    (hnames : ∀ f ∈ files, p.naming.Accepts f.file) (hnaming : q.naming = p.naming)
    (hq : q.layout = .ok layout) :
    ∃ archive, packSequence files p = .ok [archive] ∧
      (Zip.Restores (archive.entries.map fun e => ⟨e.name, e.data⟩) →
        rechunk archive.toZip q = (packSequence files q).mapError .output) := by
  have hcan : ∀ f ∈ files, p.naming.Names f.file := fun f hf => (hnames f hf).1
  obtain ⟨room, -, -, hnumbers⟩ := hp.layout_unplayed hplayer
  obtain ⟨archive, hpack, hstored⟩ := packSequence_unplayed hp hplayer hne hfault hcan
  refine ⟨archive, hpack, fun hzip => ?_⟩
  have hfinds : ∀ f ∈ numbered first (framesOf files), p.naming.Finds f := fun f hf =>
    finds_of_mem_numbered hp.pos (by rwa [length_framesOf]) (forall_mem_framesOf hcan) hf
  obtain ⟨arranged, hread, hperm⟩ := readArchiveFiles_toZip hstored hfinds hzip
  rw [map_restore_numbered] at hperm
  have hplayers : ∀ f ∈ arranged, isPlayerFile f.file = false := by
    intro f hf
    have hfile := List.mem_map_of_mem (f := SequenceFile.file) (hperm.mem_iff.mp hf)
    rw [map_file_numbered] at hfile
    exact isPlayerFile_framesOf hnames _ hfile
  rw [← hnaming] at hread hperm
  rw [rechunk_of_read hq hread, rechunkFiles_unplayed hplayers,
    packSequence_restored hfault hnumbers hperm]

/-- An archive with a player is packed anew like its frames, with players of the same delay. -/
theorem rechunk_played (hp : p.OneArchive files first) {delay : Binary64} (hdelay : delay.Valid)
    (hplayer : p.player = some (.fresh delay)) (hflash : p.naming = .flashDrive) (hne : files ≠ [])
    (hfault : sequenceFault none (sortByNumber files) = none)
    (hnames : ∀ f ∈ files, p.naming.Accepts f.file) (hnaming : q.naming = p.naming)
    (hq : q.layout = .ok layout) (hunplayed : q.player = none) :
    ∃ archive, packSequence files p = .ok [archive] ∧
      (Zip.Restores (archive.entries.map fun e => ⟨e.name, e.data⟩) →
        rechunk archive.toZip q =
          (packSequence files { q with player := some (.fresh delay) }).mapError .output) := by
  have hcan : ∀ f ∈ files, p.naming.Names f.file := fun f hf => (hnames f hf).1
  obtain ⟨room, -, -, hnumbers⟩ := hp.layout_played hplayer hne
  obtain ⟨archive, hpack, player, hfile, hfound, hstored⟩ :=
    packSequence_played hp hdelay hplayer hne hflash hfault hcan
  refine ⟨archive, hpack, fun hzip => ?_⟩
  have hlength : first + 1 + (framesOf files).length ≤ listedBound := by
    rw [length_framesOf]
    omega
  have hfinds : ∀ f ∈ ⟨.ofNat first, player⟩ :: numbered (first + 1) (framesOf files),
      p.naming.Finds f := by
    rw [List.forall_mem_cons]
    exact ⟨hfound, fun f hf =>
      finds_of_mem_numbered (Nat.succ_pos first) hlength (forall_mem_framesOf hcan) hf⟩
  obtain ⟨arranged, hread, hperm⟩ := readArchiveFiles_toZip hstored hfinds hzip
  rw [List.map_cons, map_restore_numbered] at hperm
  have hkept : ((framesOf files).map p.naming.kept).length = files.length := by
    rw [List.length_map, length_framesOf]
  -- What is read back is still a player, with the same program.
  have hrestored : isPlayerFile (p.naming.kept player) = true := by
    rw [hflash, hfile]
    simp [Naming.kept, isPlayerFile, playerFile]
  have hprogram : (p.naming.kept player).data = buildPlayerProgram ⟨.ofNat (first + 1),
      .ofNat (first + ((framesOf files).map p.naming.kept).length)⟩ delay := by
    rw [Naming.kept_data, hfile, hkept, playerFile_data]
  obtain ⟨chosen, hchosen, heq⟩ := rechunkFiles_played (by rwa [hkept])
    (isPlayerFile_framesOf hnames) hrestored hprogram hperm hunplayed
  rw [← hnaming] at hread hchosen
  have hsame : packSequence chosen { q with player := some (.fresh delay) } =
      packSequence files { q with player := some (.fresh delay) } :=
    packSequence_restored hfault (show first + 1 + files.length ≤ listedBound by omega) hchosen
  rw [rechunk_of_read hq hread, heq, hsame]

/-- Splitting an archive anew is packing its files anew. A player with a delay is kept, since the new
options ask for no other one. -/
theorem rechunk_packSequence (hp : p.OneArchive files first) (hne : files ≠ [])
    (hfault : sequenceFault none (sortByNumber files) = none)
    (hnames : ∀ f ∈ files, p.naming.Accepts f.file)
    (hplayer : p.player = none ∨ p.naming = .flashDrive ∧ ∃ delay player, delay.Valid ∧
      Player.ofDelay delay = .ok player ∧ p.player = some player)
    (hnaming : q.naming = p.naming) (hq : q.layout = .ok layout) (hunplayed : q.player = none) :
    ∃ archive, packSequence files p = .ok [archive] ∧
      (Zip.Restores (archive.entries.map fun e => ⟨e.name, e.data⟩) →
        rechunk archive.toZip q =
          (packSequence files { q with player := p.player }).mapError .output) := by
  rcases hplayer with hplayer | ⟨hflash, delay, player, hvalid, hdelay, hplayer⟩
  · have hsame : { q with player := p.player } = q := by
      rw [hplayer, ← hunplayed]
    rw [hsame]
    exact rechunk_unplayed hp hplayer hne hfault hnames hnaming hq
  · have hfresh : player = .fresh delay := by
      rw [Player.ofDelay] at hdelay
      split at hdelay
      · cases hdelay
      · exact (Except.ok.inj hdelay).symm
    rw [hfresh] at hplayer
    rw [hplayer]
    exact rechunk_played hp hvalid hplayer hflash hne hfault hnames hnaming hq hunplayed

end Rechunk

/-- Two frames, one of them with blanks and digits in its label, the other without a label. -/
def twoFrames : List FrameFile :=
  [⟨"BINARY", "DATA Frame 1 2", "tga", [1]⟩, ⟨"ASCII", "", "bas", [2]⟩]

/-- Archives of the flash drive with at most so many files. -/
def flashDriveOf (capacity : Nat) : PackOptions :=
  ⟨.ofNat capacity, .flashDrive, "set", none, none⟩

/-- One archive of the flash drive that plays two frames for two seconds each. -/
def playedFlashDrive : PackOptions :=
  { flashDriveOf 3 with player := some (.fresh 2) }

/-- A zip file that lists its entries in their order restores them. -/
theorem Zip.restores_of_read {entries : List Zip.Entry}
    (h : Zip.read (Zip.write entries) = .ok (entries.map Zip.Listed.ofEntry)) :
    Zip.Restores entries :=
  ⟨_, h, .refl _⟩

/-- Two frames that are listed in one archive can be split into an archive for each, without a
player or with one. -/
theorem rechunk_twoFrames :
    (∃ archive, packSequence (numbered 7 twoFrames).reverse (flashDriveOf 2) = .ok [archive] ∧
      rechunk archive.toZip (flashDriveOf 1) =
        (packSequence (numbered 7 twoFrames).reverse (flashDriveOf 1)).mapError .output) ∧
    ∃ archive, packSequence (numbered 7 twoFrames).reverse playedFlashDrive = .ok [archive] ∧
      rechunk archive.toZip (flashDriveOf 2) =
        (packSequence (numbered 7 twoFrames).reverse
          { flashDriveOf 2 with player := some (.fresh 2) }).mapError .output := by
  have hperm : (numbered 7 twoFrames).reverse.Perm (numbered 7 twoFrames) := List.reverse_perm _
  have hfault := sequenceFault_of_perm (by decide) (by decide) hperm
  have hframes : framesOf (numbered 7 twoFrames).reverse = twoFrames := by
    rw [framesOf, sortByNumber_of_perm (by decide) hperm, map_file_numbered]
  have hnames : ∀ f ∈ (numbered 7 twoFrames).reverse, Naming.flashDrive.Accepts f.file := by
    decide +kernel
  have hcan : ∀ f ∈ (numbered 7 twoFrames).reverse, Naming.flashDrive.Names f.file :=
    fun f hf => (hnames f hf).1
  constructor
  case left =>
    have hone : (flashDriveOf 2).OneArchive (numbered 7 twoFrames).reverse 1 :=
      ⟨⟨2, positive?_ofNat (n := 2) (by decide) (by decide), by decide⟩, rfl, by decide, by decide⟩
    obtain ⟨archive, hpack, h⟩ := rechunk_packSequence (q := flashDriveOf 1) hone (by decide)
      hfault hnames (.inl rfl) rfl (show (flashDriveOf 1).layout = .ok ⟨1, 1⟩ by decide +kernel) rfl
    obtain ⟨archive', hpack', hentries⟩ := packSequence_unplayed hone rfl (by decide) hfault hcan
    -- Packing has one outcome, so the entries of this archive are known.
    obtain rfl : archive = archive' := by
      rw [hpack, Except.ok.injEq, List.cons.injEq] at hpack'
      exact hpack'.1
    refine ⟨archive, hpack, h (Zip.restores_of_read ?_)⟩
    rw [hentries, hframes]
    decide +kernel
  case right =>
    have hone : playedFlashDrive.OneArchive (numbered 7 twoFrames).reverse 1 :=
      ⟨⟨3, positive?_ofNat (n := 3) (by decide) (by decide), by decide⟩, rfl, by decide, by decide⟩
    have hdelay : (2 : Binary64).Valid := Binary64.valid_ofNat (n := 2) (by decide)
    obtain ⟨archive, hpack, h⟩ := rechunk_packSequence (q := flashDriveOf 2) hone (by decide)
      hfault hnames (.inr ⟨rfl, 2, .fresh 2, hdelay, by decide +kernel, rfl⟩) rfl
      (show (flashDriveOf 2).layout = .ok ⟨2, 1⟩ by decide +kernel) rfl
    obtain ⟨archive', hpack', player, hplayer, -, hentries⟩ :=
      packSequence_played hone hdelay rfl (by decide) rfl hfault hcan
    obtain rfl : archive = archive' := by
      rw [hpack, Except.ok.injEq, List.cons.injEq] at hpack'
      exact hpack'.1
    refine ⟨archive, hpack, h (Zip.restores_of_read ?_)⟩
    rw [hentries, hframes, hplayer, buildPlayerProgram_eq, playerText_eq]
    decide +kernel

end Flipbook
