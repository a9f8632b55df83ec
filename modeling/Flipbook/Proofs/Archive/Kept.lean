import Mathlib.Data.List.Nodup
import Flipbook.Proofs.Archive.Playback
import Flipbook.Proofs.Archive.Rechunk
import Flipbook.Proofs.Archive.Split

/-!
# Splitting anew keeps the right frames

Any archive whose names follow the naming can be split anew, if its files count up without gaps. If
it has a player, only the files that the player plays need to be there, each of them once, and
whatever else the archive holds is left out. The new archives have the files that are kept, in the
order of their numbers, and nothing else but the player.

## Main definitions

* `Naming.Parses`: an entry as a numbered file.
* `Selects`: the files of an archive that are kept, and the player that leads them.

## Main results

* `Selects.rechunkFiles_eq`, `exists_selects_of_rechunkFiles`: what is packed in place of an
  archive;
* `rechunk_keeps`: when an archive can be split anew, and what the new archives hold.
-/

namespace Flipbook

open Binary64 (ofNat exactBound)

/-- An entry of a zip file as a numbered file. -/
def Naming.Parses (naming : Naming) (e : Zip.Entry) (f : SequenceFile) : Prop :=
  ∃ parsed, naming.parse (baseName e.name) = some parsed ∧
    f = ⟨parsed.number, ⟨parsed.type, parsed.label, parsed.extension, e.data⟩⟩

/-- How often a number occurs among the files of an archive, apart from players. -/
def occurrences (files : List SequenceFile) (number : Binary64) : Nat :=
  ((files.filter fun f => !isPlayerFile f.file).map SequenceFile.number).count number

/-- The files of an archive that are kept, and the player that leads them in the new archives. -/
inductive Selects (files : List SequenceFile) : Option Player → List SequenceFile → Prop
  /-- Without a player all files are kept, which must count up. -/
  | unplayed (hnone : ∀ f ∈ files, isPlayerFile f.file = false)
      (hconsecutive : ∃ ordered, ordered.Perm files ∧ Consecutive ordered) :
      Selects files none files
  /-- A player keeps the files that it plays, of which there must be one for each number. -/
  | played {leader : SequenceFile} {bounds : FrameBounds}
      (hone : (files.filter fun f => isPlayerFile f.file) = [leader])
      (hbounds : playerBounds leader.file.data = .ok bounds)
      (honce : ∀ k, bounds.firstFrame.le (ofNat k) → (ofNat k).le bounds.lastFrame →
        occurrences files (ofNat k) = 1) :
      Selects files (some (.existing leader.file.data)) (playedFiles files bounds)

/-- Archives hold some files in the order of their numbers, and nothing else but a player in front
of the files of each archive, if there is one. -/
structure HoldsInOrder (options : PackOptions) (files : List SequenceFile)
    (archives : List PackedArchive) : Prop where
  frames : ∃ ordered : List SequenceFile, ordered.Perm files ∧
    (ordered.Pairwise fun a b => a.value < b.value) ∧
    (archives.flatMap options.framesIn).map ArchiveEntry.data = ordered.map fun f => f.file.data
  leads : ∀ archive ∈ archives, options.Leads (options.framesIn archive) archive.entries

section Packing

variable {files : List SequenceFile} {options : PackOptions} {archives : List PackedArchive}

/-- Files with exact numbers can be packed if none is empty and the numbers count up. -/
theorem packSequence_isOk_iff (hindexed : ∀ f ∈ files, f.Indexed)
    (hmade : ∀ player, options.player = some player → player.Made)
    (hvalid : (options.firstNumber.getD 1).Valid) :
    (∃ archives, packSequence files options = .ok archives) ↔
      (∃ layout, options.layout = .ok layout) ∧ (∀ f ∈ files, f.file.data ≠ []) ∧
        ∃ ordered, ordered.Perm files ∧ Consecutive ordered := by
  have hfault := sequenceFault_sortByNumber_eq_none_iff fun f hf => (hindexed f hf).counted
  constructor
  · rintro ⟨archives, hpack⟩
    obtain ⟨layout, hlayout, hnone⟩ := layout_of_packSequence hpack
    exact ⟨⟨layout, hlayout⟩, hfault.mp hnone⟩
  · rintro ⟨⟨layout, hlayout⟩, hsound⟩
    obtain ⟨capacity, first, hlays⟩ := PackOptions.exists_lays hlayout
    have husable : options.Usable capacity first layout := ⟨hlays, hvalid, hmade⟩
    have hnone := hfault.mpr hsound
    obtain ⟨-, ordered, hperm, hconsecutive⟩ := hsound
    -- No number occurs twice, so there are few enough files to number the frames exactly.
    have hlength := length_le_exactBound hindexed (nodup_number_of_consecutive hperm hconsecutive)
    exact husable.packSequence_isOk hlayout (by omega) hnone

theorem holdsInOrder_of_packSequence (hindexed : ∀ f ∈ files, f.Indexed)
    (h : packSequence files options = .ok archives) : HoldsInOrder options files archives := by
  obtain ⟨layout, hlayout, hnone⟩ := layout_of_packSequence h
  obtain ⟨capacity, first, hlays⟩ := PackOptions.exists_lays hlayout
  have hperm := sortByNumber_perm files
  have hcounted : ∀ f ∈ sortByNumber files, f.Counted :=
    fun f hf => (hindexed f (hperm.mem_iff.mp hf)).counted
  have hconsecutive := ((sequenceFault_eq_none_iff hcounted).mp hnone).2
  rw [packSequence_eq hlayout hnone] at h
  constructor
  case frames =>
    refine ⟨sortByNumber files, hperm, hconsecutive.pairwise, ?_⟩
    -- The frames of the archives are written from the sorted files, one by one.
    have hdata := (hlays.writes_framesIn h).imp fun file e he => he.data
    rw [framesOf, List.forall₂_map_left_iff] at hdata
    rw [← List.forall₂_eq_eq_eq, List.forall₂_map_left_iff, List.forall₂_map_right_iff]
    exact hdata.flip
  case leads =>
    intro archive harchive
    obtain ⟨entries, hentries, hseal⟩ := packFrames_eq_ok_iff.mp h
    exact (leads_of_mem hseal harchive).2

/-- Packing fails with what is wrong with the options or with the sequence, and with nothing
else. -/
theorem packSequence_eq_error {e : OutputError} (h : packSequence files options = .error e)
    (hindexed : ∀ f ∈ files, f.Indexed)
    (hmade : ∀ player, options.player = some player → player.Made)
    (hvalid : (options.firstNumber.getD 1).Valid) :
    options.layout = .error e ∨ sequenceFault none (sortByNumber files) = some e := by
  cases hlayout : options.layout with
  | error reason =>
    rw [packSequence_error hlayout] at h
    exact .inl (congrArg Except.error (Except.error.inj h))
  | ok layout =>
    cases hfault : sequenceFault none (sortByNumber files) with
    | none =>
      have hsound := (sequenceFault_sortByNumber_eq_none_iff fun f hf =>
        (hindexed f hf).counted).mp hfault
      obtain ⟨archives, hpack⟩ :=
        (packSequence_isOk_iff hindexed hmade hvalid).mpr ⟨⟨layout, hlayout⟩, hsound⟩
      rw [hpack] at h
      cases h
    | some reason =>
      rw [packSequence, hlayout] at h
      dsimp only [bind, Except.bind] at h
      rw [hfault] at h
      exact .inr (congrArg some (Except.error.inj h))

end Packing

section Selection

variable {files kept : List SequenceFile} {player : Option Player} {bounds : FrameBounds}
  {program : List UInt8}

/-- Within its bounds a program plays each file. -/
theorem count_playedFiles {a : Binary64} (hfirst : bounds.firstFrame.le a = true)
    (hlast : a.le bounds.lastFrame = true) :
    ((playedFiles files bounds).map SequenceFile.number).count a = occurrences files a := by
  rw [playedFiles, occurrences, List.count_eq_countP, List.count_eq_countP, List.countP_map,
    List.countP_map, List.countP_filter, List.countP_filter]
  refine List.countP_congr fun f _ => ?_
  simp only [Function.comp_apply, Bool.and_eq_true, beq_iff_eq]
  constructor
  · rintro ⟨hnumber, ⟨hplayer, -⟩, -⟩
    exact ⟨hnumber, hplayer⟩
  · rintro ⟨rfl, hplayer⟩
    exact ⟨rfl, ⟨hplayer, hfirst⟩, hlast⟩

theorem Selects.indexed (h : Selects files player kept) (hindexed : ∀ f ∈ files, f.Indexed) :
    ∀ f ∈ kept, f.Indexed := by
  cases h with
  | unplayed => exact hindexed
  | played => exact fun f hf => hindexed f (mem_playedFiles.mp hf).1

/-- A program whose bounds can be read is a player. -/
theorem made_of_playerBounds (h : playerBounds program = .ok bounds) :
    (Player.existing program).Made := by
  refine .inr ⟨program, ?_⟩
  rw [Player.ofProgram, h]
  rfl

theorem Selects.made (h : Selects files player kept) : ∀ p, player = some p → p.Made := by
  intro p hp
  cases h with
  | unplayed => cases hp
  | played hone hbounds honce =>
    obtain rfl := Option.some.inj hp
    exact made_of_playerBounds hbounds

/-- The files that are kept count up. -/
theorem Selects.consecutive (h : Selects files player kept) (hindexed : ∀ f ∈ files, f.Indexed) :
    ∃ ordered, ordered.Perm kept ∧ Consecutive ordered := by
  have hkept := h.indexed hindexed
  cases h with
  | unplayed hnone hconsecutive => exact hconsecutive
  | @played leader bounds hone hbounds honce =>
    have hnodup : ((playedFiles files bounds).map SequenceFile.number).Nodup := by
      rw [List.nodup_iff_count_eq_one, List.forall_mem_map]
      intro f hf
      obtain ⟨n, -, hnumber⟩ := hkept f hf
      obtain ⟨-, -, hfirst, hlast⟩ := mem_playedFiles.mp hf
      rw [count_playedFiles hfirst hlast]
      rw [hnumber] at hfirst hlast ⊢
      exact honce n hfirst hlast
    refine exists_consecutive hkept hnodup fun a ha b hb k hak hkb => ?_
    -- A number between two that are played is played as well.
    obtain ⟨-, -, hfirst, -⟩ := mem_playedFiles.mp ha
    obtain ⟨-, -, -, hlast⟩ := mem_playedFiles.mp hb
    obtain ⟨m, hm, hmnumber, hmvalue⟩ := (hkept a ha).exists_value
    obtain ⟨n, hn, hnnumber, hnvalue⟩ := (hkept b hb).exists_value
    rw [hmvalue, Rat.natCast_lt_natCast] at hak
    rw [hnvalue, Rat.natCast_lt_natCast] at hkb
    rw [hmnumber] at hfirst
    rw [hnnumber] at hlast
    have hbehind := (Binary64.le_ofNat_iff (by omega)).mpr (Nat.le_of_lt hak)
    have hahead := (Binary64.le_ofNat_iff hn).mpr (Nat.le_of_lt hkb)
    have hfirst' := Binary64.le_trans hfirst hbehind
    have hlast' := Binary64.le_trans hahead hlast
    have hmem : ofNat k ∈ (playedFiles files bounds).map SequenceFile.number := by
      rw [← List.count_pos_iff, count_playedFiles hfirst' hlast', honce k hfirst' hlast']
      exact Nat.one_pos
    obtain ⟨c, hc, hcnumber⟩ := List.mem_map.mp hmem
    exact ⟨c, hc, (SequenceFile.value_eq_iff (by omega) (hkept c hc)).mpr hcnumber⟩

end Selection

section Rechunk

variable {files kept : List SequenceFile} {options : PackOptions} {player : Option Player}
  {bounds : FrameBounds} {program : List UInt8} {archives : List PackedArchive}

/-- The files that are kept are packed in place of all. -/
theorem Selects.rechunkFiles_eq (h : Selects files player kept) (hindexed : ∀ f ∈ files, f.Indexed)
    (hunplayed : options.player = none) :
    rechunkFiles files options = packSequence kept { options with player } := by
  have hkept := h.indexed hindexed
  cases h with
  | unplayed hnone =>
    rw [rechunkFiles_unplayed hnone, ← hunplayed]
  | @played leader bounds hone hbounds honce =>
    -- A number that occurs once is there, so looking up the frames finds all of them.
    have hcomplete : playedFrames ((playedFiles files bounds).map SequenceFile.number) bounds =
        .complete := by
      rw [playedFrames_eq_complete_iff (exists_firstFrame_eq hbounds)
        (List.forall_mem_map.mpr hkept)]
      intro k hfirst hlast
      rw [← List.count_pos_iff, count_playedFiles hfirst hlast, honce k hfirst hlast]
      exact Nat.one_pos
    rw [rechunkFiles, hone]
    show rechunkPlayed files leader.file.data options = _
    rw [rechunkPlayed_eq hbounds hunplayed, hcomplete]

/-- The files that are kept can be packed if none of them is empty and the options make sense. -/
theorem Selects.packSequence_isOk_iff (h : Selects files player kept)
    (hindexed : ∀ f ∈ files, f.Indexed) (hvalid : (options.firstNumber.getD 1).Valid) :
    (∃ archives, packSequence kept { options with player } = .ok archives) ↔
      (∀ f ∈ kept, f.file.data ≠ []) ∧
        ∃ layout, PackOptions.layout { options with player } = .ok layout := by
  have hvalid' : (PackOptions.firstNumber { options with player } |>.getD 1).Valid := hvalid
  rw [Flipbook.packSequence_isOk_iff (h.indexed hindexed) h.made hvalid']
  have hconsecutive := h.consecutive hindexed
  tauto

/-- If an archive can be packed anew, it keeps the right files. -/
theorem exists_selects_of_rechunkFiles (hindexed : ∀ f ∈ files, f.Indexed)
    (hunplayed : options.player = none) (h : rechunkFiles files options = .ok archives) :
    ∃ player kept, Selects files player kept ∧
      packSequence kept { options with player } = .ok archives := by
  have hconsecutive : ∀ {sequence : List SequenceFile} {options : PackOptions},
      (∀ f ∈ sequence, f.Indexed) → packSequence sequence options = .ok archives →
      ∃ ordered, ordered.Perm sequence ∧ Consecutive ordered := by
    intro sequence options hsequence hpack
    obtain ⟨-, -, hfault⟩ := layout_of_packSequence hpack
    exact ((sequenceFault_sortByNumber_eq_none_iff fun f hf =>
      (hsequence f hf).counted).mp hfault).2
  rw [rechunkFiles] at h
  split at h
  next hnone =>
    have hnot : ∀ f ∈ files, isPlayerFile f.file = false := by
      simpa [List.filter_eq_nil_iff] using hnone
    refine ⟨none, files, .unplayed hnot (hconsecutive hindexed h), ?_⟩
    rwa [← hunplayed]
  next leader hone =>
    cases hbounds : playerBounds leader.file.data with
    | error e =>
      rw [rechunkPlayed, hbounds] at h
      cases h
    | ok bounds =>
      have hplayed : ∀ f ∈ playedFiles files bounds, f.Indexed :=
        fun f hf => hindexed f (mem_playedFiles.mp hf).1
      rw [rechunkPlayed_eq hbounds hunplayed] at h
      split at h
      next => cases h
      next => cases h
      next hcomplete =>
        rw [playedFrames_eq_complete_iff (exists_firstFrame_eq hbounds)
          (List.forall_mem_map.mpr hplayed)] at hcomplete
        -- Counting finds each number once at least, and packing has found none of them twice.
        obtain ⟨ordered, hperm, hordered⟩ := hconsecutive hplayed h
        have hnodup := nodup_number_of_consecutive hperm hordered
        refine ⟨_, _, .played hone hbounds fun k hfirst hlast => ?_, h⟩
        rw [← count_playedFiles hfirst hlast]
        exact List.count_eq_one_of_mem hnodup (hcomplete k hfirst hlast)
  next => cases h

end Rechunk

section Failure

variable {files : List SequenceFile} {options : PackOptions} {e : OutputError}

theorem layout_ne_endless (h : options.layout = .error e) (n : Binary64) :
    e ≠ .endlessPlayback n := by
  rintro rfl
  simp only [PackOptions.layout] at h
  split at h
  · cases h
  · split at h
    · cases h
    · split at h
      · cases h
      · split at h <;> cases h

theorem sequenceFault_ne_endless {previous : Option Binary64}
    (h : sequenceFault previous files = some e) (n : Binary64) : e ≠ .endlessPlayback n := by
  rintro rfl
  induction files generalizing previous with
  | nil => cases h
  | cons f files ih =>
    rw [sequenceFault, Option.or_eq_some_iff] at h
    rcases h with hfault | ⟨-, hrest⟩
    · cases previous <;> grind [fileFault]
    · exact ih hrest

theorem playerBounds_ne_endless {program : List UInt8} (h : playerBounds program = .error e)
    (n : Binary64) : e ≠ .endlessPlayback n := by
  rintro rfl
  have hmarked : ∀ bound text, markedNumber bound text ≠ .error (.endlessPlayback n) := by
    intro bound text hmarked
    rw [markedNumber] at hmarked
    split at hmarked <;> cases hmarked
  simp only [playerBounds, bind_eq_error_iff, hmarked, false_or] at h
  obtain ⟨first, -, last, -, hbounds⟩ := h
  cases hbounds

theorem packSequence_ne_endless (h : packSequence files options = .error e)
    (hindexed : ∀ f ∈ files, f.Indexed)
    (hmade : ∀ player, options.player = some player → player.Made)
    (hvalid : (options.firstNumber.getD 1).Valid) (n : Binary64) : e ≠ .endlessPlayback n := by
  rcases packSequence_eq_error h hindexed hmade hvalid with hlayout | hfault
  · exact layout_ne_endless hlayout n
  · exact sequenceFault_ne_endless hfault n

/-- Looking up frames ends, so packing an archive anew does. -/
theorem rechunkFiles_ne_endless (h : rechunkFiles files options = .error e)
    (hindexed : ∀ f ∈ files, f.Indexed) (hunplayed : options.player = none)
    (hvalid : (options.firstNumber.getD 1).Valid) (n : Binary64) : e ≠ .endlessPlayback n := by
  rw [rechunkFiles] at h
  split at h
  next => exact packSequence_ne_endless h hindexed (by simp [hunplayed]) hvalid n
  next leader hone =>
    cases hbounds : playerBounds leader.file.data with
    | error reason =>
      rw [rechunkPlayed, hbounds] at h
      obtain rfl := Except.error.inj h
      exact playerBounds_ne_endless hbounds n
    | ok bounds =>
      -- The numbers of the files are exact, so counting through them ends.
      have hplayed : ∀ f ∈ playedFiles files bounds, f.Indexed :=
        fun f hf => hindexed f (mem_playedFiles.mp hf).1
      have hfinds := playedFrames_ne_endless (exists_firstFrame_eq hbounds)
        (List.forall_mem_map.mpr hplayed)
      rw [rechunkPlayed_eq hbounds hunplayed] at h
      split at h
      next =>
        rintro rfl
        cases h
      next hendless => exact absurd hendless hfinds
      next =>
        have hmade := made_of_playerBounds hbounds
        exact packSequence_ne_endless h hplayed (by simpa using hmade) hvalid n
  next =>
    rintro rfl
    cases h

end Failure

section Archive

variable {bytes : List UInt8} {entries : List Zip.Entry} {options : PackOptions}
  {files : List SequenceFile} {archives : List PackedArchive}

theorem readArchiveFile_eq_ok_iff {naming : Naming} {e : Zip.Entry} {f : SequenceFile} :
    readArchiveFile naming (Zip.Listed.ofEntry e) = .ok f ↔ naming.Parses e f := by
  rw [readArchiveFile, Naming.Parses, Zip.Listed.ofEntry]
  cases naming.parse (baseName e.name) with
  | none => simp
  | some parsed => simp [eq_comm]

/-- Options that make sense with a player make sense without it. -/
theorem exists_layout_of_player {player : Option Player} (hunplayed : options.player = none)
    (h : ∃ layout, PackOptions.layout { options with player } = .ok layout) :
    ∃ layout, options.layout = .ok layout := by
  obtain ⟨layout, h⟩ := h
  obtain ⟨capacity, first, hlays⟩ := PackOptions.exists_lays h
  -- A player only takes room away, so that the capacity and the first number are all that count.
  have hcapacity : options.capacity.positive? = some capacity := hlays.holds
  have hfirst : (options.firstNumber.getD 1).positive? = some first := hlays.startsAt
  rw [PackOptions.layout, hcapacity, hunplayed]
  simp only [hfirst, Option.isNone_none, if_true]
  exact ⟨_, rfl⟩

/-- The files of an archive have the numbers that its names tell. -/
theorem indexed_of_parses {naming : Naming}
    (hindexed : ∀ e ∈ entries, ∀ f, naming.Parses e f → f.Indexed)
    (h : List.Forall₂ naming.Parses entries files) : ∀ f ∈ files, f.Indexed := by
  induction h with
  | nil => exact List.forall_mem_nil _
  | cons hparses _ ih =>
    rw [List.forall_mem_cons] at hindexed ⊢
    exact ⟨hindexed.1 _ hparses, ih hindexed.2⟩

variable [Zip.Codec]

/-- The files of an archive are its entries, one by one. -/
theorem readArchiveFiles_eq_ok_iff {naming : Naming}
    (hread : Zip.Codec.read bytes = .ok (entries.map Zip.Listed.ofEntry)) :
    readArchiveFiles naming bytes = .ok files ↔ List.Forall₂ naming.Parses entries files := by
  rw [readArchiveFiles, hread]
  show (entries.map Zip.Listed.ofEntry).mapM (readArchiveFile naming) = _ ↔ _
  rw [mapM_eq_ok_iff, List.forall₂_map_left_iff]
  simp only [readArchiveFile_eq_ok_iff]

/-- A name that does not follow the naming is all that can be wrong with the entries. -/
theorem readArchiveFiles_eq_error {naming : Naming} {e : Error}
    (hread : Zip.Codec.read bytes = .ok (entries.map Zip.Listed.ofEntry))
    (h : readArchiveFiles naming bytes = .error e) :
    ∃ name, e = .output (.unrecognisedName name) := by
  rw [readArchiveFiles, hread] at h
  obtain ⟨listed, hlisted, hfails⟩ := exists_of_mapM_eq_error h
  obtain ⟨entry, -, rfl⟩ := List.mem_map.mp hlisted
  rw [readArchiveFile, Zip.Listed.ofEntry] at hfails
  split at hfails
  · exact ⟨_, (Except.error.inj hfails).symm⟩
  · cases hfails

/-- An archive can be split anew if the options make sense, its names follow the naming, and its
files can be packed. -/
theorem rechunk_eq_ok_iff : rechunk bytes options = .ok archives ↔
    (∃ layout, options.layout = .ok layout) ∧
      ∃ files, readArchiveFiles options.naming bytes = .ok files ∧
        rechunkFiles files options = .ok archives := by
  cases hlayout : options.layout with
  | error e => simp [rechunk, rechunkEntries, hlayout]
  | ok layout =>
    cases hread : readArchiveFiles options.naming bytes with
    | error e => simp [rechunk, rechunkEntries, hlayout, hread]
    | ok files => simp [rechunk_of_read hlayout hread, mapError_eq_ok_iff]

/-- What splitting an archive anew fails with, if its entries can be read. -/
theorem output_of_rechunk_eq_error {e : Error}
    (hread : Zip.Codec.read bytes = .ok (entries.map Zip.Listed.ofEntry))
    (hindexed : ∀ e ∈ entries, ∀ f, options.naming.Parses e f → f.Indexed)
    (hunplayed : options.player = none) (hvalid : (options.firstNumber.getD 1).Valid)
    (h : rechunk bytes options = .error e) :
    ∃ reason, e = .output reason ∧ ∀ n, reason ≠ .endlessPlayback n := by
  -- The steps of the program in their order, each of which may fail.
  cases hlayout : options.layout with
  | error reason =>
    simp only [rechunk, rechunkEntries, hlayout, Except.error.injEq] at h
    exact ⟨reason, h.symm, layout_ne_endless hlayout⟩
  | ok layout =>
    cases hfiled : readArchiveFiles options.naming bytes with
    | error reason =>
      obtain ⟨name, hname⟩ := readArchiveFiles_eq_error hread hfiled
      simp only [rechunk, rechunkEntries, hlayout, hfiled, Except.error.injEq] at h
      refine ⟨.unrecognisedName name, h.symm.trans hname, ?_⟩
      rintro n hendless
      cases hendless
    | ok files =>
      have hfiles := indexed_of_parses hindexed ((readArchiveFiles_eq_ok_iff hread).mp hfiled)
      rw [rechunk_of_read hlayout hfiled] at h
      cases hpacked : rechunkFiles files options with
      | error reason =>
        rw [hpacked] at h
        exact ⟨reason, (Except.error.inj h).symm,
          rechunkFiles_ne_endless hpacked hfiles hunplayed hvalid⟩
      | ok archives =>
        rw [hpacked] at h
        cases h

/-- An archive can be split anew just if its names follow the naming, the right files are there and
none of them is empty, and the options make sense with the player of the archive. The new archives
hold the files that are kept, in their order. Otherwise the failure says what is wrong. -/
theorem rechunk_keeps (hread : Zip.Codec.read bytes = .ok (entries.map Zip.Listed.ofEntry))
    (hindexed : ∀ e ∈ entries, ∀ f, options.naming.Parses e f → f.Indexed)
    (hunplayed : options.player = none) (hvalid : (options.firstNumber.getD 1).Valid) :
    ((∃ archives, rechunk bytes options = .ok archives) ↔
      ∃ files player kept, List.Forall₂ options.naming.Parses entries files ∧
        Selects files player kept ∧ (∀ f ∈ kept, f.file.data ≠ []) ∧
        ∃ layout, PackOptions.layout { options with player } = .ok layout) ∧
    (∀ archives, rechunk bytes options = .ok archives →
      ∀ files player kept, List.Forall₂ options.naming.Parses entries files →
        Selects files player kept → HoldsInOrder { options with player } kept archives) ∧
    ∀ e, rechunk bytes options = .error e →
      ∃ reason, e = .output reason ∧ ∀ n, reason ≠ .endlessPlayback n := by
  have hfiles : ∀ files, List.Forall₂ options.naming.Parses entries files →
      ∀ f ∈ files, f.Indexed := fun files => indexed_of_parses hindexed
  refine ⟨⟨?_, ?_⟩, ?_, ?_⟩
  · rintro ⟨archives, h⟩
    obtain ⟨-, files, hentries, hfiled⟩ := rechunk_eq_ok_iff.mp h
    rw [readArchiveFiles_eq_ok_iff hread] at hentries
    obtain ⟨player, kept, hselects, hpack⟩ :=
      exists_selects_of_rechunkFiles (hfiles files hentries) hunplayed hfiled
    have hpacks := hselects.packSequence_isOk_iff (hfiles files hentries) hvalid
    exact ⟨files, player, kept, hentries, hselects, hpacks.mp ⟨archives, hpack⟩⟩
  · rintro ⟨files, player, kept, hentries, hselects, hsound⟩
    have hnumbers := hfiles files hentries
    obtain ⟨archives, hpack⟩ := (hselects.packSequence_isOk_iff hnumbers hvalid).mpr hsound
    refine ⟨archives, rechunk_eq_ok_iff.mpr ⟨exists_layout_of_player hunplayed hsound.2, files,
      (readArchiveFiles_eq_ok_iff hread).mpr hentries, ?_⟩⟩
    rw [hselects.rechunkFiles_eq hnumbers hunplayed, hpack]
  · intro archives h files player kept hentries hselects
    have hnumbers := hfiles files hentries
    obtain ⟨-, files', hfiled, hpack⟩ := rechunk_eq_ok_iff.mp h
    -- Reading has one outcome, so these are the files that were packed.
    rw [(readArchiveFiles_eq_ok_iff hread).mpr hentries, Except.ok.injEq] at hfiled
    subst hfiled
    rw [hselects.rechunkFiles_eq hnumbers hunplayed] at hpack
    exact holdsInOrder_of_packSequence (hselects.indexed hnumbers) hpack
  · exact fun e => output_of_rechunk_eq_error hread hindexed hunplayed hvalid

end Archive

/-- A player with nothing but the numbers of the frames that it plays. -/
def barePlayer : SequenceFile :=
  ⟨.ofNat 1, { playerFile (encodeLatin1 "1 LET F=1\r2 IF F>2 THEN".toList) with extension := "" }⟩

/-- The only frame that it plays. -/
def onlyFrame : SequenceFile :=
  ⟨.ofNat 2, ⟨"BINARY", "DATA", "", [7]⟩⟩

/-- The entries of an archive with both. -/
def playedEntries : List Zip.Entry :=
  [onlyFrame, barePlayer].map fun f =>
    ⟨(Naming.flashDrive.store f).name, (Naming.flashDrive.store f).data⟩

theorem rechunk_playedEntries : ∃ archives,
    rechunk (Zip.write playedEntries) (flashDriveOf 2) = .ok archives ∧
      HoldsInOrder { flashDriveOf 2 with player := some (.existing barePlayer.file.data) }
        [onlyFrame] archives := by
  have hread : Zip.Codec.read (Zip.write playedEntries) =
      .ok (playedEntries.map Zip.Listed.ofEntry) := by
    decide +kernel
  have hparsed : ∀ e ∈ playedEntries, ∀ parsed ∈ Naming.flashDrive.parse (baseName e.name),
      parsed.number = .ofNat 1 ∨ parsed.number = .ofNat 2 := by
    decide +kernel
  have hindexed : ∀ e ∈ playedEntries, ∀ f, (flashDriveOf 2).naming.Parses e f → f.Indexed := by
    rintro e he f ⟨parsed, hname, rfl⟩
    rcases hparsed e he parsed hname with hone | htwo
    · exact ⟨1, by decide, hone⟩
    · exact ⟨2, by decide, htwo⟩
  have hfiled : (playedEntries.map Zip.Listed.ofEntry).mapM (readArchiveFile .flashDrive) =
      .ok [onlyFrame, barePlayer] := by
    decide +kernel
  have hentries : List.Forall₂ (flashDriveOf 2).naming.Parses playedEntries
      [onlyFrame, barePlayer] := by
    rw [mapM_eq_ok_iff, List.forall₂_map_left_iff] at hfiled
    exact hfiled.imp fun e f => readArchiveFile_eq_ok_iff.mp
  have hframe : isPlayerFile onlyFrame.file = false := by decide
  have hplayer : isPlayerFile barePlayer.file = true := by
    simp [isPlayerFile, barePlayer, playerFile]
  have hone : ([onlyFrame, barePlayer].filter fun f => isPlayerFile f.file) = [barePlayer] := by
    simp [hframe, hplayer]
  -- The program plays the number 2 alone, which one file has.
  have hbounds : playerBounds barePlayer.file.data = .ok ⟨.ofNat 2, .ofNat 2⟩ := by decide +kernel
  have hself := Binary64.ofNat_le_self 2
  have hplayed : playedFiles [onlyFrame, barePlayer] ⟨.ofNat 2, .ofNat 2⟩ = [onlyFrame] := by
    simp [playedFiles, hframe, hplayer, show onlyFrame.number = ofNat 2 from rfl, hself]
  have honce : ∀ k, (ofNat 2).le (ofNat k) → (ofNat k).le (ofNat 2) →
      occurrences [onlyFrame, barePlayer] (ofNat k) = 1 := by
    intro k hfirst hlast
    rw [Binary64.ofNat_le_iff (by decide)] at hfirst
    rw [Binary64.le_ofNat_iff (by decide)] at hlast
    obtain rfl : k = 2 := Nat.le_antisymm hlast hfirst
    simp [occurrences, hframe, hplayer, show onlyFrame.number = ofNat 2 from rfl]
  have hselects : Selects [onlyFrame, barePlayer] (some (.existing barePlayer.file.data))
      [onlyFrame] := by
    rw [← hplayed]
    exact .played hone hbounds honce
  have hvalid : ((flashDriveOf 2).firstNumber.getD 1).Valid :=
    Binary64.valid_ofNat (n := 1) (by decide)
  have hlayout : PackOptions.layout
      { flashDriveOf 2 with player := some (.existing barePlayer.file.data) } = .ok ⟨1, 2⟩ := by
    decide +kernel
  obtain ⟨hiff, hholds, -⟩ := rechunk_keeps hread hindexed rfl hvalid
  obtain ⟨archives, hsplit⟩ := hiff.mpr ⟨_, _, _, hentries, hselects, by decide, ⟨_, hlayout⟩⟩
  exact ⟨archives, hsplit, hholds archives hsplit _ _ _ hentries hselects⟩

end Flipbook
