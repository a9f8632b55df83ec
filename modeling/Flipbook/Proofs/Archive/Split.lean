import Flipbook.Proofs.Archive.Layout
import Flipbook.Proofs.Archive.Suffix

/-!
# A sequence of files is split into full archives

A sequence can be packed just if the options make sense, no file is empty and the numbers of the
files count up by one, in whatever order the files come. The archives then hold the files in the
order of their numbers. All but the last one are full, the numbers in each of them start again, and
no two of them have the same name.

## Main definitions

* `PackOptions.framesIn`: the frames of an archive.
* `PackOptions.CountsExactly`: the numbers in the archives stay below `2 ^ 53`.
* `Packed`: the archives that a sequence is split into.

## Main results

* `packFrames_packed`: what files in their order are split into;
* `packSequence_packed`: when a sequence can be packed, and what the archives are.
-/

namespace Flipbook

/-- The frames of an archive, which stand behind the player if there is one. -/
def PackOptions.framesIn (options : PackOptions) (archive : PackedArchive) : List ArchiveEntry :=
  archive.entries.drop options.leaders

/-- The numbers that files get in the archives stay below `2 ^ 53`. -/
def PackOptions.CountsExactly (options : PackOptions) (files : List SequenceFile) : Prop :=
  ∀ capacity first, options.capacity.positive? = some capacity →
    (options.firstNumber.getD 1).positive? = some first →
    first + min capacity (files.length + options.leaders) ≤ Binary64.exactBound

/-- The archives of at most `capacity` files, with numbers from `first` on, that a sequence is split
into. -/
structure Packed (options : PackOptions) (capacity first : Nat) (files : List SequenceFile)
    (archives : List PackedArchive) : Prop where
  /-- The frames of all archives are the files in the order of their numbers. -/
  frames : ∃ ordered, ordered.Perm files ∧ Consecutive ordered ∧
    List.Forall₂ (fun f e => options.naming.Writes f.file e) ordered
      (archives.flatMap options.framesIn)
  nonempty : ∀ archive ∈ archives, options.framesIn archive ≠ []
  /-- The player is made for the frames behind it. -/
  leads : ∀ archive ∈ archives, options.Leads (options.framesIn archive) archive.entries
  room : ∀ archive ∈ archives, archive.entries.length ≤ capacity
  full : ∀ archive ∈ archives.dropLast, archive.entries.length = capacity
  numbers : ∀ archive ∈ archives, archive.entries.map ArchiveEntry.number =
    (List.range' first archive.entries.length).map .ofNat
  indices : archives.map PackedArchive.index = List.range archives.length
  names : (archives.map PackedArchive.name).Nodup

section Leads

variable {options : PackOptions} {frames entries : List ArchiveEntry}

theorem PackOptions.Leads.drop_leaders (h : options.Leads frames entries) :
    entries.drop options.leaders = frames := by
  cases h with
  | unplayed hplayer => simp [leaders, hplayer]
  | played hplayer => simp [leaders, hplayer]

theorem PackOptions.Leads.length_eq (h : options.Leads frames entries) :
    entries.length = frames.length + options.leaders := by
  cases h with
  | unplayed hplayer => simp [leaders, hplayer]
  | played hplayer => simp [leaders, hplayer]

/-- The player has the number before that of the first frame. -/
theorem PackOptions.Leads.map_number_eq {first : Nat} (h : options.Leads frames entries)
    (hne : frames ≠ []) (hfirst : first + options.leaders < Binary64.exactBound)
    (hnumbers : frames.map ArchiveEntry.number =
      (List.range' (first + options.leaders) frames.length).map .ofNat) :
    entries.map ArchiveEntry.number = (List.range' first entries.length).map .ofNat := by
  have hlength := h.length_eq
  cases h with
  | unplayed hplayer => simpa [leaders, hplayer] using hnumbers
  | @played player head last leader file hplayer hhead hlast hfile hnumber hwrites =>
    have hleaders : options.leaders = 1 := by simp [leaders, hplayer]
    rw [hleaders] at hnumbers hfirst
    obtain ⟨more, rfl⟩ := List.head?_eq_some_iff.mp hhead
    have hheadNumber : head.number = .ofNat (first + 1) := by
      rw [List.map_cons, List.length_cons, List.range'_succ, List.map_cons] at hnumbers
      exact (List.cons.inj hnumbers).1
    rw [List.map_cons, hnumber, hheadNumber, Binary64.ofNat_sub_one (by omega), hnumbers]
    rfl

end Leads

section Pieces

variable {options : PackOptions} {capacity first : Nat} {layout : ArchiveLayout}
  {frames : List FrameFile} {entries : List ArchiveEntry} {archives : List PackedArchive}

/-- The numbers in every piece start again. -/
theorem map_number_of_mem_chunks (hsize : 0 < layout.framesPerArchive)
    (hfirst : layout.firstFrameNumber = .ofNat first) (hpos : 0 < first)
    (hbound : first + min layout.framesPerArchive frames.length ≤ Binary64.exactBound)
    (hnumbers : entries.map ArchiveEntry.number =
      (List.range frames.length).map layout.numberAt)
    {piece : List ArchiveEntry} (hpiece : piece ∈ chunks layout.framesPerArchive entries) :
    piece.map ArchiveEntry.number = (List.range' first piece.length).map .ofNat := by
  have hlength : entries.length = frames.length := by
    simpa using congrArg List.length hnumbers
  have hle := length_le_of_mem_chunks hsize hpiece
  -- The piece begins where `j` pieces end, and what is left of a position by division by the length
  -- of a piece is the position in the piece.
  obtain ⟨j, rfl⟩ := exists_eq_of_mem_chunks hsize hpiece
  apply List.ext_getElem
  · rw [List.length_map, List.length_map, List.length_range']
  · intro i hi _
    rw [List.length_map, List.length_take, List.length_drop] at hi
    have hposition : layout.framesPerArchive * j + i < entries.length := by omega
    have hmod : (layout.framesPerArchive * j + i) % layout.framesPerArchive = i := by
      rw [Nat.mul_add_mod, Nat.mod_eq_of_lt (by omega)]
    have hnumber : entries[layout.framesPerArchive * j + i].number =
        layout.numberAt (layout.framesPerArchive * j + i) := by
      have hget := List.getElem_of_eq hnumbers (by simpa using hposition)
      simpa using hget
    simp only [List.getElem_map, List.getElem_take, List.getElem_drop, List.getElem_range', hnumber]
    rw [numberAt_eq_ofNat hfirst hpos (by omega), hmod, Nat.one_mul]

/-- The archives hold the pieces, one by one. -/
theorem map_framesIn_of_sealPieces
    (h : sealPieces options (chunks layout.framesPerArchive entries) = .ok archives) :
    archives.map options.framesIn = chunks layout.framesPerArchive entries := by
  have hframes : archives.map options.framesIn =
      (chunks layout.framesPerArchive entries).zipIdx.map Prod.fst := by
    apply map_eq_of_mapM h
    intro p hp archive hseal
    have hne := ne_nil_of_mem_chunks (List.fst_mem_of_mem_zipIdx hp)
    exact (withPlayer_eq_ok hne (sealArchive_eq_ok_iff.mp hseal).2.2).drop_leaders
  rw [hframes, List.zipIdx_map_fst]

theorem leads_of_mem
    (h : sealPieces options (chunks layout.framesPerArchive entries) = .ok archives)
    {archive : PackedArchive} (harchive : archive ∈ archives) :
    options.framesIn archive ∈ chunks layout.framesPerArchive entries ∧
      options.Leads (options.framesIn archive) archive.entries := by
  obtain ⟨p, hp, hseal⟩ := exists_of_mem_mapM h harchive
  have hpiece := List.fst_mem_of_mem_zipIdx hp
  have hleads := withPlayer_eq_ok (ne_nil_of_mem_chunks hpiece) (sealArchive_eq_ok_iff.mp hseal).2.2
  rw [PackOptions.framesIn, hleads.drop_leaders]
  exact ⟨hpiece, hleads⟩

theorem map_index_of_sealPieces {pieces : List (List ArchiveEntry)}
    (h : sealPieces options pieces = .ok archives) :
    archives.map PackedArchive.index = List.range archives.length := by
  have hindex : archives.map PackedArchive.index = pieces.zipIdx.map Prod.snd :=
    map_eq_of_mapM h fun p _ archive hseal => (sealArchive_eq_ok_iff.mp hseal).1
  have hlength := congrArg List.length hindex
  rw [List.length_map, List.length_map, List.length_zipIdx] at hlength
  rw [hindex, List.zipIdx_map_snd, hlength, List.range_eq_range']

theorem nodup_names_of_sealPieces {pieces : List (List ArchiveEntry)}
    (h : sealPieces options pieces = .ok archives) :
    (archives.map PackedArchive.name).Nodup := by
  have hname : archives.map PackedArchive.name = (pieces.zipIdx.map Prod.snd).map
      fun index => archiveName options.stem (String.ofList (suffixChars index)) := by
    rw [List.map_map]
    exact map_eq_of_mapM h fun p _ archive hseal => (sealArchive_eq_ok_iff.mp hseal).2.1
  rw [hname, List.zipIdx_map_snd]
  exact List.Nodup.map (archiveName_injective options.stem) List.nodup_range'

/-- The number of the first frame is exact if all others are. -/
theorem PackOptions.Lays.firstFrame_eq_ofNat (h : options.Lays capacity first layout) {n : Nat}
    (hbound : first + min capacity (n + options.leaders) ≤ Binary64.exactBound) :
    layout.firstFrameNumber = .ofNat (first + options.leaders) := by
  have hplaces := h.places
  have hroom := h.room
  have hfirst := Binary64.eq_ofNat_of_positive? h.startsAt (by omega)
  rw [h.firstFrame, hfirst, leaders]
  rw [leaders] at hbound hplaces
  split
  next hplayer =>
    rw [if_pos hplayer] at hbound hplaces
    exact Binary64.ofNat_add_one (by omega)
  next => rfl

/-- No archive holds more files than there is room for. -/
theorem PackOptions.Lays.length_le_of_mem (h : options.Lays capacity first layout)
    (hseal : sealPieces options (chunks layout.framesPerArchive entries) = .ok archives)
    {archive : PackedArchive} (harchive : archive ∈ archives) :
    archive.entries.length ≤ capacity := by
  have hplaces := h.places
  obtain ⟨hpiece, hleads⟩ := leads_of_mem hseal harchive
  have hle := length_le_of_mem_chunks h.room hpiece
  have hcount := hleads.length_eq
  omega

/-- The numbers of the files in an archive count up from the first number. -/
theorem PackOptions.Lays.map_number_of_mem (h : options.Lays capacity first layout)
    (hbound : first + min capacity (frames.length + options.leaders) ≤ Binary64.exactBound)
    (hentries : layout.entries options.naming frames = .ok entries)
    (hseal : sealPieces options (chunks layout.framesPerArchive entries) = .ok archives)
    {archive : PackedArchive} (harchive : archive ∈ archives) :
    archive.entries.map ArchiveEntry.number =
      (List.range' first archive.entries.length).map .ofNat := by
  have hplaces := h.places
  have hroom := h.room
  have hlength := length_entries hentries
  have hpos := (Binary64.eq_of_positive? h.startsAt).2
  obtain ⟨hpiece, hleads⟩ := leads_of_mem hseal harchive
  -- Where there is a piece there is a frame, so the bound covers the number of the first one.
  have hsome : 0 < entries.length := by
    rw [List.length_pos_iff]
    rintro rfl
    rw [chunks_nil] at hpiece
    cases hpiece
  refine hleads.map_number_eq (ne_nil_of_mem_chunks hpiece) (by omega) ?_
  exact map_number_of_mem_chunks hroom (h.firstFrame_eq_ofNat hbound) (by omega) (by omega)
    (map_number_entries hentries) hpiece

/-- The frames of all archives are written from the files, one by one. -/
theorem PackOptions.Lays.writes_framesIn (h : options.Lays capacity first layout)
    (hpack : packFrames layout options frames = .ok archives) :
    List.Forall₂ options.naming.Writes frames (archives.flatMap options.framesIn) := by
  obtain ⟨entries, hentries, hseal⟩ := packFrames_eq_ok_iff.mp hpack
  rw [List.flatMap_def, map_framesIn_of_sealPieces hseal, flatten_chunks h.room]
  exact writes_entries hentries

/-- What files in their order are split into. -/
theorem packFrames_packed {files ordered : List SequenceFile}
    (h : options.Lays capacity first layout)
    (hbound : first + min capacity (ordered.length + options.leaders) ≤ Binary64.exactBound)
    (hperm : ordered.Perm files) (hconsecutive : Consecutive ordered)
    (hpack : packFrames layout options (ordered.map SequenceFile.file) = .ok archives) :
    Packed options capacity first files archives := by
  obtain ⟨entries, hentries, hseal⟩ := packFrames_eq_ok_iff.mp hpack
  have hpieces := map_framesIn_of_sealPieces hseal
  constructor
  case frames =>
    exact ⟨ordered, hperm, hconsecutive, List.forall₂_map_left_iff.mp (h.writes_framesIn hpack)⟩
  case nonempty =>
    intro archive harchive
    exact ne_nil_of_mem_chunks (leads_of_mem hseal harchive).1
  case leads =>
    intro archive harchive
    exact (leads_of_mem hseal harchive).2
  case room =>
    intro archive harchive
    exact h.length_le_of_mem hseal harchive
  case full =>
    intro archive harchive
    have hplaces := h.places
    have hleads := (leads_of_mem hseal ((List.dropLast_sublist archives).mem harchive)).2
    -- No piece but the last one is shorter than the others.
    have hpiece :
        options.framesIn archive ∈ (chunks layout.framesPerArchive entries).dropLast := by
      rw [← hpieces, ← List.map_dropLast]
      exact List.mem_map_of_mem harchive
    have hfull := length_of_mem_dropLast_chunks h.room hpiece
    have hcount := hleads.length_eq
    omega
  case numbers =>
    intro archive harchive
    refine h.map_number_of_mem ?_ hentries hseal harchive
    rwa [List.length_map]
  case indices => exact map_index_of_sealPieces hseal
  case names => exact nodup_names_of_sealPieces hseal

end Pieces

section Sequence

variable {options : PackOptions} {files : List SequenceFile}

/-- What is wrong with a sequence does not depend on how it is arranged. -/
theorem sequenceFault_sortByNumber_eq_none_iff (hnumbers : ∀ f ∈ files, f.Counted) :
    sequenceFault none (sortByNumber files) = none ↔
      (∀ f ∈ files, f.file.data ≠ []) ∧ ∃ ordered, ordered.Perm files ∧ Consecutive ordered := by
  have hperm := sortByNumber_perm files
  have hcounted : ∀ f ∈ sortByNumber files, f.Counted :=
    fun f hf => hnumbers f (hperm.mem_iff.mp hf)
  rw [sequenceFault_eq_none_iff hcounted]
  constructor
  · rintro ⟨hdata, hconsecutive⟩
    exact ⟨fun f hf => hdata f (hperm.mem_iff.mpr hf), _, hperm, hconsecutive⟩
  · -- There is only one order of files with different numbers, so sorting finds this one.
    rintro ⟨hdata, ordered, hordered, hconsecutive⟩
    rw [sortByNumber_of_consecutive hnumbers hordered.symm hconsecutive]
    exact ⟨fun f hf => hdata f (hordered.mem_iff.mp hf), hconsecutive⟩

/-- Any arrangement of consecutive files is packed in their order. -/
theorem packSequence_of_consecutive {layout : ArchiveLayout} {ordered : List SequenceFile}
    (hlayout : options.layout = .ok layout) (hnumbers : ∀ f ∈ files, f.Counted)
    (hdata : ∀ f ∈ files, f.file.data ≠ []) (hperm : files.Perm ordered)
    (hconsecutive : Consecutive ordered) :
    packSequence files options =
      packFrames layout options (ordered.map SequenceFile.file) := by
  have hfault := (sequenceFault_sortByNumber_eq_none_iff hnumbers).mpr
    ⟨hdata, ordered, hperm.symm, hconsecutive⟩
  rw [packSequence_eq hlayout hfault, framesOf,
    sortByNumber_of_consecutive hnumbers hperm hconsecutive]

/-- Behind the checks, a sequence is packed. -/
theorem PackOptions.Usable.packSequence_isOk {capacity first : Nat} {layout : ArchiveLayout}
    (h : options.Usable capacity first layout) (hlayout : options.layout = .ok layout)
    (hcount : min layout.framesPerArchive files.length ≤ Binary64.exactBound)
    (hfault : sequenceFault none (sortByNumber files) = none) :
    ∃ archives, packSequence files options = .ok archives := by
  rw [packSequence_eq hlayout hfault]
  apply h.packFrames_isOk
  rwa [length_framesOf]

theorem packSequence_isOk {layout : ArchiveLayout} (hlayout : options.layout = .ok layout)
    (hmade : ∀ player, options.player = some player → player.Made)
    (hexact : options.CountsExactly files)
    (hfault : sequenceFault none (sortByNumber files) = none) :
    ∃ archives, packSequence files options = .ok archives := by
  obtain ⟨capacity, first, hlays⟩ := PackOptions.exists_lays hlayout
  have hbound := hexact capacity first hlays.holds hlays.startsAt
  have hfirst := Binary64.eq_ofNat_of_positive? hlays.startsAt (by omega)
  have hvalid : (options.firstNumber.getD 1).Valid := by
    rw [hfirst]
    exact Binary64.valid_ofNat (by omega)
  have hplaces := hlays.places
  have husable : options.Usable capacity first layout := ⟨hlays, hvalid, hmade⟩
  exact husable.packSequence_isOk hlayout (by omega) hfault

theorem layout_of_packSequence {archives : List PackedArchive}
    (h : packSequence files options = .ok archives) :
    ∃ layout, options.layout = .ok layout ∧ sequenceFault none (sortByNumber files) = none := by
  rw [packSequence, bind_eq_ok_iff] at h
  obtain ⟨layout, hlayout, h⟩ := h
  refine ⟨layout, hlayout, ?_⟩
  dsimp only at h
  split at h
  · cases h
  · assumption

/-- A sequence with exact numbers can be packed just if the options make sense, no file is empty and
the numbers count up by one. It is then split into full archives, always the same ones. -/
theorem packSequence_packed (hnumbers : ∀ f ∈ files, f.Counted)
    (hmade : ∀ player, options.player = some player → player.Made)
    (hexact : options.CountsExactly files) :
    ((∃ archives, packSequence files options = .ok archives) ↔
        (∃ layout, options.layout = .ok layout) ∧ (∀ f ∈ files, f.file.data ≠ []) ∧
          ∃ ordered, ordered.Perm files ∧ Consecutive ordered) ∧
      ∀ archives, packSequence files options = .ok archives →
        (∃ capacity first, options.capacity.positive? = some capacity ∧
          (options.firstNumber.getD 1).positive? = some first ∧
          Packed options capacity first files archives) ∧
        ∀ arranged : List SequenceFile, arranged.Perm files →
          packSequence arranged options = .ok archives := by
  have hfault := sequenceFault_sortByNumber_eq_none_iff hnumbers
  refine ⟨⟨?_, ?_⟩, ?_⟩
  · rintro ⟨archives, hpack⟩
    obtain ⟨layout, hlayout, hnone⟩ := layout_of_packSequence hpack
    exact ⟨⟨layout, hlayout⟩, hfault.mp hnone⟩
  · rintro ⟨⟨layout, hlayout⟩, hsound⟩
    exact packSequence_isOk hlayout hmade hexact (hfault.mpr hsound)
  · intro archives hpack
    obtain ⟨layout, hlayout, hnone⟩ := layout_of_packSequence hpack
    obtain ⟨capacity, first, hlays⟩ := PackOptions.exists_lays hlayout
    obtain ⟨hdata, ordered, hordered, hconsecutive⟩ := hfault.mp hnone
    have hbound := hexact capacity first hlays.holds hlays.startsAt
    have hframes := packSequence_of_consecutive hlayout hnumbers hdata hordered.symm hconsecutive
    rw [hframes] at hpack
    constructor
    · refine ⟨capacity, first, hlays.holds, hlays.startsAt, ?_⟩
      refine packFrames_packed hlays ?_ hordered hconsecutive hpack
      rwa [hordered.length_eq]
    · intro arranged harranged
      have hcounted : ∀ f ∈ arranged, f.Counted :=
        fun f hf => hnumbers f (harranged.mem_iff.mp hf)
      have hfilled : ∀ f ∈ arranged, f.file.data ≠ [] :=
        fun f hf => hdata f (harranged.mem_iff.mp hf)
      rw [packSequence_of_consecutive hlayout hcounted hfilled (harranged.trans hordered.symm)
        hconsecutive]
      exact hpack

/-- Three frames out of order, of which the first two have numbers that are not positive. -/
def arrangedFrames : List SequenceFile :=
  [⟨.ofInt 1, ⟨"BINARY", "DATA", "", [3]⟩⟩, ⟨.ofInt (-1), ⟨"BINARY", "DATA", "", [1]⟩⟩,
    ⟨.ofInt 0, ⟨"BINARY", "DATA", "", [2]⟩⟩]

/-- Archives of three files with numbers from 5 on, led by a player. -/
def playedInThrees : PackOptions :=
  { capacity := 3, naming := .flashDrive, stem := "reel", firstNumber := some 5,
    player := some (.fresh 2) }

theorem packSequence_arrangedFrames :
    (∀ f ∈ arrangedFrames, f.Counted) ∧
      (∀ player, playedInThrees.player = some player → player.Made) ∧
      playedInThrees.CountsExactly arrangedFrames ∧
      ∃ archives, packSequence arrangedFrames playedInThrees = .ok archives ∧
        Packed playedInThrees 3 5 arrangedFrames archives := by
  have hcapacity : playedInThrees.capacity.positive? = some 3 :=
    positive?_ofNat (n := 3) (by decide) (by decide)
  have hfirst : (playedInThrees.firstNumber.getD 1).positive? = some 5 :=
    positive?_ofNat (n := 5) (by decide) (by decide)
  have hnumbers : ∀ f ∈ arrangedFrames, f.Counted := by
    intro f hf
    simp only [arrangedFrames, List.mem_cons, List.not_mem_nil, or_false] at hf
    rcases hf with rfl | rfl | rfl
    · exact ⟨1, rfl, by decide⟩
    · exact ⟨-1, rfl, by decide⟩
    · exact ⟨0, rfl, by decide⟩
  have hmade : ∀ player, playedInThrees.player = some player → player.Made := by
    intro player hplayer
    obtain rfl := Option.some.inj hplayer
    exact .inl ⟨2, by decide +kernel⟩
  have hexact : playedInThrees.CountsExactly arrangedFrames := by
    intro capacity first hcapacity' hfirst'
    rw [hcapacity, Option.some.injEq] at hcapacity'
    rw [hfirst, Option.some.injEq] at hfirst'
    rw [← hcapacity', ← hfirst']
    decide
  have hlayout : playedInThrees.layout = .ok ⟨2, 6⟩ := by decide +kernel
  -- The first file has the last number.
  have hordered : ∃ ordered, ordered.Perm arrangedFrames ∧ Consecutive ordered := by
    refine ⟨arrangedFrames.drop 1 ++ arrangedFrames.take 1, List.perm_append_comm, ?_⟩
    exact .cons_cons (by decide +kernel) (.cons_cons (by decide +kernel) (.singleton _))
  obtain ⟨hiff, hpacked⟩ := packSequence_packed hnumbers hmade hexact
  obtain ⟨archives, hpack⟩ := hiff.mpr ⟨⟨_, hlayout⟩, by decide, hordered⟩
  obtain ⟨⟨capacity, first, hcapacity', hfirst', hset⟩, -⟩ := hpacked archives hpack
  rw [hcapacity, Option.some.injEq] at hcapacity'
  rw [hfirst, Option.some.injEq] at hfirst'
  rw [← hcapacity', ← hfirst'] at hset
  exact ⟨hnumbers, hmade, hexact, archives, hpack, hset⟩

end Sequence

end Flipbook
