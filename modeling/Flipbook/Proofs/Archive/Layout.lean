import Flipbook.Proofs.Archive.Packing
import Flipbook.Proofs.Number.Whole

/-!
# Options that make sense can be packed with

The options fix how many frames an archive has room for and the numbers that its files get. Every
number that is given is one that a name can be made of, and a player makes a program for all frames.
So once the sequence is checked, nothing fails any more.

## Main definitions

* `PackOptions.Lays`: what the layout for some options is made of.
* `Player.Made`: the players that can be made.
* `PackOptions.Usable`: options with a layout, in which nothing can fail.
* `Naming.Writes`: an entry that a file is written to.

## Main results

* `sealArchive_eq_ok_iff`, `withPlayer_eq_ok`: what an archive is made of;
* `PackOptions.Usable.packFrames_isOk`: nothing fails behind the checks.
-/

namespace Flipbook

namespace Binary64

variable {a : Binary64} {n : Nat}

theorem eq_of_positive? (h : a.positive? = some n) : a = finite n ∧ 0 < n := by
  rw [positive?, Option.filter_eq_some_iff, decide_eq_true_eq] at h
  obtain ⟨hnat, hpos⟩ := h
  refine ⟨?_, hpos⟩
  cases a with
  | finite q =>
    rw [toNat?, toInt?] at hnat
    by_cases hden : q.den = 1
    · simp only [hden, if_true, Option.bind_some] at hnat
      split at hnat
      next hnum =>
        have hq : q.num = n := by
          have := Option.some.inj hnat
          omega
        rw [finite.injEq]
        exact Rat.ext hq hden
      · cases hnat
    · simp [hden] at hnat
  | infinite s => cases hnat
  | nan => cases hnat

theorem eq_ofNat_of_positive? (h : a.positive? = some n) (hn : n ≤ exactBound) : a = ofNat n := by
  rw [ofNat_eq_finite hn]
  exact (eq_of_positive? h).1

theorem whole_of_positive? (h : a.positive? = some n) (hvalid : a.Valid) : Whole n a := by
  obtain ⟨rfl, -⟩ := eq_of_positive? h
  exact ⟨n, rfl, Nat.le_refl n, le_greatest_of_valid hvalid⟩

/-- The size of a file is not negative, even where it is rounded. -/
theorem ofNat_not_lt_zero (n : Nat) : (ofNat n).lt 0 = false := by
  have hzero : (0 : Binary64) = finite (0 : Nat) := ofNat_eq_finite (by decide)
  have hcast : ∀ m : Nat, ¬ (m : Rat) < (0 : Nat) := by
    intro m
    rw [Rat.natCast_lt_natCast]
    exact Nat.not_lt_zero m
  rw [hzero]
  -- A size beyond `2 ^ 53` is rounded to a natural number or to positive infinity.
  by_cases hexact : n ≤ exactBound
  · rw [ofNat_eq_finite hexact, lt, decide_eq_false (hcast n)]
  · have hround : ofNat n = round n := rfl
    rw [hround, round_natCast (Nat.lt_of_not_le hexact)]
    split
    · rfl
    · rw [lt, decide_eq_false (hcast _)]

end Binary64

/-- The number of files that lead an archive. -/
def PackOptions.leaders (options : PackOptions) : Nat :=
  if options.player.isSome then 1 else 0

/-- What the layout for some options is made of. -/
structure PackOptions.Lays (options : PackOptions) (capacity first : Nat)
    (layout : ArchiveLayout) : Prop where
  holds : options.capacity.positive? = some capacity
  startsAt : (options.firstNumber.getD 1).positive? = some first
  places : capacity = layout.framesPerArchive + options.leaders
  room : 0 < layout.framesPerArchive
  firstFrame : layout.firstFrameNumber =
    if options.player.isSome then options.firstNumber.getD 1 + 1 else options.firstNumber.getD 1

theorem PackOptions.exists_lays {options : PackOptions} {layout : ArchiveLayout}
    (h : options.layout = .ok layout) : ∃ capacity first, options.Lays capacity first layout := by
  rw [PackOptions.layout] at h
  split at h
  next => cases h
  next capacity hcapacity =>
    have hpos := (Binary64.eq_of_positive? hcapacity).2
    split at h
    next => cases h
    next first hfirst =>
      refine ⟨capacity, first, ?_⟩
      cases hplayer : options.player with
      | none =>
        simp only [hplayer, Option.isNone_none, if_true] at h
        obtain rfl := Except.ok.inj h
        exact ⟨hcapacity, hfirst, by simp [leaders, hplayer], hpos, by simp [hplayer]⟩
      | some player =>
        simp only [hplayer, Option.isNone_some, Bool.false_eq_true, if_false] at h
        split at h
        next => cases h
        next htwo =>
          obtain rfl := Except.ok.inj h
          refine ⟨hcapacity, hfirst, ?_, ?_, by simp [hplayer]⟩
          · simp only [leaders, hplayer, Option.isSome_some, if_true]
            omega
          · show 0 < capacity - 1
            omega

/-- The players that can be made. -/
def Player.Made (player : Player) : Prop :=
  (∃ delay, Player.ofDelay delay = .ok player) ∨ ∃ program, Player.ofProgram program = .ok player

theorem Player.Made.file_isOk {player : Player} (h : player.Made) (bounds : FrameBounds) :
    ∃ file, player.file bounds = .ok file := by
  rcases h with ⟨delay, hdelay⟩ | ⟨program, hprogram⟩
  · rw [ofDelay] at hdelay
    split at hdelay
    · cases hdelay
    · obtain rfl := Except.ok.inj hdelay
      exact ⟨_, rfl⟩
  · -- What is set in a program are the two numbers that were found in it.
    rw [ofProgram, bind_eq_ok_iff] at hprogram
    obtain ⟨found, hfound, hplayer⟩ := hprogram
    obtain rfl := Except.ok.inj hplayer
    simp only [playerBounds, bind_eq_ok_iff] at hfound
    obtain ⟨first, hfirst, last, hlast, -⟩ := hfound
    have hset : ∃ set, setPlayerBounds program bounds = .ok set := by
      rw [setPlayerBounds]
      simp only [hfirst, hlast]
      exact ⟨_, rfl⟩
    obtain ⟨set, hset⟩ := hset
    exact ⟨playerFile set, by rw [file, hset]; rfl⟩

/-- Options with a layout, a first number that the format has, and a player that can be made. -/
structure PackOptions.Usable (options : PackOptions) (capacity first : Nat)
    (layout : ArchiveLayout) : Prop extends options.Lays capacity first layout where
  valid : (options.firstNumber.getD 1).Valid
  made : ∀ player, options.player = some player → player.Made

/-- An entry that a file is written to, with a name for its number. -/
structure Naming.Writes (naming : Naming) (file : FrameFile) (e : ArchiveEntry) : Prop where
  name : naming.format e.number file = .ok e.name
  data : e.data = file.data

section Entry

variable {naming : Naming} {file : FrameFile} {number : Binary64} {e : ArchiveEntry}

theorem toEntry_eq_ok_iff :
    file.toEntry number naming = .ok e ↔ e.number = number ∧ naming.Writes file e := by
  rw [FrameFile.toEntry, bind_eq_ok_iff]
  constructor
  · rintro ⟨name, hname, h⟩
    obtain rfl := Except.ok.inj h
    exact ⟨rfl, hname, rfl⟩
  · rintro ⟨rfl, hwrites⟩
    refine ⟨e.name, hwrites.name, ?_⟩
    rw [← hwrites.data]

/-- Whole numbers from 1 on can be formatted. -/
theorem Naming.format_isOk_of_whole (naming : Naming) (h : Binary64.Whole 1 number)
    (file : FrameFile) :
    ∃ name, naming.format number file = .ok name := by
  cases naming with
  | flashDrive =>
    rw [format, flashName, h.isInteger, h.not_lt_one, Binary64.ofNat_not_lt_zero]
    exact ⟨_, rfl⟩
  | sequence => exact ⟨_, rfl⟩

theorem toEntry_isOk (naming : Naming) (h : Binary64.Whole 1 number) (file : FrameFile) :
    ∃ e, file.toEntry number naming = .ok e := by
  obtain ⟨name, hname⟩ := naming.format_isOk_of_whole h file
  exact ⟨⟨number, name, file.data⟩, toEntry_eq_ok_iff.mpr ⟨rfl, hname, rfl⟩⟩

end Entry

section Places

variable {options : PackOptions} {capacity first position : Nat} {layout : ArchiveLayout}

/-- The numbers of the frames leave room for those of the player. -/
theorem PackOptions.Usable.whole_numberAt (h : options.Usable capacity first layout)
    (hposition : position % layout.framesPerArchive < Binary64.exactBound) :
    Binary64.Whole (1 + options.leaders) (layout.numberAt position) := by
  have hbound : 2 < Binary64.exactBound := by decide
  have hleaders : options.leaders ≤ 1 := by
    rw [leaders]
    split <;> omega
  have hfirst : Binary64.Whole (1 + options.leaders) layout.firstFrameNumber := by
    have hpos := (Binary64.eq_of_positive? h.startsAt).2
    have hwhole := (Binary64.whole_of_positive? h.startsAt h.valid).mono hpos
    rw [h.firstFrame, leaders]
    split
    · exact (hwhole.add (k := 1) (by omega)).mono (by omega)
    · exact hwhole
  -- Frames are counted from the number in front of the first, which is that of the player.
  have hbefore : Binary64.Whole options.leaders (layout.firstFrameNumber - 1) := by
    rw [Nat.add_comm] at hfirst
    exact hfirst.sub_one (by omega)
  rw [ArchiveLayout.numberAt]
  exact (hbefore.add hposition).mono (by omega)

theorem PackOptions.Usable.entry_isOk (h : options.Usable capacity first layout)
    (hposition : position % layout.framesPerArchive < Binary64.exactBound) (file : FrameFile) :
    ∃ e, layout.entry options.naming position file = .ok e := by
  apply toEntry_isOk
  exact (h.whole_numberAt hposition).mono (Nat.le_add_right 1 _)

end Places

section Sealing

variable {options : PackOptions} {index : Nat} {frames entries : List ArchiveEntry}
  {archive : PackedArchive}

/-- The entries of an archive: its frames, behind the program that plays them. -/
inductive PackOptions.Leads (options : PackOptions) (frames : List ArchiveEntry) :
    List ArchiveEntry → Prop
  | unplayed (hplayer : options.player = none) : options.Leads frames frames
  | played {player : Player} {first last leader : ArchiveEntry} {file : FrameFile}
      (hplayer : options.player = some player) (hfirst : frames.head? = some first)
      (hlast : frames.getLast? = some last)
      (hfile : player.file ⟨first.number, last.number⟩ = .ok file)
      (hnumber : leader.number = first.number - 1) (hwrites : options.naming.Writes file leader) :
      options.Leads frames (leader :: frames)

theorem withPlayer_eq_ok (hne : frames ≠ []) (h : withPlayer options frames = .ok entries) :
    options.Leads frames entries := by
  rw [withPlayer] at h
  split at h
  next player first last hplayer hfirst hlast =>
    simp only [bind_eq_ok_iff, toEntry_eq_ok_iff] at h
    obtain ⟨file, hfile, leader, ⟨hnumber, hwrites⟩, hentries⟩ := h
    obtain rfl := Except.ok.inj hentries
    exact .played hplayer hfirst hlast hfile hnumber hwrites
  next hmissing =>
    obtain rfl := Except.ok.inj h
    cases hplayer : options.player with
    | none => exact .unplayed hplayer
    | some player =>
      -- There are frames, so the player had what it needs.
      exact absurd (List.getLast?_eq_some_getLast hne)
        (hmissing player _ _ hplayer (List.head?_eq_some_head hne))

theorem withPlayer_isOk (hmade : ∀ player, options.player = some player → player.Made)
    (hwhole : ∀ e ∈ frames, Binary64.Whole (1 + options.leaders) e.number) :
    ∃ entries, withPlayer options frames = .ok entries := by
  rw [withPlayer]
  split
  next player first last hplayer hfirst hlast =>
    have hleaders : options.leaders = 1 := by simp [PackOptions.leaders, hplayer]
    have hnumber := hwhole first (List.mem_of_head? hfirst)
    rw [hleaders] at hnumber
    obtain ⟨file, hfile⟩ := (hmade player hplayer).file_isOk ⟨first.number, last.number⟩
    obtain ⟨leader, hleader⟩ :=
      toEntry_isOk options.naming (hnumber.sub_one (by decide)) file
    refine ⟨leader :: frames, bind_eq_ok_iff.mpr ⟨file, hfile, ?_⟩⟩
    exact bind_eq_ok_iff.mpr ⟨leader, hleader, rfl⟩
  next => exact ⟨frames, rfl⟩

/-- What an archive is made of. -/
theorem sealArchive_eq_ok_iff :
    sealArchive options index frames = .ok archive ↔
      archive.index = index ∧
        archive.name = archiveName options.stem (String.ofList (suffixChars index)) ∧
        withPlayer options frames = .ok archive.entries := by
  rw [sealArchive, bind_eq_ok_iff]
  constructor
  · rintro ⟨entries, hentries, h⟩
    obtain rfl := Except.ok.inj h
    exact ⟨rfl, rfl, hentries⟩
  · rintro ⟨rfl, hname, hentries⟩
    refine ⟨archive.entries, hentries, ?_⟩
    rw [← hname]

theorem sealArchive_isOk (hmade : ∀ player, options.player = some player → player.Made)
    (hwhole : ∀ e ∈ frames, Binary64.Whole (1 + options.leaders) e.number) (index : Nat) :
    ∃ archive, sealArchive options index frames = .ok archive := by
  obtain ⟨entries, hentries⟩ := withPlayer_isOk hmade hwhole
  exact ⟨_, bind_eq_ok_iff.mpr ⟨entries, hentries, rfl⟩⟩

end Sealing

/-- The entries of files in their order. -/
def ArchiveLayout.entries (layout : ArchiveLayout) (naming : Naming) (frames : List FrameFile) :
    Except OutputError (List ArchiveEntry) :=
  frames.zipIdx.mapM fun p => layout.entry naming p.2 p.1

/-- The archives of entries that are split already. -/
def sealPieces (options : PackOptions) (pieces : List (List ArchiveEntry)) :
    Except OutputError (List PackedArchive) :=
  pieces.zipIdx.mapM fun p => sealArchive options p.2 p.1

section Packing

variable {options : PackOptions} {capacity first : Nat} {layout : ArchiveLayout} {naming : Naming}
  {frames : List FrameFile} {entries : List ArchiveEntry} {archives : List PackedArchive}

theorem packFrames_eq_ok_iff :
    packFrames layout options frames = .ok archives ↔
      ∃ entries, layout.entries options.naming frames = .ok entries ∧
        sealPieces options (chunks layout.framesPerArchive entries) = .ok archives :=
  bind_eq_ok_iff

theorem map_number_entries (h : layout.entries naming frames = .ok entries) :
    entries.map ArchiveEntry.number = (List.range frames.length).map layout.numberAt := by
  have hnumbers : entries.map ArchiveEntry.number =
      frames.zipIdx.map fun p => layout.numberAt p.2 :=
    map_eq_of_mapM h fun p _ e he => (toEntry_eq_ok_iff.mp he).1
  rw [hnumbers, List.range_eq_range', ← List.zipIdx_map_snd 0 frames, List.map_map]
  rfl

/-- Each entry is written from its file. -/
theorem writes_entries (h : layout.entries naming frames = .ok entries) :
    List.Forall₂ naming.Writes frames entries := by
  have hwrites := (mapM_eq_ok_iff.mp h).imp fun p e he => (toEntry_eq_ok_iff.mp he).2
  have hfiles := List.forall₂_map_left_iff.mpr hwrites
  rwa [List.zipIdx_map_fst] at hfiles

theorem length_entries (h : layout.entries naming frames = .ok entries) :
    entries.length = frames.length :=
  (writes_entries h).length_eq.symm

/-- Positions in an archive are exact if its frames are counted exactly. -/
theorem PackOptions.Lays.mod_lt (h : options.Lays capacity first layout) {position : Nat}
    (hcount : min layout.framesPerArchive frames.length ≤ Binary64.exactBound)
    (hposition : position < frames.length) :
    position % layout.framesPerArchive < Binary64.exactBound := by
  have hmod := Nat.mod_lt position h.room
  have hle := Nat.mod_le position layout.framesPerArchive
  omega

section Success

variable (h : options.Usable capacity first layout)
  (hcount : min layout.framesPerArchive frames.length ≤ Binary64.exactBound)
include h hcount

theorem PackOptions.Usable.entries_isOk :
    ∃ entries, layout.entries options.naming frames = .ok entries := by
  apply exists_mapM_eq_ok
  intro p hp
  have hlt := List.snd_lt_of_mem_zipIdx hp
  exact h.entry_isOk (h.mod_lt hcount (by omega)) p.1

theorem PackOptions.Usable.whole_of_mem_entries
    (hentries : layout.entries options.naming frames = .ok entries) {e : ArchiveEntry}
    (he : e ∈ entries) : Binary64.Whole (1 + options.leaders) e.number := by
  have hmem : e.number ∈ entries.map ArchiveEntry.number := List.mem_map_of_mem he
  rw [map_number_entries hentries] at hmem
  obtain ⟨position, hposition, hnumber⟩ := List.mem_map.mp hmem
  rw [← hnumber]
  exact h.whole_numberAt (h.mod_lt hcount (List.mem_range.mp hposition))

/-- Nothing fails behind the checks. -/
theorem PackOptions.Usable.packFrames_isOk :
    ∃ archives, packFrames layout options frames = .ok archives := by
  obtain ⟨entries, hentries⟩ := h.entries_isOk hcount
  have hsealed : ∃ archives,
      sealPieces options (chunks layout.framesPerArchive entries) = .ok archives := by
    apply exists_mapM_eq_ok
    intro p hp
    apply sealArchive_isOk h.made
    intro e he
    -- The pieces make up the list, so an entry of a piece is one of the entries.
    apply h.whole_of_mem_entries hcount hentries
    rw [← flatten_chunks h.room entries]
    exact List.mem_flatten_of_mem (List.fst_mem_of_mem_zipIdx hp) he
  obtain ⟨archives, harchives⟩ := hsealed
  exact ⟨archives, packFrames_eq_ok_iff.mpr ⟨entries, hentries, harchives⟩⟩

end Success

end Packing

end Flipbook
