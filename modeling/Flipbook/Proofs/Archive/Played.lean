import Flipbook.Proofs.Archive.Rechunk
import Flipbook.Proofs.Archive.Runs
import Flipbook.Proofs.Archive.Split
import Flipbook.Proofs.Archive.Writer

/-!
# A packed player plays its own archive

Archives with a player come about in three ways: a sequence is packed at once, files are added to a
set until it is closed, or an existing archive is split anew. Whichever it is, and whether the
player is a new program or one from elsewhere, each archive is led by a program for just the frames
behind it, and everything else in it is one of the files that were to be packed.

## Main definitions

* `PackOptions.Plays`: a leader that plays the frames behind it.
* `PlayedSet`: the archives of some files, each with such a leader.

## Main results

* `Player.plays_of_file`: the program that a player makes for some frames plays them;
* `playedSet_of_packFrames`, `playedSet_of_rechunkFiles`: the ways in which archives come about;
* `PackOptions.plays_its_archives`: all of them.
-/

namespace Flipbook

/-- The leader of an archive is a program for just the frames behind it. -/
structure PackOptions.Plays (options : PackOptions) (leader : ArchiveEntry)
    (frames : List ArchiveEntry) : Prop where
  number : leader.number = options.firstNumber.getD 1
  /-- The leader is the file of a program. -/
  program : ∃ program, options.naming.Writes (playerFile program) leader
  /-- There are frames, and the program plays the first one of them, the last one and those
  between. -/
  bounds : ∃ first last, frames.head? = some first ∧ frames.getLast? = some last ∧
    playerBounds leader.data = .ok ⟨first.number, last.number⟩
  room : ∃ capacity, options.capacity.positive? = some capacity ∧ frames.length + 1 ≤ capacity

/-- Archives each of which plays itself, and whose other entries are some files in their order. -/
structure PlayedSet (options : PackOptions) (files : List FrameFile)
    (archives : List PackedArchive) : Prop where
  plays : ∀ archive ∈ archives,
    ∃ leader frames, archive.entries = leader :: frames ∧ options.Plays leader frames
  frames : List.Forall₂ options.naming.Writes files
    (archives.flatMap fun archive => archive.entries.tail)

/-- The program that a player makes for some frames plays them. -/
theorem Player.plays_of_file {player : Player} {file : FrameFile} {first last : Nat}
    (hpos : 0 < first) (hfirst : first < Binary64.exactBound) (hlast : last < Binary64.exactBound)
    (h : player.file ⟨.ofNat first, .ofNat last⟩ = .ok file) :
    ∃ program, file = playerFile program ∧
      playerBounds program = .ok ⟨.ofNat first, .ofNat last⟩ := by
  cases player with
  | fresh delay =>
    obtain rfl := Except.ok.inj h
    exact ⟨_, rfl, playerBounds_build hpos hfirst hlast⟩
  | existing program =>
    rw [Player.file] at h
    cases hset : setPlayerBounds program ⟨.ofNat first, .ofNat last⟩ with
    | error e =>
      rw [hset] at h
      cases h
    | ok set =>
      rw [hset] at h
      obtain rfl := Except.ok.inj h
      exact ⟨set, rfl, playerBounds_setPlayerBounds hpos (Nat.le_of_lt hfirst) hlast hset⟩

section Leader

variable {options : PackOptions} {capacity first : Nat} {layout : ArchiveLayout}
  {frames entries : List ArchiveEntry}

/-- A player that was made for the frames behind it plays them. -/
theorem PackOptions.Leads.plays (h : options.Lays capacity first layout)
    (hleads : options.Leads frames entries) (hplayer : options.player.isSome)
    (hroom : entries.length ≤ capacity)
    (hbound : first + entries.length ≤ Binary64.exactBound)
    (hnumbers : entries.map ArchiveEntry.number =
      (List.range' first entries.length).map .ofNat) :
    ∃ leader, entries = leader :: frames ∧ options.Plays leader frames := by
  cases hleads with
  | unplayed hnone =>
    rw [hnone] at hplayer
    cases hplayer
  | @played player head last leader file hsome hhead hlast hfile hnumber hwrites =>
    have hlength : (leader :: frames).length = frames.length + 1 := List.length_cons
    rw [List.length_cons] at hroom hbound hnumbers
    have hpos := (Binary64.eq_of_positive? h.startsAt).2
    have hfirst := Binary64.eq_ofNat_of_positive? h.startsAt (by omega)
    rw [List.map_cons, List.range'_succ, List.map_cons, List.cons.injEq] at hnumbers
    obtain ⟨hleader, hrest⟩ := hnumbers
    obtain ⟨more, rfl⟩ := List.head?_eq_some_iff.mp hhead
    rw [List.length_cons] at hbound
    -- The numbers of the first frame and of the last one, as the player gets them.
    have hheadNumber : head.number = .ofNat (first + 1) := by
      rw [List.length_cons, List.range'_succ, List.map_cons, List.map_cons] at hrest
      exact (List.cons.inj hrest).1
    have hlastNumber : last.number = .ofNat (first + 1 + more.length) := by
      have hmap := congrArg List.getLast? hrest
      rw [List.getLast?_map, hlast, List.getLast?_map, List.length_cons, List.getLast?_range',
        if_neg (by omega), Option.map_some, Option.map_some, Option.some.injEq] at hmap
      rw [hmap]
      congr 1
    rw [hheadNumber, hlastNumber] at hfile
    obtain ⟨program, rfl, hplays⟩ :=
      Player.plays_of_file (Nat.succ_pos first) (by omega) (by omega) hfile
    refine ⟨leader, rfl, ?_, ⟨program, hwrites⟩, ⟨head, last, hhead, hlast, ?_⟩,
      capacity, h.holds, hroom⟩
    · rw [hleader, hfirst]
    · rw [hwrites.data, hheadNumber, hlastNumber]
      exact hplays

end Leader

section Packing

variable {options : PackOptions} {capacity first : Nat} {layout : ArchiveLayout}
  {frames : List FrameFile} {archives : List PackedArchive}

theorem playedSet_of_packFrames (h : options.Lays capacity first layout)
    (hplayer : options.player.isSome)
    (hbound : first + min capacity (frames.length + options.leaders) ≤ Binary64.exactBound)
    (hpack : packFrames layout options frames = .ok archives) :
    PlayedSet options frames archives := by
  obtain ⟨entries, hentries, hseal⟩ := packFrames_eq_ok_iff.mp hpack
  have hleaders : options.leaders = 1 := by rw [PackOptions.leaders, if_pos hplayer]
  constructor
  case plays =>
    intro archive harchive
    -- An archive holds a piece of the frames, with the program for it in front.
    obtain ⟨hpiece, hleads⟩ := leads_of_mem hseal harchive
    have hroom := h.length_le_of_mem hseal harchive
    have hcount := hleads.length_eq
    have hlength := length_entries hentries
    have hpieceLength : (options.framesIn archive).length ≤ entries.length := by
      obtain ⟨j, hj⟩ := exists_eq_of_mem_chunks h.room hpiece
      rw [hj, List.length_take, List.length_drop]
      omega
    obtain ⟨leader, heq, hplays⟩ := hleads.plays h hplayer hroom (by omega)
      (h.map_number_of_mem hbound hentries hseal harchive)
    exact ⟨leader, _, heq, hplays⟩
  case frames =>
    have htail : (fun archive : PackedArchive => archive.entries.tail) = options.framesIn := by
      funext archive
      rw [PackOptions.framesIn, hleaders, List.drop_one]
    rw [htail]
    exact h.writes_framesIn hpack

/-- The first archives of a set are a set of the first files. -/
theorem PlayedSet.of_front {all : List PackedArchive} (h : PlayedSet options frames all)
    (hfront : archives <+: all) :
    ∃ taken, taken <+: frames ∧ PlayedSet options taken archives := by
  obtain ⟨more, rfl⟩ := hfront
  have hwrites := h.frames
  rw [List.flatMap_append] at hwrites
  refine ⟨_, List.take_prefix _ frames, fun archive harchive => ?_,
    List.forall₂_take_append _ _ _ hwrites⟩
  exact h.plays archive (List.mem_append_left more harchive)

end Packing

section Sequence

variable {options : PackOptions} {files : List SequenceFile} {archives : List PackedArchive}

theorem framesOf_perm (files : List SequenceFile) :
    (framesOf files).Perm (files.map SequenceFile.file) :=
  (sortByNumber_perm files).map SequenceFile.file

theorem playedSet_of_packSequence (hplayer : options.player.isSome)
    (hexact : options.CountsExactly files) (h : packSequence files options = .ok archives) :
    PlayedSet options (framesOf files) archives := by
  obtain ⟨layout, hlayout, hnone⟩ := layout_of_packSequence h
  obtain ⟨capacity, first, hlays⟩ := PackOptions.exists_lays hlayout
  have hbound := hexact capacity first hlays.holds hlays.startsAt
  rw [packSequence_eq hlayout hnone] at h
  apply playedSet_of_packFrames hlays hplayer ?_ h
  rwa [length_framesOf]

/-- What plays the archives does not depend on where the player comes from. -/
theorem PlayedSet.of_player {frames : List FrameFile} {player : Option Player}
    (h : PlayedSet { options with player } frames archives) :
    PlayedSet options frames archives := by
  refine ⟨fun archive harchive => ?_, h.frames⟩
  obtain ⟨leader, frames, heq, hplays⟩ := h.plays archive harchive
  exact ⟨leader, frames, heq, hplays.number, hplays.program, hplays.bounds, hplays.room⟩

end Sequence

section Rechunk

variable {options : PackOptions} {files : List SequenceFile} {archives : List PackedArchive}

/-- An archive with one player is packed anew from fewer files, none of which is a player. -/
theorem exists_kept_of_rechunkPlayed {program : List UInt8}
    (h : rechunkPlayed files program options = .ok archives) :
    ∃ kept player, kept.Sublist (files.filter fun f => !isPlayerFile f.file) ∧
      packSequence kept { options with player := some player } = .ok archives := by
  simp only [rechunkPlayed, bind_eq_ok_iff] at h
  obtain ⟨bounds, -, h⟩ := h
  split at h
  · cases h
  · cases h
  · -- Among the files that are no players, those are kept which the program plays.
    have hkept := List.monotone_filter_right files (p := fun f : SequenceFile =>
      !isPlayerFile f.file && bounds.firstFrame.le f.number && f.number.le bounds.lastFrame)
      (q := fun f => !isPlayerFile f.file) fun f hf => by
        rw [Bool.and_assoc, Bool.and_eq_true] at hf
        exact hf.1
    split at h
    next player hplayer =>
      obtain ⟨_, heq, hpack⟩ := bind_eq_ok_iff.mp h
      exact ⟨_, _, hkept, hpack⟩
    next hnone =>
      obtain ⟨player, -, hpack⟩ := bind_eq_ok_iff.mp h
      exact ⟨_, player, hkept, hpack⟩

/-- The files of an archive with a player, or for which there is one, are packed into archives that
play themselves. -/
theorem playedSet_of_rechunkFiles
    (hplayer : options.player.isSome ∨ ∃ f ∈ files, isPlayerFile f.file = true)
    (hexact : options.CountsExactly files) (h : rechunkFiles files options = .ok archives) :
    ∃ kept, kept.Sublist (files.filter fun f => !isPlayerFile f.file) ∧
      PlayedSet options (framesOf kept) archives := by
  have hcount := List.length_eq_length_filter_add (fun f : SequenceFile => isPlayerFile f.file)
    (l := files)
  rw [rechunkFiles] at h
  split at h
  next hnone =>
    have hnot : ∀ f ∈ files, isPlayerFile f.file = false := by
      simpa [List.filter_eq_nil_iff] using hnone
    have hsome : options.player.isSome := by
      refine hplayer.resolve_right ?_
      rintro ⟨f, hf, hplayerFile⟩
      exact Bool.false_ne_true ((hnot f hf).symm.trans hplayerFile)
    refine ⟨files, ?_, playedSet_of_packSequence hsome hexact h⟩
    rw [List.filter_eq_self.mpr fun f hf => by rw [hnot f hf]; rfl]
  next leader hone =>
    obtain ⟨kept, player, hkept, hpack⟩ := exists_kept_of_rechunkPlayed h
    refine ⟨kept, hkept, (playedSet_of_packSequence rfl ?_ hpack).of_player⟩
    -- The player that leads the archive is left out, which makes room for a new one.
    intro capacity first hcapacity hfirst
    have hbound := hexact capacity first hcapacity hfirst
    have hlength := hkept.length_le
    rw [hone, List.length_singleton] at hcount
    have hleaders : PackOptions.leaders { options with player := some player } = 1 := rfl
    show first + min capacity (kept.length + PackOptions.leaders _) ≤ _
    omega
  next => cases h

end Rechunk

/-- Only what is offered is accepted. -/
theorem accepted_sublist (attempts : List Attempt) :
    (accepted attempts).Sublist (attempts.map Attempt.archive) := by
  induction attempts with
  | nil => exact .slnil
  | cons attempt attempts ih =>
    obtain ⟨archive, answer⟩ := attempt
    cases answer with
    | ok done => exact .cons_cons archive ih
    | error e => exact .cons archive ih

section Growing

variable {σ : Type} [Zip.Codec] {store : ArchiveStore σ} {state : σ} {options : PackOptions}
  {capacity first : Nat} {layout : ArchiveLayout} {calls : List SetCall}

/-- What a set hands to its store, whether it is closed yet or not. -/
theorem playedSet_of_run (husable : options.Usable capacity first layout)
    (hplayer : options.player.isSome)
    (hcount : (givenFiles calls).length ≤ Binary64.exactBound)
    (hbound : first + min capacity ((givenFiles calls).length + options.leaders) ≤
      Binary64.exactBound) {session : ArchiveSet σ × List Attempt}
    (hrun : ArchiveSet.run store ⟨⟨options, layout, [], 0, 0, false, []⟩, state⟩ calls = session) :
    (∃ taken, taken <+: givenFiles calls ∧ (.close ∈ calls → taken = givenFiles calls) ∧
      PlayedSet options taken (session.2.map Attempt.archive)) ∧
      session.1.writer.archives.Sublist (session.2.map Attempt.archive) := by
  have hplaces := husable.places
  obtain ⟨full, current, archives, h⟩ := progress_run store state husable calls hcount
  rw [hrun] at h
  have hpacked : ∃ all, packFrames layout options (givenFiles calls) = .ok all :=
    husable.packFrames_isOk (by omega)
  obtain ⟨all, hall⟩ := hpacked
  have hplayed := playedSet_of_packFrames husable.toLays hplayer hbound hall
  have hfront := h.archives_eq_take husable.room hall
  have hoffered : session.2.map Attempt.archive = archives := by
    rw [congrArg Prod.snd h.offered, store.map_archive_offer]
  rw [hoffered]
  -- All archives are requested if the set was closed, and the first ones if it was not.
  constructor
  · by_cases hclosed : .close ∈ calls
    · rw [decide_eq_true hclosed, if_pos rfl, List.take_length] at hfront
      rw [hfront]
      exact ⟨givenFiles calls, List.prefix_rfl, fun _ => rfl, hplayed⟩
    · obtain ⟨taken, htaken, hset⟩ := hplayed.of_front (hfront ▸ List.take_prefix _ all)
      exact ⟨taken, htaken, fun h => absurd h hclosed, hset⟩
  · rw [h.writer_eq, ← hoffered]
    exact accepted_sublist session.2

end Growing

/-- With some options, each archive with a player plays itself, in whatever way it comes about. -/
structure PackOptions.PlaysItsArchives [Zip.Codec] (options : PackOptions) : Prop where
  /-- Files without gaps can be packed. -/
  packs : options.player.isSome → ∀ files : List SequenceFile, options.CountsExactly files →
    (∀ f ∈ files, f.Counted) → (∀ f ∈ files, f.file.data ≠ []) →
    (∃ ordered, ordered.Perm files ∧ Consecutive ordered) →
    ∃ archives, packSequence files options = .ok archives
  packed : options.player.isSome → ∀ files : List SequenceFile, options.CountsExactly files →
    ∀ archives, packSequence files options = .ok archives →
      ∃ taken, taken.Perm (files.map SequenceFile.file) ∧ PlayedSet options taken archives
  /-- What a set hands over as files arrive, and in the end when it is closed. -/
  grown : options.player.isSome → ∃ writer, ArchiveWriter.start options = .ok writer ∧
    ∀ {σ : Type} (store : ArchiveStore σ) (state : σ) (calls : List SetCall),
      (givenFiles calls).length < Binary64.exactBound →
      options.CountsExactly (numbered 1 (givenFiles calls)) →
      ∀ session, ArchiveSet.run store ⟨writer, state⟩ calls = session →
        (∃ taken, taken <+: givenFiles calls ∧ (.close ∈ calls → taken = givenFiles calls) ∧
          PlayedSet options taken (session.2.map Attempt.archive)) ∧
        session.1.writer.archives.Sublist (session.2.map Attempt.archive)
  /-- The player of the archive that is split is taken over if there is no other one. -/
  split : ∀ (bytes : List UInt8) (files : List SequenceFile),
    readArchiveFiles options.naming bytes = .ok files → options.CountsExactly files →
    (options.player.isSome ∨ ∃ f ∈ files, isPlayerFile f.file = true) →
    ∀ archives, rechunk bytes options = .ok archives →
      ∃ kept : List SequenceFile, kept.Sublist (files.filter fun f => !isPlayerFile f.file) ∧
        ∃ taken, taken.Perm (kept.map SequenceFile.file) ∧ PlayedSet options taken archives

/-- Options that make sense, with a player that can be made, make archives that play themselves. -/
theorem PackOptions.plays_its_archives [Zip.Codec] {options : PackOptions} {layout : ArchiveLayout}
    (hlayout : options.layout = .ok layout)
    (hmade : ∀ player, options.player = some player → player.Made) : options.PlaysItsArchives := by
  constructor
  case packs =>
    intro _ files hexact hcounted hdata hordered
    have hfault := (sequenceFault_sortByNumber_eq_none_iff hcounted).mpr ⟨hdata, hordered⟩
    exact packSequence_isOk hlayout hmade hexact hfault
  case packed =>
    intro hplayer files hexact archives h
    exact ⟨framesOf files, framesOf_perm files, playedSet_of_packSequence hplayer hexact h⟩
  case grown =>
    intro hplayer
    refine ⟨_, start_eq_ok_iff.mpr ⟨layout, hlayout, rfl⟩, ?_⟩
    intro σ store state calls hcount hexact session hrun
    obtain ⟨capacity, first, hlays⟩ := exists_lays hlayout
    have hbound := hexact capacity first hlays.holds hlays.startsAt
    rw [length_numbered] at hbound
    -- Where counting is exact, the first number is.
    have hvalid : (options.firstNumber.getD 1).Valid := by
      rw [Binary64.eq_ofNat_of_positive? hlays.startsAt (by omega)]
      exact Binary64.valid_ofNat (by omega)
    exact playedSet_of_run ⟨hlays, hvalid, hmade⟩ hplayer (Nat.le_of_lt hcount) hbound hrun
  case split =>
    intro bytes files hread hexact hplayer archives h
    rw [rechunk_of_read hlayout hread] at h
    cases hfiles : rechunkFiles files options with
    | error e =>
      rw [hfiles] at h
      cases h
    | ok result =>
      rw [hfiles] at h
      obtain rfl := Except.ok.inj h
      obtain ⟨kept, hkept, hset⟩ := playedSet_of_rechunkFiles hplayer hexact hfiles
      exact ⟨kept, hkept, _, framesOf_perm kept, hset⟩

/-- A program that says in one line which frames it plays, so that one of their numbers is the line
number of the other. -/
def foreignProgram : List UInt8 :=
  encodeLatin1 "5 LET F=3 IF F>7 THEN 9\r9 END".toList

/-- Archives of three files, led by a program from elsewhere. -/
def ledByForeign : PackOptions :=
  ⟨3, .flashDrive, "reel", some 4, some (.existing foreignProgram)⟩

/-- The zip file of two frames. -/
def twoFramesZip : List UInt8 :=
  Zip.write ((numbered 7 twoFrames).map fun f =>
    let e := Naming.flashDrive.store f
    ⟨e.name, e.data⟩)

/-- The frames that are read from it. -/
def restoredFrames : List SequenceFile :=
  numbered 7 (twoFrames.map Naming.flashDrive.kept)

/-- A program from elsewhere leads the archives of two frames, both if they are packed at once and
if another archive is split, and those of a set that is closed early. -/
theorem plays_its_archives_foreign :
    ledByForeign.layout = .ok ⟨2, 5⟩ ∧
      (∀ player, ledByForeign.player = some player → player.Made) ∧
      (∃ archives taken, packSequence restoredFrames ledByForeign = .ok archives ∧
        taken.Perm (restoredFrames.map SequenceFile.file) ∧
        PlayedSet ledByForeign taken archives) ∧
      (∃ archives kept, rechunk twoFramesZip ledByForeign = .ok archives ∧
        PlayedSet ledByForeign kept archives) ∧
      ∃ writer, ArchiveWriter.start ledByForeign = .ok writer ∧
        PlayedSet ledByForeign (givenFiles interruptedCalls)
          ((ArchiveSet.run lateStore ⟨writer, .empty⟩ interruptedCalls).2.map Attempt.archive) := by
  have hlayout : ledByForeign.layout = .ok ⟨2, 5⟩ := by decide +kernel
  have hmade : ∀ player, ledByForeign.player = some player → player.Made := by
    intro player hplayer
    obtain rfl := Option.some.inj hplayer
    exact .inr ⟨foreignProgram, by decide +kernel⟩
  have hread : readArchiveFiles .flashDrive twoFramesZip = .ok restoredFrames := by
    decide +kernel
  have hcapacity : ledByForeign.capacity.positive? = some 3 :=
    positive?_ofNat (n := 3) (by decide) (by decide)
  have hfirst : (ledByForeign.firstNumber.getD 1).positive? = some 4 :=
    positive?_ofNat (n := 4) (by decide) (by decide)
  have hexact : ∀ files, files.length ≤ 3 → ledByForeign.CountsExactly files := by
    intro files _ capacity first hcapacity' hfirst'
    rw [hcapacity, Option.some.injEq] at hcapacity'
    rw [hfirst, Option.some.injEq] at hfirst'
    rw [← hcapacity', ← hfirst']
    exact Nat.le_trans (Nat.add_le_add_left (Nat.min_le_left _ _) 4) (by decide)
  have h := PackOptions.plays_its_archives hlayout hmade
  have hsplit := h.split twoFramesZip _ hread (hexact _ (by decide)) (.inl rfl)
  obtain ⟨archives, hpack⟩ := h.packs rfl restoredFrames (hexact _ (by decide))
    (fun f hf => counted_of_mem_numbered (by decide) hf) (by decide)
    ⟨_, .refl _, consecutive_numbered (by decide)⟩
  obtain ⟨taken, hperm, hset⟩ := h.packed rfl _ (hexact _ (by decide)) archives hpack
  -- None of the files that are read is a player, so splitting packs them all.
  have hrechunk : rechunk twoFramesZip ledByForeign = .ok archives := by
    rw [rechunk_of_read hlayout hread, rechunkFiles_unplayed (by decide +kernel), hpack]
    rfl
  obtain ⟨-, -, kept, -, hkept⟩ := hsplit archives hrechunk
  obtain ⟨writer, hstart, hgrown⟩ := h.grown rfl
  obtain ⟨⟨given, -, hgiven, hstored⟩, -⟩ :=
    hgrown lateStore .empty interruptedCalls (by decide) (hexact _ (by decide)) _ rfl
  rw [hgiven (by decide)] at hstored
  exact ⟨hlayout, hmade, ⟨archives, taken, hpack, hperm, hset⟩, ⟨archives, kept, hrechunk, hkept⟩,
    writer, hstart, hstored⟩

end Flipbook
