import Flipbook.Command.Run
import Flipbook.Proofs.Command.Accepted
import Flipbook.Proofs.Script.Compile

/-!
# No check is failed later

The modules that do the work check their numbers again. Options of an accepted command line pass all
of these checks: there are always workers, the script keeps its timeline with another frame rate,
and packing has room. What can still be refused is a player program, if the device has none, or if
it takes the only place in an archive.

## Main definitions

* `Options.PassesChecks`: options that are refused for the sake of a player program only.

## Main results

* `Options.Sound.passesChecks`: sound options pass;
* `CommandLine.parse_passes_checks`: so do those of an accepted command line.
-/

namespace Flipbook

/-! ## Frame rates -/

namespace Script

variable {α : Type} [Scalar α]

/-- Another frame rate changes nothing else in a timeline. -/
theorem Draft.Sound.timeline_override {draft : Draft α} {next : Nat} (h : draft.Sound next)
    {frameRate : Option Binary64} (hrate : ∀ rate ∈ frameRate, 0 < rate) :
    draft.timeline frameRate = (draft.timeline none).map fun timeline =>
      { timeline with frameRate := frameRate.getD timeline.frameRate } := by
  -- The rate of the script, or the usual one, passes the check.
  have hown : 0 < (draft.fps.map Setting.value).getD defaultFrameRate := by
    cases hfps : draft.fps with
    | none => decide
    | some rate => exact h.fps rate hfps
  have hgiven : 0 < frameRate.getD ((draft.fps.map Setting.value).getD defaultFrameRate) := by
    cases frameRate with
    | none => exact hown
    | some rate => exact hrate rate rfl
  unfold Draft.timeline
  split
  · rfl
  · split
    · rfl
    · rw [if_pos hgiven, Option.getD_none, if_pos hown]
      rfl

theorem compile_override [FiniteUnits α] (sourceExists : Option (String → Bool)) (text : String)
    {frameRate : Option Binary64} (hrate : ∀ rate ∈ frameRate, 0 < rate) :
    (compile { sourceExists, frameRate } text : Except Error (Timeline α)) =
      (compile { sourceExists } text).map fun timeline =>
        { timeline with frameRate := frameRate.getD timeline.frameRate } := by
  have hlines := (Draft.sound_empty (α := α) 1).addLines (sourceExists.getD fun _ => true)
    (scriptLines text)
  unfold compile
  dsimp only
  cases hdraft : Draft.addLines (sourceExists.getD fun _ => true) ({} : Draft α) 1
      (scriptLines text) with
  | error e => rfl
  | ok draft => exact (hlines draft hdraft).timeline_override hrate

end Script

/-! ## Packing -/

namespace Binary64

variable {a : Binary64}

theorem IsPositiveInteger.exists_positive? (h : a.IsPositiveInteger) :
    ∃ n : Nat, a = finite n ∧ a.positive? = some n := by
  obtain ⟨n, hpos, rfl⟩ := h
  refine ⟨n, rfl, ?_⟩
  rw [positive?, toNat?, toInt?]
  simp [hpos]

end Binary64

/-- Numbers that are positive integers are refused only if a player program leaves no room. -/
theorem PackOptions.layout_eq_error_iff {options : PackOptions} {e : OutputError}
    (hcapacity : options.capacity.IsPositiveInteger)
    (hfirst : ∀ number ∈ options.firstNumber, number.IsPositiveInteger) :
    options.layout = .error e ↔
      options.player.isSome = true ∧ options.capacity = 1 ∧ e = .noRoomForFrames 1 := by
  obtain ⟨capacity, hvalue, hpositive⟩ := hcapacity.exists_positive?
  have hnumber : (options.firstNumber.getD 1).IsPositiveInteger := by
    cases hfirstNumber : options.firstNumber with
    | none => exact ⟨1, by decide, by decide⟩
    | some number => exact hfirst number hfirstNumber
  obtain ⟨first, -, hstart⟩ := hnumber.exists_positive?
  have hpos := (Binary64.eq_of_positive? hpositive).2
  have hone : (1 : Binary64) = .finite (1 : Nat) := Binary64.ofNat_eq_finite (by decide)
  rw [layout, hpositive, hstart]
  dsimp only
  rw [hvalue, hone, Binary64.finite.injEq, Rat.natCast_inj]
  cases options.player with
  | none => simp
  | some player =>
    rw [Option.isNone_some, if_neg Bool.false_ne_true, Option.isSome_some, eq_self, true_and]
    split_ifs with hroom
    · obtain rfl : capacity = 1 := by omega
      simp [eq_comm]
    · have hne : capacity ≠ 1 := by omega
      simp [hne]

/-- A delay that is a number of seconds makes a player. -/
theorem Player.ofDelay_eq_ok {delay : Binary64} (h : delay.IsNonNegative) :
    ofDelay delay = .ok (.fresh delay) := by
  obtain ⟨q, hq, rfl⟩ := h
  have hlt : (Binary64.finite q).lt 0 = false := by
    rw [Binary64.zero_eq, Binary64.lt, decide_eq_false_iff_not, Rat.not_lt]
    exact hq
  rw [ofDelay, hlt]
  rfl

/-- As many computations at the same time as there are to be, as long as there are frames. -/
theorem Run.start_eq_ok {β : Type} {concurrency : Binary64} (h : concurrency.IsPositiveInteger)
    (total : Nat) (aborted : Bool) (fault : Nat → Option Error) :
    ∃ workers : Nat, 0 < workers ∧ concurrency = .finite workers ∧
      (start total concurrency aborted fault : Except OutputError (Run β × List (Demand β))) =
        .ok (launch (some total) (min workers total) aborted fault) := by
  obtain ⟨workers, hvalue, hpositive⟩ := h.exists_positive?
  refine ⟨workers, (Binary64.eq_of_positive? hpositive).2, hvalue, ?_⟩
  rw [Binary64.positive?] at hpositive
  rw [start, concurrency?, hpositive]
  rfl

theorem ArchiveWriter.start_eq_error_iff {options : PackOptions} {e : OutputError} :
    start options = .error e ↔ options.layout = .error e := by
  rw [start, bind_eq_error_iff]
  simp

/-- An archive set is refused only for the sake of a player program: if the device has none, or if
it leaves no room for frames. -/
theorem ArchiveTarget.writer_eq_error_iff {α : Type} {target : ArchiveTarget α} {stem : String}
    {e : OutputError} (hcapacity : target.capacity.IsPositiveInteger)
    (hfirst : ∀ number ∈ target.firstNumber, number.IsPositiveInteger)
    (hdelay : ∀ delay ∈ target.playerDelay, delay.IsNonNegative) :
    target.writer stem = .error e ↔ target.playerDelay.isSome = true ∧
      (target.device.supportsPlayer = false ∧ e = .profileWithoutPlayer target.device.name ∨
        target.device.supportsPlayer = true ∧ target.capacity = 1 ∧ e = .noRoomForFrames 1) := by
  have hlayout (player : Option Player) :
      ArchiveWriter.start
          { capacity := target.capacity, naming := target.device.naming, stem,
            firstNumber := target.firstNumber, player } = .error e ↔
        player.isSome = true ∧ target.capacity = 1 ∧ e = .noRoomForFrames 1 :=
    ArchiveWriter.start_eq_error_iff.trans (PackOptions.layout_eq_error_iff hcapacity hfirst)
  unfold writer
  cases hplayer : target.playerDelay with
  | none =>
    rw [Option.isSome_none, Bool.false_and, if_neg Bool.false_ne_true]
    exact (hlayout none).trans (by simp)
  | some delay =>
    -- The delay makes a player, so only the device and the room are in question.
    have hmade := Player.ofDelay_eq_ok (hdelay delay hplayer)
    cases hdevice : target.device.supportsPlayer with
    | false =>
      rw [Option.isSome_some, Bool.not_false, Bool.and_self, if_pos rfl]
      simp [eq_comm]
    | true =>
      rw [Bool.not_true, Bool.and_false, if_neg Bool.false_ne_true]
      dsimp only
      rw [hmade]
      exact (hlayout (some (.fresh delay))).trans (by simp)

namespace Command

open Binary64

/-! ## Splitting archives -/

/-- What is read from an archive is not refused as a command line. -/
theorem readArchiveFile_ne_usage {naming : Naming} {file : Zip.Listed} {c : UsageError} :
    readArchiveFile naming file ≠ .error (.usage c) := by
  unfold readArchiveFile
  split
  · simp
  · split <;> simp

theorem rechunk_ne_usage [Zip.Codec] {bytes : List UInt8} {options : PackOptions} {c : UsageError} :
    Flipbook.rechunk bytes options ≠ .error (.usage c) := by
  intro h
  unfold Flipbook.rechunk rechunkEntries at h
  split at h
  · cases h
  · split at h
    · rename_i e hfiles
      obtain rfl := Except.error.inj h
      unfold readArchiveFiles at hfiles
      split at hfiles
      · cases hfiles
      · obtain ⟨file, -, hfile⟩ := exists_of_mapM_eq_error hfiles
        exact readArchiveFile_ne_usage hfile
    · obtain ⟨e, -, hraised⟩ := mapError_eq_error_iff.mp h
      cases hraised

/-- The options for splitting an archive anew can always be made. -/
theorem exists_rechunkOptions {options : Options} (hdelay : options.delay.IsNonNegative)
    (archive : String) :
    ∃ packing, rechunkOptions options archive = .ok packing ∧
      packing.capacity = options.capacity ∧ packing.firstNumber = options.firstNumber ∧
      packing.player.isSome = options.player := by
  unfold rechunkOptions
  cases hplayer : options.player with
  | false => exact ⟨_, rfl, rfl, rfl, rfl⟩
  | true =>
    rw [if_pos rfl, Player.ofDelay_eq_ok hdelay]
    exact ⟨_, rfl, rfl, rfl, rfl⟩

/-- Splitting an archive is refused as a command line just if the device cannot play. -/
theorem rechunkArchives_eq_usage_iff [Zip.Codec] {files : FileTree} {options : Options}
    {archive : String} {c : UsageError} :
    rechunkArchives files options archive = .error (.usage c) ↔ options.player = true ∧
      options.device.supportsPlayer = false ∧ c = .deviceWithoutPlayer options.device.name := by
  unfold rechunkArchives
  split_ifs with hrefused
  · rw [Bool.and_eq_true, Bool.not_eq_true'] at hrefused
    rw [Except.error.injEq, Error.usage.injEq]
    exact ⟨fun h => ⟨hrefused.1, hrefused.2, h.symm⟩, fun h => h.2.2.symm⟩
  · refine ⟨fun h => ?_, fun h => absurd ?_ hrefused⟩
    · -- The file, the options and the archive have errors of other kinds.
      rcases bind_eq_error_iff.mp h with hread | ⟨data, -, h⟩
      · obtain ⟨e, -, hraised⟩ := mapError_eq_error_iff.mp hread
        cases hraised
      · rcases bind_eq_error_iff.mp h with hoptions | ⟨packing, -, h⟩
        · obtain ⟨e, -, hraised⟩ := mapError_eq_error_iff.mp hoptions
          cases hraised
        · exact absurd h rechunk_ne_usage
    · simp [h.1, h.2.1]

/-! ## Accepted options -/

/-- Options that pass all later checks, except that a player program may be refused. -/
structure Options.PassesChecks (α : Type) [Scalar α] (options : Options) : Prop where
  /-- There are workers for the frames. -/
  workers (β : Type) (total : Nat) (aborted : Bool) (fault : Nat → Option Error) :
    ∃ workers : Nat, 0 < workers ∧ options.concurrency = .finite workers ∧
      (Run.start total options.concurrency aborted fault :
          Except OutputError (Run β × List (Demand β))) =
        .ok (Run.launch (some total) (min workers total) aborted fault)
  /-- A script compiles to what it would compile to otherwise, with the frame rate, if one is
  given. -/
  frameRate (sourceExists : Option (String → Bool)) (text : String) :
    (Script.compile { sourceExists, frameRate := options.frameRate } text :
        Except Error (Timeline α)) =
      (Script.compile { sourceExists } text).map fun timeline =>
        { timeline with frameRate := options.frameRate.getD timeline.frameRate }
  /-- A player program can be made with the delay. -/
  player : Player.ofDelay options.delay = .ok (.fresh options.delay)
  /-- Packing is refused just if there is a player, a new one or that of an archive, and it takes
  the only place. -/
  layout (packing : PackOptions) (hcapacity : packing.capacity = options.capacity)
    (hfirst : packing.firstNumber = options.firstNumber) (e : OutputError) :
    packing.layout = .error e ↔
      packing.player.isSome = true ∧ options.capacity = 1 ∧ e = .noRoomForFrames 1
  /-- An archive set is refused just if there is a player, and the device has none or it takes the
  only place. -/
  writer (target : ArchiveTarget α) (htarget : options.target = .archives target) (stem : String)
    (e : OutputError) :
    target.writer stem = .error e ↔ options.player = true ∧
      (options.device.supportsPlayer = false ∧ e = .profileWithoutPlayer options.device.name ∨
        options.device.supportsPlayer = true ∧ options.capacity = 1 ∧ e = .noRoomForFrames 1)
  /-- An archive can be split with these numbers. -/
  rechunk (archive : String) :
    ∃ packing, rechunkOptions options archive = .ok packing ∧
      packing.capacity = options.capacity ∧ packing.firstNumber = options.firstNumber ∧
      packing.player.isSome = options.player
  /-- Splitting an archive is refused as a command line just if the device cannot play. -/
  usage [Zip.Codec] (files : FileTree) (archive : String) (c : UsageError) :
    rechunkArchives files options archive = .error (.usage c) ↔ options.player = true ∧
      options.device.supportsPlayer = false ∧ c = .deviceWithoutPlayer options.device.name

section

variable {α : Type} [Scalar α] [FiniteUnits α]

/-- Sound options pass all checks. -/
theorem Options.Sound.passesChecks {options : Options} (h : options.Sound) :
    options.PassesChecks α where
  workers β := Run.start_eq_ok h.concurrency
  frameRate sourceExists text := by
    refine Script.compile_override sourceExists text fun rate hrate => ?_
    obtain ⟨q, hq, rfl⟩ := h.frameRate rate hrate
    show Binary64.lt 0 (.finite q) = true
    rw [zero_eq]
    exact decide_eq_true hq
  player := Player.ofDelay_eq_ok h.delay
  layout packing hcapacity hfirst e := by
    rw [← hcapacity]
    exact PackOptions.layout_eq_error_iff (hcapacity ▸ h.capacity) (hfirst ▸ h.firstNumber)
  writer target htarget stem e := by
    unfold Options.target at htarget
    split at htarget
    · cases htarget
    · obtain rfl := OutputTarget.archives.inj htarget
      -- The target has the delay of the options just if a player is asked for.
      refine (ArchiveTarget.writer_eq_error_iff h.capacity h.firstNumber ?_).trans ?_
      · intro delay hdelay
        dsimp only at hdelay
        split_ifs at hdelay
        · obtain rfl := Option.some.inj hdelay
          exact h.delay
        · cases hdelay
      · cases options.player <;> simp
  rechunk archive := exists_rechunkOptions h.delay archive
  usage files archive c := rechunkArchives_eq_usage_iff

/-- The options of a command line that asks for a task are sound, and complete for the task. All
later checks accept them, but for two refusals: of a player program on a device without one, and of
a player program in archives for one file. -/
theorem CommandLine.parse_passes_checks {texts : List String} {commandLine : CommandLine}
    (h : parse texts = .ok commandLine) (htask : commandLine.task ≠ .help) :
    commandLine.Accepted texts ∧ commandLine.options.PassesChecks α := by
  have haccepted := parse_accepted h htask
  exact ⟨haccepted, haccepted.options.passesChecks⟩

end

/-- A rendering with a player program, for which an archive has no room for frames. -/
theorem CommandLine.parse_passes_checks_onlyPlayer :
    ∃ commandLine, parse ["render", "a.anim", "-o", "x", "--automate", "2.5", "--capacity", "1",
        "--fps", "12.5", "--first-file", "3"] = .ok commandLine ∧
      commandLine.task ≠ .help ∧ commandLine.options.player = true ∧
      Player.ofDelay commandLine.options.delay = .ok (.fresh (.finite 2.5)) ∧
      ∀ target : ArchiveTarget Float, commandLine.options.target = .archives target →
        target.writer "x" = .error (.noRoomForFrames 1) := by
  have hparse : (parse ["render", "a.anim", "-o", "x", "--automate", "2.5", "--capacity", "1",
      "--fps", "12.5", "--first-file", "3"]).toOption.any (fun c =>
        c.task = .render "a.anim" && c.options.capacity = 1 && c.options.delay = .finite 2.5 &&
          c.options.device.supportsPlayer) = true := by
    decide +kernel
  obtain ⟨commandLine, hparse, hvalues⟩ := exists_eq_ok_of_any hparse
  simp only [Bool.and_eq_true, decide_eq_true_eq] at hvalues
  obtain ⟨⟨⟨htask, hcapacity⟩, hdelay⟩, hdevice⟩ := hvalues
  have hhelp : commandLine.task ≠ .help := by
    rw [htask]
    simp
  obtain ⟨haccepted, hpasses⟩ : commandLine.Accepted _ ∧ commandLine.options.PassesChecks Float :=
    parse_passes_checks hparse hhelp
  have hplayer := haccepted.player (by simp)
  refine ⟨commandLine, hparse, hhelp, hplayer, hdelay ▸ hpasses.player, fun target htarget => ?_⟩
  exact (hpasses.writer target htarget "x" _).mpr ⟨hplayer, .inr ⟨hdevice, hcapacity, rfl⟩⟩

end Command

end Flipbook
