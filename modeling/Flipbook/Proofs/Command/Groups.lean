import Flipbook.Proofs.Command.Settings
import Flipbook.Proofs.Traverse

/-!
# Groups of arguments

The arguments of a command line are cut into groups: a flag with its value, the flag without one, or
a single argument that is no flag. What a group says does not depend on the groups around it, so
that groups can change places, and be left out if a later one says the same kind of thing, without
a change in what the command line asks for.

## Main definitions

* `Group`, `spell`: groups of arguments, and the arguments that they make up;
* `cut?`: the first group of some arguments, and the others;
* `Reordered`: other sequences of groups, in which positional arguments and the groups of each flag
  keep theirs;
* `Condensed`: groups without some of those that a later one of the same flag makes up for.

## Main results

* `readArguments_spell`: a command line is read group by group;
* `existsUnique_spell`: there is one way to cut arguments that can be read;
* `CommandLine.parse_regrouped`: reordered or condensed groups ask for the same.
-/

namespace Flipbook.Command

/-- Arguments that are read together. -/
inductive Group where
  /-- A flag with its value. -/
  | valued (name value : String) (flag : ValueFlag) (named : ValueFlag.ofName? name = some flag)
  /-- The flag that takes no value. -/
  | player
  /-- A command or an input. -/
  | positional (text : String) (plain : isFlag text = false)
  deriving DecidableEq

namespace Group

/-- The arguments of a group. -/
def texts : Group → List String
  | valued name value _ _ => [name, value]
  | player => ["--player"]
  | positional text _ => [text]

/-- The flag of a group, if it is one that takes a value. -/
def flag? : Group → Option ValueFlag
  | valued _ _ flag _ => some flag
  | _ => none

/-- The argument of a group without a flag. -/
def positional? : Group → Option String
  | positional text _ => some text
  | _ => none

/-- Whether a group asks for a player program. -/
def asksForPlayer : Group → Bool
  | valued _ _ flag _ => flag = .delay
  | player => true
  | positional _ _ => false

/-- What a group says. -/
def read : Group → Except UsageError Argument
  | valued name value flag _ => .setting <$> flag.setting name value
  | player => .ok (.setting .player)
  | positional text _ => .ok (.positional text)

end Group

/-- The arguments that some groups make up. -/
def spell (groups : List Group) : List String :=
  groups.flatMap Group.texts

/-- A flag with its value, if it is a flag. -/
def Group.ofFlag? (name value : String) : Option Group :=
  match named : ValueFlag.ofName? name with
  | some flag => some (valued name value flag named)
  | none => none

/-- Cuts the first group off some arguments. -/
def cut? : List String → Option (Group × List String)
  | [] => none
  | text :: rest =>
    if plain : isFlag text = false then some (.positional text plain, rest)
    else if text = "--player" then some (.player, rest)
    else
      match rest with
      | [] => none
      | value :: rest => (Group.ofFlag? text value).map fun g => (g, rest)

/-- The groups in another sequence, in which positional arguments keep theirs, and so do the groups
of every flag that takes a value. -/
structure Reordered (groups groups' : List Group) : Prop where
  perm : groups'.Perm groups
  positionals : groups'.filterMap Group.positional? = groups.filterMap Group.positional?
  values (flag : ValueFlag) : (groups'.filter fun g => g.flag? = some flag) =
    groups.filter fun g => g.flag? = some flag

/-- The groups without some of them: for every flag the last group is kept, and if there were some
that ask for a player program, one of these is. -/
structure Condensed (groups groups' : List Group) : Prop where
  sublist : groups'.Sublist groups
  positionals : groups'.filterMap Group.positional? = groups.filterMap Group.positional?
  last (flag : ValueFlag) : (groups'.filter fun g => g.flag? = some flag).getLast? =
    (groups.filter fun g => g.flag? = some flag).getLast?
  player : groups.any Group.asksForPlayer = true → groups'.any Group.asksForPlayer = true

/-! ## Names of flags -/

theorem isFlag_of_ofName? {text : String} {flag : ValueFlag}
    (h : ValueFlag.ofName? text = some flag) : isFlag text = true := by
  unfold ValueFlag.ofName? at h
  split at h <;> first | (cases h; done) | (cases h; decide)

theorem asksForHelp_of_ofName? {text : String} {flag : ValueFlag}
    (h : ValueFlag.ofName? text = some flag) : asksForHelp text = false := by
  unfold ValueFlag.ofName? at h
  split at h <;> first | (cases h; done) | (cases h; decide)

theorem ofName?_player : ValueFlag.ofName? "--player" = none := by
  decide

theorem isFlag_of_asksForHelp {text : String} (h : asksForHelp text = true) :
    isFlag text = true := by
  rcases Bool.or_eq_true_iff.mp h with h | h
  · rw [of_decide_eq_true h]
    decide
  · rw [of_decide_eq_true h]
    decide

/-! ## Reading group by group -/

/-- Nothing is looked at behind a call for help. -/
theorem readArguments_help {text : String} {rest : List String} (h : asksForHelp text = true) :
    readArguments (text :: rest) = .ok [.help] := by
  cases rest with
  | nil => rw [readArguments, if_pos h]
  | cons next rest => rw [readArguments, if_pos h]

/-- A flag is read with the argument behind it. -/
theorem readArguments_valued {name value : String} {flag : ValueFlag} {rest : List String}
    (h : ValueFlag.ofName? name = some flag) :
    readArguments (name :: value :: rest) = (do
      let setting ← flag.setting name value
      let arguments ← readArguments rest
      .ok (.setting setting :: arguments)) := by
  rw [readArguments, asksForHelp_of_ofName? h, h]
  rfl

/-- All other arguments are read alone. -/
theorem readArguments_single {text : String} {rest : List String} (hhelp : asksForHelp text = false)
    (hname : ValueFlag.ofName? text = none) :
    readArguments (text :: rest) = (do
      let argument ← Argument.ofSingle text
      let arguments ← readArguments rest
      .ok (argument :: arguments)) := by
  cases rest with
  | nil =>
    simp only [readArguments, hhelp, hname]
    rfl
  | cons next rest =>
    simp only [readArguments, hhelp, hname]
    rfl

theorem readArguments_texts (g : Group) (rest : List String) :
    readArguments (g.texts ++ rest) = (do
      let argument ← g.read
      let arguments ← readArguments rest
      .ok (argument :: arguments)) := by
  cases g with
  | valued name value flag named =>
    refine (readArguments_valued named).trans ?_
    rw [Group.read]
    cases flag.setting name value <;> rfl
  | player => exact readArguments_single (by decide) (by decide)
  | positional text plain =>
    -- Everything that has a meaning of its own begins with a hyphen.
    have hhelp : asksForHelp text = false :=
      Bool.eq_false_iff.mpr fun h => by simp [isFlag_of_asksForHelp h] at plain
    have hname : ValueFlag.ofName? text = none :=
      Option.eq_none_iff_forall_ne_some.mpr fun flag h => by simp [isFlag_of_ofName? h] at plain
    have hplayer : text ≠ "--player" := by
      rintro rfl
      revert plain
      decide
    refine (readArguments_single hhelp hname).trans ?_
    rw [Argument.ofSingle, if_neg hplayer, plain]
    rfl

/-- A command line is read group by group. -/
theorem readArguments_spell (groups : List Group) :
    readArguments (spell groups) = groups.mapM Group.read := by
  induction groups with
  | nil => rfl
  | cons g groups ih =>
    rw [spell, List.flatMap_cons, readArguments_texts, List.mapM_cons]
    congr 1
    funext argument
    rw [← ih]
    rfl

/-- An argument that is read alone is a group. -/
theorem exists_texts_eq {text : String} {argument : Argument}
    (h : Argument.ofSingle text = .ok argument) : ∃ g : Group, g.texts = [text] := by
  unfold Argument.ofSingle at h
  split_ifs at h with hplayer hflag
  · exact ⟨.player, congrArg ([·]) hplayer.symm⟩
  · exact ⟨.positional text (Bool.eq_false_iff.mpr hflag), rfl⟩

/-- Arguments that can be read are made up of groups, unless they ask for help. -/
theorem exists_spell_eq {texts : List String} {arguments : List Argument}
    (h : readArguments texts = .ok arguments) (hhelp : .help ∉ arguments) :
    ∃ groups, spell groups = texts := by
  -- The cases are those of the reader: a call for help, a flag, and an argument that is read alone,
  -- at the end of the arguments (2 to 4) and before it (5 to 7).
  induction texts using readArguments.induct generalizing arguments with
  | case1 => exact ⟨[], rfl⟩
  | case2 text hasks =>
    obtain rfl := Except.ok.inj ((readArguments_help hasks).symm.trans h)
    exact absurd List.mem_cons_self hhelp
  | case3 text hasks flag hname =>
    simp [readArguments, hasks, hname] at h
  | case4 text hasks hname =>
    rw [readArguments_single (Bool.eq_false_iff.mpr hasks) hname] at h
    obtain ⟨argument, hargument, -⟩ := bind_eq_ok_iff.mp h
    obtain ⟨g, hg⟩ := exists_texts_eq hargument
    exact ⟨[g], (List.flatMap_singleton _ _).trans hg⟩
  | case5 text next rest hasks =>
    obtain rfl := Except.ok.inj ((readArguments_help hasks).symm.trans h)
    exact absurd List.mem_cons_self hhelp
  | case6 text next rest hasks flag hname ih =>
    rw [readArguments_valued hname] at h
    obtain ⟨setting, -, h⟩ := bind_eq_ok_iff.mp h
    obtain ⟨more, hmore, ⟨⟩⟩ := bind_eq_ok_iff.mp h
    obtain ⟨groups, hgroups⟩ := ih hmore fun hmem => hhelp (.tail _ hmem)
    exact ⟨.valued text next flag hname :: groups, congrArg (text :: next :: ·) hgroups⟩
  | case7 text next rest hasks hname ih =>
    rw [readArguments_single (Bool.eq_false_iff.mpr hasks) hname] at h
    obtain ⟨argument, hargument, h⟩ := bind_eq_ok_iff.mp h
    obtain ⟨more, hmore, ⟨⟩⟩ := bind_eq_ok_iff.mp h
    obtain ⟨g, hg⟩ := exists_texts_eq hargument
    obtain ⟨groups, hgroups⟩ := ih hmore fun hmem => hhelp (.tail _ hmem)
    refine ⟨g :: groups, ?_⟩
    rw [spell, List.flatMap_cons, hg]
    exact congrArg (text :: ·) hgroups

theorem Group.ofFlag?_eq {name : String} {flag : ValueFlag}
    (named : ValueFlag.ofName? name = some flag) (value : String) :
    ofFlag? name value = some (valued name value flag named) := by
  unfold ofFlag?
  split
  · rename_i flag' named'
    obtain rfl := Option.some.inj (named.symm.trans named')
    rfl
  · rename_i hnone
    cases named.symm.trans hnone

/-- The first argument decides what its group is and where it ends. -/
theorem cut?_texts_append (g : Group) (rest : List String) :
    cut? (g.texts ++ rest) = some (g, rest) := by
  cases g with
  | valued name value flag named =>
    -- The name of a flag with a value is neither positional nor the flag without one.
    have hflag : ¬isFlag name = false := by simp [isFlag_of_ofName? named]
    have hplayer : name ≠ "--player" := by
      rintro rfl
      cases ofName?_player.symm.trans named
    show cut? (name :: value :: rest) = _
    rw [cut?, dif_neg hflag, if_neg hplayer, Group.ofFlag?_eq named]
    rfl
  | player => rfl
  | positional text plain => exact dif_pos plain

/-- There is no second way to cut arguments into groups. -/
theorem spell_injective : Function.Injective spell := by
  intro groups
  induction groups with
  | nil =>
    intro groups' h
    cases groups' with
    | nil => rfl
    | cons g' groups' => cases g' <;> cases h
  | cons g groups ih =>
    intro groups' h
    cases groups' with
    | nil => cases g <;> cases h
    | cons g' groups' =>
      -- Both sequences begin with the group that is cut off their arguments.
      have hcut := congrArg cut? h
      rw [spell, spell, List.flatMap_cons, List.flatMap_cons, cut?_texts_append,
        cut?_texts_append] at hcut
      obtain ⟨rfl, hrest⟩ := Prod.mk.inj (Option.some.inj hcut)
      rw [ih hrest]

/-! ## What groups say -/

/-- A flag makes settings of its own kind. -/
theorem flag?_of_setting {flag : ValueFlag} {name value : String} {s : Setting}
    (h : flag.setting name value = .ok s) : s.flag? = some flag := by
  cases flag with
  | kind | device =>
    obtain ⟨text, -, h⟩ := bind_eq_ok_iff.mp h
    split at h <;> cases h
    rfl
  | originShift =>
    obtain ⟨⟨x, y⟩, -, ⟨⟩⟩ := bind_eq_ok_iff.mp h
    rfl
  | _ =>
    obtain ⟨v, -, rfl⟩ := map_eq_ok_iff.mp h
    rfl

/-- Only one flag with a value asks for a player program. -/
theorem Setting.asksForPlayer_eq {s : Setting} {flag : ValueFlag} (h : s.flag? = some flag) :
    s.asksForPlayer = decide (flag = .delay) := by
  cases s <;> cases h <;> rfl

/-- What a group says is told by the group without reading its value: whether it is a setting, and
of which flag, whether it asks for a player program, and the text of a positional argument. -/
structure Group.Means (g : Group) (argument : Argument) : Prop where
  flag : argument.setting?.bind Setting.flag? = g.flag?
  player : argument.setting?.any Setting.asksForPlayer = g.asksForPlayer
  positional : argument.positional? = g.positional?
  ne_help : argument ≠ .help

theorem Group.means_of_read {g : Group} {argument : Argument} (h : g.read = .ok argument) :
    g.Means argument := by
  cases g with
  | valued name value flag named =>
    obtain ⟨s, hs, rfl⟩ := map_eq_ok_iff.mp h
    have hflag := flag?_of_setting hs
    exact ⟨hflag, Setting.asksForPlayer_eq hflag, rfl, by simp⟩
  | player =>
    obtain rfl := Except.ok.inj h
    exact ⟨rfl, rfl, rfl, by simp⟩
  | positional text plain =>
    obtain rfl := Except.ok.inj h
    exact ⟨rfl, rfl, rfl, by simp⟩

section Meanings

variable {groups : List Group} {meaning : Group → Argument}

/-- The settings of a flag come from its groups, one from each. -/
theorem filter_settings (h : ∀ g ∈ groups, g.read = .ok (meaning g)) (flag : ValueFlag) :
    (((groups.map meaning).filterMap Argument.setting?).filter fun s => s.flag? = some flag) =
      (groups.filter fun g => g.flag? = some flag).map fun g =>
        (meaning g).setting?.getD .player := by
  -- A group either is of the flag and says a setting of it, or is left out on both sides.
  have hgroup : ∀ g ∈ groups,
      ((meaning g).setting?.filter fun s => s.flag? = some flag) =
        if g.flag? = some flag then some ((meaning g).setting?.getD .player) else none := by
    intro g hg
    rw [← (Group.means_of_read (h g hg)).flag]
    cases (meaning g).setting? <;> simp [Option.filter]
  rw [List.filter_filterMap, List.filterMap_map, ← List.filterMap_eq_map', List.filterMap_filter]
  simp only [decide_eq_true_eq]
  exact List.filterMap_congr hgroup

theorem any_settings (h : ∀ g ∈ groups, g.read = .ok (meaning g)) :
    ((groups.map meaning).filterMap Argument.setting?).any Setting.asksForPlayer =
      groups.any Group.asksForPlayer := by
  induction groups with
  | nil => rfl
  | cons g groups ih =>
    obtain ⟨hg, hrest⟩ := List.forall_mem_cons.mp h
    rw [List.any_cons, ← ih hrest, ← (Group.means_of_read hg).player, List.map_cons,
      List.filterMap_cons]
    cases (meaning g).setting? <;> rfl

theorem filterMap_positionals (h : ∀ g ∈ groups, g.read = .ok (meaning g)) :
    (groups.map meaning).filterMap Argument.positional? = groups.filterMap Group.positional? := by
  rw [List.filterMap_map]
  exact List.filterMap_congr fun g hg => (Group.means_of_read (h g hg)).positional

theorem not_contains_help (h : ∀ g ∈ groups, g.read = .ok (meaning g)) :
    (groups.map meaning).contains .help = false := by
  simpa using fun g hg => (Group.means_of_read (h g hg)).ne_help

end Meanings

namespace CommandLine

/-- A command line asks for what its groups say. -/
theorem parse_spell {groups : List Group} {meaning : Group → Argument}
    (h : ∀ g ∈ groups, g.read = .ok (meaning g)) :
    parse (spell groups) = ofArguments (groups.map meaning) := by
  rw [parse, readArguments_spell, mapM_eq_ok h]
  rfl

/-- A command line that asks for a task is made up of groups that can be read. -/
theorem exists_groups {texts : List String} {commandLine : CommandLine}
    (h : parse texts = .ok commandLine) (htask : commandLine.task ≠ .help) :
    ∃ groups meaning, spell groups = texts ∧ (∀ g ∈ groups, g.read = .ok (meaning g)) ∧
      ofArguments (groups.map meaning) = .ok commandLine := by
  obtain ⟨arguments, harguments, hparsed⟩ := bind_eq_ok_iff.mp h
  have hhelp : .help ∉ arguments := by
    intro hmem
    rw [ofArguments, if_pos (List.contains_iff_mem.mpr hmem)] at hparsed
    obtain rfl := Except.ok.inj hparsed
    exact htask rfl
  obtain ⟨groups, rfl⟩ := exists_spell_eq harguments hhelp
  rw [readArguments_spell] at harguments
  have : Inhabited Argument := ⟨.help⟩
  choose! meaning hmeaning using exists_eq_ok_of_mapM harguments
  exact ⟨groups, meaning, rfl, hmeaning, (parse_spell hmeaning).symm.trans h⟩

/-- Groups ask for the same as others, from which they are taken, if they have the same positional
arguments, the same last group of every flag, and agree in whether they ask for a player program. -/
theorem parse_spell_congr {groups groups' : List Group} {meaning : Group → Argument}
    (hmeaning : ∀ g ∈ groups, g.read = .ok (meaning g)) (hsubset : groups' ⊆ groups)
    (hpositionals : groups'.filterMap Group.positional? = groups.filterMap Group.positional?)
    (hlast : ∀ flag, (groups'.filter fun g => g.flag? = some flag).getLast? =
      (groups.filter fun g => g.flag? = some flag).getLast?)
    (hplayer : groups'.any Group.asksForPlayer = groups.any Group.asksForPlayer) :
    parse (spell groups') = parse (spell groups) := by
  have hmeaning' : ∀ g ∈ groups', g.read = .ok (meaning g) := fun g hg => hmeaning g (hsubset hg)
  -- The same options are left behind, and the same task is named.
  have hoptions : Options.ofSettings ((groups'.map meaning).filterMap Argument.setting?) =
      Options.ofSettings ((groups.map meaning).filterMap Argument.setting?) := by
    refine Options.ofSettings_congr (fun flag => ?_) ?_
    · rw [filter_settings hmeaning', filter_settings hmeaning, List.getLast?_map, hlast,
        List.getLast?_map]
    · rw [any_settings hmeaning', any_settings hmeaning, hplayer]
  rw [parse_spell hmeaning', parse_spell hmeaning]
  simp only [ofArguments, hoptions, not_contains_help hmeaning', not_contains_help hmeaning,
    filterMap_positionals hmeaning', filterMap_positionals hmeaning, hpositionals]

/-- Arguments that ask for a rendering or for splitting an archive can be cut into groups in one
way. The groups in another sequence, in which positional arguments and the groups of each flag keep
theirs, ask for the same; so do the groups without those that a later one of the same flag makes up
for, if a player program is still asked for. -/
theorem parse_regrouped {texts : List String} {commandLine : CommandLine}
    (h : parse texts = .ok commandLine) (htask : commandLine.task ≠ .help) :
    ∃ groups, spell groups = texts ∧ (∀ other, spell other = texts → other = groups) ∧
      (∀ groups', Reordered groups groups' → parse (spell groups') = .ok commandLine) ∧
      ∀ groups', Condensed groups groups' → parse (spell groups') = .ok commandLine := by
  obtain ⟨groups, meaning, rfl, hmeaning, -⟩ := exists_groups h htask
  refine ⟨groups, rfl, fun other hother => spell_injective hother, ?_, ?_⟩
  · -- The groups of a flag are the same in the same sequence, so the last one is the same.
    intro groups' hreordered
    rw [← h]
    refine parse_spell_congr hmeaning hreordered.perm.subset hreordered.positionals (fun flag => ?_)
      hreordered.perm.any_eq
    rw [hreordered.values flag]
  · -- Nothing that is left can ask for a player program unless something did before.
    intro groups' hcondensed
    rw [← h]
    refine parse_spell_congr hmeaning hcondensed.sublist.subset hcondensed.positionals
      hcondensed.last (Bool.eq_iff_iff.mpr ⟨?_, hcondensed.player⟩)
    rw [List.any_eq_true, List.any_eq_true]
    exact fun ⟨g, hg, hasks⟩ => ⟨g, hcondensed.sublist.mem hg, hasks⟩

/-- A rendering with two outputs and two delays, of which the second ones count. -/
theorem parse_regrouped_repeated :
    ∃ commandLine, commandLine.task = .render "a.anim" ∧
      parse ["-o", "x", "render", "--player", "a.anim", "--origin-shift", "-2,3", "--output", "y",
        "--automate", "2", "--automate", "5"] = .ok commandLine ∧
      parse ["render", "--automate", "2", "-o", "x", "--origin-shift", "-2,3", "--automate", "5",
        "a.anim", "--output", "y", "--player"] = .ok commandLine ∧
      parse ["render", "a.anim", "--origin-shift", "-2,3", "--output", "y", "--automate", "5"] =
        .ok commandLine := by
  let render : Group := .positional "render" (by decide)
  let script : Group := .positional "a.anim" (by decide)
  let first : Group := .valued "-o" "x" .output rfl
  let second : Group := .valued "--output" "y" .output rfl
  let shift : Group := .valued "--origin-shift" "-2,3" .originShift rfl
  let short : Group := .valued "--automate" "2" .delay rfl
  let long : Group := .valued "--automate" "5" .delay rfl
  let all : List Group := [first, render, .player, script, shift, second, short, long]
  have hparse : (parse (spell all)).toOption.any (fun c => c.task = .render "a.anim") = true := by
    decide +kernel
  obtain ⟨commandLine, hparse, htask⟩ := exists_eq_ok_of_any hparse
  have htask := of_decide_eq_true htask
  obtain ⟨groups, -, hunique, hreordered, hcondensed⟩ :=
    parse_regrouped hparse (by rw [htask]; simp)
  obtain rfl := hunique _ rfl
  refine ⟨commandLine, htask, hparse, ?_, ?_⟩
  · refine hreordered [render, short, first, shift, long, script, second, .player] ⟨?_, rfl, ?_⟩
    · decide
    · intro flag
      cases flag <;> rfl
  · refine hcondensed [render, script, shift, second, long] ⟨?_, rfl, ?_, fun _ => rfl⟩
    · decide
    · intro flag
      cases flag <;> rfl

end CommandLine

end Flipbook.Command
