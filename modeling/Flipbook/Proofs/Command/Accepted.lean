import Flipbook.Proofs.Archive.Layout
import Flipbook.Proofs.Command.Groups
import Mathlib.Algebra.Order.Ring.Unbundled.Rat

/-!
# What accepted options are like

Every setting is checked when it is read, so that whatever settings leave behind is sound: counts
are positive integers, the frame rate and the delay are finite numbers with the right sign, and so
are the values that hold if nothing is said. The rest of what a task needs is checked at the end.

## Main definitions

* `Setting.Sound`: a setting whose value was checked;
* `Options.Sound`: options that consist of such values;
* `CommandLine.Accepted`: what holds of a command line that asks for a task.

## Main results

* `ValueFlag.sound_of_setting`: every setting that is read is sound;
* `Options.sound_ofSettings`: sound settings leave sound options behind;
* `CommandLine.parse_accepted`: what is accepted is sound and complete.
-/

namespace Flipbook

namespace Binary64

/-- A positive integer, however great. -/
def IsPositiveInteger (a : Binary64) : Prop :=
  ∃ n : Nat, 0 < n ∧ a = finite n

/-- A finite number above zero. -/
def IsPositive (a : Binary64) : Prop :=
  ∃ q : Rat, 0 < q ∧ a = finite q

/-- A finite number, zero or above. -/
def IsNonNegative (a : Binary64) : Prop :=
  ∃ q : Rat, 0 ≤ q ∧ a = finite q

variable {a : Binary64}

theorem zero_eq : (0 : Binary64) = finite 0 := by
  decide

theorem isPositive_of_lt (hfinite : a.isFinite = true) (hlt : Binary64.lt 0 a = true) :
    a.IsPositive := by
  cases a with
  | finite q =>
    rw [zero_eq, lt, decide_eq_true_eq] at hlt
    exact ⟨q, hlt, rfl⟩
  | infinite s => cases hfinite
  | nan => cases hfinite

theorem isNonNegative_of_not_lt (hfinite : a.isFinite = true) (hlt : a.lt 0 = false) :
    a.IsNonNegative := by
  cases a with
  | finite q =>
    rw [zero_eq, lt, decide_eq_false_iff_not, Rat.not_lt] at hlt
    exact ⟨q, hlt, rfl⟩
  | infinite s => cases hfinite
  | nan => cases hfinite

/-- A positive number that is an integer is a positive integer. -/
theorem IsPositive.isPositiveInteger (h : a.IsPositive) (hinteger : a.isInteger = true) :
    a.IsPositiveInteger := by
  obtain ⟨q, hq, rfl⟩ := h
  rw [isInteger, toInt?] at hinteger
  by_cases hden : q.den = 1
  · have hnum : 0 < q.num := Rat.num_pos.mpr hq
    refine ⟨q.num.toNat, by omega, congrArg finite (Rat.ext ?_ hden)⟩
    rw [Rat.num_natCast]
    omega
  · rw [if_neg hden] at hinteger
    cases hinteger

end Binary64

namespace Command

open Binary64

/-! ## Values -/

section Values

variable {text : String} {a : Binary64}

theorem isPositive_of_positiveNumber? (h : positiveNumber? text = some a) : a.IsPositive := by
  rw [positiveNumber?] at h
  split_ifs at h with hchecked
  obtain rfl := Option.some.inj h
  obtain ⟨hfinite, hlt⟩ := Bool.and_eq_true_iff.mp hchecked
  exact isPositive_of_lt hfinite hlt

theorem isPositiveInteger_of_positiveInteger? (h : positiveInteger? text = some a) :
    a.IsPositiveInteger := by
  obtain ⟨hnumber, hinteger⟩ := Option.filter_eq_some_iff.mp h
  exact (isPositive_of_positiveNumber? hnumber).isPositiveInteger hinteger

theorem isNonNegative_of_nonNegativeNumber? (h : nonNegativeNumber? text = some a) :
    a.IsNonNegative := by
  rw [nonNegativeNumber?] at h
  split_ifs at h with hchecked
  obtain rfl := Option.some.inj h
  simp only [Bool.or_eq_true, Bool.not_eq_true', not_or, Bool.not_eq_true,
    Bool.not_eq_false] at hchecked
  exact isNonNegative_of_not_lt hchecked.1.2 hchecked.2

theorem formedValue_eq_ok_iff {β : Type} {name value : String} {v? : Option β} {v : β} :
    formedValue name value v? = .ok v ↔ v? = some v := by
  cases v? with
  | none => simp [formedValue]
  | some w => simp [formedValue]

end Values

/-! ## Settings -/

/-- What is checked of the value of a setting when it is read. -/
def Setting.Sound : Setting → Prop
  | .frameRate rate => rate.IsPositive
  | .capacity count | .concurrency count | .firstNumber count => count.IsPositiveInteger
  | .delay seconds => seconds.IsNonNegative
  | _ => True

/-- Every setting that is read is sound. -/
theorem ValueFlag.sound_of_setting {flag : ValueFlag} {name value : String} {s : Setting}
    (h : flag.setting name value = .ok s) : s.Sound := by
  have hformed {β : Type} {f : β → Setting} {v? : Option β}
      (hmap : f <$> formedValue name value v? = .ok s) : ∃ v, v? = some v ∧ s = f v := by
    obtain ⟨v, hv, rfl⟩ := map_eq_ok_iff.mp hmap
    exact ⟨v, formedValue_eq_ok_iff.mp hv, rfl⟩
  have hflag := flag?_of_setting h
  cases flag with
  | frameRate =>
    obtain ⟨v, hv, rfl⟩ := hformed h
    exact isPositive_of_positiveNumber? hv
  | capacity | concurrency | firstNumber =>
    obtain ⟨v, hv, rfl⟩ := hformed h
    exact isPositiveInteger_of_positiveInteger? hv
  | delay =>
    obtain ⟨v, hv, rfl⟩ := hformed h
    exact isNonNegative_of_nonNegativeNumber? hv
  | output | stem | kind | device | codec | program | originShift =>
    -- Nothing is asked of these settings.
    cases s <;> first | trivial | cases hflag

/-! ## Options -/

/-- Options that consist of values that were checked. -/
structure Options.Sound (options : Options) : Prop where
  capacity : options.capacity.IsPositiveInteger
  concurrency : options.concurrency.IsPositiveInteger
  frameRate : ∀ rate ∈ options.frameRate, rate.IsPositive
  delay : options.delay.IsNonNegative
  firstNumber : ∀ number ∈ options.firstNumber, number.IsPositiveInteger
  /-- The device is a known one. -/
  device : DeviceProfile.ofName? options.device.name = some options.device

namespace Options

/-- The values that hold if nothing is said pass the checks, too. -/
theorem sound_of_said_initial {flag : ValueFlag} {s : Setting} (h : initial.said flag = some s) :
    s.Sound := by
  cases flag with
  | capacity =>
    obtain rfl := Option.some.inj h
    exact ⟨flashDriveCapacity, by decide, by decide⟩
  | concurrency =>
    obtain rfl := Option.some.inj h
    exact ⟨1, by decide, by decide⟩
  | delay =>
    obtain rfl := Option.some.inj h
    exact ⟨0, by decide, by decide⟩
  | frameRate | stem | firstNumber | originShift => cases h
  | output | kind | device | codec | program =>
    obtain rfl := Option.some.inj h
    trivial

/-- Sound settings leave nothing behind that is not sound. -/
theorem sound_of_said {settings : List Setting} (hsettings : ∀ s ∈ settings, s.Sound)
    (flag : ValueFlag) {s : Setting} (h : (ofSettings settings).said flag = some s) :
    s.Sound := by
  rw [ofSettings, said_foldl, Option.or_eq_some_iff] at h
  -- What is said is the last setting of the flag or, without one, what holds from the start.
  rcases h with hlast | ⟨-, hinitial⟩
  · exact hsettings s (List.mem_filter.mp (List.mem_of_getLast? hlast)).1
  · exact sound_of_said_initial hinitial

theorem sound_ofSettings {settings : List Setting} (hsettings : ∀ s ∈ settings, s.Sound) :
    (ofSettings settings).Sound where
  capacity := sound_of_said hsettings .capacity rfl
  concurrency := sound_of_said hsettings .concurrency rfl
  frameRate _ h := sound_of_said hsettings .frameRate (congrArg (Option.map Setting.frameRate) h)
  delay := sound_of_said hsettings .delay rfl
  firstNumber _ h :=
    sound_of_said hsettings .firstNumber (congrArg (Option.map Setting.firstNumber) h)
  device := by cases (ofSettings settings).device <;> rfl

end Options

/-! ## Command lines -/

/-- No flag takes the name of this one as its value. -/
theorem ValueFlag.setting_automate_ne_ok (flag : ValueFlag) (name : String) (s : Setting) :
    flag.setting name "--automate" ≠ .ok s := by
  intro h
  -- The text begins with a hyphen, and it is neither a number nor a pair of integers.
  have hplain (text : String) : plainValue name "--automate" ≠ .ok text := by
    rw [plainValue, if_pos (by decide)]
    simp
  have hformed {β : Type} {v? : Option β} (hnone : v? = none) (v : β) :
      formedValue name "--automate" v? ≠ .ok v := by
    rw [ne_eq, formedValue_eq_ok_iff, hnone]
    simp
  cases flag with
  | kind | device =>
    obtain ⟨text, htext, -⟩ := bind_eq_ok_iff.mp h
    exact hplain text htext
  | originShift =>
    obtain ⟨pair, hpair, -⟩ := bind_eq_ok_iff.mp h
    exact hformed (by decide) pair hpair
  | output | stem | codec | program =>
    obtain ⟨text, htext, -⟩ := map_eq_ok_iff.mp h
    exact hplain text htext
  | frameRate | capacity | concurrency | delay | firstNumber =>
    obtain ⟨v, hv, -⟩ := map_eq_ok_iff.mp h
    exact hformed (by decide) v hv

/-- Whoever mentions the delay of a player program asks for one. -/
theorem any_asksForPlayer {groups : List Group} {meaning : Group → Argument}
    (hmeaning : ∀ g ∈ groups, g.read = .ok (meaning g)) (h : "--automate" ∈ spell groups) :
    groups.any Group.asksForPlayer = true := by
  obtain ⟨g, hg, htext⟩ := List.mem_flatMap.mp h
  rw [List.any_eq_true]
  refine ⟨g, hg, ?_⟩
  cases g with
  | valued name value flag named =>
    rcases List.mem_pair.mp htext with rfl | rfl
    · obtain rfl := Option.some.inj named
      rfl
    · obtain ⟨s, hs, -⟩ := map_eq_ok_iff.mp (hmeaning _ hg)
      exact absurd hs (flag.setting_automate_ne_ok name s)
  | player => rfl
  | positional text plain =>
    obtain rfl := List.mem_singleton.mp htext
    have hflag : isFlag "--automate" = true := by decide
    rw [hflag] at plain
    cases plain

theorem Argument.eq_setting {argument : Argument} {s : Setting} (h : argument.setting? = some s) :
    argument = .setting s := by
  cases argument with
  | setting t => exact congrArg setting (Option.some.inj h)
  | help => cases h
  | positional text => cases h

/-- The setting of a group is sound. -/
theorem Group.sound_of_read {g : Group} {s : Setting} (h : g.read = .ok (.setting s)) :
    s.Sound := by
  cases g with
  | valued name value flag named =>
    obtain ⟨t, ht, ⟨⟩⟩ := map_eq_ok_iff.mp h
    exact ValueFlag.sound_of_setting ht
  | player =>
    cases h
    trivial
  | positional text plain => cases h

/-- The settings of groups that can be read are sound. -/
theorem sound_of_mem_settings {groups : List Group} {meaning : Group → Argument}
    (hmeaning : ∀ g ∈ groups, g.read = .ok (meaning g)) :
    ∀ s ∈ (groups.map meaning).filterMap Argument.setting?, s.Sound := by
  intro s hs
  rw [List.filterMap_map] at hs
  obtain ⟨g, hg, hsetting⟩ := List.mem_filterMap.mp hs
  exact Group.sound_of_read ((hmeaning g hg).trans (congrArg _ (Argument.eq_setting hsetting)))

theorem Task.cases_of_ofCommand? {command : String} {named : String → Task}
    (h : ofCommand? command = some named) : named = render ∨ named = rechunk := by
  unfold ofCommand? at h
  split at h
  · exact .inl (Option.some.inj h).symm
  · exact .inr (Option.some.inj h).symm
  · cases h

/-- A task that is named has an input, and a rendering has an output. -/
theorem Task.ne_of_ofPositionals {options : Options} {positionals : List String} {task : Task}
    (h : ofPositionals options positionals = .ok task) (htask : task ≠ .help) :
    task.input ≠ "" ∧ ∀ script, task = .render script → options.output ≠ "" := by
  unfold ofPositionals at h
  split at h
  · exact absurd (Except.ok.inj h).symm htask
  · rename_i command inputs
    split at h
    · cases h
    · cases h
    · rename_i named input extra hnamed
      split_ifs at h with hempty
      split at h
      · cases h
      · have hinput : input ≠ "" := by simpa using hempty
        rcases cases_of_ofCommand? hnamed with rfl | rfl
        · rw [check] at h
          split_ifs at h with houtput
          obtain rfl := Except.ok.inj h
          exact ⟨hinput, fun _ _ => by simpa using houtput⟩
        · obtain rfl := Except.ok.inj h
          exact ⟨hinput, by simp⟩

/-- What holds of a command line that asks for a task: the options are sound, and nothing is
missing. -/
structure CommandLine.Accepted (commandLine : CommandLine) (texts : List String) : Prop where
  options : commandLine.options.Sound
  player : "--automate" ∈ texts → commandLine.options.player = true
  input : commandLine.task.input ≠ ""
  output : ∀ script, commandLine.task = .render script → commandLine.options.output ≠ ""

/-- What is accepted is sound and complete. -/
theorem CommandLine.parse_accepted {texts : List String} {commandLine : CommandLine}
    (h : parse texts = .ok commandLine) (htask : commandLine.task ≠ .help) :
    commandLine.Accepted texts := by
  obtain ⟨groups, meaning, rfl, hmeaning, harguments⟩ := exists_groups h htask
  rw [ofArguments, not_contains_help hmeaning] at harguments
  obtain ⟨task, hpositionals, ⟨⟩⟩ := bind_eq_ok_iff.mp harguments
  obtain ⟨hinput, houtput⟩ := Task.ne_of_ofPositionals hpositionals htask
  refine ⟨Options.sound_ofSettings (sound_of_mem_settings hmeaning), ?_, hinput, houtput⟩
  intro hautomate
  rw [Options.ofSettings, Options.player_foldl, any_settings hmeaning,
    any_asksForPlayer hmeaning hautomate, Bool.or_true]

end Command

end Flipbook
