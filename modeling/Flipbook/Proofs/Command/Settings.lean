import Flipbook.Command.Options

/-!
# What settings leave behind

The options after some settings depend on little of them: for every flag with a value on the last
setting that it makes, and on whether a player program is asked for at all.

## Main definitions

* `Setting.flag?`: the flag that makes a setting;
* `Options.said`: what options say about a flag, as the setting that says it.

## Main results

* `Options.said_set`, `Options.said_foldl`: a setting replaces what was said about its flag, and no
  more, so that the last one counts;
* `Options.ofSettings_congr`: settings that agree in these leave the same options behind.
-/

namespace Flipbook.Command

namespace Setting

/-- The flag that makes a setting, if it is one that takes a value. -/
def flag? : Setting → Option ValueFlag
  | output _ => some .output
  | stem _ => some .stem
  | kind _ => some .kind
  | frameRate _ => some .frameRate
  | device _ => some .device
  | capacity _ => some .capacity
  | codec _ => some .codec
  | program _ => some .program
  | concurrency _ => some .concurrency
  | player => none
  | delay _ => some .delay
  | firstNumber _ => some .firstNumber
  | originShift _ _ => some .originShift

/-- Whether a setting asks for a player program. -/
def asksForPlayer : Setting → Bool
  | player | delay _ => true
  | _ => false

end Setting

namespace Options

/-- What options say about a flag, as the setting that says it. About some flags nothing need be
said. -/
def said (options : Options) : ValueFlag → Option Setting
  | .output => some (.output options.output)
  | .stem => options.stem.map .stem
  | .kind => some (.kind options.kind)
  | .frameRate => options.frameRate.map .frameRate
  | .device => some (.device options.device)
  | .capacity => some (.capacity options.capacity)
  | .codec => some (.codec options.codec)
  | .program => some (.program options.program)
  | .concurrency => some (.concurrency options.concurrency)
  | .delay => some (.delay options.delay)
  | .firstNumber => options.firstNumber.map .firstNumber
  | .originShift => options.originShift.map fun (x, y) => .originShift x y

variable {options options' : Options}

/-- Options are what they say about all flags, and whether they ask for a player program. -/
theorem eq_of_said (hsaid : ∀ flag, options.said flag = options'.said flag)
    (hplayer : options.player = options'.player) : options = options' := by
  have hmap {β : Type} {f : β → Setting} (hf : ∀ a b, f a = f b → a = b) {x y : Option β}
      (h : x.map f = y.map f) : x = y :=
    Option.map_injective (fun a b => hf a b) h
  -- Each field is told by what is said about its flag; a player program has no flag of its own.
  obtain ⟨⟩ := options
  obtain ⟨⟩ := options'
  congr
  · exact Setting.output.inj (Option.some.inj (hsaid .output))
  · exact hmap (fun _ _ => Setting.stem.inj) (hsaid .stem)
  · exact Setting.kind.inj (Option.some.inj (hsaid .kind))
  · exact hmap (fun _ _ => Setting.frameRate.inj) (hsaid .frameRate)
  · exact Setting.device.inj (Option.some.inj (hsaid .device))
  · exact Setting.capacity.inj (Option.some.inj (hsaid .capacity))
  · exact Setting.codec.inj (Option.some.inj (hsaid .codec))
  · exact Setting.program.inj (Option.some.inj (hsaid .program))
  · exact Setting.concurrency.inj (Option.some.inj (hsaid .concurrency))
  · exact Setting.delay.inj (Option.some.inj (hsaid .delay))
  · exact hmap (fun _ _ => Setting.firstNumber.inj) (hsaid .firstNumber)
  · refine hmap (fun a b h => ?_) (hsaid .originShift)
    obtain ⟨hx, hy⟩ := Setting.originShift.inj h
    exact Prod.ext hx hy

/-- A setting is what is said about its flag from then on; what is said about others stays. -/
theorem said_set (options : Options) (s : Setting) (flag : ValueFlag) :
    (options.set s).said flag = if s.flag? = some flag then some s else options.said flag := by
  cases s <;> cases flag <;> rfl

/-- A player program that was asked for is never called off. -/
theorem player_set (options : Options) (s : Setting) :
    (options.set s).player = (options.player || s.asksForPlayer) := by
  cases s <;> simp [set, Setting.asksForPlayer]

/-- Of the settings of a flag the last one counts. -/
theorem said_foldl (options : Options) (settings : List Setting) (flag : ValueFlag) :
    (settings.foldl set options).said flag =
      (settings.filter fun s => s.flag? = some flag).getLast?.or (options.said flag) := by
  -- From the first setting on: it counts for the later ones as what was said before them.
  induction settings generalizing options with
  | nil => rfl
  | cons s settings ih =>
    rw [List.foldl_cons, ih, said_set]
    by_cases hs : s.flag? = some flag
    · rw [if_pos hs, List.filter_cons_of_pos (by simpa using hs), List.getLast?_cons]
      cases (settings.filter fun s => s.flag? = some flag).getLast? <;> rfl
    · rw [if_neg hs, List.filter_cons_of_neg (by simpa using hs)]

theorem player_foldl (options : Options) (settings : List Setting) :
    (settings.foldl set options).player =
      (options.player || settings.any Setting.asksForPlayer) := by
  induction settings generalizing options with
  | nil => simp
  | cons s settings ih => rw [List.foldl_cons, ih, player_set, List.any_cons, Bool.or_assoc]

/-- Settings leave the same options behind if they agree in the last setting of every flag and in
whether they ask for a player program. -/
theorem ofSettings_congr {settings settings' : List Setting}
    (hlast : ∀ flag, (settings.filter fun s => s.flag? = some flag).getLast? =
      (settings'.filter fun s => s.flag? = some flag).getLast?)
    (hplayer : settings.any Setting.asksForPlayer = settings'.any Setting.asksForPlayer) :
    ofSettings settings = ofSettings settings' := by
  refine eq_of_said (fun flag => ?_) ?_
  · rw [ofSettings, ofSettings, said_foldl, said_foldl, hlast]
  · rw [ofSettings, ofSettings, player_foldl, player_foldl, hplayer]

end Options

end Flipbook.Command
