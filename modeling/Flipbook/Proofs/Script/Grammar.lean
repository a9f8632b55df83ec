import Flipbook.Proofs.Script.Numerals
import Flipbook.Proofs.Script.Reading
import Flipbook.Proofs.Traverse
import Flipbook.Script.Statement

/-!
# The grammar of statements

The six forms of a statement, written down as rules that say which tokens make up a statement, and
which statement they make. The rules do not tell how to find out: what may be missing, such as the
second factor of a scale, is a rule of its own, and the options of an element are any phrases one
behind the other. Reading a line finds a statement just if the rules derive one, and it finds no
other.

## Main definitions

* `IsNumber`, `IsInteger`, `IsRange`, `IsIdentifier`: what a single token can be.
* `TransformPhrase`, `ClausePhrase`: transforms, and the options of an element.
* `Derives`: the statements.

## Main results

* `transforms_eq_ok_iff`, `elementOptions_eq_ok_iff`: phrases up to the end of a line;
* `statement_eq_ok_iff`: reading a statement is deriving it, with names that are declared.
-/

namespace Flipbook.Script

variable {α : Type} [Scalar α]

open Scalar

section Rules

/-- A token that is a number, and a finite one. -/
def IsNumber (token : String) (v : α) : Prop :=
  ∃ d : Decimal, d.Spelled token.toList ∧ isFinite (ofDecimal d : α) = true ∧ ofDecimal d = v

/-- A token that is a number, and a finite one of double precision. -/
def IsRate (token : String) (v : Binary64) : Prop :=
  ∃ d : Decimal, d.Spelled token.toList ∧ d.toBinary64.isFinite = true ∧ d.toBinary64 = v

/-- A token that is an integer, safe from rounding. -/
def IsInteger (token : String) (n : Int) : Prop :=
  SpelledInteger token.toList n ∧ n.natAbs ≤ greatestInteger

/-- A token that is two frame numbers in order, with two points between them. -/
def IsRange (token : String) (r : FrameRange) : Prop :=
  ∃ first last : List Char, SpelledInteger first r.first ∧ SpelledInteger last r.last ∧
    token.toList = first ++ '.' :: '.' :: last ∧ r.first ≤ r.last ∧ r.last ≤ greatestInteger

/-- A token that is a name: a letter or a low line, and behind it letters, digits, low lines and
hyphens. -/
def IsIdentifier (token : String) : Prop :=
  ∃ c rest, token.toList = c :: rest ∧ (c.isAlpha = true ∨ c = '_') ∧
    ∀ d ∈ rest, d.isAlphanum = true ∨ d = '_' ∨ d = '-'

/-- The tokens of a transform. -/
inductive TransformPhrase : List String → Transform α → Prop
  | translate {x y : String} {dx dy : α} (hx : IsNumber x dx) (hy : IsNumber y dy) :
      TransformPhrase ["translate", x, y] (.translate dx dy)
  | rotate {t : String} {degrees : α} (h : IsNumber t degrees) :
      TransformPhrase ["rotate", t] (.rotate degrees)
  | scale {t : String} {s : α} (h : IsNumber t s) : TransformPhrase ["scale", t] (.scale s s)
  | scaleAxes {x y : String} {sx sy : α} (hx : IsNumber x sx) (hy : IsNumber y sy) :
      TransformPhrase ["scale", x, y] (.scale sx sy)

/-- The tokens of a blink. -/
inductive BlinkPhrase : List String → Blink α → Prop
  | unphased {t u : String} {on off : α} (hon : IsNumber t on) (hoff : IsNumber u off) :
      BlinkPhrase ["blink", t, u] ⟨on, off, ofInt 0⟩
  | phased {t u v : String} {on off phase : α} (hon : IsNumber t on) (hoff : IsNumber u off)
      (hphase : IsNumber v phase) : BlinkPhrase ["blink", t, u, v] ⟨on, off, phase⟩

/-- An option of an element. -/
inductive Clause (α : Type) where
  | transform (op : Transform α)
  | raw
  | visible (range : FrameRange)
  | blink (blink : Blink α)

/-- The keyword of an option. -/
def Clause.keyword : Clause α → String
  | transform op => op.channel.keyword
  | raw => "raw"
  | visible _ => "visible"
  | blink _ => "blink"

/-- An element with what an option says. -/
def Clause.set (e : Element α) : Clause α → Element α
  | transform op => { e with pose := placed e.pose op }
  | raw => { e with fit := false }
  | visible range => { e with visible := some range }
  | blink b => { e with blink := some b }

/-- The tokens of an option. -/
inductive ClausePhrase : List String → Clause α → Prop
  | transform {words : List String} {op : Transform α} (h : TransformPhrase words op) :
      ClausePhrase words (.transform op)
  | raw : ClausePhrase ["raw"] .raw
  | visible {t : String} {r : FrameRange} (h : IsRange t r) : ClausePhrase ["visible", t] (.visible r)
  | blink {words : List String} {b : Blink α} (h : BlinkPhrase words b) (hb : b.WellFormed) :
      ClausePhrase words (.blink b)

/-- Phrases one behind the other. -/
inductive Phrases {β : Type} (P : List String → β → Prop) : List String → List β → Prop
  | nil : Phrases P [] []
  | cons {words rest : List String} {b : β} {bs : List β} (h : P words b)
      (hrest : Phrases P rest bs) : Phrases P (words ++ rest) (b :: bs)

/-- The tokens of a frame range that may be missing. -/
inductive RangePhrase : List String → Option FrameRange → Prop
  | none : RangePhrase [] none
  | some {t : String} {r : FrameRange} (h : IsRange t r) : RangePhrase [t] (some r)

/-- The tokens of an owner that may be missing. -/
inductive OwnerPhrase : List String → Option String → Prop
  | none : OwnerPhrase [] none
  | some {id : String} (h : IsIdentifier id) : OwnerPhrase ["with", id] (some id)

/-- An element without options. -/
def plainElement (id source : String) (line : Nat) : Element α :=
  { id, source, pose := Pose.neutral, fit := true, visible := none, blink := none, line }

/-- The tokens of a statement that stands on a line. -/
inductive Derives (line : Nat) : List String → Statement α → Prop
  | frames {t : String} {count : Nat} (h : IsInteger t count) (hpos : 1 ≤ count) :
      Derives line ["frames", t] (.frames count)
  | fps {t : String} {rate : Binary64} (h : IsRate t rate) (hpos : 0 < rate) :
      Derives line ["fps", t] (.fps rate)
  | canvas {t u : String} {width height : Nat} (hwidth : IsInteger t width)
      (hheight : IsInteger u height) (hpos : 0 < width ∧ 0 < height) :
      Derives line ["canvas", t, u] (.canvas ⟨width, height⟩)
  | element {id source : String} {words : List String} {clauses : List (Clause α)}
      (hid : IsIdentifier id) (hclauses : Phrases ClausePhrase words clauses)
      (honce : (clauses.map Clause.keyword).Nodup) :
      Derives line ("element" :: id :: source :: words)
        (.element (clauses.foldl Clause.set (plainElement id source line)))
  | move {id t : String} {range : FrameRange} {words : List String} {ops : List (Transform α)}
      (hid : IsIdentifier id) (hrange : IsRange t range) (hops : Phrases TransformPhrase words ops)
      (hne : ops ≠ []) (honce : (ops.map Transform.channel).Nodup) :
      Derives line ("move" :: id :: t :: words) (.move id range ops)
  | line {front back : List String} {x y u v : String} {x₁ y₁ x₂ y₂ : α}
      {range : Option FrameRange} {owner : Option String} (hrange : RangePhrase front range)
      (hx₁ : IsNumber x x₁) (hy₁ : IsNumber y y₁) (hx₂ : IsNumber u x₂) (hy₂ : IsNumber v y₂)
      (howner : OwnerPhrase back owner) :
      Derives line ("line" :: (front ++ x :: y :: u :: v :: back))
        (.line ⟨⟨x₁, y₁⟩, ⟨x₂, y₂⟩, range, owner, line⟩)

end Rules

section Fields

variable {field : Field} {tokens rest : List String} {token : String}

theorem next_eq_ok_iff : next field tokens = .ok (token, rest) ↔ tokens = token :: rest := by
  cases tokens with
  | nil =>
    rw [next]
    constructor
    · intro h
      cases h
    · intro h
      cases h
  | cons t tokens => rw [next, Except.ok.injEq, Prod.mk.injEq, List.cons.injEq]

theorem finish_eq_ok_iff {done : Unit} : finish tokens = .ok done ↔ tokens = [] := by
  cases tokens with
  | nil => exact ⟨fun _ => rfl, fun _ => rfl⟩
  | cons t tokens =>
    constructor
    · intro h
      cases h
    · intro h
      cases h

theorem numeral_eq_ok_iff {β : Type} {value? : Decimal → Option β} {v : β} :
    numeral value? field tokens = .ok (v, rest) ↔
      ∃ t d, tokens = t :: rest ∧ Decimal.Spelled t.toList d ∧ value? d = some v := by
  simp only [numeral, bind_eq_ok_iff, Prod.exists, next_eq_ok_iff, ← Decimal.ofChars?_eq_some_iff]
  constructor
  · rintro ⟨t, rest', rfl, h⟩
    split at h
    · cases h
    next d hd =>
      split at h
      · cases h
      next v' hv =>
        obtain ⟨rfl, rfl⟩ := Prod.mk.inj (Except.ok.inj h)
        exact ⟨t, d, rfl, hd, hv⟩
  · rintro ⟨t, d, rfl, hd, hv⟩
    refine ⟨t, rest, rfl, ?_⟩
    rw [hd]
    dsimp only
    rw [hv]

theorem number_eq_ok_iff {v : α} :
    number field tokens = .ok (v, rest) ↔ ∃ t, tokens = t :: rest ∧ IsNumber t v := by
  rw [number, numeral_eq_ok_iff]
  refine exists_congr fun t => ?_
  simp only [IsNumber, finiteScalar?, exists_and_left, Option.ite_none_right_eq_some,
    Option.some.injEq]

theorem rate_eq_ok_iff {v : Binary64} :
    numeral finiteBinary64? field tokens = .ok (v, rest) ↔ ∃ t, tokens = t :: rest ∧ IsRate t v := by
  rw [numeral_eq_ok_iff]
  refine exists_congr fun t => ?_
  simp only [IsRate, finiteBinary64?, exists_and_left, Option.ite_none_right_eq_some,
    Option.some.injEq]

theorem integer_eq_ok_iff {n : Int} :
    integer field tokens = .ok (n, rest) ↔ ∃ t, tokens = t :: rest ∧ IsInteger t n := by
  simp only [integer, bind_eq_ok_iff, Prod.exists, next_eq_ok_iff, IsInteger,
    ← signedInteger?_eq_some_iff]
  constructor
  · rintro ⟨t, rest', rfl, h⟩
    split at h
    · cases h
    next m hm =>
      split at h
      next hle =>
        obtain ⟨rfl, rfl⟩ := Prod.mk.inj (Except.ok.inj h)
        exact ⟨t, rfl, hm, hle⟩
      next => cases h
  · rintro ⟨t, rfl, hn, hle⟩
    refine ⟨t, rest, rfl, ?_⟩
    rw [hn]
    dsimp only
    rw [if_pos hle]

theorem range_eq_ok_iff {r : FrameRange} :
    range field tokens = .ok (r, rest) ↔ ∃ t, tokens = t :: rest ∧ IsRange t r := by
  simp only [range, bind_eq_ok_iff, Prod.exists, next_eq_ok_iff]
  constructor
  · rintro ⟨t, rest', rfl, h⟩
    split at h
    · cases h
    next first last hread =>
      -- Only ranges within the bounds and in order are not refused.
      split_ifs at h with hlarge hnegative hreversed
      obtain ⟨rfl, rfl⟩ := Prod.mk.inj (Except.ok.inj h)
      obtain ⟨cs, ds, hfirst, hlast, heq⟩ := rangeOfChars?_eq_some_iff.mp hread
      refine ⟨t, rfl, cs, ds, ?_, ?_, heq, ?_, ?_⟩
      · rwa [Int.toNat_of_nonneg (by omega)]
      · rwa [Int.toNat_of_nonneg (by omega)]
      · dsimp only
        omega
      · dsimp only
        omega
  · rintro ⟨t, rfl, cs, ds, hfirst, hlast, heq, hordered, hle⟩
    refine ⟨t, rest, rfl, ?_⟩
    rw [rangeOfChars?_eq_some_iff.mpr ⟨cs, ds, hfirst, hlast, heq⟩]
    dsimp only
    rw [if_neg (by omega), if_neg (by omega), if_neg (by omega)]
    rfl

theorem isIdentifier_iff : isIdentifier token = true ↔ IsIdentifier token := by
  rw [isIdentifier, IsIdentifier]
  cases token.toList with
  | nil => simp
  | cons c rest =>
    simp only [isIdentifierStart, isIdentifierChar, Bool.and_eq_true, Bool.or_eq_true,
      decide_eq_true_eq, List.all_eq_true, List.cons.injEq, or_assoc]
    constructor
    · rintro ⟨hc, hrest⟩
      exact ⟨c, rest, ⟨rfl, rfl⟩, hc, hrest⟩
    · rintro ⟨c, rest, ⟨rfl, rfl⟩, hc, hrest⟩
      exact ⟨hc, hrest⟩

theorem identifier_eq_ok_iff {id : String} :
    identifier field tokens = .ok (id, rest) ↔ tokens = id :: rest ∧ IsIdentifier id := by
  simp only [identifier, bind_eq_ok_iff, Prod.exists, next_eq_ok_iff, ← isIdentifier_iff]
  constructor
  · rintro ⟨t, rest', rfl, h⟩
    split at h
    next hid =>
      obtain ⟨rfl, rfl⟩ := Prod.mk.inj (Except.ok.inj h)
      exact ⟨rfl, hid⟩
    next => cases h
  · rintro ⟨rfl, hid⟩
    exact ⟨id, rest, rfl, if_pos hid⟩

theorem startsWithNumber_cons :
    startsWithNumber (token :: rest) = true ↔ ∃ d, Decimal.Spelled token.toList d := by
  simp only [startsWithNumber, Option.isSome_iff_exists, Decimal.ofChars?_eq_some_iff]

theorem startsWithNumber_of_isNumber {v : α} (h : IsNumber token v) :
    startsWithNumber (token :: rest) = true := by
  obtain ⟨d, hd, -⟩ := h
  exact startsWithNumber_cons.mpr ⟨d, hd⟩

/-- A number has no two points, and so begins no line with a range. -/
theorem startsWithRange_of_isNumber {v : α} (h : IsNumber token v) :
    startsWithRange (token :: rest) = false := by
  obtain ⟨d, hd, -⟩ := h
  exact hasTwoPoints_spelled hd

theorem startsWithRange_of_isRange {r : FrameRange} (h : IsRange token r) :
    startsWithRange (token :: rest) = true := by
  obtain ⟨first, last, -, -, heq, -⟩ := h
  rw [startsWithRange, heq]
  exact hasTwoPoints_append first last

end Fields

section Phrases

variable {keyword : String} {tokens words rest : List String} {op : Transform α}

/-- What is read behind the keyword of a transform is a phrase. -/
theorem phrase_of_transform {reading : Except Problem (Transform α × List String)}
    (h : transform? keyword tokens = some reading) (hreading : reading = .ok (op, rest)) :
    ∃ words, keyword :: tokens = words ++ rest ∧ TransformPhrase words op := by
  unfold transform? at h
  split at h
  · obtain rfl := Option.some.inj h
    simp only [bind_eq_ok_iff, Prod.exists, number_eq_ok_iff, Except.ok.injEq, Prod.mk.injEq]
      at hreading
    obtain ⟨dx, _, ⟨x, rfl, hx⟩, dy, _, ⟨y, rfl, hy⟩, rfl, rfl⟩ := hreading
    exact ⟨_, rfl, .translate hx hy⟩
  · obtain rfl := Option.some.inj h
    simp only [bind_eq_ok_iff, Prod.exists, number_eq_ok_iff, Except.ok.injEq, Prod.mk.injEq]
      at hreading
    obtain ⟨degrees, _, ⟨t, rfl, ht⟩, rfl, rfl⟩ := hreading
    exact ⟨_, rfl, .rotate ht⟩
  · obtain rfl := Option.some.inj h
    simp only [bind_eq_ok_iff, Prod.exists, number_eq_ok_iff] at hreading
    obtain ⟨sx, _, ⟨x, rfl, hx⟩, hreading⟩ := hreading
    -- A second factor belongs to the phrase if there is a number.
    split at hreading
    · simp only [bind_eq_ok_iff, Prod.exists, number_eq_ok_iff, Except.ok.injEq, Prod.mk.injEq]
        at hreading
      obtain ⟨sy, _, ⟨y, rfl, hy⟩, rfl, rfl⟩ := hreading
      exact ⟨_, rfl, .scaleAxes hx hy⟩
    · obtain ⟨rfl, rfl⟩ := Prod.mk.inj (Except.ok.inj hreading)
      exact ⟨_, rfl, .scale hx⟩
  · cases h

/-- A phrase is read, unless a number behind it would belong to it. -/
theorem transform_of_phrase (h : TransformPhrase words op) (hrest : startsWithNumber rest = false) :
    ∃ tail, words = op.channel.keyword :: tail ∧
      transform? op.channel.keyword (tail ++ rest) = some (.ok (op, rest)) := by
  cases h with
  | translate hx hy =>
    refine ⟨_, rfl, congrArg some ?_⟩
    simp only [bind_eq_ok_iff, Prod.exists, number_eq_ok_iff]
    exact ⟨_, _, ⟨_, rfl, hx⟩, _, _, ⟨_, rfl, hy⟩, rfl⟩
  | rotate h =>
    refine ⟨_, rfl, congrArg some ?_⟩
    simp only [bind_eq_ok_iff, Prod.exists, number_eq_ok_iff]
    exact ⟨_, _, ⟨_, rfl, h⟩, rfl⟩
  | scale h =>
    refine ⟨_, rfl, congrArg some ?_⟩
    simp only [bind_eq_ok_iff, Prod.exists, number_eq_ok_iff]
    refine ⟨_, _, ⟨_, rfl, h⟩, ?_⟩
    -- No number follows, so there is one factor for both axes.
    show (if startsWithNumber rest = true then _ else _) = _
    rw [hrest]
    rfl
  | scaleAxes hx hy =>
    refine ⟨_, rfl, congrArg some ?_⟩
    simp only [bind_eq_ok_iff, Prod.exists, number_eq_ok_iff]
    refine ⟨_, _, ⟨_, rfl, hx⟩, ?_⟩
    refine (if_pos (startsWithNumber_of_isNumber hy)).trans ?_
    simp only [bind_eq_ok_iff, Prod.exists, number_eq_ok_iff]
    exact ⟨_, _, ⟨_, rfl, hy⟩, rfl⟩

theorem TransformPhrase.head (h : TransformPhrase words op) :
    ∃ tail, words = op.channel.keyword :: tail := by
  cases h with
  | translate => exact ⟨_, rfl⟩
  | rotate => exact ⟨_, rfl⟩
  | scale => exact ⟨_, rfl⟩
  | scaleAxes => exact ⟨_, rfl⟩

/-- What is read of a blink is a phrase whose values make sense. -/
theorem phrase_of_blink {b : Blink α} (h : blink tokens = .ok (b, rest)) :
    ∃ words, "blink" :: tokens = words ++ rest ∧ BlinkPhrase words b ∧ b.WellFormed := by
  have hwellFormed := blink_yields tokens _ h
  simp only [blink, blinkPhase, bind_eq_ok_iff, Prod.exists, number_eq_ok_iff] at h
  obtain ⟨on, _, ⟨t, rfl, ht⟩, off, _, ⟨u, rfl, hu⟩, phase, _, hphase, h⟩ := h
  split_ifs at h
  obtain ⟨rfl, rfl⟩ := Prod.mk.inj (Except.ok.inj h)
  split at hphase
  · obtain ⟨v, rfl, hv⟩ := number_eq_ok_iff.mp hphase
    exact ⟨_, rfl, .phased ht hu hv, hwellFormed⟩
  · obtain ⟨rfl, rfl⟩ := Prod.mk.inj (Except.ok.inj hphase)
    exact ⟨_, rfl, .unphased ht hu, hwellFormed⟩

theorem blink_of_phrase {b : Blink α} (h : BlinkPhrase words b) (hb : b.WellFormed)
    (hrest : startsWithNumber rest = false) :
    ∃ tail, words = "blink" :: tail ∧ blink (tail ++ rest) = .ok (b, rest) := by
  have hon := hb.on
  have hoff : ofInt 0 ≤ b.off ∧ ofInt 0 ≤ b.phase := ⟨hb.off, hb.phase⟩
  cases h with
  | unphased ht hu =>
    refine ⟨_, rfl, ?_⟩
    simp only [blink, bind_eq_ok_iff, Prod.exists, number_eq_ok_iff]
    refine ⟨_, _, ⟨_, rfl, ht⟩, _, _, ⟨_, rfl, hu⟩, ofInt 0, rest, ?_, ?_⟩
    · exact if_neg (by simpa using hrest)
    · rw [if_neg (not_not.mpr hon), if_neg (not_not.mpr hoff)]
  | @phased t u v on off phase ht hu hv =>
    refine ⟨_, rfl, ?_⟩
    simp only [blink, bind_eq_ok_iff, Prod.exists, number_eq_ok_iff]
    refine ⟨_, _, ⟨_, rfl, ht⟩, _, _, ⟨_, rfl, hu⟩, phase, rest, ?_, ?_⟩
    · refine (if_pos (startsWithNumber_of_isNumber hv)).trans ?_
      exact number_eq_ok_iff.mpr ⟨_, rfl, hv⟩
    · rw [if_neg (not_not.mpr hon), if_neg (not_not.mpr hoff)]

/-- What is read behind the keyword of an option is a phrase. -/
theorem phrase_of_elementOption {e e' : Element α}
    (h : elementOption e keyword tokens = .ok (e', rest)) :
    ∃ words clause, keyword :: tokens = words ++ rest ∧ ClausePhrase words clause ∧
      keyword = clause.keyword ∧ e' = Clause.set e clause := by
  unfold elementOption at h
  split at h
  next reading htransform =>
    obtain ⟨⟨op, rest'⟩, hreading, h⟩ := bind_eq_ok_iff.mp h
    obtain ⟨rfl, rfl⟩ := Prod.mk.inj (Except.ok.inj h)
    obtain ⟨words, heq, hphrase⟩ := phrase_of_transform htransform hreading
    obtain ⟨tail, rfl⟩ := hphrase.head
    exact ⟨_, .transform op, heq, .transform hphrase, (List.cons.inj heq).1, rfl⟩
  next =>
    split at h
    · obtain ⟨rfl, rfl⟩ := Prod.mk.inj (Except.ok.inj h)
      exact ⟨["raw"], .raw, rfl, .raw, rfl, rfl⟩
    · simp only [bind_eq_ok_iff, Prod.exists, range_eq_ok_iff, Except.ok.injEq, Prod.mk.injEq] at h
      obtain ⟨r, _, ⟨t, rfl, ht⟩, rfl, rfl⟩ := h
      exact ⟨["visible", t], .visible r, rfl, .visible ht, rfl, rfl⟩
    · obtain ⟨⟨b, rest'⟩, hblink, h⟩ := bind_eq_ok_iff.mp h
      obtain ⟨rfl, rfl⟩ := Prod.mk.inj (Except.ok.inj h)
      obtain ⟨words, heq, hphrase, hb⟩ := phrase_of_blink hblink
      exact ⟨words, .blink b, heq, .blink hphrase hb, rfl, rfl⟩
    · cases h

/-- An option is read, unless a number behind it would belong to it. -/
theorem elementOption_of_phrase {clause : Clause α} (h : ClausePhrase words clause)
    (e : Element α) (hrest : startsWithNumber rest = false) :
    ∃ tail, words = clause.keyword :: tail ∧
      elementOption e clause.keyword (tail ++ rest) = .ok (Clause.set e clause, rest) := by
  cases h with
  | @transform words op h =>
    obtain ⟨tail, heq, hread⟩ := transform_of_phrase h hrest
    refine ⟨tail, heq, ?_⟩
    unfold elementOption
    simp only [Clause.keyword]
    rw [hread]
    rfl
  | raw => exact ⟨[], rfl, rfl⟩
  | @visible t r h =>
    refine ⟨[t], rfl, ?_⟩
    have hread : range .visible (t :: rest) = .ok (r, rest) := range_eq_ok_iff.mpr ⟨t, rfl, h⟩
    show (range .visible (t :: rest) >>= _) = _
    rw [hread]
    rfl
  | @blink words b h hb =>
    obtain ⟨tail, heq, hread⟩ := blink_of_phrase h hb hrest
    refine ⟨tail, heq, ?_⟩
    show (Script.blink (tail ++ rest) >>= _) = _
    rw [hread]
    rfl

/-- A keyword is no number. -/
theorem startsWithNumber_keyword (channel : Channel) (tokens : List String) :
    startsWithNumber (channel.keyword :: tokens) = false := by
  cases channel <;> rfl

omit [Scalar α] in
theorem startsWithNumber_clause (clause : Clause α) (tokens : List String) :
    startsWithNumber (clause.keyword :: tokens) = false := by
  cases clause with
  | transform op => exact startsWithNumber_keyword op.channel tokens
  | raw => exact (rfl : startsWithNumber ("raw" :: tokens) = false)
  | visible => exact (rfl : startsWithNumber ("visible" :: tokens) = false)
  | blink => exact (rfl : startsWithNumber ("blink" :: tokens) = false)

end Phrases

section Sequences

variable {β : Type} {P : List String → β → Prop} {b : β} {bs : List β} {tokens : List String}

theorem phrases_nil_iff : Phrases P tokens [] ↔ tokens = [] := by
  constructor
  · intro h
    cases h
    rfl
  · rintro rfl
    exact .nil

theorem phrases_cons_iff :
    Phrases P tokens (b :: bs) ↔
      ∃ words rest, tokens = words ++ rest ∧ P words b ∧ Phrases P rest bs := by
  constructor
  · intro h
    cases h with
    | cons h hrest => exact ⟨_, _, rfl, h, hrest⟩
  · rintro ⟨words, rest, rfl, h, hrest⟩
    exact .cons h hrest

theorem ClausePhrase.head {words : List String} {clause : Clause α} (h : ClausePhrase words clause) :
    ∃ tail, words = clause.keyword :: tail := by
  cases h with
  | transform h => exact h.head
  | raw => exact ⟨[], rfl⟩
  | visible => exact ⟨_, rfl⟩
  | blink h => cases h <;> exact ⟨_, rfl⟩

/-- Options begin with keywords and so with no number. -/
theorem startsWithNumber_clauses {clauses : List (Clause α)}
    (h : Phrases ClausePhrase tokens clauses) : startsWithNumber tokens = false := by
  cases h with
  | nil => rfl
  | @cons words rest clause clauses h =>
    obtain ⟨tail, rfl⟩ := h.head
    exact startsWithNumber_clause clause _

theorem startsWithNumber_transforms {ops : List (Transform α)}
    (h : Phrases TransformPhrase tokens ops) : startsWithNumber tokens = false := by
  cases h with
  | nil => rfl
  | @cons words rest op ops h =>
    obtain ⟨tail, rfl⟩ := h.head
    exact startsWithNumber_keyword op.channel _

/-- Phrases that are not empty make up no tokens just if there are none. -/
theorem eq_nil_of_phrases_nil (hP : ∀ b, ¬ P [] b) (h : Phrases P [] bs) : bs = [] := by
  cases bs with
  | nil => rfl
  | cons b bs =>
    obtain ⟨words, rest, heq, hphrase, -⟩ := phrases_cons_iff.mp h
    obtain ⟨rfl, rfl⟩ := List.append_eq_nil_iff.mp heq.symm
    exact absurd hphrase (hP b)

theorem not_clausePhrase_nil (clause : Clause α) : ¬ ClausePhrase [] clause := by
  intro h
  obtain ⟨tail, heq⟩ := h.head
  cases heq

theorem not_transformPhrase_nil (op : Transform α) : ¬ TransformPhrase [] op := by
  intro h
  obtain ⟨tail, heq⟩ := h.head
  cases heq

/-- Keys that are different from each other, and from those that are taken. -/
def Fresh {κ : Type} (key : β → κ) (taken : List κ) (bs : List β) : Prop :=
  (bs.map key).Nodup ∧ ∀ b ∈ bs, key b ∉ taken

section Fresh

variable {κ : Type} {key : β → κ} {taken taken' : List κ}

theorem fresh_nil : Fresh key taken [] :=
  ⟨List.nodup_nil, List.forall_mem_nil _⟩

theorem fresh_cons_iff :
    Fresh key taken (b :: bs) ↔ key b ∉ taken ∧ Fresh key (key b :: taken) bs := by
  rw [Fresh, Fresh, List.map_cons, List.nodup_cons, List.forall_mem_cons]
  constructor
  · rintro ⟨⟨hnew, honce⟩, hb, hbs⟩
    refine ⟨hb, honce, fun c hc => List.not_mem_cons_of_ne_of_not_mem ?_ (hbs c hc)⟩
    intro hsame
    exact hnew (List.mem_map.mpr ⟨c, hc, hsame⟩)
  · rintro ⟨hb, honce, hbs⟩
    refine ⟨⟨?_, honce⟩, hb, fun c hc hmem => hbs c hc (List.mem_cons_of_mem _ hmem)⟩
    intro hmem
    obtain ⟨c, hc, hsame⟩ := List.mem_map.mp hmem
    exact hbs c hc (List.mem_cons.mpr (.inl hsame))

theorem Fresh.mono (h : Fresh key taken bs) (htaken : ∀ k ∈ taken', k ∈ taken) :
    Fresh key taken' bs :=
  ⟨h.1, fun b hb hmem => h.2 b hb (htaken _ hmem)⟩

theorem fresh_of_nil_iff : Fresh key [] bs ↔ (bs.map key).Nodup :=
  and_iff_left fun _ _ => List.not_mem_nil

end Fresh

/-- What follows a phrase is shorter than what begins with it. -/
theorem length_le_of_cons_eq {keyword first : String} {tail rest : List String} {fuel : Nat}
    (h : keyword :: tokens = (first :: tail) ++ rest)
    (hfuel : (keyword :: tokens).length ≤ fuel + 1) : rest.length ≤ fuel := by
  rw [h, List.cons_append, List.length_cons, List.length_append] at hfuel
  omega

private theorem elementOptions_nil {fuel : Nat} {e e' : Element α} {seen : List String} :
    elementOptions fuel e seen [] = .ok e' ↔
      ∃ clauses, Phrases ClausePhrase [] clauses ∧ Fresh Clause.keyword seen clauses ∧
        clauses.foldl Clause.set e = e' := by
  rw [elementOptions, Except.ok.injEq]
  constructor
  · rintro rfl
    exact ⟨[], .nil, fresh_nil, rfl⟩
  · rintro ⟨clauses, hclauses, -, rfl⟩
    obtain rfl := eq_nil_of_phrases_nil not_clausePhrase_nil hclauses
    rfl

/-- The options of an element are read up to the end of the line, each at most once. -/
theorem elementOptions_eq_ok_iff {fuel : Nat} (hfuel : tokens.length ≤ fuel) (e e' : Element α)
    (seen : List String) :
    elementOptions fuel e seen tokens = .ok e' ↔
      ∃ clauses, Phrases ClausePhrase tokens clauses ∧ Fresh Clause.keyword seen clauses ∧
        clauses.foldl Clause.set e = e' := by
  -- Every option takes its keyword, and so the fuel suffices for what is left.
  induction fuel generalizing tokens e seen with
  | zero =>
    obtain rfl : tokens = [] := List.length_eq_zero_iff.mp (Nat.le_zero.mp hfuel)
    exact elementOptions_nil
  | succ fuel ih =>
    cases tokens with
    | nil => exact elementOptions_nil
    | cons keyword tokens =>
      rw [elementOptions]
      constructor
      · intro h
        split at h
        · cases h
        next hnew =>
          obtain ⟨⟨e₁, rest⟩, hread, h⟩ := bind_eq_ok_iff.mp h
          obtain ⟨words, clause, heq, hphrase, rfl, rfl⟩ := phrase_of_elementOption hread
          obtain ⟨tail, rfl⟩ := hphrase.head
          have hlength := length_le_of_cons_eq heq hfuel
          obtain ⟨clauses, hclauses, hfresh, rfl⟩ :=
            (ih hlength _ _).mp h
          refine ⟨clause :: clauses, heq ▸ .cons hphrase hclauses, ?_, rfl⟩
          exact fresh_cons_iff.mpr ⟨by simpa using hnew, hfresh⟩
      · rintro ⟨clauses, hphrases, hfresh, rfl⟩
        cases clauses with
        | nil => cases phrases_nil_iff.mp hphrases
        | cons clause clauses =>
          obtain ⟨words, rest, heq, hphrase, hclauses⟩ := phrases_cons_iff.mp hphrases
          obtain ⟨tail, rfl, hread⟩ :=
            elementOption_of_phrase hphrase e (startsWithNumber_clauses hclauses)
          have hlength := length_le_of_cons_eq heq hfuel
          obtain ⟨rfl, rfl⟩ : keyword = clause.keyword ∧ tokens = tail ++ rest :=
            List.cons.inj heq
          obtain ⟨hnew, hfresh⟩ := fresh_cons_iff.mp hfresh
          rw [if_neg (by simpa using hnew), hread]
          exact (ih hlength _ _).mpr
            ⟨clauses, hclauses, hfresh, rfl⟩

private theorem transforms_nil {fuel : Nat} {front ops' : List (Transform α)} :
    transforms fuel front [] = .ok ops' ↔
      ∃ ops, Phrases TransformPhrase [] ops ∧
        Fresh Transform.channel (front.map Transform.channel) ops ∧ front ++ ops = ops' := by
  rw [transforms, Except.ok.injEq]
  constructor
  · rintro rfl
    exact ⟨[], .nil, fresh_nil, List.append_nil _⟩
  · rintro ⟨ops, hops, -, rfl⟩
    obtain rfl := eq_nil_of_phrases_nil not_transformPhrase_nil hops
    exact (List.append_nil _).symm

/-- The transforms of a move are read up to the end of the line, one for each channel at most. -/
theorem transforms_eq_ok_iff {fuel : Nat} (hfuel : tokens.length ≤ fuel)
    (front ops' : List (Transform α)) :
    transforms fuel front tokens = .ok ops' ↔
      ∃ ops, Phrases TransformPhrase tokens ops ∧
        Fresh Transform.channel (front.map Transform.channel) ops ∧ front ++ ops = ops' := by
  induction fuel generalizing tokens front with
  | zero =>
    obtain rfl : tokens = [] := List.length_eq_zero_iff.mp (Nat.le_zero.mp hfuel)
    exact transforms_nil
  | succ fuel ih =>
    cases tokens with
    | nil => exact transforms_nil
    | cons keyword tokens =>
      rw [transforms]
      constructor
      · intro h
        split at h
        · cases h
        next reading htransform =>
          obtain ⟨⟨op, rest⟩, hreading, h⟩ := bind_eq_ok_iff.mp h
          dsimp only at h
          split_ifs at h with htaken
          obtain ⟨words, heq, hphrase⟩ := phrase_of_transform htransform hreading
          obtain ⟨tail, rfl⟩ := hphrase.head
          -- The others are read behind it, and its channel is taken from then on.
          have hlength := length_le_of_cons_eq heq hfuel
          obtain ⟨ops, hops, hfresh, rfl⟩ :=
            (ih hlength _).mp h
          rw [List.map_append, List.map_singleton] at hfresh
          refine ⟨op :: ops, heq ▸ .cons hphrase hops, ?_, List.append_cons ..⟩
          refine fresh_cons_iff.mpr ⟨by simpa using htaken, hfresh.mono ?_⟩
          exact fun channel => by simp [or_comm]
      · rintro ⟨ops, hphrases, hfresh, rfl⟩
        cases ops with
        | nil => cases phrases_nil_iff.mp hphrases
        | cons op ops =>
          obtain ⟨words, rest, heq, hphrase, hops⟩ := phrases_cons_iff.mp hphrases
          -- No other transform begins with a number, so the first one ends where it should.
          obtain ⟨tail, rfl, hread⟩ :=
            transform_of_phrase hphrase (startsWithNumber_transforms hops)
          have hlength := length_le_of_cons_eq heq hfuel
          obtain ⟨rfl, rfl⟩ : keyword = op.channel.keyword ∧ tokens = tail ++ rest :=
            List.cons.inj heq
          obtain ⟨hnew, hfresh⟩ := fresh_cons_iff.mp hfresh
          rw [hread]
          refine (if_neg (by simpa using hnew)).trans ?_
          refine (ih hlength _).mpr
            ⟨ops, hops, hfresh.mono ?_, (List.append_cons ..).symm⟩
          rw [List.map_append, List.map_singleton]
          exact fun channel => by simp [or_comm]

end Sequences

section Statements

variable {scope : Scope} {tokens words : List String} {s : Statement α}

theorem frameCount_eq_ok_iff {count : Nat} :
    frameCount tokens = .ok count ↔ ∃ t, tokens = [t] ∧ IsInteger t count ∧ 1 ≤ count := by
  simp only [frameCount, bind_eq_ok_iff, Prod.exists, integer_eq_ok_iff, finish_eq_ok_iff]
  constructor
  · rintro ⟨n, _, ⟨t, rfl, ht⟩, -, rfl, h⟩
    split_ifs at h with hpos
    obtain rfl := Except.ok.inj h
    refine ⟨t, rfl, ?_, by omega⟩
    rwa [Int.toNat_of_nonneg (by omega)]
  · rintro ⟨t, rfl, ht, hpos⟩
    refine ⟨count, [], ⟨t, rfl, ht⟩, (), rfl, ?_⟩
    rw [if_neg (by omega), Int.toNat_natCast]

theorem frameRate_eq_ok_iff {rate : Binary64} :
    frameRate tokens = .ok rate ↔ ∃ t, tokens = [t] ∧ IsRate t rate ∧ 0 < rate := by
  simp only [frameRate, bind_eq_ok_iff, Prod.exists, rate_eq_ok_iff, finish_eq_ok_iff]
  constructor
  · rintro ⟨v, _, ⟨t, rfl, ht⟩, -, rfl, h⟩
    split_ifs at h with hpos
    obtain rfl := Except.ok.inj h
    exact ⟨t, rfl, ht, hpos⟩
  · rintro ⟨t, rfl, ht, hpos⟩
    exact ⟨rate, [], ⟨t, rfl, ht⟩, (), rfl, if_pos hpos⟩

theorem canvasSize_eq_ok_iff {size : Canvas} :
    canvasSize tokens = .ok size ↔ ∃ t u, tokens = [t, u] ∧ IsInteger t size.width ∧
      IsInteger u size.height ∧ 0 < size.width ∧ 0 < size.height := by
  simp only [canvasSize, bind_eq_ok_iff, Prod.exists, integer_eq_ok_iff, finish_eq_ok_iff]
  constructor
  · rintro ⟨width, _, ⟨t, rfl, ht⟩, height, _, ⟨u, rfl, hu⟩, -, rfl, h⟩
    split_ifs at h with hpos
    obtain rfl := Except.ok.inj h
    refine ⟨t, u, rfl, ?_, ?_, ?_, ?_⟩
    · rwa [Int.toNat_of_nonneg (by omega)]
    · rwa [Int.toNat_of_nonneg (by omega)]
    · dsimp only
      omega
    · dsimp only
      omega
  · rintro ⟨t, u, rfl, ht, hu, hpos⟩
    refine ⟨size.width, _, ⟨t, rfl, ht⟩, size.height, [], ⟨u, rfl, hu⟩, (), rfl, ?_⟩
    rw [if_neg (by omega), Int.toNat_natCast, Int.toNat_natCast]

omit [Scalar α] in
/-- Options change neither what an element is called nor where it comes from. -/
theorem foldl_set_fixes (clauses : List (Clause α)) (e : Element α) :
    (clauses.foldl Clause.set e).id = e.id ∧ (clauses.foldl Clause.set e).source = e.source ∧
      (clauses.foldl Clause.set e).line = e.line := by
  induction clauses generalizing e with
  | nil => exact ⟨rfl, rfl, rfl⟩
  | cons clause clauses ih =>
    rw [List.foldl_cons]
    cases clause <;> exact ih _

theorem element_eq_ok_iff {e : Element α} :
    element scope tokens = .ok e ↔ ∃ id source words clauses, tokens = id :: source :: words ∧
      IsIdentifier id ∧ Phrases ClausePhrase words clauses ∧
      (clauses.map Clause.keyword).Nodup ∧
      clauses.foldl Clause.set (plainElement id source scope.line) = e ∧
      scope.declared id = none ∧ scope.sourceExists source = true := by
  simp only [element, bind_eq_ok_iff, Prod.exists, identifier_eq_ok_iff, next_eq_ok_iff]
  constructor
  · rintro ⟨id, _, ⟨rfl, hid⟩, source, words, rfl, h⟩
    split at h
    · cases h
    next hfree =>
      split_ifs at h with hsource
      obtain ⟨clauses, hclauses, hfresh, rfl⟩ :=
        (elementOptions_eq_ok_iff (Nat.le_refl _) _ _ _).mp h
      exact ⟨id, source, words, clauses, rfl, hid, hclauses, fresh_of_nil_iff.mp hfresh, rfl,
        hfree, hsource⟩
  · rintro ⟨id, source, words, clauses, rfl, hid, hclauses, honce, rfl, hfree, hsource⟩
    refine ⟨id, _, ⟨rfl, hid⟩, source, words, rfl, ?_⟩
    rw [hfree]
    refine (if_pos hsource).trans ?_
    exact (elementOptions_eq_ok_iff (Nat.le_refl _) _ _ _).mpr
      ⟨clauses, hclauses, fresh_of_nil_iff.mpr honce, rfl⟩

theorem checkDeclared_eq_ok_iff {field : Field} {id : String} {done : Unit} :
    checkDeclared scope field id = .ok done ↔ (scope.declared id).isSome = true := by
  rw [checkDeclared]
  split_ifs with h
  · exact iff_of_true rfl h
  · exact iff_of_false (fun h => by cases h) h

theorem move_eq_ok_iff :
    move scope tokens = .ok s ↔ ∃ id t range words ops, tokens = id :: t :: words ∧
      IsIdentifier id ∧ IsRange t range ∧ Phrases TransformPhrase words ops ∧ ops ≠ [] ∧
      (ops.map Transform.channel).Nodup ∧ (scope.declared id).isSome = true ∧
      s = .move id range ops := by
  simp only [move, bind_eq_ok_iff, Prod.exists, identifier_eq_ok_iff, range_eq_ok_iff,
    checkDeclared_eq_ok_iff, transforms_eq_ok_iff (Nat.le_refl _)]
  constructor
  · rintro ⟨id, _, ⟨rfl, hid⟩, r, words, ⟨t, rfl, ht⟩, -, hdeclared, _, ⟨ops, hops, hfresh, rfl⟩, h⟩
    split_ifs at h with hempty
    obtain rfl := Except.ok.inj h
    exact ⟨id, t, r, words, ops, rfl, hid, ht, hops, by simpa using hempty,
      fresh_of_nil_iff.mp hfresh, hdeclared, rfl⟩
  · rintro ⟨id, t, r, words, ops, rfl, hid, ht, hops, hne, honce, hdeclared, rfl⟩
    refine ⟨id, _, ⟨rfl, hid⟩, r, words, ⟨t, rfl, ht⟩, (), hdeclared, ops,
      ⟨ops, hops, fresh_of_nil_iff.mpr honce, rfl⟩, ?_⟩
    exact if_neg (by simpa using hne)

theorem rangePhrase_of_lineRange {r : Option FrameRange} {rest : List String}
    (h : lineRange tokens = .ok (r, rest)) :
    ∃ front, tokens = front ++ rest ∧ RangePhrase front r := by
  rw [lineRange] at h
  split_ifs at h
  · cases hread : range .line tokens with
    | error problem =>
      rw [hread] at h
      cases h
    | ok found =>
      obtain ⟨r', rest'⟩ := found
      obtain ⟨t, rfl, ht⟩ := range_eq_ok_iff.mp hread
      rw [hread] at h
      obtain ⟨rfl, rfl⟩ := Prod.mk.inj (Except.ok.inj h)
      exact ⟨[t], rfl, .some ht⟩
  · obtain ⟨rfl, rfl⟩ := Prod.mk.inj (Except.ok.inj h)
    exact ⟨[], rfl, .none⟩

theorem lineRange_of_rangePhrase {front rest : List String} {r : Option FrameRange}
    (h : RangePhrase front r) (hrest : startsWithRange rest = false) :
    lineRange (front ++ rest) = .ok (r, rest) := by
  cases h with
  | none => exact if_neg (by simpa using hrest)
  | @some t r ht =>
    have hread : range .line (t :: rest) = .ok (r, rest) := range_eq_ok_iff.mpr ⟨t, rfl, ht⟩
    refine (if_pos (startsWithRange_of_isRange ht)).trans ?_
    exact congrArg (Except.map fun read => (some read.1, read.2)) hread

/-- Nothing is left behind the owner of a line just if the owner is all there is. -/
theorem lineOwner_eq_ok_iff {owner : Option String} :
    lineOwner scope tokens = .ok (owner, []) ↔
      OwnerPhrase tokens owner ∧ ∀ id ∈ owner, (scope.declared id).isSome = true := by
  constructor
  · intro h
    unfold lineOwner at h
    split at h
    · simp only [bind_eq_ok_iff, Prod.exists, identifier_eq_ok_iff, checkDeclared_eq_ok_iff] at h
      obtain ⟨id, _, ⟨rfl, hid⟩, -, hdeclared, h⟩ := h
      obtain ⟨rfl, rfl⟩ := Prod.mk.inj (Except.ok.inj h)
      refine ⟨.some hid, fun id' hmem => ?_⟩
      rwa [← Option.some.inj hmem]
    · obtain ⟨rfl, rfl⟩ := Prod.mk.inj (Except.ok.inj h)
      exact ⟨.none, fun id hmem => (Option.not_mem_none id hmem).elim⟩
  · rintro ⟨howner, hdeclared⟩
    cases howner with
    | none => rfl
    | @some id hid =>
      simp only [lineOwner, bind_eq_ok_iff, Prod.exists, identifier_eq_ok_iff,
        checkDeclared_eq_ok_iff]
      exact ⟨id, [], ⟨rfl, hid⟩, (), hdeclared id rfl, rfl⟩

theorem line_eq_ok_iff {mark : LineMark α} :
    line scope tokens = .ok mark ↔ ∃ front x y u v back,
      tokens = front ++ x :: y :: u :: v :: back ∧ RangePhrase front mark.range ∧
      IsNumber x mark.start.x ∧ IsNumber y mark.start.y ∧ IsNumber u mark.finish.x ∧
      IsNumber v mark.finish.y ∧ OwnerPhrase back mark.elementId ∧
      (∀ id ∈ mark.elementId, (scope.declared id).isSome = true) ∧ mark.line = scope.line := by
  simp only [line, bind_eq_ok_iff, Prod.exists, number_eq_ok_iff, finish_eq_ok_iff]
  constructor
  · rintro ⟨r, _, hrange, x₁, _, ⟨x, rfl, hx⟩, y₁, _, ⟨y, rfl, hy⟩, x₂, _, ⟨u, rfl, hu⟩, y₂, back,
      ⟨v, rfl, hv⟩, owner, _, howner, -, rfl, h⟩
    obtain rfl := Except.ok.inj h
    obtain ⟨front, rfl, hfront⟩ := rangePhrase_of_lineRange hrange
    obtain ⟨howner, hdeclared⟩ := lineOwner_eq_ok_iff.mp howner
    exact ⟨front, x, y, u, v, back, rfl, hfront, hx, hy, hu, hv, howner, hdeclared, rfl⟩
  · rintro ⟨front, x, y, u, v, back, rfl, hfront, hx, hy, hu, hv, howner, hdeclared, hline⟩
    -- What follows begins with a number, so it is not taken for a range.
    have hnone : startsWithRange (x :: y :: u :: v :: back) = false :=
      startsWithRange_of_isNumber hx
    refine ⟨_, _, lineRange_of_rangePhrase hfront hnone, _, _, ⟨x, rfl, hx⟩, _, _, ⟨y, rfl, hy⟩,
      _, _, ⟨u, rfl, hu⟩, _, _, ⟨v, rfl, hv⟩, _, [],
      lineOwner_eq_ok_iff.mpr ⟨howner, hdeclared⟩, (), rfl, ?_⟩
    rw [← hline]

/-- The names of a statement: an element has a new one, and a drawing that exists, and the others
name elements that are declared. -/
def Statement.Named (scope : Scope) : Statement α → Prop
  | .frames _ | .fps _ | .canvas _ => True
  | .element e => scope.declared e.id = none ∧ scope.sourceExists e.source = true
  | .move id _ _ => (scope.declared id).isSome = true
  | .line mark => ∀ id ∈ mark.elementId, (scope.declared id).isSome = true

/-- Reading a statement is deriving it, with names that are declared. -/
theorem statement_eq_ok_iff :
    statement scope tokens = .ok s ↔ Derives scope.line tokens s ∧ s.Named scope := by
  constructor
  · intro h
    simp only [statement, bind_eq_ok_iff, Prod.exists, next_eq_ok_iff] at h
    obtain ⟨keyword, rest, rfl, h⟩ := h
    -- The keyword decides which kind of statement it is.
    split at h
    · obtain ⟨count, hread, rfl⟩ := map_eq_ok_iff.mp h
      obtain ⟨t, rfl, ht, hpos⟩ := frameCount_eq_ok_iff.mp hread
      exact ⟨.frames ht hpos, trivial⟩
    · obtain ⟨rate, hread, rfl⟩ := map_eq_ok_iff.mp h
      obtain ⟨t, rfl, ht, hpos⟩ := frameRate_eq_ok_iff.mp hread
      exact ⟨.fps ht hpos, trivial⟩
    · obtain ⟨size, hread, rfl⟩ := map_eq_ok_iff.mp h
      obtain ⟨t, u, rfl, ht, hu, hpos⟩ := canvasSize_eq_ok_iff.mp hread
      exact ⟨.canvas ht hu hpos, trivial⟩
    · obtain ⟨e, hread, rfl⟩ := map_eq_ok_iff.mp h
      obtain ⟨id, source, words, clauses, rfl, hid, hclauses, honce, rfl, hnames⟩ :=
        element_eq_ok_iff.mp hread
      obtain ⟨hsame, hsource, -⟩ := foldl_set_fixes clauses (plainElement id source scope.line)
      refine ⟨.element hid hclauses honce, ?_⟩
      rw [Statement.Named, hsame, hsource]
      exact hnames
    · obtain ⟨id, t, r, words, ops, rfl, hid, ht, hops, hne, honce, hdeclared, rfl⟩ :=
        move_eq_ok_iff.mp h
      exact ⟨.move hid ht hops hne honce, hdeclared⟩
    · obtain ⟨mark, hread, rfl⟩ := map_eq_ok_iff.mp h
      obtain ⟨front, x, y, u, v, back, rfl, hfront, hx, hy, hu, hv, howner, hdeclared, hline⟩ :=
        line_eq_ok_iff.mp hread
      obtain ⟨⟨x₁, y₁⟩, ⟨x₂, y₂⟩, r, owner, n⟩ := mark
      obtain rfl : n = scope.line := hline
      exact ⟨.line hfront hx hy hu hv howner, hdeclared⟩
    · cases h
  · rintro ⟨h, hnamed⟩
    cases h with
    | frames ht hpos =>
      exact map_eq_ok_iff.mpr ⟨_, frameCount_eq_ok_iff.mpr ⟨_, rfl, ht, hpos⟩, rfl⟩
    | fps ht hpos =>
      exact map_eq_ok_iff.mpr ⟨_, frameRate_eq_ok_iff.mpr ⟨_, rfl, ht, hpos⟩, rfl⟩
    | @canvas t u width height ht hu hpos =>
      exact map_eq_ok_iff.mpr
        ⟨⟨width, height⟩, canvasSize_eq_ok_iff.mpr ⟨_, _, rfl, ht, hu, hpos⟩, rfl⟩
    | @element id source words clauses hid hclauses honce =>
      obtain ⟨hsame, hsource, -⟩ := foldl_set_fixes clauses (plainElement id source scope.line)
      rw [Statement.Named, hsame, hsource] at hnamed
      exact map_eq_ok_iff.mpr ⟨_, element_eq_ok_iff.mpr
        ⟨_, _, _, _, rfl, hid, hclauses, honce, rfl, hnamed⟩, rfl⟩
    | move hid ht hops hne honce =>
      exact move_eq_ok_iff.mpr ⟨_, _, _, _, _, rfl, hid, ht, hops, hne, honce, hnamed, rfl⟩
    | line hfront hx hy hu hv howner =>
      exact map_eq_ok_iff.mpr ⟨_, line_eq_ok_iff.mpr
        ⟨_, _, _, _, _, _, rfl, hfront, hx, hy, hu, hv, howner, hnamed, rfl⟩, rfl⟩

end Statements

end Flipbook.Script
