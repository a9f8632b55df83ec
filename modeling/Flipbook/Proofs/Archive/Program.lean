import Flipbook.Proofs.Archive.Markers
import Flipbook.Proofs.Number.Length
import Flipbook.Proofs.Number.Text

/-!
# The frames that a player program plays

The two numbers of a program that is built can be found in it again, and replacing them makes the
program that would have been built for the new numbers: nothing else in a program looks like a marked
number.

## Main results

* `playerBounds_build`: the frames that a program was built for are those that it plays;
* `setPlayerBounds_build`: a program that is set to other frames is the program for these frames.
-/

namespace Flipbook

namespace Marker

variable {m : Marker} {line number rest text : List Char}

/-- A marked number is found at the start of a text. -/
theorem splitMarked?_marked (hline : line ≠ []) (hlines : ∀ c ∈ line, c.isDigit = true)
    (hbefore : ∀ c ∈ (m.before ++ (number ++ (m.after ++ rest))).head?, c.isDigit = false)
    (hnumber : number ≠ []) (hnumbers : ∀ c ∈ number, c.isDigit = true)
    (hafter : ∀ c ∈ (m.after ++ rest).head?, c.isDigit = false) :
    m.splitMarked? (line ++ (m.before ++ (number ++ (m.after ++ rest)))) =
      some (line, number, rest) := by
  rw [splitMarked?, splitRun_append _ hlines hbefore]
  dsimp only
  rw [if_neg (by simp [hline]), dropStart?_append]
  dsimp only
  rw [splitRun_append _ hnumbers hafter]
  dsimp only
  rw [if_neg (by simp [hnumber]), dropStart?_append, Option.map_some]

/-- In a program whose other lines are free, the marked numbers are those of one line. -/
theorem numbers_of_line (hm : m.OneLine) {front back : List (List Char)}
    (hfront : ∀ l ∈ front, m.Free l) (hback : ∀ l ∈ back, m.Free l) :
    m.numbers (['\r'].intercalate (front ++ line :: back)) = m.numbers line := by
  have hnone : ∀ ls : List (List Char), (∀ l ∈ ls, m.Free l) → ls.flatMap m.numbers = [] :=
    fun ls hls => List.flatMap_eq_nil_iff.mpr fun l hl => (hls l hl).numbers_eq
  rw [numbers_lines hm, List.flatMap_append, List.flatMap_cons, hnone front hfront,
    hnone back hback, List.nil_append, List.append_nil]

/-- In a program whose other lines are free, the marked numbers of one line are replaced. -/
theorem replace_of_line (hm : m.OneLine) {front back : List (List Char)}
    (hfront : ∀ l ∈ front, m.Free l) (hback : ∀ l ∈ back, m.Free l) :
    m.replace text (['\r'].intercalate (front ++ line :: back)) =
      ['\r'].intercalate (front ++ m.replace text line :: back) := by
  have hsame : ∀ ls : List (List Char), (∀ l ∈ ls, m.Free l) → ls.map (m.replace text) = ls :=
    fun ls hls => List.map_congr_left (fun l hl => (hls l hl).replace_eq text) |>.trans
      (List.map_id ls)
  rw [replace_lines hm, List.map_append, List.map_cons, hsame front hfront, hsame back hback]

end Marker

/-- The text of a player program. -/
def playerText (bounds : FrameBounds) (delay : Binary64) : List Char :=
  (String.intercalate "\r" (playerLines bounds delay)).toList

/-- A program is the encoding of its text. -/
theorem buildPlayerProgram_eq (bounds : FrameBounds) (delay : Binary64) :
    buildPlayerProgram bounds delay = encodeLatin1 (playerText bounds delay) :=
  rfl

/-- A text is put together from its lines. -/
theorem playerText_eq (bounds : FrameBounds) (delay : Binary64) :
    playerText bounds delay =
      ['\r'].intercalate ((playerLines bounds delay).map String.toList) := by
  rw [playerText, String.toList_intercalate]
  rfl

/-- The marks of both numbers stay within a line. -/
theorem PlayerBound.marker_oneLine (bound : PlayerBound) : bound.marker.OneLine := by
  cases bound with
  | first => exact ⟨by decide, by decide⟩
  | last => exact ⟨by decide, by decide⟩

/-- The character that the mark of a number ends with, and that few other lines have. -/
def PlayerBound.sign : PlayerBound → Char
  | first => '='
  | last => '>'

/-- The place of the line that holds a number of a program. -/
def PlayerBound.row : PlayerBound → Nat
  | first => 4
  | last => 6

/-- The line that holds a number of a program. -/
def PlayerBound.line (bound : PlayerBound) (number : List Char) : List Char :=
  match bound with
  | first => "120".toList ++ (first.marker.before ++ (number ++ (first.marker.after ++ [])))
  | last => "140".toList ++ (last.marker.before ++ (number ++ (last.marker.after ++ "N 240".toList)))

/-- The number that a program holds for the frames that it plays. -/
def FrameBounds.written (bounds : FrameBounds) : PlayerBound → Binary64
  | .first => bounds.firstFrame - 1
  | .last => bounds.lastFrame

section Lines

variable (bound : PlayerBound) (bounds : FrameBounds) (delay : Binary64)

/-- The lines of a program in front of the one that holds a number. -/
def linesBefore : List (List Char) :=
  ((playerLines bounds delay).take bound.row).map String.toList

/-- The lines of a program behind the one that holds a number. -/
def linesBehind : List (List Char) :=
  ((playerLines bounds delay).drop (bound.row + 1)).map String.toList

/-- The line that holds a number, as it stands in a program. -/
theorem PlayerBound.line_eq :
    bound.line (bounds.written bound).text.toList =
      ((playerLines bounds delay)[bound.row]?.getD "").toList := by
  cases bound with
  | first =>
    show _ = ("120 LET F=" ++ (bounds.firstFrame - 1).text).toList
    rw [String.toList_append, line, List.append_nil]
    exact congrArg ("120 LET F=".toList ++ ·) (List.append_nil _)
  | last =>
    show _ = ("140 IF F>" ++ bounds.lastFrame.text ++ " THEN 240").toList
    rw [String.toList_append, String.toList_append, List.append_assoc]
    rfl

/-- A program around the line that holds a number. -/
theorem playerText_split :
    playerText bounds delay = ['\r'].intercalate (linesBefore bound bounds delay ++
      bound.line (bounds.written bound).text.toList :: linesBehind bound bounds delay) := by
  have hlines : playerLines bounds delay = (playerLines bounds delay).take bound.row ++
      (playerLines bounds delay)[bound.row]?.getD "" ::
        (playerLines bounds delay).drop (bound.row + 1) := by
    cases bound <;> rfl
  have hmap := congrArg (List.map String.toList) hlines
  rw [List.map_append, List.map_cons, ← bound.line_eq bounds delay] at hmap
  rw [playerText_eq, hmap]
  rfl

/-- The sign of a mark is none of the characters of a number. -/
theorem PlayerBound.sign_not_mem_text (a : Binary64) : bound.sign ∉ a.text.toList := by
  intro hmem
  cases bound with
  | first => exact absurd (a.plain_text _ hmem) (by decide)
  | last => exact absurd (a.plain_text _ hmem) (by decide)

/-- A line without the sign of a mark has no number that is marked by it, even if another number is
written into it. -/
theorem free_of_sign {bound : PlayerBound} {before after : String} {a : Binary64}
    (hbefore : bound.sign ∉ before.toList) (hafter : bound.sign ∉ after.toList) :
    bound.marker.Free (before ++ a.text ++ after).toList := by
  have hsign : bound.sign ∈ bound.marker.before := by cases bound <;> decide
  refine Marker.free_of_not_mem hsign ?_
  rw [String.toList_append, String.toList_append, List.mem_append, List.mem_append]
  rintro ((hmem | hmem) | hmem)
  · exact hbefore hmem
  · exact bound.sign_not_mem_text a hmem
  · exact hafter hmem

/-- The same for a line that ends with the number. -/
theorem free_of_sign_end {bound : PlayerBound} {before : String} {a : Binary64}
    (hbefore : bound.sign ∉ before.toList) : bound.marker.Free (before ++ a.text).toList := by
  have h : bound.marker.Free (before ++ a.text ++ "").toList :=
    free_of_sign hbefore List.not_mem_nil
  rwa [String.append_empty] at h

/-- Every line but the one that holds a number is free of such numbers. -/
theorem free_others :
    (∀ l ∈ linesBefore bound bounds delay, bound.marker.Free l) ∧
      ∀ l ∈ linesBehind bound bounds delay, bound.marker.Free l := by
  -- Two lines may be remarks and one has either of two targets, depending on the delay.
  have hremark : ∀ remark ∈ ["", "REM "],
      bound.marker.Free ("210 " ++ remark ++ " PRINT @53:\"AAAA\"").toList ∧
      bound.marker.Free ("220 " ++ remark ++ " CALL \"!PAUSE\"," ++ delay.text).toList := by
    intro remark hremark
    rcases List.mem_pair.mp hremark with rfl | rfl
    · exact ⟨by cases bound <;> decide, free_of_sign_end (by cases bound <;> decide)⟩
    · exact ⟨by cases bound <;> decide, free_of_sign_end (by cases bound <;> decide)⟩
  have htarget : ∀ target ∈ ["210", "260"],
      bound.marker.Free ("180 IF S$=\"X\" THEN " ++ target).toList := by
    cases bound <;> decide
  generalize hauto : Binary64.lt 0 delay = automated
  have h1 : (if automated then "" else "REM ") ∈ ["", "REM "] := by cases automated <;> decide
  have h2 : (if automated then "210" else "260") ∈ ["210", "260"] := by cases automated <;> decide
  simp only [linesBefore, linesBehind, playerLines, hauto]
  cases bound with
  | first =>
    simp only [PlayerBound.row, List.take, List.drop, List.map_cons, List.map_nil,
      List.forall_mem_cons]
    refine ⟨⟨by decide, by decide, by decide, by decide, by simp⟩,
      by decide, free_of_sign (by decide) (by decide), by decide, by decide, by decide,
      htarget _ h2, by decide, by decide, (hremark _ h1).1, (hremark _ h1).2, by decide, by decide,
      by decide, by decide, by decide, by decide, by simp⟩
  | last =>
    simp only [PlayerBound.row, List.take, List.drop, List.map_cons, List.map_nil,
      List.forall_mem_cons]
    refine ⟨⟨by decide, by decide, by decide, by decide, free_of_sign_end (by decide), by decide,
      by simp⟩, by decide, by decide, by decide,
      htarget _ h2, by decide, by decide, (hremark _ h1).1, (hremark _ h1).2, by decide, by decide,
      by decide, by decide, by decide, by decide, by simp⟩

end Lines

section Numbers

variable {bound : PlayerBound} {bounds : FrameBounds} {k : Nat}

/-- The line that holds a number starts with the marked number. -/
theorem PlayerBound.splitMarked?_line (hk : k < Binary64.exactBound) :
    ∃ line rest, bound.marker.splitMarked? (bound.line (Binary64.ofNat k).text.toList) =
        some (line, (Binary64.ofNat k).text.toList, rest) ∧ bound.marker.Free rest ∧
      ∀ number, bound.line number =
        line ++ (bound.marker.before ++ (number ++ (bound.marker.after ++ rest))) := by
  have hne : (Binary64.ofNat k).text.toList ≠ [] := by
    rw [Binary64.text_ofNat hk]
    exact Nat.toDigits_ne_nil
  have hdigits : ∀ c ∈ (Binary64.ofNat k).text.toList, c.isDigit = true := by
    rw [Binary64.text_ofNat hk]
    exact isDigit_toDigits k
  -- What stands in front of a number, and behind the one that does not end its line, is a space.
  have hspace : ∀ c ∈ some ' ', c.isDigit = false := by
    rintro c hc
    rw [← Option.some.inj hc]
    decide
  cases bound with
  | first =>
    refine ⟨"120".toList, [], ?_, by decide, fun _ => rfl⟩
    exact Marker.splitMarked?_marked (by decide) (forall_mem_of_all (by decide)) hspace hne hdigits
      fun c hc => absurd hc (Option.not_mem_none c)
  | last =>
    refine ⟨"140".toList, "N 240".toList, ?_, by decide, fun _ => rfl⟩
    exact Marker.splitMarked?_marked (by decide) (forall_mem_of_all (by decide)) hspace hne hdigits
      hspace

/-- A natural number that is written into a program is the one that is marked there. -/
theorem numbers_playerText (bound : PlayerBound) (delay : Binary64) (hk : k < Binary64.exactBound)
    (h : bounds.written bound = .ofNat k) :
    bound.marker.numbers (playerText bounds delay) = [Nat.toDigits 10 k] := by
  obtain ⟨line, rest, hmarked, hrest, -⟩ := bound.splitMarked?_line hk
  obtain ⟨hbefore, hbehind⟩ := free_others bound bounds delay
  rw [playerText_split bound, Marker.numbers_of_line bound.marker_oneLine hbefore hbehind, h,
    Marker.numbers, Marker.parts_of_some hmarked, Binary64.text_ofNat hk]
  exact congrArg (Nat.toDigits 10 k :: ·) hrest.numbers_eq

/-- Where a natural number is written into a program, any text can take its place. -/
theorem replace_playerText (bound : PlayerBound) (delay : Binary64) (hk : k < Binary64.exactBound)
    (h : bounds.written bound = .ofNat k) (text : List Char) :
    bound.marker.replace text (playerText bounds delay) = ['\r'].intercalate
      (linesBefore bound bounds delay ++ bound.line text :: linesBehind bound bounds delay) := by
  obtain ⟨line, rest, hmarked, hrest, hline⟩ := bound.splitMarked?_line hk
  obtain ⟨hbefore, hbehind⟩ := free_others bound bounds delay
  have hreplace : bound.marker.replace text (bound.line (Binary64.ofNat k).text.toList) =
      bound.line text := by
    rw [Marker.replace, Marker.parts_of_some hmarked, List.flatMap_cons, hline text]
    have hrest' := hrest.replace_eq text
    rw [Marker.replace] at hrest'
    rw [hrest']
    simp only [List.append_assoc]
  rw [playerText_split bound, Marker.replace_of_line bound.marker_oneLine hbefore hbehind, h,
    hreplace]

end Numbers

section Latin1

/-- A text whose characters have codes of one byte. -/
def OneByte (cs : List Char) : Prop :=
  ∀ c ∈ cs, c.toNat < 256

instance (cs : List Char) : Decidable (OneByte cs) :=
  List.decidableBAll (fun c : Char => c.toNat < 256) cs

theorem oneByte_append {cs ds : List Char} : OneByte (cs ++ ds) ↔ OneByte cs ∧ OneByte ds :=
  List.forall_mem_append

/-- Characters of one byte survive encoding. -/
theorem decodeLatin1_encodeLatin1 {cs : List Char} (h : OneByte cs) :
    decodeLatin1 (encodeLatin1 cs) = cs := by
  rw [decodeLatin1, encodeLatin1, List.map_map]
  refine (List.map_congr_left fun c hc => ?_).trans (List.map_id cs)
  have hbyte : c.toNat.toUInt8.toNat = c.toNat := Nat.mod_eq_of_lt (h c hc)
  rw [Function.comp_apply, hbyte, Char.ofNat_toNat, id]

/-- A text of lines of one-byte characters has such characters only. -/
theorem oneByte_intercalate {sep : List Char} {ls : List (List Char)} (hsep : OneByte sep)
    (hls : ∀ l ∈ ls, OneByte l) : OneByte (sep.intercalate ls) := by
  induction ls with
  | nil => exact List.forall_mem_nil _
  | cons l ls ih =>
    rw [List.forall_mem_cons] at hls
    cases ls with
    | nil =>
      rw [List.intercalate_singleton]
      exact hls.1
    | cons l' ls =>
      rw [List.intercalate_cons_cons, oneByte_append, oneByte_append]
      exact ⟨⟨hls.1, hsep⟩, ih hls.2⟩

/-- A program has characters of one byte only. -/
theorem oneByte_playerText (bounds : FrameBounds) (delay : Binary64) :
    OneByte (playerText bounds delay) := by
  have hnumber : ∀ a : Binary64, OneByte a.text.toList := by
    intro a c hc
    have hlt := (a.plain_text c hc).toNat_lt
    omega
  have hremark : OneByte (if Binary64.lt 0 delay then "" else "REM ").toList := by
    split <;> decide
  have htarget : OneByte (if Binary64.lt 0 delay then "210" else "260").toList := by
    split <;> decide
  rw [playerText_eq]
  refine oneByte_intercalate (by decide) ?_
  simp only [playerLines, List.map_cons, List.map_nil, List.forall_mem_cons, String.toList_append,
    oneByte_append]
  exact ⟨by decide, by decide, by decide, by decide, ⟨by decide, hnumber _⟩, by decide,
    ⟨⟨by decide, hnumber _⟩, by decide⟩, by decide, by decide, by decide, ⟨by decide, htarget⟩,
    by decide, by decide, ⟨⟨by decide, hremark⟩, by decide⟩,
    ⟨⟨⟨by decide, hremark⟩, by decide⟩, hnumber _⟩, by decide, by decide, by decide, by decide,
    by decide, by decide, by simp⟩

end Latin1

section Length

/-- The length of lines that are put together with line ends. -/
theorem length_intercalate_le (ls : List (List Char)) :
    (['\r'].intercalate ls).length ≤ ls.flatten.length + ls.length := by
  induction ls with
  | nil => exact Nat.le_refl _
  | cons l ls ih =>
    rw [List.flatten_cons, List.length_append, List.length_cons]
    cases ls with
    | nil =>
      rw [List.intercalate_singleton]
      omega
    | cons l' ls =>
      rw [List.intercalate_cons_cons, List.length_append, List.length_append,
        List.length_singleton]
      omega

/-- The program for numbers of the format is not too long. -/
theorem length_build_lt {bounds : FrameBounds} {delay : Binary64}
    (hfirst : (bounds.firstFrame - 1).Valid) (hlast : bounds.lastFrame.Valid)
    (hdelay : delay.Valid) :
    (buildPlayerProgram bounds delay).length < Binary64.exactBound := by
  have hfirstLength := Binary64.length_text_lt hfirst
  have hlastLength := Binary64.length_text_lt hlast
  have hdelayLength := Binary64.length_text_lt hdelay
  have hremark : (if Binary64.lt 0 delay then "" else "REM ").toList.length ≤ 4 := by
    split <;> decide
  have htarget : (if Binary64.lt 0 delay then "210" else "260").toList.length ≤ 3 := by
    split <;> decide
  rw [buildPlayerProgram_eq, encodeLatin1, List.length_map, playerText_eq]
  refine Nat.lt_of_le_of_lt (length_intercalate_le _) ?_
  simp only [playerLines, List.map_cons, List.map_nil, List.flatten_cons, List.flatten_nil,
    String.toList_append, List.length_append, String.reduceToList, List.length_cons,
    List.length_nil, Nat.reduceAdd]
  -- The lengths become variables, so that no text is looked into when they are added up.
  generalize (bounds.firstFrame - 1).text.toList.length = first at hfirstLength ⊢
  generalize bounds.lastFrame.text.toList.length = last at hlastLength ⊢
  generalize delay.text.toList.length = seconds at hdelayLength ⊢
  generalize (if Binary64.lt 0 delay then "" else "REM ").toList.length = remark at hremark ⊢
  generalize (if Binary64.lt 0 delay then "210" else "260").toList.length = target at htarget ⊢
  refine Nat.lt_trans ?_ (by decide : 40000 < Binary64.exactBound)
  grind

end Length

section Build

variable {delay : Binary64}

/-- The text of a program that was built is decoded again. -/
theorem decodeLatin1_build (bounds : FrameBounds) (delay : Binary64) :
    decodeLatin1 (buildPlayerProgram bounds delay) = playerText bounds delay :=
  decodeLatin1_encodeLatin1 (oneByte_playerText bounds delay)

/-- The number in front of the first frame is written into a program. -/
theorem written_first {first : Nat} (last : Binary64) (hpos : 0 < first)
    (hfirst : first ≤ Binary64.exactBound) :
    FrameBounds.written ⟨.ofNat first, last⟩ .first = .ofNat (first - 1) := by
  obtain ⟨k, rfl⟩ := Nat.exists_eq_succ_of_ne_zero (Nat.pos_iff_ne_zero.mp hpos)
  exact Binary64.ofNat_sub_one hfirst

/-- The frames that a program was built for are those that it plays. -/
theorem playerBounds_build {first last : Nat} (hpos : 0 < first)
    (hfirst : first < Binary64.exactBound) (hlast : last < Binary64.exactBound) :
    playerBounds (buildPlayerProgram ⟨.ofNat first, .ofNat last⟩ delay) =
      .ok ⟨.ofNat first, .ofNat last⟩ := by
  have hbefore : first - 1 < Binary64.exactBound := by omega
  rw [playerBounds, decodeLatin1_build, markedNumber, numbers_playerText .first delay hbefore
    (written_first _ hpos (Nat.le_of_lt hfirst)), markedNumber,
    numbers_playerText .last delay hlast rfl]
  show Except.ok (⟨digitsNumber _ + 1, digitsNumber _⟩ : FrameBounds) = _
  rw [digitsNumber_digits (Nat.le_of_lt hbefore), digitsNumber_digits (Nat.le_of_lt hlast),
    Binary64.ofNat_add_one hbefore, Nat.sub_add_cancel hpos]

/-- A program that is set to other frames is the program that would be built for them. -/
theorem setPlayerBounds_build {first last : Nat} (hpos : 0 < first)
    (hfirst : first < Binary64.exactBound) (hlast : last < Binary64.exactBound)
    (bounds : FrameBounds) :
    setPlayerBounds (buildPlayerProgram ⟨.ofNat first, .ofNat last⟩ delay) bounds =
      .ok (buildPlayerProgram bounds delay) := by
  have hbefore : first - 1 < Binary64.exactBound := by omega
  have hwritten := written_first (.ofNat last) hpos (Nat.le_of_lt hfirst)
  -- The number before the first frame is replaced first, then the last one beside the new number.
  have hnew : PlayerBound.first.marker.replace (bounds.firstFrame - 1).text.toList
      (playerText ⟨.ofNat first, .ofNat last⟩ delay) =
      playerText ⟨bounds.firstFrame, .ofNat last⟩ delay := by
    rw [replace_playerText .first delay hbefore hwritten, playerText_split .first]
    rfl
  have hboth : PlayerBound.last.marker.replace bounds.lastFrame.text.toList
      (playerText ⟨bounds.firstFrame, .ofNat last⟩ delay) = playerText bounds delay := by
    rw [replace_playerText .last delay hlast rfl, playerText_split .last bounds]
    rfl
  rw [setPlayerBounds, decodeLatin1_build, markedNumber, numbers_playerText .first delay hbefore
    hwritten, markedNumber, numbers_playerText .last delay hlast rfl]
  show Except.ok (encodeLatin1 _) = _
  rw [hnew, hboth, buildPlayerProgram_eq]

end Build

end Flipbook
