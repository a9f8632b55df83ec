import Flipbook.Proofs.Scene.Insertion
import Flipbook.Proofs.Script.Language
import Flipbook.Proofs.Script.Relocation
import Mathlib.Data.List.TakeWhile

/-!
# The layout of scripts

How a script is laid out does not matter. A line shows its tokens with blanks between them, and with
any blanks and a comment around them; which line feeds and carriage returns end the lines does not
matter either. A line that shows no token only moves the lines behind it down, in what is compiled
and in the problems that name a line.

## Main definitions

* `Spaced`, `LaidOut`: the texts and the lines that show some tokens.

## Main results

* `laidOut_iff`: a line shows its tokens, and no others;
* `compile_layout`: scripts that show the same tokens line by line, and lines without tokens.
-/

namespace Flipbook.Script

section Tokens

/-- A text that shows tokens, with blanks around them and between them. -/
inductive Spaced : List (List Char) → List Char → Prop
  | blank {gap : List Char} (hgap : ∀ c ∈ gap, isBlank c = true) : Spaced [] gap
  | token {gap token rest : List Char} {tokens : List (List Char)}
      (hgap : ∀ c ∈ gap, isBlank c = true) (hne : token ≠ [])
      (htoken : ∀ c ∈ token, isBlank c = false) (hend : ∀ c ∈ rest.head?, isBlank c = true)
      (hrest : Spaced tokens rest) : Spaced (token :: tokens) (gap ++ (token ++ rest))

/-- A line that shows tokens, with or without a comment behind them. -/
inductive LaidOut : List (List Char) → List Char → Prop
  | plain {tokens : List (List Char)} {body : List Char} (hbody : '#' ∉ body)
      (h : Spaced tokens body) : LaidOut tokens body
  | commented {tokens : List (List Char)} {body : List Char} (hbody : '#' ∉ body)
      (h : Spaced tokens body) (comment : List Char) : LaidOut tokens (body ++ '#' :: comment)

variable {c : Char} {gap cs rest line : List Char} {tokens : List (List Char)}

theorem words_cons_of_isBlank (hc : isBlank c = true) : words (c :: cs) = words cs := by
  rw [words, wordsBy, piecesBy, if_pos hc]
  rfl

theorem words_append_of_isBlank (hgap : ∀ c ∈ gap, isBlank c = true) :
    words (gap ++ cs) = words cs := by
  induction gap with
  | nil => rfl
  | cons c gap ih =>
    obtain ⟨hc, hgap⟩ := List.forall_mem_cons.mp hgap
    rw [List.cons_append, words_cons_of_isBlank hc, ih hgap]

/-- A word ends where the text ends or a blank follows. -/
theorem words_append {word : List Char} (hne : word ≠ []) (hword : ∀ c ∈ word, isBlank c = false)
    (hend : ∀ c ∈ rest.head?, isBlank c = true) : words (word ++ rest) = word :: words rest := by
  -- Only pieces that are empty are dropped.
  have hkept (ps : List (List Char)) :
      (word :: ps).filter (fun p => !p.isEmpty) = word :: ps.filter fun p => !p.isEmpty :=
    List.filter_cons_of_pos (by simpa using hne)
  cases rest with
  | nil =>
    rw [List.append_nil, words, wordsBy, piecesBy_of_forall hword, hkept]
    rfl
  | cons c rest =>
    have hc : isBlank c = true := hend c rfl
    rw [words_cons_of_isBlank hc, words, wordsBy, piecesBy_append_cons hword hc, hkept]
    rfl

theorem Spaced.words_eq (h : Spaced tokens cs) : words cs = tokens := by
  induction h with
  | @blank gap hgap =>
    rw [← List.append_nil gap, words_append_of_isBlank hgap]
    rfl
  | token hgap hne htoken hend _ ih =>
    rw [words_append_of_isBlank hgap, words_append hne htoken hend, ih]

theorem Spaced.cons_blank (hc : isBlank c = true) (h : Spaced tokens cs) :
    Spaced tokens (c :: cs) := by
  cases h with
  | blank hgap => exact .blank (List.forall_mem_cons.mpr ⟨hc, hgap⟩)
  | token hgap hne htoken hend hrest =>
    exact .token (List.forall_mem_cons.mpr ⟨hc, hgap⟩) hne htoken hend hrest

/-- Another character in front is a token of its own, or the first one of a longer token. -/
theorem Spaced.cons_solid (hc : isBlank c = false) (h : Spaced tokens cs) :
    ∃ tokens', Spaced tokens' (c :: cs) := by
  have halone (hend : ∀ d ∈ cs.head?, isBlank d = true) : Spaced ([c] :: tokens) (c :: cs) :=
    .token (List.forall_mem_nil _) (List.cons_ne_nil c []) (List.forall_mem_singleton.mpr hc) hend h
  cases h with
  | blank hgap => exact ⟨_, halone fun d hd => hgap d (List.mem_of_mem_head? hd)⟩
  | @token gap token rest tokens hgap hne htoken hend hrest =>
    cases gap with
    | cons d gap =>
      exact ⟨_, halone fun e he => hgap e (Option.some.inj he ▸ List.mem_cons_self)⟩
    | nil =>
      exact ⟨_, .token (List.forall_mem_nil _) (List.cons_ne_nil c token)
        (List.forall_mem_cons.mpr ⟨hc, htoken⟩) hend hrest⟩

theorem exists_spaced (cs : List Char) : ∃ tokens, Spaced tokens cs := by
  induction cs with
  | nil => exact ⟨[], .blank (List.forall_mem_nil _)⟩
  | cons c cs ih =>
    obtain ⟨tokens, h⟩ := ih
    cases hc : isBlank c with
    | true => exact ⟨tokens, h.cons_blank hc⟩
    | false => exact h.cons_solid hc

theorem exists_laidOut (line : List Char) : ∃ tokens, LaidOut tokens line := by
  by_cases hcomment : '#' ∈ line
  · obtain ⟨body, comment, rfl, hbody⟩ := List.eq_append_cons_of_mem hcomment
    obtain ⟨tokens, h⟩ := exists_spaced body
    exact ⟨tokens, .commented hbody h comment⟩
  · obtain ⟨tokens, h⟩ := exists_spaced line
    exact ⟨tokens, .plain hcomment h⟩

theorem LaidOut.lineTokens_eq (h : LaidOut tokens line) :
    lineTokens line = tokens.map String.ofList := by
  have hkept {body : List Char} (hbody : '#' ∉ body) : ∀ c ∈ body, decide (c ≠ '#') = true :=
    fun c hc => decide_eq_true (ne_of_mem_of_not_mem hc hbody)
  cases h with
  | plain hbody h => rw [lineTokens, List.takeWhile_eq_self_iff.mpr (hkept hbody), h.words_eq]
  | commented hbody h comment =>
    rw [lineTokens, List.takeWhile_append_of_pos (hkept hbody),
      List.takeWhile_cons_of_neg (by decide), List.append_nil, h.words_eq]

/-- A line shows its tokens, and no others. -/
theorem laidOut_iff : LaidOut tokens line ↔ lineTokens line = tokens.map String.ofList := by
  constructor
  · exact LaidOut.lineTokens_eq
  · intro htokens
    -- The line shows some tokens, and they are its own.
    obtain ⟨tokens', h⟩ := exists_laidOut line
    have hinjective := List.map_injective_iff.mpr fun _ _ => String.ofList_inj.mp
    rwa [hinjective (htokens.symm.trans h.lineTokens_eq)]

end Tokens

section Lines

variable {cs : List Char} {lines : List (List Char)}

/-- In a text without carriage returns, the pieces between line feeds are the lines. -/
theorem splitLines_of_piecesBy (hreturn : '\r' ∉ cs) (h : piecesBy (· == '\n') cs = lines) :
    SplitLines cs lines := by
  induction cs generalizing lines with
  | nil => exact h ▸ .last List.not_mem_nil
  | cons c cs ih =>
    rw [List.mem_cons, not_or] at hreturn
    obtain ⟨hc, hreturn⟩ := hreturn
    by_cases hfeed : c = '\n'
    · subst hfeed
      exact h ▸ .lf List.not_mem_nil (by simp) (ih hreturn rfl)
    have hmem {l : List Char} (hl : '\n' ∉ l) : '\n' ∉ c :: l :=
      List.not_mem_cons_of_ne_of_not_mem (Ne.symm hfeed) hl
    rw [piecesBy, if_neg (by simpa using hfeed)] at h
    generalize hpieces : piecesBy (· == '\n') cs = pieces at h
    -- The character goes to the front of the first line.
    cases ih hreturn hpieces with
    | last hl => exact h ▸ .last (hmem hl)
    | crlf => simp at hreturn
    | @lf l cs ls hl hcr hrest =>
      have hlast : (c :: l).getLast? ≠ some '\r' := by
        intro hlast
        obtain rfl | hl := List.mem_cons.mp (List.mem_of_getLast? hlast)
        · exact hc rfl
        · exact hreturn (List.mem_append_left _ hl)
      exact h ▸ .lf (hmem hl) hlast hrest

end Lines

section Compiling

variable {α : Type} [Scalar α]

theorem SplitLines.scriptLines_eq {text : String} {lines : List (List Char)}
    (h : SplitLines text.toList lines) : scriptLines text = lines.map lineTokens :=
  map_lineTokens_of_splitLines h

/-- Two lines that show the same tokens. -/
def SameTokens (line line' : List Char) : Prop :=
  ∃ tokens, LaidOut tokens line ∧ LaidOut tokens line'

theorem map_lineTokens_eq {lines lines' : List (List Char)}
    (h : List.Forall₂ SameTokens lines lines') : lines.map lineTokens = lines'.map lineTokens := by
  induction h with
  | nil => rfl
  | cons hline _ ih =>
    obtain ⟨tokens, h, h'⟩ := hline
    rw [List.map_cons, List.map_cons, h.lineTokens_eq, h'.lineTokens_eq, ih]

/-- Lines behind a line without tokens are compiled as before, one line further down. -/
theorem addLines_insert {sourceExists : String → Bool} (front back : List (List String)) :
    let f := makeRoom (front.length + 1)
    Draft.addLines sourceExists ({} : Draft α) 1 (front ++ [] :: back) =
      relocateOutcome f (Draft.relocate f)
        (Draft.addLines sourceExists ({} : Draft α) 1 (front ++ back)) := by
  intro f
  -- The lines in front keep their numbers, and those behind go up by one.
  have hfront : Draft.addLines sourceExists ({} : Draft α) 1 front =
      relocateOutcome f (Draft.relocate f) (Draft.addLines sourceExists ({} : Draft α) 1 front) :=
    Draft.addLines_relocate {} fun i hi => if_pos (by omega)
  have hback (draft : Draft α) :
      (draft.relocate f).addLines sourceExists (1 + front.length + 1) back =
        relocateOutcome f (Draft.relocate f)
          (draft.addLines sourceExists (1 + front.length) back) := by
    refine Draft.addLines_relocate draft fun i hi => ?_
    rw [show f (1 + front.length + i) = 1 + front.length + i + 1 from if_neg (by omega)]
    omega
  rw [Draft.addLines_append, Draft.addLines_append]
  nth_rewrite 1 [hfront]
  cases Draft.addLines sourceExists ({} : Draft α) 1 front with
  | error e => rfl
  | ok draft => exact hback draft

/-- Only the tokens of the lines of a script count, and a line without tokens counts only in the
numbers of the lines from there on. -/
theorem compile_layout (options : Options) (text text' : String) :
    (∀ lines lines', SplitLines text.toList lines → SplitLines text'.toList lines' →
      List.Forall₂ SameTokens lines lines' →
      compile (α := α) options text' = compile options text) ∧
    ∀ front back blank, SplitLines text.toList (front ++ back) →
      SplitLines text'.toList (front ++ blank :: back) → LaidOut [] blank →
      let f := makeRoom (front.length + 1)
      compile (α := α) options text' =
        relocateOutcome f (Timeline.relocate f) (compile options text) := by
  constructor
  · intro lines lines' hlines hlines' hsame
    rw [compile, compile, hlines.scriptLines_eq, hlines'.scriptLines_eq, map_lineTokens_eq hsame]
  · intro front back blank hlines hlines' hblank f
    have hinsert (sourceExists : String → Bool) :=
      @addLines_insert α _ sourceExists (front.map lineTokens) (back.map lineTokens)
    rw [List.length_map] at hinsert
    rw [compile, compile, hlines.scriptLines_eq, hlines'.scriptLines_eq, List.map_append,
      List.map_append, List.map_cons, hblank.lineTokens_eq, List.map_nil, hinsert]
    cases Draft.addLines (options.sourceExists.getD fun _ => true) ({} : Draft α) 1
      (front.map lineTokens ++ back.map lineTokens) with
    | error e => rfl
    | ok draft => exact draft.timeline_relocate options.frameRate

/-- Blanks, a comment and a carriage return around tokens, and a title in front of a header that is
given twice. -/
theorem compile_layout_title :
    compile (α := Float) {} "frames\t2 # count\r\n  element a b" =
        compile {} "frames 2\nelement a b" ∧
      compile (α := Float) {} "# title\nframes 2\nframes 3" =
        .error (.script (.duplicateHeader .frames 2) (some 3)) := by
  have hspread : SplitLines "frames\t2 # count\r\n  element a b".toList
      ["frames\t2 # count".toList, "  element a b".toList] := by
    have h := SplitLines.crlf (l := "frames\t2 # count".toList) (by decide +kernel)
      (.last (l := "  element a b".toList) (by decide +kernel))
    rwa [show _ ++ _ = "frames\t2 # count\r\n  element a b".toList by decide +kernel] at h
  have hplain : SplitLines "frames 2\nelement a b".toList
      ["frames 2".toList, "element a b".toList] :=
    splitLines_of_piecesBy (by decide +kernel) (by decide +kernel)
  have htwice : SplitLines "frames 2\nframes 3".toList ["frames 2".toList, "frames 3".toList] :=
    splitLines_of_piecesBy (by decide +kernel) (by decide +kernel)
  have htitle : SplitLines "# title\nframes 2\nframes 3".toList
      ["# title".toList, "frames 2".toList, "frames 3".toList] :=
    splitLines_of_piecesBy (by decide +kernel) (by decide +kernel)
  constructor
  · refine (compile_layout {} _ _).1 _ _ hplain hspread (.cons ?_ (.cons ?_ .nil))
    · exact ⟨["frames".toList, "2".toList], laidOut_iff.mpr (by decide +kernel),
        laidOut_iff.mpr (by decide +kernel)⟩
    · exact ⟨["element".toList, "a".toList, "b".toList], laidOut_iff.mpr (by decide +kernel),
        laidOut_iff.mpr (by decide +kernel)⟩
  · -- The title moves both headers one line down.
    have h : compile (α := Float) {} "frames 2\nframes 3" =
        .error (.script (.duplicateHeader .frames 1) (some 2)) := by
      decide +kernel
    rw [(compile_layout {} _ _).2 [] _ _ htwice htitle (laidOut_iff.mpr (by decide +kernel)), h]
    rfl

end Compiling

end Flipbook.Script
