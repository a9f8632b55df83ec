import Flipbook.Proofs.Script.Reading
import Flipbook.Proofs.Traverse
import Flipbook.Script.Compile

/-!
# Lines that stand elsewhere

Compiling a script notes the lines that its statements stand on, in the records of the timeline and
in its problems, and only ever hands them on: what a statement means does not depend on its line.
So a script whose lines are numbered otherwise gives the same outcome, up to these numbers.

## Main definitions

* `Problem.relocate`, `Timeline.relocate`, `relocateOutcome`: the lines of an outcome, numbered
  otherwise;
* `Unlocated`: a reading whose problems name no line.

## Main results

* `statement_relocate`: a statement on another line;
* `addLines_relocate`: lines with other numbers;
* `timeline_relocate`: the timeline of a draft with other numbers.
-/

namespace Flipbook

variable {α : Type}

/-- An element that stands on another line. -/
def Element.relocate (f : Nat → Nat) (e : Element α) : Element α :=
  { e with line := f e.line }

/-- A move that stands on another line. -/
def Move.relocate (f : Nat → Nat) (m : Move α) : Move α :=
  { m with line := f m.line }

/-- A drawn line that stands on another line. -/
def LineMark.relocate (f : Nat → Nat) (mark : LineMark α) : LineMark α :=
  { mark with line := f mark.line }

/-- A timeline whose script has its lines numbered otherwise. -/
def Timeline.relocate (f : Nat → Nat) (t : Timeline α) : Timeline α :=
  { t with
    elements := t.elements.map (Element.relocate f)
    moves := t.moves.map (Move.relocate f)
    lines := t.lines.map (LineMark.relocate f) }

namespace Script

variable {β γ : Type} {f : Nat → Nat}

/-- A problem with the lines that it names numbered otherwise. -/
def Problem.relocate (f : Nat → Nat) : Problem → Problem
  | duplicateHeader header firstLine => .duplicateHeader header (f firstLine)
  | alreadyDeclared id firstLine => .alreadyDeclared id (f firstLine)
  | problem => problem

/-- An error of a script with its lines numbered otherwise. -/
def relocateError (f : Nat → Nat) : Error → Error
  | .script problem line => .script (problem.relocate f) (line.map f)
  | e => e

/-- The outcome of a reading with its lines numbered otherwise, given what becomes of a value. -/
def relocateReading (f : Nat → Nat) (g : β → γ) (x : Except Problem β) : Except Problem γ :=
  (x.mapError (Problem.relocate f)).map g

/-- The outcome of compiling with the lines numbered otherwise. -/
def relocateOutcome (f : Nat → Nat) (g : β → γ) (x : Except Error β) : Except Error γ :=
  (x.mapError (relocateError f)).map g

theorem relocateOutcome_eq_ok_iff {g : β → γ} {x : Except Error β} {c : γ} :
    relocateOutcome f g x = .ok c ↔ ∃ b, x = .ok b ∧ g b = c :=
  map_eq_ok_iff.trans (exists_congr fun _ => and_congr_left' mapError_eq_ok_iff)

/-- A reading whose problems name no line. -/
def Unlocated (x : Except Problem β) : Prop :=
  ∀ f, x.mapError (Problem.relocate f) = x

section Unlocated

variable {x y : Except Problem β} {k : β → Except Problem γ}

theorem unlocated_ok (b : β) : Unlocated (.ok b : Except Problem β) :=
  fun _ => rfl

theorem unlocated_error {problem : Problem} (h : ∀ f, problem.relocate f = problem) :
    Unlocated (.error problem : Except Problem β) :=
  fun f => congrArg Except.error (h f)

theorem Unlocated.bind (hx : Unlocated x) (hk : ∀ b, Unlocated (k b)) : Unlocated (x >>= k) := by
  intro f
  cases x with
  | error problem => exact congrArg Except.error (Except.error.inj (hx f))
  | ok b => exact hk b f

theorem Unlocated.map {g : β → γ} (hx : Unlocated x) : Unlocated (g <$> x) := by
  intro f
  cases x with
  | error problem => exact congrArg Except.error (Except.error.inj (hx f))
  | ok b => rfl

theorem Unlocated.ite {p : Prop} [Decidable p] (hx : Unlocated x) (hy : Unlocated y) :
    Unlocated (if p then x else y) := by
  split
  · exact hx
  · exact hy

/-- Only the value of such a reading is left to relocate. -/
theorem Unlocated.relocateReading_eq (hx : Unlocated x) (g : β → γ) :
    relocateReading f g x = x.map g := by
  rw [relocateReading, hx f]

/-- What such a reading leads to is relocated behind it. -/
theorem Unlocated.bind_relocate (hx : Unlocated x) {δ : Type} {g : γ → δ}
    {k' : β → Except Problem δ} (hk : ∀ b, k' b = relocateReading f g (k b)) :
    (x >>= k') = relocateReading f g (x >>= k) := by
  cases x with
  | error problem => exact congrArg Except.error (Except.error.inj (hx f)).symm
  | ok b => exact hk b

end Unlocated

section Tokens

variable {field : Field} {tokens : List String}

theorem unlocated_next : Unlocated (next field tokens) := by
  cases tokens with
  | nil => exact unlocated_error fun _ => rfl
  | cons token tokens => exact unlocated_ok _

theorem unlocated_numeral {value? : Decimal → Option β} :
    Unlocated (numeral value? field tokens) := by
  refine unlocated_next.bind fun ⟨token, rest⟩ => ?_
  dsimp only
  split
  · exact unlocated_error fun _ => rfl
  · split
    · exact unlocated_error fun _ => rfl
    · exact unlocated_ok _

theorem unlocated_integer : Unlocated (integer field tokens) := by
  refine unlocated_next.bind fun ⟨token, rest⟩ => ?_
  dsimp only
  split
  · exact unlocated_error fun _ => rfl
  · exact (unlocated_ok _).ite (unlocated_error fun _ => rfl)

theorem unlocated_range : Unlocated (range field tokens) := by
  refine unlocated_next.bind fun ⟨token, rest⟩ => ?_
  dsimp only
  split
  · exact unlocated_error fun _ => rfl
  · exact (unlocated_error fun _ => rfl).ite ((unlocated_error fun _ => rfl).ite
      ((unlocated_error fun _ => rfl).ite (unlocated_ok _)))

theorem unlocated_identifier : Unlocated (identifier field tokens) :=
  unlocated_next.bind fun _ => (unlocated_ok _).ite (unlocated_error fun _ => rfl)

theorem unlocated_finish : Unlocated (finish tokens) := by
  cases tokens with
  | nil => exact unlocated_ok _
  | cons token tokens => exact unlocated_error fun _ => rfl

end Tokens

section Headers

variable {tokens : List String}

theorem unlocated_frameCount : Unlocated (frameCount tokens) :=
  unlocated_integer.bind fun _ => unlocated_finish.bind fun _ =>
    (unlocated_error fun _ => rfl).ite (unlocated_ok _)

theorem unlocated_frameRate : Unlocated (frameRate tokens) :=
  unlocated_numeral.bind fun _ => unlocated_finish.bind fun _ =>
    (unlocated_ok _).ite (unlocated_error fun _ => rfl)

theorem unlocated_canvasSize : Unlocated (canvasSize tokens) :=
  unlocated_integer.bind fun _ => unlocated_integer.bind fun _ => unlocated_finish.bind fun _ =>
    (unlocated_error fun _ => rfl).ite (unlocated_ok _)

end Headers

section Parts

variable [Scalar α] {scope : Scope} {tokens : List String}

theorem unlocated_number {field : Field} :
    Unlocated (number field tokens : Except Problem (α × List String)) :=
  unlocated_numeral

theorem unlocated_transform? {keyword : String}
    {reading : Except Problem (Transform α × List String)}
    (h : transform? keyword tokens = some reading) : Unlocated reading := by
  unfold transform? at h
  split at h
  · obtain rfl := Option.some.inj h
    exact unlocated_number.bind fun _ => unlocated_number.bind fun _ => unlocated_ok _
  · obtain rfl := Option.some.inj h
    exact unlocated_number.bind fun _ => unlocated_ok _
  · obtain rfl := Option.some.inj h
    exact unlocated_number.bind fun _ =>
      (unlocated_number.bind fun _ => unlocated_ok _).ite (unlocated_ok _)
  · cases h

theorem unlocated_blink : Unlocated (blink tokens : Except Problem (Blink α × List String)) :=
  unlocated_number.bind fun _ => unlocated_number.bind fun _ =>
    (unlocated_number.ite (unlocated_ok _)).bind fun _ =>
      (unlocated_error fun _ => rfl).ite ((unlocated_error fun _ => rfl).ite (unlocated_ok _))

theorem unlocated_elementOption {e : Element α} {keyword : String} :
    Unlocated (elementOption e keyword tokens) := by
  unfold elementOption
  split
  next reading hreading =>
    exact (unlocated_transform? hreading).bind fun _ => unlocated_ok _
  next =>
    split
    · exact unlocated_ok _
    · exact unlocated_range.bind fun _ => unlocated_ok _
    · exact unlocated_blink.bind fun _ => unlocated_ok _
    · exact unlocated_error fun _ => rfl

theorem unlocated_elementOptions {fuel : Nat} {e : Element α} {seen : List String} :
    Unlocated (elementOptions fuel e seen tokens) := by
  induction fuel generalizing e seen tokens with
  | zero =>
    cases tokens with
    | nil => exact unlocated_ok _
    | cons token tokens => exact unlocated_error fun _ => rfl
  | succ fuel ih =>
    cases tokens with
    | nil => exact unlocated_ok _
    | cons keyword tokens =>
      exact (unlocated_error fun _ => rfl).ite (unlocated_elementOption.bind fun _ => ih)

theorem unlocated_transforms {fuel : Nat} {ops : List (Transform α)} :
    Unlocated (transforms fuel ops tokens) := by
  induction fuel generalizing ops tokens with
  | zero =>
    cases tokens with
    | nil => exact unlocated_ok _
    | cons token tokens => exact unlocated_error fun _ => rfl
  | succ fuel ih =>
    cases tokens with
    | nil => exact unlocated_ok _
    | cons keyword tokens =>
      unfold transforms
      split
      · exact unlocated_error fun _ => rfl
      next reading hreading =>
        exact (unlocated_transform? hreading).bind fun _ => (unlocated_error fun _ => rfl).ite ih

theorem unlocated_checkDeclared {field : Field} {id : String} :
    Unlocated (checkDeclared scope field id) :=
  (unlocated_ok _).ite (unlocated_error fun _ => rfl)

theorem unlocated_lineRange : Unlocated (lineRange tokens) :=
  unlocated_range.map.ite (unlocated_ok _)

theorem unlocated_lineOwner : Unlocated (lineOwner scope tokens) := by
  unfold lineOwner
  split
  · exact unlocated_identifier.bind fun _ => unlocated_checkDeclared.bind fun _ => unlocated_ok _
  · exact unlocated_ok _

end Parts

/-- A scope whose lines are numbered otherwise. -/
def Scope.relocate (f : Nat → Nat) (scope : Scope) : Scope where
  line := f scope.line
  declared := fun id => (scope.declared id).map f
  sourceExists := scope.sourceExists

/-- A statement that stands on another line. -/
def Statement.relocate (f : Nat → Nat) : Statement α → Statement α
  | .element e => .element (e.relocate f)
  | .line mark => .line (mark.relocate f)
  | s => s

section Reading

variable [Scalar α] {scope : Scope} {tokens : List String}

/-- Options do not depend on the line. -/
theorem elementOption_relocate (e : Element α) (keyword : String) :
    elementOption (e.relocate f) keyword tokens =
      (elementOption e keyword tokens).map (Prod.map (Element.relocate f) id) := by
  unfold elementOption
  split
  next reading _ => cases reading <;> rfl
  next =>
    split
    · rfl
    · cases range .visible tokens <;> rfl
    · cases (blink tokens : Except Problem (Blink α × List String)) <;> rfl
    · rfl

theorem elementOptions_relocate {fuel : Nat} {e : Element α} {seen : List String} :
    elementOptions fuel (e.relocate f) seen tokens =
      (elementOptions fuel e seen tokens).map (Element.relocate f) := by
  induction fuel generalizing e seen tokens with
  | zero => cases tokens <;> rfl
  | succ fuel ih =>
    cases tokens with
    | nil => rfl
    | cons keyword tokens =>
      rw [elementOptions, elementOptions, elementOption_relocate]
      split
      · rfl
      · cases elementOption e keyword tokens with
        | error problem => rfl
        | ok next => exact ih

/-- The one problem that names the line of an earlier declaration is that of a name that is declared
twice. -/
theorem element_relocate :
    element (scope.relocate f) tokens =
      relocateReading f (Element.relocate f)
        (element scope tokens : Except Problem (Element α)) := by
  refine unlocated_identifier.bind_relocate fun ⟨id, tokens⟩ => ?_
  refine unlocated_next.bind_relocate fun ⟨source, tokens⟩ => ?_
  dsimp only
  have hdeclared : (scope.relocate f).declared id = (scope.declared id).map f := rfl
  have hexists : (scope.relocate f).sourceExists source = scope.sourceExists source := rfl
  rw [hdeclared, hexists]
  cases scope.declared id with
  | some line => rfl
  | none =>
    dsimp only [Option.map_none]
    split
    · rw [unlocated_elementOptions.relocateReading_eq]
      exact elementOptions_relocate (e := ⟨id, source, Pose.neutral, true, none, none, scope.line⟩)
    · rfl

theorem checkDeclared_relocate (field : Field) (id : String) :
    checkDeclared (scope.relocate f) field id = checkDeclared scope field id := by
  rw [checkDeclared, checkDeclared, Scope.relocate, Option.isSome_map]

/-- A move gets its line only when it is added to a draft. -/
theorem move_relocate :
    move (scope.relocate f) tokens = relocateReading f (Statement.relocate f)
      (move scope tokens : Except Problem (Statement α)) := by
  refine unlocated_identifier.bind_relocate fun ⟨id, tokens⟩ => ?_
  refine unlocated_range.bind_relocate fun ⟨frames, tokens⟩ => ?_
  dsimp only
  rw [checkDeclared_relocate]
  refine unlocated_checkDeclared.bind_relocate fun _ => ?_
  refine unlocated_transforms.bind_relocate fun ops => ?_
  cases ops <;> rfl

theorem lineOwner_relocate : lineOwner (scope.relocate f) tokens = lineOwner scope tokens := by
  unfold lineOwner
  simp only [checkDeclared_relocate]

theorem line_relocate :
    line (scope.relocate f) tokens = relocateReading f (LineMark.relocate f)
      (line scope tokens : Except Problem (LineMark α)) := by
  refine unlocated_lineRange.bind_relocate fun ⟨frames, tokens⟩ => ?_
  refine unlocated_number.bind_relocate fun ⟨x₁, tokens⟩ => ?_
  refine unlocated_number.bind_relocate fun ⟨y₁, tokens⟩ => ?_
  refine unlocated_number.bind_relocate fun ⟨x₂, tokens⟩ => ?_
  refine unlocated_number.bind_relocate fun ⟨y₂, tokens⟩ => ?_
  dsimp only
  rw [lineOwner_relocate]
  refine unlocated_lineOwner.bind_relocate fun ⟨owner, tokens⟩ => ?_
  exact unlocated_finish.bind_relocate fun _ => rfl

/-- A statement on another line. -/
theorem statement_relocate :
    statement (scope.relocate f) tokens = relocateReading f (Statement.relocate f)
      (statement scope tokens : Except Problem (Statement α)) := by
  refine unlocated_next.bind_relocate fun ⟨keyword, tokens⟩ => ?_
  dsimp only
  split
  · rw [unlocated_frameCount.map.relocateReading_eq]
    cases frameCount tokens <;> rfl
  · rw [unlocated_frameRate.map.relocateReading_eq]
    cases frameRate tokens <;> rfl
  · rw [unlocated_canvasSize.map.relocateReading_eq]
    cases canvasSize tokens <;> rfl
  · rw [element_relocate]
    cases (element scope tokens : Except Problem (Element α)) <;> rfl
  · exact move_relocate
  · rw [line_relocate]
    cases (line scope tokens : Except Problem (LineMark α)) <;> rfl
  · rfl

end Reading

/-- A header that is set on another line. -/
def Setting.relocate (f : Nat → Nat) (setting : Setting β) : Setting β :=
  { setting with line := f setting.line }

/-- A draft whose lines are numbered otherwise. -/
def Draft.relocate (f : Nat → Nat) (draft : Draft α) : Draft α where
  frames := draft.frames.map (Setting.relocate f)
  fps := draft.fps.map (Setting.relocate f)
  canvas := draft.canvas.map (Setting.relocate f)
  elements := draft.elements.map (Element.relocate f)
  moves := draft.moves.map (Move.relocate f)
  lines := draft.lines.map (LineMark.relocate f)
  ranges := draft.ranges.map (Prod.map id f)

namespace Draft

theorem declared_relocate (draft : Draft α) (id : String) :
    (draft.relocate f).declared id = (draft.declared id).map f := by
  rw [declared, declared, relocate, List.find?_map, Option.map_map, Option.map_map]
  rfl

theorem note_relocate (draft : Draft α) (range : Option FrameRange) (line : Nat) :
    (draft.relocate f).note range (f line) = (draft.note range line).map (Prod.map id f) := by
  rw [note, note, List.map_append, List.map_map]
  rfl

/-- A statement is added on another line. -/
theorem add_relocate (draft : Draft α) (line : Nat) (s : Statement α) :
    (draft.relocate f).add (f line) (s.relocate f) =
      relocateReading f (Draft.relocate f) (draft.add line s) := by
  cases s with
  | frames count =>
    show (Setting.set .frames (draft.frames.map (Setting.relocate f)) count (f line) >>= _) =
      relocateReading f (Draft.relocate f) (Setting.set .frames draft.frames count line >>= _)
    cases draft.frames <;> rfl
  | fps rate =>
    show (Setting.set .fps (draft.fps.map (Setting.relocate f)) rate (f line) >>= _) =
      relocateReading f (Draft.relocate f) (Setting.set .fps draft.fps rate line >>= _)
    cases draft.fps <;> rfl
  | canvas size =>
    show (Setting.set .canvas (draft.canvas.map (Setting.relocate f)) size (f line) >>= _) =
      relocateReading f (Draft.relocate f) (Setting.set .canvas draft.canvas size line >>= _)
    cases draft.canvas <;> rfl
  | element e =>
    refine congrArg Except.ok ?_
    simp only [relocate, List.map_append, List.map_singleton, ← note_relocate]
    rfl
  | move elementId range ops =>
    refine congrArg Except.ok ?_
    simp only [relocate, List.map_append, List.map_singleton, ← note_relocate, List.length_map]
    rfl
  | line mark =>
    refine congrArg Except.ok ?_
    simp only [relocate, List.map_append, List.map_singleton, ← note_relocate]
    rfl

section Lines

variable [Scalar α] {sourceExists : String → Bool}

theorem addLine_relocate (draft : Draft α) (line : Nat) (tokens : List String) :
    (draft.relocate f).addLine sourceExists (f line) tokens =
      relocateReading f (Draft.relocate f) (draft.addLine sourceExists line tokens) := by
  cases tokens with
  | nil => rfl
  | cons token tokens =>
    -- Names are declared on the lines with the other numbers.
    have hscope : (⟨f line, (draft.relocate f).declared, sourceExists⟩ : Scope) =
        Scope.relocate f ⟨line, draft.declared, sourceExists⟩ := by
      rw [Scope.relocate, funext (declared_relocate draft)]
    show (statement ⟨f line, (draft.relocate f).declared, sourceExists⟩ (token :: tokens) >>=
        (draft.relocate f).add (f line)) = relocateReading f (Draft.relocate f)
      (statement ⟨line, draft.declared, sourceExists⟩ (token :: tokens) >>= draft.add line)
    rw [hscope, statement_relocate]
    cases (statement ⟨line, draft.declared, sourceExists⟩ (token :: tokens) :
      Except Problem (Statement α)) with
    | error problem => rfl
    | ok s => exact add_relocate draft line s

/-- Lines with other numbers, which count up as before. -/
theorem addLines_relocate (draft : Draft α) {m n : Nat} {lines : List (List String)}
    (hf : ∀ i < lines.length, f (m + i) = n + i) :
    (draft.relocate f).addLines sourceExists n lines =
      relocateOutcome f (Draft.relocate f) (draft.addLines sourceExists m lines) := by
  induction lines generalizing draft m n with
  | nil => rfl
  | cons tokens lines ih =>
    obtain rfl : f m = n := hf 0 (Nat.zero_lt_succ _)
    rw [addLines, addLines, addLine_relocate]
    cases draft.addLine sourceExists m tokens with
    | error problem => rfl
    | ok draft =>
      refine ih draft fun i hi => ?_
      have hnext := hf (i + 1) (Nat.succ_lt_succ hi)
      rwa [← Nat.add_assoc, Nat.add_right_comm, ← Nat.add_assoc, Nat.add_right_comm _ i] at hnext

theorem addLines_append (draft : Draft α) (n : Nat) (front back : List (List String)) :
    draft.addLines sourceExists n (front ++ back) =
      draft.addLines sourceExists n front >>= fun draft =>
        draft.addLines sourceExists (n + front.length) back := by
  induction front generalizing draft n with
  | nil => rfl
  | cons tokens front ih =>
    rw [List.cons_append, addLines, addLines]
    cases draft.addLine sourceExists n tokens with
    | error problem => rfl
    | ok draft =>
      rw [List.length_cons, Nat.add_comm front.length, ← Nat.add_assoc]
      exact ih draft (n + 1)

end Lines

/-- The timeline of a draft with other numbers. -/
theorem timeline_relocate (draft : Draft α) (rate : Option Binary64) :
    (draft.relocate f).timeline rate =
      relocateOutcome f (Timeline.relocate f) (draft.timeline rate) := by
  -- Only values are read, and the line of the first range that is too long.
  have hranges (total : Nat) :
      (draft.relocate f).ranges.find? (fun r => total < r.1.last) =
        (draft.ranges.find? fun r => total < r.1.last).map (Prod.map id f) := by
    rw [relocate, List.find?_map]
    rfl
  have hfps : (draft.relocate f).fps.map Setting.value = draft.fps.map Setting.value := by
    rw [relocate, Option.map_map]
    rfl
  have hcanvas : (draft.relocate f).canvas.map Setting.value = draft.canvas.map Setting.value := by
    rw [relocate, Option.map_map]
    rfl
  cases hframes : draft.frames with
  | none =>
    have hnone : (draft.relocate f).frames = none := by rw [relocate, hframes, Option.map_none]
    rw [timeline, timeline, hframes, hnone]
    rfl
  | some frames =>
    have hsome : (draft.relocate f).frames = some (frames.relocate f) := by
      rw [relocate, hframes, Option.map_some]
    have hvalue : (frames.relocate f).value = frames.value := rfl
    rw [timeline, timeline, hframes, hsome]
    dsimp only
    rw [hvalue, hranges, hfps, hcanvas]
    cases draft.ranges.find? fun r => frames.value < r.1.last with
    | some r => rfl
    | none =>
      dsimp only [Option.map_none]
      split <;> rfl

end Draft

end Script

end Flipbook
