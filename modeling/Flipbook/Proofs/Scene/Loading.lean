import Flipbook.Proofs.Traverse
import Flipbook.Scene.Flatten

/-!
# Loading drawings

The drawings of a timeline are asked for one by one, each once, in the order in which the elements
first use them. The first one that cannot be had ends this. Otherwise the library has all that any
frame refers to, whichever elements are visible in it, so that every scene can be flattened.

## Main definitions

* `Timeline.sources`: the names of the drawings, each once;
* `Library.Yields`: some calls of the loader, all of which succeed;
* `Library.PassedOn`: what should become of a failure of the loader;
* `LoadReport.Orderly`: in what order the loader is asked, and what comes of it;
* `Drawable.DrawnAs`: the strokes of something to be drawn.

## Main results

* `Library.loadAll_cases`: all drawings are had, or all up to one that is not;
* `Library.load_supplies_scenes`: loading is orderly, and what was loaded is enough for all scenes.
-/

namespace Flipbook

section Names

variable {β : Type} [BEq β] [LawfulBEq β] {xs : List β} {a b : β}

/-- Of two items that are kept, the one that is found first among the kept ones is found first. -/
theorem idxOf_lt_idxOf_of_filter {p : β → Bool} (ha : p a = true) (hb : p b = true)
    (h : (xs.filter p).idxOf a < (xs.filter p).idxOf b) : xs.idxOf a < xs.idxOf b := by
  induction xs with
  | nil => exact h
  | cons x xs ih =>
    have hne {c : β} (hc : p c = true) (hx : ¬p x = true) : (x == c) = false :=
      beq_eq_false_iff_ne.mpr fun heq => hx (heq ▸ hc)
    by_cases hx : p x = true
    · rw [List.filter_cons_of_pos hx, List.idxOf_cons, List.idxOf_cons] at h
      rw [List.idxOf_cons, List.idxOf_cons]
      cases hxb : x == b with
      | true => simp [hxb] at h
      | false =>
        cases hxa : x == a with
        | true => exact Nat.succ_pos _
        | false => exact Nat.succ_lt_succ (ih (by simpa [hxa, hxb] using h))
    · rw [List.filter_cons_of_neg hx] at h
      rw [List.idxOf_cons, List.idxOf_cons, hne ha hx, hne hb hx]
      exact Nat.succ_lt_succ (ih h)

/-- Without repetitions, items stand in the order in which they are found. -/
theorem pairwise_idxOf_eraseDups (xs : List β) :
    xs.eraseDups.Pairwise fun a b => xs.idxOf a < xs.idxOf b := by
  induction hlength : xs.length using Nat.strongRecOn generalizing xs with
  | _ n ih =>
    cases xs with
    | nil => exact .nil
    | cons x xs =>
      have hless : (xs.filter fun y => !y == x).length < n :=
        Nat.lt_of_le_of_lt (List.length_filter_le _ _) (hlength ▸ Nat.lt_succ_self _)
      have hother {c : β} (hc : c ∈ (xs.filter fun y => !y == x).eraseDups) : (!c == x) = true :=
        (List.mem_filter.mp (List.mem_eraseDups.mp hc)).2
      have hbehind {c : β} (hc : (!c == x) = true) : (x :: xs).idxOf c = xs.idxOf c + 1 := by
        have hne : (x == c) = false := by
          rw [BEq.comm]
          simpa using hc
        rw [List.idxOf_cons, hne, cond_false]
      rw [List.eraseDups_cons, List.pairwise_cons]
      refine ⟨fun b hb => ?_, ?_⟩
      · rw [List.idxOf_cons_self, hbehind (hother hb)]
        exact Nat.succ_pos _
      · refine (ih _ hless _ rfl).imp_of_mem fun {a b} ha hb h => ?_
        rw [hbehind (hother ha), hbehind (hother hb)]
        exact Nat.succ_lt_succ (idxOf_lt_idxOf_of_filter (hother ha) (hother hb) h)

end Names

variable {α : Type}

/-- The names of the drawings that a timeline uses, each once, in the order of their first use. -/
def Timeline.sources (timeline : Timeline α) : List String :=
  (timeline.elements.map Element.source).eraseDups

/-! ## Calls of the loader -/

namespace Library

/-- From one call of the loader on, the calls yield these drawings. -/
def Yields (loader : Nat → String → Except Error (Drawing α)) (call : Nat)
    (drawings : List (String × Drawing α)) : Prop :=
  ∀ i d, drawings[i]? = some d → loader (call + i) d.1 = .ok d.2

variable {loader : Nat → String → Except Error (Drawing α)} {library : Library α}

theorem Yields.cons {call : Nat} {source : String} {drawing : Drawing α}
    {drawings : List (String × Drawing α)} (hfirst : loader call source = .ok drawing)
    (h : Yields loader (call + 1) drawings) :
    Yields loader call ((source, drawing) :: drawings) := by
  intro i d hd
  cases i with
  | zero =>
    obtain rfl := Option.some.inj hd
    exact hfirst
  | succ i =>
    have hcall : call + 1 + i = call + (i + 1) := by omega
    rw [← hcall]
    exact h i d hd

theorem Yields.of_getElem? {drawings : List (String × Drawing α)} (h : Yields loader 0 drawings)
    {i : Nat} {name : String} (hi : (drawings.map Prod.fst)[i]? = some name) :
    ∃ drawing, drawings[i]? = some (name, drawing) ∧ loader i name = .ok drawing := by
  rw [List.getElem?_map, Option.map_eq_some_iff] at hi
  obtain ⟨⟨name, drawing⟩, hat, rfl⟩ := hi
  have hcall := h i _ hat
  rw [Nat.zero_add] at hcall
  exact ⟨drawing, hat, hcall⟩

/-- A drawing that is added is in the library from then on, and no other one is. -/
theorem isNone_find?_concat (source other : String) (drawing : Drawing α) :
    ((⟨library.drawings ++ [(source, drawing)]⟩ : Library α).find? other).isNone =
      (!other == source && (library.find? other).isNone) := by
  simp only [find?, List.find?_append, Option.isNone_map]
  by_cases h : source = other
  · simp [h]
  · simp [h, Ne.symm h]

/-- Either all drawings that are not in the library are had, each by one call; or all are up to one
that is not, and no call follows. -/
theorem loadAll_cases (loader : Nat → String → Except Error (Drawing α)) (library : Library α)
    (sources : List String) :
    let names := (sources.filter fun s => (library.find? s).isNone).eraseDups
    let report := loadAll loader library sources
    (∃ drawings, names = drawings.map Prod.fst ∧ Yields loader library.size drawings ∧
        report.asked = names ∧ report.result = .ok ⟨library.drawings ++ drawings⟩) ∨
      ∃ drawings name later e, names = drawings.map Prod.fst ++ name :: later ∧
        Yields loader library.size drawings ∧
        loader (library.size + drawings.length) name = .error e ∧
        report.asked = drawings.map Prod.fst ++ [name] ∧
        report.result = .error (loadError name e) := by
  induction sources generalizing library with
  | nil => exact .inl ⟨[], rfl, nofun, rfl, by rw [List.append_nil]; rfl⟩
  | cons source rest ih =>
    dsimp only at ih ⊢
    unfold loadAll
    cases hknown : library.find? source with
    | some drawing =>
      rw [List.filter_cons_of_neg (by simp [hknown])]
      exact ih library
    | none =>
      rw [List.filter_cons_of_pos (by simp [hknown]), List.eraseDups_cons, List.filter_filter]
      cases hcall : loader library.size source with
      | error e => exact .inr ⟨[], source, _, e, rfl, nofun, hcall, rfl, rfl⟩
      | ok drawing =>
        -- What is new to the library now is what was new before, but for this drawing.
        have hnew := ih ⟨library.drawings ++ [(source, drawing)]⟩
        have hsize : (⟨library.drawings ++ [(source, drawing)]⟩ : Library α).size =
            library.size + 1 := List.length_append
        simp only [isNone_find?_concat, hsize] at hnew
        rcases hnew with ⟨drawings, hnames, hyields, hasked, hresult⟩ |
          ⟨drawings, name, later, e, hnames, hyields, hfails, hasked, hresult⟩
        · refine .inl ⟨(source, drawing) :: drawings, ?_, hyields.cons hcall, ?_, ?_⟩
          · rw [hnames, List.map_cons]
          · exact congrArg (source :: ·) hasked
          · rw [List.append_assoc] at hresult
            exact hresult
        · refine .inr ⟨(source, drawing) :: drawings, name, later, e, ?_, hyields.cons hcall, ?_,
            ?_, hresult⟩
          · rw [hnames, List.map_cons, List.cons_append]
          · rw [List.length_cons, ← hfails]
            congr 1
            omega
          · exact congrArg (source :: ·) hasked

/-- Either all drawings of a timeline are had, each by one call; or all are up to one that is not,
and no call follows. -/
theorem loadCalls_cases (timeline : Timeline α)
    (loader : Nat → String → Except Error (Drawing α)) :
    (∃ drawings, timeline.sources = drawings.map Prod.fst ∧ Yields loader 0 drawings ∧
        (loadCalls timeline loader).asked = timeline.sources ∧
        (loadCalls timeline loader).result = .ok ⟨drawings⟩) ∨
      ∃ drawings name later e, timeline.sources = drawings.map Prod.fst ++ name :: later ∧
        Yields loader 0 drawings ∧ loader drawings.length name = .error e ∧
        (loadCalls timeline loader).asked = drawings.map Prod.fst ++ [name] ∧
        (loadCalls timeline loader).result = .error (loadError name e) := by
  -- Nothing is in the library yet.
  have hnames : ((timeline.elements.map Element.source).filter fun s =>
      ((⟨[]⟩ : Library α).find? s).isNone).eraseDups = timeline.sources :=
    congrArg List.eraseDups (List.filter_eq_self.mpr fun _ _ => rfl)
  have hcases := loadAll_cases loader ⟨[]⟩ (timeline.elements.map Element.source)
  simp only [hnames, size, List.length_nil, Nat.zero_add, List.nil_append] at hcases
  exact hcases

/-- In a library without repeated names every drawing is found by its name. -/
theorem get_of_nodup {drawings : List (String × Drawing α)} (h : (drawings.map Prod.fst).Nodup)
    {i : Nat} {d : String × Drawing α} (hd : drawings[i]? = some d) :
    (⟨drawings⟩ : Library α).get d.1 = .ok d.2 := by
  have hfound : drawings.find? (fun x => x.1 = d.1) = some d := by
    induction drawings generalizing i with
    | nil => cases hd
    | cons x drawings ih =>
      obtain ⟨hx, hrest⟩ := List.nodup_cons.mp h
      cases i with
      | zero =>
        obtain rfl := Option.some.inj hd
        exact List.find?_cons_of_pos (decide_eq_true rfl)
      | succ i =>
        have hmem : d.1 ∈ drawings.map Prod.fst := List.mem_map_of_mem (List.mem_of_getElem? hd)
        have hne : x.1 ≠ d.1 := fun heq => hx (heq ▸ hmem)
        rw [List.find?_cons_of_neg (by simpa using hne)]
        exact ih hrest hd
  rw [get, find?, hfound]
  rfl

/-- A failure of the loader is passed on as it should be: a source error as it is, and any other one
with its text and the name of the drawing. -/
def PassedOn (name : String) (raised e : Error) : Prop :=
  (∃ c, raised = .source c ∧ e = raised) ∨
    (∀ c, raised ≠ .source c) ∧ ∃ text, raised.describe = .ok text ∧
      e = .source (.notLoadable name text)

/-- What is raised has a text, unless it is a value without one. -/
theorem describe_eq {raised : Error} (h : ∀ instead, raised ≠ .textless instead) :
    raised.describe = .ok raised.message := by
  rw [Error.describe]
  exact h

/-- A failure of the loader is passed on as it should be, just if it has a text. Otherwise what is
raised for that text comes in its place. -/
theorem loadError_cases (name : String) (raised : Error) :
    (PassedOn name raised (loadError name raised) ↔ ∀ instead, raised ≠ .textless instead) ∧
      ∀ instead, raised = .textless instead → loadError name raised = instead := by
  by_cases htextless : ∃ instead, raised = .textless instead
  · obtain ⟨instead, rfl⟩ := htextless
    refine ⟨⟨?_, fun h => absurd rfl (h instead)⟩, ?_⟩
    · rintro (⟨c, hc, -⟩ | ⟨-, text, htext, -⟩)
      · cases hc
      · cases htext
    · rintro _ ⟨⟩
      rfl
  · have htext : ∀ instead, raised ≠ .textless instead := fun instead h => htextless ⟨instead, h⟩
    refine ⟨⟨fun _ => htext, fun _ => ?_⟩, fun instead h => absurd h (htext instead)⟩
    by_cases hsource : ∃ c, raised = .source c
    · obtain ⟨c, rfl⟩ := hsource
      exact .inl ⟨c, rfl, rfl⟩
    · have hother : ∀ c, raised ≠ .source c := fun c h => hsource ⟨c, h⟩
      refine .inr ⟨hother, _, describe_eq htext, ?_⟩
      rw [loadError, describe_eq htext]
      exact hother

end Library

/-- How a loader is asked for names, and what comes of it. -/
structure LoadReport.Orderly (loader : Nat → String → Except Error (Drawing α))
    (names : List String) (report : LoadReport α) : Prop where
  /-- The names are asked for in their order, up to one of them. -/
  asked : report.asked <+: names
  /-- A call that another one follows yields a drawing. -/
  goesOn : ∀ i name, report.asked[i]? = some name → i + 1 < report.asked.length →
    ∃ drawing, loader i name = .ok drawing
  /-- Loading fails just if a call does. -/
  fails_iff : (∃ e, report.result = .error e) ↔
    ∃ i name e, report.asked[i]? = some name ∧ loader i name = .error e
  /-- It fails with what the call raised. That is passed on as it should be just if it has a text,
  and otherwise what is raised for that text comes in its place. -/
  error : ∀ e, report.result = .error e → ∃ i name raised, report.asked[i]? = some name ∧
    loader i name = .error raised ∧
      (Library.PassedOn name raised e ↔ ∀ instead, raised ≠ .textless instead) ∧
      ∀ instead, raised = .textless instead → e = instead
  /-- Otherwise all names were asked for, and the library has what the calls yielded. -/
  loaded : ∀ library, report.result = .ok library →
    report.asked = names ∧ library.size = names.length ∧
      ∀ i name, names[i]? = some name → ∃ drawing, loader i name = .ok drawing ∧
        library.get name = .ok drawing

section Reports

variable {loader : Nat → String → Except Error (Drawing α)} {names : List String}
  {report : LoadReport α} {drawings : List (String × Drawing α)}

/-- Loading is orderly if every name is asked for and had. -/
theorem LoadReport.orderly_of_ok (hnodup : names.Nodup) (hnames : names = drawings.map Prod.fst)
    (hyields : Library.Yields loader 0 drawings) (hasked : report.asked = names)
    (hresult : report.result = .ok ⟨drawings⟩) : report.Orderly loader names := by
  have hyielded (i : Nat) (name : String) (h : names[i]? = some name) :
      ∃ drawing, drawings[i]? = some (name, drawing) ∧ loader i name = .ok drawing :=
    hyields.of_getElem? (hnames ▸ h)
  constructor
  · exact hasked ▸ List.prefix_rfl
  · intro i name hi _
    obtain ⟨drawing, -, hdrawing⟩ := hyielded i name (hasked ▸ hi)
    exact ⟨drawing, hdrawing⟩
  · rw [hresult]
    refine ⟨nofun, ?_⟩
    rintro ⟨i, name, e, hi, he⟩
    obtain ⟨drawing, -, hdrawing⟩ := hyielded i name (hasked ▸ hi)
    rw [hdrawing] at he
    cases he
  · rw [hresult]
    exact nofun
  · rw [hresult]
    rintro _ ⟨⟩
    refine ⟨hasked, ?_, fun i name hi => ?_⟩
    · rw [hnames, List.length_map]
      rfl
    · obtain ⟨drawing, hat, hdrawing⟩ := hyielded i name hi
      exact ⟨drawing, hdrawing, Library.get_of_nodup (hnames ▸ hnodup) hat⟩

/-- It is orderly, too, if the last name that is asked for is not had. -/
theorem LoadReport.orderly_of_error {name : String} {later : List String} {e : Error}
    (hnames : names = drawings.map Prod.fst ++ name :: later)
    (hyields : Library.Yields loader 0 drawings) (hfails : loader drawings.length name = .error e)
    (hasked : report.asked = drawings.map Prod.fst ++ [name])
    (hresult : report.result = .error (Library.loadError name e)) :
    report.Orderly loader names := by
  have hlast : report.asked[drawings.length]? = some name := by
    rw [hasked]
    simp
  constructor
  · rw [hasked, hnames]
    exact ⟨later, List.append_assoc _ _ _⟩
  · intro i before hi hless
    rw [hasked, List.length_append, List.length_map, List.length_singleton] at hless
    rw [hasked, List.getElem?_append_left (by rw [List.length_map]; omega)] at hi
    obtain ⟨drawing, -, hdrawing⟩ := hyields.of_getElem? hi
    exact ⟨drawing, hdrawing⟩
  · rw [hresult]
    exact ⟨fun _ => ⟨_, name, e, hlast, hfails⟩, fun _ => ⟨_, rfl⟩⟩
  · intro e' he'
    obtain rfl := Except.error.inj (hresult.symm.trans he')
    exact ⟨_, name, e, hlast, hfails, Library.loadError_cases name e⟩
  · rw [hresult]
    exact nofun

end Reports

theorem Timeline.nodup_sources (timeline : Timeline α) : timeline.sources.Nodup :=
  (pairwise_idxOf_eraseDups _).imp fun h heq => absurd (heq ▸ h) (Nat.lt_irrefl _)

/-- The loader is asked in order, whichever of its calls fails. -/
theorem Library.orderly_loadCalls (timeline : Timeline α)
    (loader : Nat → String → Except Error (Drawing α)) :
    (loadCalls timeline loader).Orderly loader timeline.sources := by
  rcases loadCalls_cases timeline loader with ⟨drawings, hnames, hyields, hasked, hresult⟩ |
    ⟨drawings, name, later, e, hnames, hyields, hfails, hasked, hresult⟩
  · exact LoadReport.orderly_of_ok timeline.nodup_sources hnames hyields hasked hresult
  · exact LoadReport.orderly_of_error hnames hyields hfails hasked hresult

/-! ## Scenes -/

/-- Which strokes are drawn of something: for an element, those of its drawing under some map, with
as many points as they have, and for a line a stroke from one end to the other. -/
def Drawable.DrawnAs [Scalar α] (drawings : String → Drawing α → Prop) :
    Drawable α → List (Stroke α) → Prop
  | .element _ source _ _ _, strokes => ∃ drawing m, drawings source drawing ∧
      strokes = Matrix.applyStrokes m drawing.strokes ∧
      strokes.map List.length = drawing.strokes.map List.length
  | .line _ start finish, strokes => strokes = [[start, finish]]

theorem Matrix.map_length_applyStrokes [Scalar α] (m : Matrix α) (strokes : List (Stroke α)) :
    (m.applyStrokes strokes).map List.length = strokes.map List.length := by
  simp [applyStrokes, Function.comp_def]

section Scenes

variable [Trig α]

/-- A drawable whose drawing is in the library has strokes. -/
theorem Drawable.exists_strokes {library : Library α} {yields : String → Drawing α → Prop}
    (canvas : Canvas) (d : Drawable α)
    (h : ∀ id source fit pose transform, d = .element id source fit pose transform →
      ∃ drawing, yields source drawing ∧ library.get source = .ok drawing) :
    ∃ strokes, d.strokes library canvas = .ok strokes ∧ d.DrawnAs yields strokes := by
  cases d with
  | element id source fit pose transform =>
    obtain ⟨drawing, hyields, hget⟩ := h id source fit pose transform rfl
    rw [strokes, hget]
    exact ⟨_, rfl, drawing, _, hyields, rfl, Matrix.map_length_applyStrokes _ _⟩
  | line index start finish => exact ⟨_, rfl, rfl⟩

/-- Only drawings that an element uses occur in a scene. -/
theorem Timeline.mem_sources_of_mem_scene {timeline : Timeline α} {frame : Nat} {id source : String}
    {fit : Bool} {pose : Pose α} {transform : Matrix α}
    (h : .element id source fit pose transform ∈ (timeline.scene frame).drawables) :
    source ∈ timeline.sources := by
  rcases List.mem_append.mp h with hshown | hline
  · obtain ⟨e, he, hsame⟩ := List.mem_map.mp hshown
    obtain ⟨-, rfl, -⟩ := Drawable.element.inj hsame
    exact List.mem_eraseDups.mpr (List.mem_map_of_mem (List.mem_filter.mp he).1)
  · obtain ⟨mark, -, hmark⟩ := List.mem_filterMap.mp hline
    dsimp only at hmark
    split at hmark <;> cases hmark

/-- Every scene of a timeline can be flattened with a library of its drawings. -/
theorem Timeline.exists_flatten {timeline : Timeline α} {library : Library α}
    {yields : String → Drawing α → Prop}
    (h : ∀ source ∈ timeline.sources,
      ∃ drawing, yields source drawing ∧ library.get source = .ok drawing) (frame : Nat) :
    ∃ parts, (timeline.scene frame).flatten library timeline.canvas = .ok parts.flatten ∧
      List.Forall₂ (Drawable.DrawnAs yields) (timeline.scene frame).drawables parts := by
  have hstrokes : ∀ d ∈ (timeline.scene frame).drawables,
      ∃ strokes, d.strokes library timeline.canvas = .ok strokes ∧ d.DrawnAs yields strokes := by
    intro d hd
    refine d.exists_strokes timeline.canvas fun id source fit pose transform heq => ?_
    subst heq
    exact h source (mem_sources_of_mem_scene hd)
  choose! part hpart hdrawn using hstrokes
  refine ⟨(timeline.scene frame).drawables.map part, ?_, ?_⟩
  · rw [Scene.flatten, mapM_eq_ok hpart]
    rfl
  · rw [List.forall₂_map_right_iff, List.forall₂_same]
    exact hdrawn

end Scenes

/-- The drawings of a timeline are asked for one by one, each name once, in the order of first use,
up to the first that cannot be had. Loading fails just if there is one, and with a source error just
if what was raised has a text. If it does not fail, the library has one drawing for each name, and
in every frame each drawable has its strokes: those of its drawing, put in their place, or that of a
line. -/
theorem Library.load_supplies_scenes [Trig α] (timeline : Timeline α)
    (loader : Nat → String → Except Error (Drawing α)) :
    let used := timeline.elements.map Element.source
    let report := loadCalls timeline loader
    ((∀ name, name ∈ timeline.sources ↔ name ∈ used) ∧
      timeline.sources.Pairwise fun a b => used.idxOf a < used.idxOf b) ∧
    report.Orderly loader timeline.sources ∧
    ∀ library, report.result = .ok library → ∀ number frame, number.toNat? = some frame →
      frame < timeline.totalFrames →
        ∃ scene parts, timeline.sceneAt number = .ok scene ∧
          scene.flatten library timeline.canvas = .ok parts.flatten ∧
          List.Forall₂ (Drawable.DrawnAs fun source drawing =>
            ∃ call, timeline.sources[call]? = some source ∧ loader call source = .ok drawing)
              scene.drawables parts := by
  have horderly := orderly_loadCalls timeline loader
  refine ⟨⟨fun name => List.mem_eraseDups, pairwise_idxOf_eraseDups _⟩, horderly, ?_⟩
  intro library hlibrary number frame hnumber hframe
  obtain ⟨-, -, hcalls⟩ := horderly.loaded library hlibrary
  have hsupplied : ∀ source ∈ timeline.sources, ∃ drawing,
      (∃ call, timeline.sources[call]? = some source ∧ loader call source = .ok drawing) ∧
        library.get source = .ok drawing := by
    intro source hsource
    obtain ⟨call, hcall⟩ := List.mem_iff_getElem?.mp hsource
    obtain ⟨drawing, hyields, hget⟩ := hcalls call source hcall
    exact ⟨drawing, ⟨call, hcall, hyields⟩, hget⟩
  obtain ⟨parts, hflatten, hdrawn⟩ := Timeline.exists_flatten hsupplied frame
  refine ⟨timeline.scene frame, parts, ?_, hflatten, hdrawn⟩
  rw [Timeline.sceneAt, hnumber]
  exact if_pos hframe

/-- Two frames with three elements, of which two show the same drawing, and with a line. -/
def sharedTimeline : Timeline Float where
  elements := [⟨"a", "bar.plt", Pose.neutral, true, none, none, 2⟩,
    ⟨"b", "box.plt", Pose.neutral, false, none, some ⟨1, 1, 0⟩, 3⟩,
    ⟨"c", "bar.plt", Pose.neutral, false, some ⟨1, 1⟩, none, 4⟩]
  moves := []
  lines := [⟨⟨0, 0⟩, ⟨10, 10⟩, none, some "c", 5⟩]
  totalFrames := 2
  frameRate := 25
  canvas := ⟨100, 100⟩

/-- A bar whose length tells the call that yielded it. -/
def callBar (call : Nat) : Drawing Float :=
  .ofStrokes [[⟨0, 0⟩, ⟨Scalar.ofNat call, 0⟩]]

theorem Library.load_supplies_scenes_shared :
    let loader : Nat → String → Except Error (Drawing Float) := fun call _ => .ok (callBar call)
    let report := loadCalls sharedTimeline loader
    report.asked = ["bar.plt", "box.plt"] ∧
      report.result = .ok ⟨[("bar.plt", callBar 0), ("box.plt", callBar 1)]⟩ ∧
      (1 : Binary64).toNat? = some 1 ∧ 1 < sharedTimeline.totalFrames ∧
      ∃ scene parts, sharedTimeline.sceneAt 1 = .ok scene ∧
        scene.flatten ⟨[("bar.plt", callBar 0), ("box.plt", callBar 1)]⟩ ⟨100, 100⟩ =
          .ok parts.flatten ∧
        List.Forall₂ (Drawable.DrawnAs fun source drawing => ∃ call,
          sharedTimeline.sources[call]? = some source ∧ loader call source = .ok drawing)
            scene.drawables parts := by
  refine ⟨rfl, rfl, by decide, by decide, ?_⟩
  exact (load_supplies_scenes sharedTimeline fun call _ => .ok (callBar call)).2.2 _ rfl 1 1
    (by decide) (by decide)

/-- A loader that raises a value without a text. -/
def textlessLoader (_ : Nat) (_ : String) : Except Error (Drawing Float) :=
  .error (.textless (.unsuitable "Cannot convert object to primitive value"))

/-- What it raises is not passed on with the name of the drawing. There is no source error. -/
theorem Library.loadCalls_textless :
    (loadCalls sharedTimeline textlessLoader).asked = ["bar.plt"] ∧
      (loadCalls sharedTimeline textlessLoader).result =
        .error (.unsuitable "Cannot convert object to primitive value") ∧
      ∀ c, (loadCalls sharedTimeline textlessLoader).result ≠ .error (.source c) :=
  ⟨rfl, rfl, fun _ => nofun⟩

end Flipbook
