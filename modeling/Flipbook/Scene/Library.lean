import Flipbook.Geometry.Bounds
import Flipbook.Script.Timeline

/-!
# The drawings of a timeline

All drawings that the elements of a timeline use are loaded once, before any frame is composed, in
the order of their first use. Loading stops at the first failure.
-/

namespace Flipbook

/-- Drawings by name. -/
structure Library (α : Type) where
  /-- The drawings in the order in which they were loaded. -/
  drawings : List (String × Drawing α)
  deriving DecidableEq, Repr

/-- What loading did. -/
structure LoadReport (α : Type) where
  /-- The names that the loader was asked for, in order. -/
  asked : List String
  /-- The drawings without strokes, in order. -/
  empty : List String
  /-- The drawings, or why one of them cannot be had. -/
  result : Except Error (Library α)

namespace Library

variable {α : Type}

/-- The drawing of a name. -/
def find? (library : Library α) (source : String) : Option (Drawing α) :=
  (library.drawings.find? fun d => d.1 = source).map Prod.snd

/-- The drawing of a name that must have been loaded. -/
def get (library : Library α) (source : String) : Except Error (Drawing α) :=
  match library.find? source with
  | some drawing => .ok drawing
  | none => .error (.source (.notLoaded source))

/-- The number of drawings. -/
def size (library : Library α) : Nat :=
  library.drawings.length

/-- How a failure of the loader is passed on: a source error as it is, any other error with the
name of the drawing. The text of the error is asked for then, so that one without a text is lost. -/
def loadError (source : String) (e : Error) : Error :=
  match e with
  | .source _ => e
  | _ =>
    match e.describe with
    | .ok text => .source (.notLoadable source text)
    | .error instead => instead

/-- Loads the drawings that are not yet in the library, one after the other. The loader is told how
many it has yielded so far, since it may answer every call differently. -/
def loadAll (loader : Nat → String → Except Error (Drawing α)) :
    Library α → List String → LoadReport α
  | library, [] => ⟨[], [], .ok library⟩
  | library, source :: rest =>
    if (library.find? source).isSome then loadAll loader library rest
    else
      match loader library.size source with
      | .error e => ⟨[source], [], .error (loadError source e)⟩
      | .ok drawing =>
        let report := loadAll loader ⟨library.drawings ++ [(source, drawing)]⟩ rest
        { report with
          asked := source :: report.asked
          empty := if drawing.strokes.isEmpty then source :: report.empty else report.empty }

/-- Loads the drawings of a timeline, with a loader that may answer every call differently. -/
def loadCalls (timeline : Timeline α) (loader : Nat → String → Except Error (Drawing α)) :
    LoadReport α :=
  loadAll loader ⟨[]⟩ (timeline.elements.map Element.source)

/-- Loads the drawings of a timeline. -/
def load (timeline : Timeline α) (loader : String → Except Error (Drawing α)) : LoadReport α :=
  loadCalls timeline fun _ => loader

end Library

/-- The warning about a drawing without strokes. -/
def emptySourceWarning (source : String) : String :=
  "Source \"" ++ source ++ "\" has no strokes"

/-- The warnings that loading gives rise to. -/
def LoadReport.warnings {α : Type} (report : LoadReport α) : List String :=
  report.empty.map emptySourceWarning

end Flipbook
