import LayeredViews.View.Finder

/-!
# Layerings — a view and the layouts that wrap it

Layouts follow from the path alone: in every directory from the root down to the view's own, a view
of the layout's name wraps all that stands below.  A layout that is rendered itself is not its own
wrapper.
-/

namespace LayeredViews

/-- A view with the layouts around it, outermost first. -/
structure Layering where
  layouts : List View
  leaf : View
deriving DecidableEq, Repr

namespace Layering

/-- The leaf without layouts. -/
def alone (leaf : View) : Layering := ⟨[], leaf⟩

/-- Layouts, then leaf. -/
def members (l : Layering) : List View := l.layouts ++ [l.leaf]

/-- The directories a path goes through, from the root to its own, as locations. -/
def locationsAbove (directories : List (List Char)) : List String :=
  (List.range (directories.length + 1)).map fun depth =>
    String.ofList (Text.joinWith '/' (directories.take depth))

/-- Paths at which the layouts of a leaf may stand, outermost first. -/
def candidates (layoutName leafPath : String) : List String :=
  let a := Address.ofPath leafPath
  (locationsAbove (Address.directories a.location)).map fun location =>
    Address.path ⟨location, layoutName⟩

/-- The views found at some paths, without the path of the leaf itself. -/
def locateAll (f : Finder) (leafPath : String) : List String → Search (List View)
  | [] => pure []
  | candidate :: others =>
    if candidate = leafPath then locateAll f leafPath others
    else do
      match ← f.locate candidate with
      | some view => return view :: (← locateAll f leafPath others)
      | none => locateAll f leafPath others

/-- The layouts of the leaf at a path, outermost first. -/
def layoutsOf (f : Finder) (layoutName leafPath : String) : Search (List View) :=
  locateAll f leafPath (candidates layoutName leafPath)

/-- The view at a path with its layouts. -/
def resolve (f : Finder) (layoutName path : String) : Search Layering := do
  let leaf ← f.require path
  let layouts ← layoutsOf f layoutName leaf.path
  return ⟨layouts, leaf⟩

end Layering

end LayeredViews
