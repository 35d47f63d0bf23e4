import LayeredViews.Catalog.Basic
import LayeredViews.Text.Blank

/-!
# Finders — views by the path a caller gives

A finder takes a path with or without one of its extensions and asks its catalog for the address.
Only plain addresses are asked for: a path with a dot segment names no view.
-/

namespace LayeredViews

/-- A catalog with the extensions its views may have, in order of preference. -/
structure Finder where
  catalog : Catalog
  extensions : List String

namespace Finder

/-- A path without the first of some extensions that it ends in. -/
def stripAny (path : List Char) : List String → List Char
  | [] => path
  | extension :: others =>
    match Text.dropEnd? ('.' :: extension.toList) path with
    | some stem => stem
    | none => stripAny path others

/-- A path without its extension, if it ends in one that the finder knows. -/
def normalize (f : Finder) (path : String) : String :=
  String.ofList (stripAny path.toList f.extensions)

/-- The view at a path. -/
def locate (f : Finder) (path : String) : Search (Option View) :=
  let a := Address.ofPath (f.normalize path)
  if a.isPlain then Search.lookUp f.catalog f.extensions a else pure none

/-- Whether there is a view at a path. -/
def has (f : Finder) (path : String) : Search Bool := do
  return (← f.locate path).isSome

/-- The view at a path, which must be there. -/
def require (f : Finder) (path : String) : Search View := do
  match ← f.locate path with
  | some view => return view
  | none => throw (.notFound path)

/-- The source of the view at a path. -/
def read (f : Finder) (path : String) : Search String := do
  let view ← f.require path
  match view.source with
  | .ok text => return text
  | .error e => throw e

/-- All views. -/
def listAll (f : Finder) : Except ContentError (List View) :=
  f.catalog.list f.extensions

/-- The views that stand directly in a directory. -/
def listUnder (f : Finder) (directory : String) : Except ContentError (List View) :=
  let location := String.ofList (Text.trimEnds (· == '/') directory.toList)
  match f.listAll with
  | .ok views => .ok (views.filter fun v => v.location == location)
  | .error e => .error e

end Finder

end LayeredViews
