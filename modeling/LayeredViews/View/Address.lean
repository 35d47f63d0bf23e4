import LayeredViews.Text.Split

/-!
# Addresses — where a view stands

A view is named by a directory (`location`) and a `name`.  A path is cut at slashes and backslashes
alike, and empty segments do not count; the last segment is the name.
-/

namespace LayeredViews

/-- A directory and a name in it; the root directory is empty. -/
structure Address where
  location : String
  name : String
deriving DecidableEq, Repr, Inhabited

namespace Address

/-- A character that ends a segment of a path. -/
def isSeparator (c : Char) : Bool := c == '/' || c == '\\'

/-- The non-empty segments of a path. -/
def segmentsOf (path : String) : List (List Char) :=
  Text.words isSeparator path.toList

/-- The address whose name is the last of some segments. -/
def ofSegments (segments : List (List Char)) : Address :=
  match segments.getLast? with
  | none => ⟨"", ""⟩
  | some name => ⟨String.ofList (Text.joinWith '/' segments.dropLast), String.ofList name⟩

/-- The address that a path spells. -/
def ofPath (path : String) : Address :=
  ofSegments (segmentsOf path)

/-- `location/name`, or the name alone at the root. -/
def path (a : Address) : String :=
  if a.location.isEmpty then a.name else a.location ++ "/" ++ a.name

/-- The directories of a location, outermost first. -/
def directories (location : String) : List (List Char) :=
  Text.words (· == '/') location.toList

/-- Names an entry of its own directory: not empty, no dot segment and without separators. -/
def isPlainSegment (segment : List Char) : Bool :=
  !segment.isEmpty && segment != ['.'] && segment != ['.', '.'] && !segment.any isSeparator

/-- Its name and all its directories are plain segments. -/
def isPlain (a : Address) : Bool :=
  isPlainSegment a.name.toList && (directories a.location).all isPlainSegment

@[simp] theorem ofSegments_nil : ofSegments [] = ⟨"", ""⟩ := rfl

theorem path_of_root (name : String) : path ⟨"", name⟩ = name := rfl

end Address

end LayeredViews
