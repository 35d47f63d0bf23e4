import LayeredViews.Catalog.Basic
import LayeredViews.Table
import LayeredViews.Text.Order

/-!
# Shelves — views held in memory

A shelf maps an address and an extension to contents; it is kept sorted by location, name and
extension, and the last contents put under a key count.  A path names its key by its spelling: the
last dot of the last segment starts the extension.
-/

namespace LayeredViews

/-- Under what a view stands on a shelf. -/
structure ShelfKey extends Address where
  extension : String
deriving DecidableEq, Repr

namespace ShelfKey

/-- Strictly earlier by location, then by name, then by extension. -/
def before (a b : ShelfKey) : Bool :=
  if a.location = b.location then
    if a.name = b.name then Text.before a.extension b.extension else Text.before a.name b.name
  else Text.before a.location b.location

/-- The key that a file's path spells. -/
def ofPath (path : String) : ShelfKey :=
  let a := Address.ofPath path
  match Text.cutLast? (· == '.') a.name.toList with
  | some (stem, extension) => ⟨⟨a.location, String.ofList stem⟩, String.ofList extension⟩
  | none => ⟨a, ""⟩

end ShelfKey

/-- Views held in memory. -/
structure Shelf where
  entries : Table ShelfKey Contents
deriving Inhabited

namespace Shelf

def empty : Shelf := ⟨[]⟩

/-- Puts contents under the key of a path, in place of any before. -/
def put (shelf : Shelf) (path : String) (contents : Contents) : Shelf :=
  ⟨Table.insert ShelfKey.before (ShelfKey.ofPath path) contents shelf.entries⟩

/-- Files by path and contents, put in order. -/
def ofFiles (files : List (String × Contents)) : Shelf :=
  files.foldl (fun shelf f => shelf.put f.1 f.2) empty

def toView (e : ShelfKey × Contents) : View := ⟨e.1.toAddress, e.1.extension, e.2⟩

/-- The view at an address under the first extension that has one. -/
def find? (shelf : Shelf) (a : Address) : List String → Option View
  | [] => none
  | extension :: others =>
    match Table.find? ⟨a, extension⟩ shelf.entries with
    | some contents => some ⟨a, extension, contents⟩
    | none => find? shelf a others

/-- The views with one of some extensions, in the order of their keys. -/
def views (shelf : Shelf) (extensions : List String) : List View :=
  (shelf.entries.filter fun e => extensions.contains e.1.extension).map toView

def toCatalog (shelf : Shelf) : Catalog where
  locate extensions a := .ok (shelf.find? a extensions)
  list extensions := .ok (shelf.views extensions)

end Shelf

end LayeredViews
