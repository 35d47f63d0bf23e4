import LayeredViews.Catalog.Basic
import LayeredViews.FileSystem.Basic

/-!
# Directories — views held in a file system

A view at `location/name` with an extension is the file `location/name.extension` below a root.
Listing goes through the tree in the order of names, each directory in place, and follows links; a
link to a directory that is already open is an error.
-/

namespace LayeredViews

/-- The views below a root directory, which is a path in a file system. -/
structure Directory where
  files : FileSystem
  root : String

namespace Directory

/-- A path with one more part. -/
def join (path part : String) : String :=
  if path.isEmpty then part
  else if path.toList.getLast? = some '/' then path ++ part
  else path ++ "/" ++ part

/-! ### Locating -/

/-- The path of the file that a view stands in. -/
def fileOf (d : Directory) (a : Address) (extension : String) : String :=
  join (((Address.directories a.location).map String.ofList).foldl join d.root)
    (a.name ++ "." ++ extension)

/-- The file of a view under the first extension that has one. -/
def locateUnder (d : Directory) (a : Address) :
    List String → Except ContentError (Option View)
  | [] => .ok none
  | extension :: others =>
    match d.files.stat (d.fileOf a extension) with
    | .ok (.file contents) => .ok (some ⟨a, extension, contents⟩)
    | .ok _ => d.locateUnder a others
    | .error .notFound => d.locateUnder a others
    | .error fault => .error (.unavailable a.path fault)

/-- The view at an address; one that is not plain might lead out of the root. -/
def locate (d : Directory) (extensions : List String) (a : Address) :
    Except ContentError (Option View) :=
  if a.isPlain then d.locateUnder a extensions else .ok none

/-! ### Listing -/

/-- A file that was met: the names that lead to it from the root, and what its path gives. -/
structure Met where
  names : List String
  contents : Contents

/-- A directory that is open. -/
structure OpenDirectory where
  path : String
  place : Place

/-- The path shown for an entry met under some names. -/
def shownPath (d : Directory) (names : List String) : String :=
  names.foldl join d.root

/-- The error of an entry that is not read. -/
def unlisted (path : String) (fault : ReadFault) : ContentError :=
  .unavailable path (.listing path fault)

/-- What reading by a path gives, if the path leads to these contents: no more than the fault of a
path that is not walked. -/
def readBy (path : String) (contents : Contents) : Contents :=
  match FileSystem.pathFault? path with
  | some fault => .broken fault
  | none => contents

/-- What is done with a link: where it was met, and the directories open around it. -/
abbrev Follow := List String → List OpenDirectory → Except ContentError (List Met)

mutual

/-- The files at and below an entry. -/
def visit (d : Directory) (follow : Follow) (names : List String) (place : Place)
    (around : List OpenDirectory) : FileTree → Except ContentError (List Met)
  | .file contents => .ok [⟨names, readBy (d.shownPath names) contents⟩]
  | .link _ => follow names around
  | .dir entries =>
    let path := d.shownPath names
    match FileSystem.pathFault? path with
    | some fault => .error (unlisted path fault)
    | none => d.visitAll follow names place (⟨path, place⟩ :: around) entries

/-- The files at and below the entries of the directory at a place. -/
def visitAll (d : Directory) (follow : Follow) (names : List String) (place : Place)
    (around : List OpenDirectory) : List (String × FileTree) → Except ContentError (List Met)
  | [] => .ok []
  | (name, t) :: rest =>
    match d.visit follow (names ++ [name]) (place ++ [name]) around t with
    | .error e => .error e
    | .ok met =>
      match d.visitAll follow names place around rest with
      | .error e => .error e
      | .ok others => .ok (met ++ others)

end

/-- The files at and below what a link leads to, through at most `links` links met there. -/
def followLinks (d : Directory) : (links : Nat) → Follow
  | 0, names, _ => .error (unlisted (d.shownPath names) .tooManyLinks)
  | links + 1, names, around =>
    let path := d.shownPath names
    match d.files.resolve path with
    | .error fault => .error (unlisted path fault)
    | .ok place =>
      match d.files.tree.get? place, around.find? fun o => o.place == place with
      | some (.dir _), some o => .error (.unavailable path (.linkLoop path o.path))
      | some t, _ => d.visit (d.followLinks links) names place around t
      | none, _ => .error (unlisted path .notFound)

/-- All files below the root.  A path through more links than `FileSystem.linkLimit` leads nowhere,
so that no more are ever met in one another. -/
def met (d : Directory) : Except ContentError (List Met) :=
  match d.files.resolve d.root with
  | .error _ => .ok []
  | .ok place =>
    match d.files.tree.get? place with
    | none => .ok []
    | some t => d.visit (d.followLinks (FileSystem.linkLimit + 1)) [] place [] t

/-- A file's name before and after its last dot; a name that only starts with a dot has no
extension. -/
def stemAndExtension? (name : String) : Option (String × String) :=
  match Text.cutLast? (· == '.') name.toList with
  | none => none
  | some ([], _) => none
  | some (stem, extension) => some (String.ofList stem, String.ofList extension)

/-- The name of a met file: that of the root if it is the root itself. -/
def fileName (d : Directory) (m : Met) : String :=
  match m.names.getLast? with
  | some name => name
  | none => ((FileSystem.namesOf d.root).getLast?).getD ""

/-- The view that a met file is, if it has one of the extensions. -/
def viewOf? (d : Directory) (extensions : List String) (m : Met) : Option View :=
  match stemAndExtension? (d.fileName m) with
  | none => none
  | some (stem, extension) =>
    if extensions.contains extension then
      some ⟨⟨"/".intercalate m.names.dropLast, stem⟩, extension, m.contents⟩
    else none

/-- The views below the root, in the order in which their files are met. -/
def views (d : Directory) (extensions : List String) : Except ContentError (List View) :=
  match d.met with
  | .error e => .error e
  | .ok met => .ok (met.filterMap (d.viewOf? extensions))

def toCatalog (d : Directory) : Catalog where
  locate := d.locate
  list := d.views

end Directory

end LayeredViews
