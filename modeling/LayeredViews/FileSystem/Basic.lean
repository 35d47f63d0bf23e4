import LayeredViews.FileTree

/-!
# File systems — paths walked through a file tree

A path is walked name by name from the root or from the working directory.  A link on the way, also
at the end, is replaced by the names of its target; a walk goes through a limited number of links,
wherever they stand.  `FileSystem.spot` is where a path leads, and all reading goes through it.
-/

namespace LayeredViews

/-- A file tree and the directory in which relative paths start. -/
structure FileSystem where
  tree : FileTree
  here : Place

/-- Where a walk ends. -/
inductive Spot where
  | entry (place : Place)
  /-- Nothing of this name is in the directory. -/
  | vacant (directory : Place) (name : String)
deriving DecidableEq, Repr

namespace FileSystem

/-- Nothing but an empty working directory. -/
def empty : FileSystem := ⟨.empty, []⟩

/-! ### Limits -/

/-- The greatest length of a name in bytes. -/
def nameLimit : Nat := 255

/-- The least length in bytes at which a path is too long. -/
def pathLimit : Nat := 4096

/-- So many links a walk goes through. -/
def linkLimit : Nat := 40

/-- Why a path is not walked at all. -/
def pathFault? (path : String) : Option ReadFault :=
  if path.toList.contains '\x00' then some .nulInName
  else if path.isEmpty then some .notFound
  else if pathLimit ≤ path.utf8ByteSize then some .nameTooLong
  else none

/-! ### Walks -/

/-- A slash ends the path. -/
def endsInSlash (path : String) : Bool := path.toList.getLast? = some '/'

/-- The names of a path in order; a slash at the end stands for the directory itself. -/
def namesOf (path : String) : List String :=
  (Text.words (· == '/') path.toList).map String.ofList ++ if endsInSlash path then ["."] else []

/-- Where a path starts: at the root if a slash does. -/
def startOf (here : Place) (path : String) : Place :=
  if path.toList.head? = some '/' then [] else here

/-- Walks names from a place; at a link, `follow` goes on from where its target starts. -/
def walkWith (tree : FileTree) (follow : Place → List String → Except ReadFault Spot) :
    Place → List String → Except ReadFault Spot
  | here, [] => .ok (.entry here)
  | here, name :: rest =>
    match tree.get? here with
    | some (.dir entries) =>
      if name = "." then walkWith tree follow here rest
      else if name = ".." then walkWith tree follow here.dropLast rest
      else if nameLimit < name.utf8ByteSize then .error .nameTooLong
      else
        match Table.find? name entries with
        | none => if rest.isEmpty then .ok (.vacant here name) else .error .notFound
        | some (.link target) => follow (startOf here target) (namesOf target ++ rest)
        | some _ => walkWith tree follow (here ++ [name]) rest
    | _ => .error .notDirectory

/-- Walks names through at most `links` links. -/
def walk (tree : FileTree) : (links : Nat) → Place → List String → Except ReadFault Spot
  | 0 => walkWith tree fun _ _ => .error .tooManyLinks
  | links + 1 => walkWith tree (walk tree links)

/-- Where a path leads. -/
def spot (fs : FileSystem) (path : String) : Except ReadFault Spot :=
  match pathFault? path with
  | some fault => .error fault
  | none => walk fs.tree linkLimit (startOf fs.here path) (namesOf path)

/-! ### Reading -/

/-- The place of the entry that a path leads to. -/
def resolve (fs : FileSystem) (path : String) : Except ReadFault Place :=
  match fs.spot path with
  | .ok (.entry place) => .ok place
  | .ok (.vacant _ _) => .error .notFound
  | .error fault => .error fault

/-- The file or directory that a path leads to. -/
def stat (fs : FileSystem) (path : String) : Except ReadFault FileTree :=
  match fs.resolve path with
  | .error fault => .error fault
  | .ok place =>
    match fs.tree.get? place with
    | some t => .ok t
    | none => .error .notFound

/-- Whether a path leads to a file or directory. -/
def has (fs : FileSystem) (path : String) : Bool :=
  (fs.stat path).isOk

/-- Whether a path leads to a directory. -/
def hasDirectory (fs : FileSystem) (path : String) : Bool :=
  match fs.stat path with
  | .ok (.dir _) => true
  | _ => false

/-- The text of the file at a path. -/
def readText (fs : FileSystem) (path : String) : Except ReadFault String :=
  match fs.stat path with
  | .ok (.file contents) => contents.read
  | .ok _ => .error .isDirectory
  | .error fault => .error fault

end FileSystem

end LayeredViews
