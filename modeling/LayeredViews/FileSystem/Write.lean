import LayeredViews.FileSystem.Basic

/-!
# Writing to a file system — directories, links and files

Each change either is made or leaves the file system as it was.  A directory, a link and a removal
concern the last name of a path itself; a file is written through a link.  `FileSystem.put` makes
the directories above a path first, and those stay even where the entry itself cannot be put.
-/

namespace LayeredViews

/-- Why an entry is not made under a name. -/
inductive WriteFault where
  /-- Its directory is not reached. -/
  | unreached (fault : ReadFault)
  /-- The name stands for an entry already. -/
  | taken
  /-- No entry of this kind can have the name. -/
  | refused
deriving DecidableEq, Repr

/-- What is put at a path. -/
inductive NewEntry where
  | file (contents : Contents)
  | dir
  | link (target : String)
  /-- Takes away the file or link that is there. -/
  | nothing

namespace FileSystem

/-- Sets or removes the entry at a place. -/
def alter (fs : FileSystem) (new : Option FileTree) (place : Place) : FileSystem :=
  { fs with tree := fs.tree.alter new place }

/-! ### The last name of a path -/

/-- The place of a path's last name, which is not followed if it is a link. -/
def placeOfName (fs : FileSystem) (path : String) : Except WriteFault Place :=
  match pathFault? path with
  | some fault => .error (.unreached fault)
  | none =>
    let names := (Text.words (· == '/') path.toList).map String.ofList
    match walk fs.tree linkLimit (startOf fs.here path) names.dropLast with
    | .error fault => .error (.unreached fault)
    | .ok (.vacant _ _) => .error (.unreached .notFound)
    | .ok (.entry directory) =>
      match fs.tree.get? directory, names.getLast? with
      | some (.dir _), some name =>
        if name = "." ∨ name = ".." then .error .taken
        else if nameLimit < name.utf8ByteSize then .error (.unreached .nameTooLong)
        else .ok (directory ++ [name])
      | some (.dir _), none => .error .taken
      | _, _ => .error (.unreached .notDirectory)

/-! ### Single entries -/

/-- Makes an entry under a name that is not taken. -/
def make (fs : FileSystem) (path : String) (new : FileTree) : Except WriteFault FileSystem :=
  match fs.placeOfName path with
  | .error fault => .error fault
  | .ok place => if (fs.tree.get? place).isSome then .error .taken else .ok (fs.alter new place)

/-- Makes an empty directory; a slash may end its path. -/
def makeDirectory (fs : FileSystem) (path : String) : Except WriteFault FileSystem :=
  fs.make path .empty

/-- A target that a link can have. -/
def isTarget (target : String) : Bool := (pathFault? target).isNone

def makeLink (fs : FileSystem) (path target : String) : Except WriteFault FileSystem :=
  if !isTarget target || endsInSlash path then .error .refused else fs.make path (.link target)

/-- Writes a file where its path leads: anew, or in place of the contents of the one there. -/
def writeFile (fs : FileSystem) (path : String) (contents : Contents) :
    Except WriteFault FileSystem :=
  match fs.spot path with
  | .error fault => .error (.unreached fault)
  | .ok (.vacant directory name) => .ok (fs.alter (some (.file contents)) (directory ++ [name]))
  | .ok (.entry place) =>
    match fs.tree.get? place with
    | some (.file _) => .ok (fs.alter (some (.file contents)) place)
    | _ => .error .refused

/-- Removes a file or a link, but no directory. -/
def remove (fs : FileSystem) (path : String) : Except WriteFault FileSystem :=
  match fs.placeOfName path with
  | .error fault => .error fault
  | .ok place =>
    match fs.tree.get? place with
    | none => .error (.unreached .notFound)
    | some (.dir _) => .error .refused
    | some _ => if endsInSlash path then .error .refused else .ok (fs.alter none place)

/-! ### Directories above a path -/

/-- Does not name an entry: empty, or the directory it stands in. -/
def isIdle (name : List Char) : Bool := name.isEmpty || name == ['.']

/-- The paths that end at one of some pieces that name an entry, longest first; the pieces are in
reverse order. -/
def pathsUpTo : List (List Char) → List String
  | [] => []
  | piece :: before =>
    if isIdle piece then pathsUpTo before
    else String.ofList (Text.joinWith '/' (piece :: before).reverse) :: pathsUpTo before

/-- The paths of the directories above a path, nearest first. -/
def pathsAbove (path : String) : List String :=
  pathsUpTo (((Text.pieces (· == '/') path.toList).reverse.dropWhile isIdle).drop 1)

/-- Makes the directory of the first path, after those of the paths above it where they are
missing; says whether it is there in the end. -/
def makeDirectories (fs : FileSystem) : List String → Bool × FileSystem
  | [] => (true, fs)
  | path :: above =>
    match fs.makeDirectory path with
    | .ok fs' => (true, fs')
    | .error (.unreached .notFound) =>
      match fs.makeDirectories above with
      | (false, fs') => (false, fs')
      | (true, fs') =>
        match fs'.makeDirectory path with
        | .ok fs'' => (true, fs'')
        | .error _ => (fs'.hasDirectory path, fs')
    | .error _ => (fs.hasDirectory path, fs)

/-- Puts an entry at a path whose directory is there. -/
def putEntry (fs : FileSystem) (path : String) : NewEntry → Except WriteFault FileSystem
  | .file contents => fs.writeFile path contents
  | .dir => fs.makeDirectory path
  | .link target => fs.makeLink path target
  | .nothing => fs.remove path

/-- Puts an entry at a path, with the directories above it; what cannot be done is left undone. -/
def put (fs : FileSystem) (path : String) : NewEntry → FileSystem
  | .dir => (fs.makeDirectories (path :: pathsAbove path)).2
  | new =>
    match fs.makeDirectories (pathsAbove path) with
    | (false, fs') => fs'
    | (true, fs') =>
      match fs'.putEntry path new with
      | .ok fs'' => fs''
      | .error _ => fs'

/-- Puts entries in order. -/
def putAll (fs : FileSystem) (entries : List (String × NewEntry)) : FileSystem :=
  entries.foldl (fun fs e => fs.put e.1 e.2) fs

end FileSystem

end LayeredViews
