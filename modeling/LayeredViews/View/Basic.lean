import LayeredViews.View.Address

/-!
# Views — located sources of pages

A view is an address, an extension and contents that may turn out unreadable.  `View.source` reads
the whole of it as text.
-/

namespace LayeredViews

/-- Why a file or a stream gave no text. -/
inductive ReadFault where
  | notUtf8
  | notFound
  | notDirectory
  | isDirectory
  | nameTooLong
  | tooManyLinks
  | nulInName
  /-- A fault met at a path while listing a tree. -/
  | listing (path : String) (fault : ReadFault)
  /-- A link to a directory that is already open, met while listing a tree. -/
  | linkLoop (path ancestor : String)
  /-- A fault that its source describes. -/
  | told (reason : String)
deriving DecidableEq, Repr

def ReadFault.message : ReadFault → String
  | .notUtf8 => "stream did not contain valid UTF-8"
  | .notFound => "No such file or directory (os error 2)"
  | .notDirectory => "Not a directory (os error 20)"
  | .isDirectory => "Is a directory (os error 21)"
  | .nameTooLong => "File name too long (os error 36)"
  | .tooManyLinks => "Too many levels of symbolic links (os error 40)"
  | .nulInName => "file name contained an unexpected NUL byte"
  | .listing path fault => "IO error for operation on " ++ path ++ ": " ++ fault.message
  | .linkLoop path ancestor =>
    "File system loop found: " ++ path ++ " points to an ancestor " ++ ancestor
  | .told reason => reason

/-- What stands behind a view. -/
inductive Contents where
  | text (text : String)
  | bytes (bytes : List UInt8)
  | broken (fault : ReadFault)
deriving DecidableEq, Repr

/-- The whole contents as text. -/
def Contents.read : Contents → Except ReadFault String
  | .text t => .ok t
  | .bytes bs =>
    match String.fromUTF8? ⟨bs.toArray⟩ with
    | some t => .ok t
    | none => .error .notUtf8
  | .broken fault => .error fault

/-- Why a catalog gave no view, or a view no source. -/
inductive ContentError where
  | notFound (path : String)
  | unavailable (path : String) (fault : ReadFault)
deriving DecidableEq, Repr

def ContentError.message : ContentError → String
  | .notFound path => "View not found: " ++ path
  | .unavailable path fault =>
    "Content for '" ++ path ++ "' is unavailable: " ++ fault.message

/-- A view that a catalog has located. -/
structure View extends Address where
  extension : String
  contents : Contents
deriving DecidableEq, Repr

namespace View

/-- The path of its address. -/
def path (v : View) : String := v.toAddress.path

/-- Its path and its extension, by which diagnostics name it. -/
def fullName (v : View) : String := v.path ++ "." ++ v.extension

/-- The text of its page. -/
def source (v : View) : Except ContentError String :=
  match v.contents.read with
  | .ok text => .ok text
  | .error fault => .error (.unavailable v.path fault)

end View

end LayeredViews
