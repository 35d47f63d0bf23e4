import LayeredViews.Text.Blank
import LayeredViews.Text.Position

/-!
# Tokens — a page's source cut into text and tags

A tag stands between `{{` and the next `}}`; its body is trimmed.  A backslash right before `{{`
makes the braces text and is dropped.  `Scan.ofText` reads the source once, from left to right, and
reports the place of a tag that is never closed.
-/

namespace LayeredViews.Template

/-- A piece of a page's source. -/
inductive Token where
  | text (content : String)
  | tag (body : String) (pos : Text.Position)
deriving DecidableEq, Repr

/-- The tokens of a source, and the place of its unclosed tag. -/
structure Scan where
  tokens : List Token
  unclosed : Option Text.Position
deriving DecidableEq, Repr

/-- What the scan is inside of.  Characters read are kept newest first. -/
inductive ScanMode where
  | text (pending : List Char)
  | tag (opened : Nat) (body : List Char)

namespace Scan

/-- Puts a token in front. -/
def cons (t : Token) (s : Scan) : Scan := { s with tokens := t :: s.tokens }

/-- Puts pending text in front, if there is any. -/
def consText (pending : List Char) (s : Scan) : Scan :=
  if pending.isEmpty then s else s.cons (.text (String.ofList pending.reverse))

/-- A tag by its body, newest character first. -/
def tagToken (index : Text.LineIndex) (opened : Nat) (body : List Char) : Token :=
  .tag (String.ofList (Text.trim body.reverse)) (index.position opened)

/-- Scans what is left of a source from a byte offset on. -/
def scanFrom (index : Text.LineIndex) : ScanMode → Nat → List Char → Scan
  | .text pending, offset, '\\' :: '{' :: '{' :: cs =>
    scanFrom index (.text ('{' :: '{' :: pending)) (offset + 3) cs
  | .text pending, offset, '{' :: '{' :: cs =>
    consText pending (scanFrom index (.tag offset []) (offset + 2) cs)
  | .text pending, offset, c :: cs =>
    scanFrom index (.text (c :: pending)) (offset + c.utf8Size) cs
  | .text pending, _, [] => consText pending ⟨[], none⟩
  | .tag opened body, offset, '}' :: '}' :: cs =>
    cons (tagToken index opened body) (scanFrom index (.text []) (offset + 2) cs)
  | .tag opened body, offset, c :: cs =>
    scanFrom index (.tag opened (c :: body)) (offset + c.utf8Size) cs
  | .tag opened _, _, [] => ⟨[], some (index.position opened)⟩

/-- The tokens of a whole source. -/
def ofText (source : String) : Scan :=
  let cs := source.toList
  scanFrom (Text.LineIndex.ofText cs) (.text []) 0 cs

@[simp] theorem consText_nil (s : Scan) : consText [] s = s := rfl

end Scan

end LayeredViews.Template
