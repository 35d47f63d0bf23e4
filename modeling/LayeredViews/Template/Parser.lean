import LayeredViews.Failure
import LayeredViews.Template.Tag
import LayeredViews.Template.Token

/-!
# Parsing — from tokens to a page

The parser holds a draft of the innermost page and, innermost first, the blocks that are still open.  A
rejected tag leaves it as it was, so that one mistake gives one diagnostic.  Diagnostics come in the
order: the unclosed tag, the rejected tags as they stand in the source, and the blocks left open,
innermost first.
-/

namespace LayeredViews.Template

/-! ### Drafts -/

/-- A page in the making: its pieces, the latest one first. -/
structure Draft where
  pieces : List Page
deriving DecidableEq, Repr

namespace Draft

def empty : Draft := ⟨[]⟩

/-- The page made so far. -/
def page (d : Draft) : Page :=
  d.pieces.foldl (fun rest piece => piece ++ rest) .done

/-- Adds to the end of the page. -/
def add (d : Draft) (more : Page) : Draft := ⟨more :: d.pieces⟩

@[simp] theorem page_empty : empty.page = .done := rfl

theorem foldl_pieces (pieces : List Page) (q : Page) :
    pieces.foldl (fun rest piece => piece ++ rest) q =
      pieces.foldl (fun rest piece => piece ++ rest) .done ++ q := by
  induction pieces generalizing q with
  | nil => rfl
  | cons piece pieces ih =>
    rw [List.foldl_cons, List.foldl_cons, ih, ih (piece ++ .done), Page.append_done,
      Page.append_assoc]

@[simp] theorem page_add (d : Draft) (more : Page) : (d.add more).page = d.page ++ more := by
  unfold add page
  rw [List.foldl_cons, Page.append_done, foldl_pieces]

end Draft

/-! ### The parser -/

/-- An open block. -/
inductive Block where
  /-- `yes` is the page before an else tag, once there was one. -/
  | cond (test : Expr) (yes : Option Page)
  | each (source : Expr) (binding : String)
deriving DecidableEq, Repr

namespace Block

def kind : Block → BlockKind
  | .cond _ _ => .cond
  | .each _ _ => .each

/-- The loop variable that the block brings into scope. -/
def binding? : Block → Option String
  | .cond _ _ => none
  | .each _ binding => some binding

end Block

/-- An open block, where it was opened, and the page it stands in up to there. -/
structure Frame where
  block : Block
  opened : Text.Position
  outer : Draft
deriving DecidableEq, Repr

/-- A page in the making inside some open blocks. -/
structure Parser where
  frames : List Frame
  draft : Draft
deriving DecidableEq, Repr

namespace Parser

def start : Parser := ⟨[], .empty⟩

/-- The innermost page so far. -/
def page (p : Parser) : Page := p.draft.page

/-- The page that all the open blocks stand in, up to the outermost one. -/
def rootPage (p : Parser) : Page :=
  match p.frames.getLast? with
  | some f => f.outer.page
  | none => p.page

/-- The loop variables in scope, innermost first. -/
def scope (p : Parser) : List String :=
  p.frames.filterMap fun f => f.block.binding?

/-- Adds to the innermost page. -/
def add (p : Parser) (more : Page) : Parser := { p with draft := p.draft.add more }

/-- Opens a block. -/
def push (p : Parser) (block : Block) (pos : Text.Position) : Parser :=
  ⟨⟨block, pos, p.draft⟩ :: p.frames, .empty⟩

/-- Goes on to the other branch of the innermost block. -/
def otherwise (p : Parser) : Except TagError Parser :=
  match p.frames with
  | ⟨.cond test none, opened, outer⟩ :: frames =>
    .ok ⟨⟨.cond test (some p.page), opened, outer⟩ :: frames, .empty⟩
  | ⟨.cond _ (some _), _, _⟩ :: _ => .error .duplicateElse
  | _ => .error .elseOutsideIf

/-- Closes the innermost block, which must be of this kind. -/
def close (p : Parser) (kind : BlockKind) : Except TagError Parser :=
  match kind, p.frames with
  | .cond, ⟨.cond test yes, _, outer⟩ :: frames =>
    let node := match yes with
      | some yes => Page.cond test yes p.page .done
      | none => Page.cond test p.page .done .done
    .ok ⟨frames, outer.add node⟩
  | .each, ⟨.each source binding, opened, outer⟩ :: frames =>
    .ok ⟨frames, outer.add (.each source binding p.page opened .done)⟩
  | kind, _ => .error (.unmatchedEnd kind)

/-- Does what a tag at `pos` asks for. -/
def apply (p : Parser) (pos : Text.Position) : Tag → Except TagError Parser
  | .comment => .ok p
  | .echo e escaped => .ok (p.add (.echo e escaped pos .done))
  | .renderBody => .ok (p.add (.renderBody pos .done))
  | .partialView name => .ok (p.add (.partialView name pos .done))
  | .set key value => .ok (p.add (.set key value .done))
  | .openCond test => .ok (p.push (.cond test none) pos)
  | .otherwise => p.otherwise
  | .openEach source binding => .ok (p.push (.each source binding) pos)
  | .close kind => p.close kind

/-- Takes the tag with this body. -/
def tag (p : Parser) (body : String) (pos : Text.Position) : Except TagError Parser :=
  match Tag.read p.scope body.toList with
  | .ok t => p.apply pos t
  | .error e => .error e

/-- Takes one token; gives the place and the fault of a rejected tag. -/
def token (p : Parser) : Token → Parser × Option (Text.Position × TagError)
  | .text content => (p.add (.text content .done), none)
  | .tag body pos =>
    match p.tag body pos with
    | .ok p' => (p', none)
    | .error e => (p, some (pos, e))

/-- Takes tokens in order; gives the rejected tags in order. -/
def tokens (p : Parser) : List Token → Parser × List (Text.Position × TagError)
  | [] => (p, [])
  | t :: ts =>
    let (p', rejected) := p.token t
    let (p'', others) := p'.tokens ts
    (p'', rejected.toList ++ others)

end Parser

/-! ### Diagnostics -/

def diagnosticAt (pos : Text.Position) (message : String) : Diagnostic :=
  ⟨pos.line, pos.column, message⟩

def unclosedTag (pos : Text.Position) : Diagnostic :=
  diagnosticAt pos "Unclosed tag: expected '\x7d\x7d'"

def rejectedTag (r : Text.Position × TagError) : Diagnostic :=
  diagnosticAt r.1 r.2.message

def unclosedBlock (f : Frame) : Diagnostic :=
  let word := f.block.kind.word
  diagnosticAt f.opened ("Unclosed '" ++ word ++ "' block: expected \x7b\x7b /" ++ word ++ " \x7d\x7d")

/-- The diagnostics of a scanned source, and the page built from it, without what stands in blocks left open. -/
def parseScan (scan : Scan) : List Diagnostic × Page :=
  let (p, rejected) := Parser.start.tokens scan.tokens
  (scan.unclosed.toList.map unclosedTag ++ rejected.map rejectedTag ++ p.frames.map unclosedBlock,
    p.rootPage)

/-- Compiles a page's source. -/
def parse (source : String) : Except (List Diagnostic) Page :=
  match parseScan (Scan.ofText source) with
  | ([], page) => .ok page
  | (d :: ds, _) => .error (d :: ds)

end LayeredViews.Template
