import LayeredViews.Text.Position

/-!
# Pages — what a page's source compiles to

A page is a sequence of nodes; each constructor but `done` is a node together with the rest of the
page.  Expressions are rooted in the model, in the view bag or in a loop variable.
-/

namespace LayeredViews.Template

/-- Where the path of an expression starts. -/
inductive Root where
  | model
  | bag
  | loop (name : String)
deriving DecidableEq, Repr

/-- A value of the model, of the bag or of a loop variable, with its spelling. -/
structure Expr where
  root : Root
  path : List String
  text : String
deriving DecidableEq, Repr

/-- What a key of the bag is set to. -/
inductive SetValue where
  | literal (text : String)
  | expr (e : Expr)
deriving DecidableEq, Repr

/-- A compiled page. -/
inductive Page where
  | done
  | text (content : String) (rest : Page)
  /-- The text of a value, escaped or raw. -/
  | echo (e : Expr) (escaped : Bool) (pos : Text.Position) (rest : Page)
  /-- The content that a layout wraps. -/
  | renderBody (pos : Text.Position) (rest : Page)
  /-- Another view, rendered in place. -/
  | partialView (name : String) (pos : Text.Position) (rest : Page)
  | set (key : String) (value : SetValue) (rest : Page)
  | cond (test : Expr) (yes no : Page) (rest : Page)
  | each (source : Expr) (binding : String) (body : Page) (pos : Text.Position) (rest : Page)
deriving DecidableEq, Repr, Inhabited

namespace Page

/-- One page after another. -/
def append : Page → Page → Page
  | .done, q => q
  | .text content rest, q => .text content (rest.append q)
  | .echo e escaped pos rest, q => .echo e escaped pos (rest.append q)
  | .renderBody pos rest, q => .renderBody pos (rest.append q)
  | .partialView name pos rest, q => .partialView name pos (rest.append q)
  | .set key value rest, q => .set key value (rest.append q)
  | .cond test yes no rest, q => .cond test yes no (rest.append q)
  | .each source binding body pos rest, q => .each source binding body pos (rest.append q)

instance : Append Page := ⟨append⟩

/-- Whether the page has a node for the wrapped content, at any depth. -/
def rendersBody : Page → Bool
  | .done => false
  | .text _ rest => rest.rendersBody
  | .echo _ _ _ rest => rest.rendersBody
  | .renderBody _ _ => true
  | .partialView _ _ rest => rest.rendersBody
  | .set _ _ rest => rest.rendersBody
  | .cond _ yes no rest => yes.rendersBody || no.rendersBody || rest.rendersBody
  | .each _ _ body _ rest => body.rendersBody || rest.rendersBody

@[simp] theorem done_append (q : Page) : Page.done ++ q = q := rfl

@[simp] theorem append_done (p : Page) : p ++ Page.done = p := by
  show p.append .done = p
  induction p with
  | done => rfl
  | cond _ _ _ _ _ _ ih => simp [append, ih]
  | each _ _ _ _ _ _ ih => simp [append, ih]
  | _ => simp [append, *]

theorem append_assoc (p q r : Page) : p ++ q ++ r = p ++ (q ++ r) := by
  show (p.append q).append r = p.append (q.append r)
  induction p with
  | done => rfl
  | cond _ _ _ _ _ _ ih => simp [append, ih]
  | each _ _ _ _ _ _ ih => simp [append, ih]
  | _ => simp [append, *]

end Page

end LayeredViews.Template
