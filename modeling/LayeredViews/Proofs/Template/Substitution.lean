import LayeredViews.Template.Page

/-!
# Substitution — a loop variable replaced by an expression

An expression that is rooted in a loop variable becomes the same path from another expression.  An inner loop that
binds the variable again hides it from its body, though not from what the loop runs over.  The item of an array
under an index is an expression as any other, with the index in decimal as one more name.
-/

namespace LayeredViews.Template

/-! ### Expressions -/

namespace Expr

/-- What a path leads to from an expression. -/
def extend (e : Expr) (path : List String) : Expr where
  root := e.root
  path := e.path ++ path
  text := e.text ++ String.ofList (path.flatMap fun name => '.' :: name.toList)

/-- An item of an array, by its index. -/
def item (e : Expr) (i : Nat) : Expr :=
  e.extend [i.repr]

/-- The expression with a loop variable replaced. -/
def replace (e : Expr) (x : String) (target : Expr) : Expr :=
  if e.root = .loop x then target.extend e.path else e

end Expr

/-! ### Pages -/

/-- What a key is set to, with a loop variable replaced. -/
def SetValue.replace (x : String) (target : Expr) : SetValue → SetValue
  | .literal text => .literal text
  | .expr e => .expr (e.replace x target)

/-- The page with a loop variable replaced where it is not bound again. -/
def Page.replace (x : String) (target : Expr) : Page → Page
  | .done => .done
  | .text content rest => .text content (rest.replace x target)
  | .echo e escaped pos rest => .echo (e.replace x target) escaped pos (rest.replace x target)
  | .renderBody pos rest => .renderBody pos (rest.replace x target)
  | .partialView name pos rest => .partialView name pos (rest.replace x target)
  | .set key value rest => .set key (value.replace x target) (rest.replace x target)
  | .cond test yes no rest =>
    .cond (test.replace x target) (yes.replace x target) (no.replace x target) (rest.replace x target)
  | .each source binding body pos rest =>
    .each (source.replace x target) binding (if binding = x then body else body.replace x target) pos
      (rest.replace x target)

/-- A loop over an array of some length, written out: its body once for each index, with the loop variable
replaced by the item there. -/
def Page.unrolled (source : Expr) (x : String) (body : Page) (length : Nat) : List Page :=
  (List.range length).map fun i => body.replace x (source.item i)

end LayeredViews.Template
