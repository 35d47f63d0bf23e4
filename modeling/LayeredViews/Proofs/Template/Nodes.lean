import LayeredViews.Template.Page

/-!
# Nodes — the single steps that a page is made of

`Page.nodes` lists the nodes of a page at any depth, each without the pages inside of it and without the rest
of the page.  Statements about where something stands in a page are about members of this list.
-/

namespace LayeredViews.Template

open Text (Position)

/-- A node of a page without the pages inside of it. -/
inductive Node where
  | text (content : String)
  | echo (e : Expr) (escaped : Bool) (pos : Position)
  | renderBody (pos : Position)
  | partialView (name : String) (pos : Position)
  | set (key : String) (value : SetValue)
  | cond (test : Expr)
  | each (source : Expr) (binding : String) (pos : Position)
deriving DecidableEq, Repr

/-- Where the tag of a node stands; nodes at which a run cannot fail do not keep their place. -/
def Node.pos? : Node → Option Position
  | .echo _ _ pos => some pos
  | .renderBody pos => some pos
  | .partialView _ pos => some pos
  | .each _ _ pos => some pos
  | _ => none

/-- The expressions that a node looks up. -/
def Node.exprs : Node → List Expr
  | .echo e _ _ => [e]
  | .set _ (.expr e) => [e]
  | .cond e => [e]
  | .each e _ _ => [e]
  | _ => []

namespace Page

/-- The nodes of a page at any depth, in the order of their tags. -/
def nodes : Page → List Node
  | .done => []
  | .text content rest => .text content :: rest.nodes
  | .echo e escaped pos rest => .echo e escaped pos :: rest.nodes
  | .renderBody pos rest => .renderBody pos :: rest.nodes
  | .partialView name pos rest => .partialView name pos :: rest.nodes
  | .set key value rest => .set key value :: rest.nodes
  | .cond test yes no rest => .cond test :: (yes.nodes ++ (no.nodes ++ rest.nodes))
  | .each source binding body pos rest => .each source binding pos :: (body.nodes ++ rest.nodes)

@[simp] theorem nodes_done : nodes .done = [] := rfl

@[simp] theorem nodes_append (p q : Page) : (p ++ q).nodes = p.nodes ++ q.nodes := by
  show (p.append q).nodes = p.nodes ++ q.nodes
  induction p with
  | done => rfl
  | cond _ _ _ _ _ _ ih => simp [append, nodes, ih]
  | each _ _ _ _ _ _ ih => simp [append, nodes, ih]
  | _ => simp [append, nodes, *]

/-- A page renders what it wraps somewhere exactly if it has a node for that. -/
theorem rendersBody_iff (p : Page) : p.rendersBody = true ↔ ∃ pos, .renderBody pos ∈ p.nodes := by
  induction p with
  | cond _ _ _ _ ihyes ihno ih => simp [rendersBody, nodes, ihyes, ihno, ih, exists_or, or_assoc]
  | each _ _ _ _ _ ihbody ih => simp [rendersBody, nodes, ihbody, ih, exists_or]
  | _ => simp [rendersBody, nodes, *]

end Page

end LayeredViews.Template
