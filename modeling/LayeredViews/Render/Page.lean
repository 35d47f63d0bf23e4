import LayeredViews.Html.Escape
import LayeredViews.Render.State

/-!
# Running a page — its nodes in order against a model

`runPage` gives back how many times it rendered the content it wraps, which is what a layout without
a place for that content is recognised by.  Loop variables are passed down, innermost first, and so
end with their loop.
-/

namespace LayeredViews

open Template (Expr SetValue Page)
open Text (Position)

/-- What all pages at one depth of partial views run in. -/
structure Scene where
  model : Json
  depth : Nat
  maxDepth : Nat
  /-- Whether the cancel flag is looked at. -/
  heedsFlag : Bool
  /-- Renders a partial view one level deeper; there is none at the depth limit. -/
  deeper? : Option (String → Render Unit)

namespace Scene

/-- A scene at depth zero with a way to render partial views. -/
def top (model : Json) (maxDepth : Nat) (heedsFlag : Bool) (deeper : String → Render Unit) : Scene :=
  ⟨model, 0, maxDepth, heedsFlag, if maxDepth = 0 then none else some deeper⟩

end Scene

/-- What one page runs in: the scene, its own name, and the content it wraps as a layout. -/
structure PageContext where
  scene : Scene
  template : String
  body? : Option (Render Unit)

/-- Loop variables with their current items, innermost first. -/
abbrev Locals := Table String Json

namespace Render

/-! ### Values -/

/-- The value of an expression, if there is one. -/
def valueOf (model : Json) (locals : Locals) (bag : Bag) (e : Expr) : Option Json :=
  match e.root with
  | .model => model.lookup e.path
  | .bag => bag.lookup e.path
  | .loop name => (Table.find? name locals).bind fun v => v.lookup e.path

/-- The value of an expression where it may be missing only from the bag. -/
def requiredValue (model : Json) (locals : Locals) (bag : Bag) (e : Expr) : Except Fault Json :=
  match valueOf model locals bag e with
  | some v => .ok v
  | none => if e.root = .bag then .ok .null else .error (.undefinedValue e.text)

/-- The text of a value that can be shown. -/
def textOf (e : Expr) : Json → Except Fault String
  | .null => .ok ""
  | .str s => .ok s
  | .bool b => .ok (if b then "true" else "false")
  | .num n => .ok n.text
  | .arr _ => .error (.arrayEcho e.text)
  | .obj _ => .error (.objectEcho e.text)

/-- The items of an array. -/
def itemsOf (e : Expr) : Json → Except Fault (List Json)
  | .arr items => .ok items
  | _ => .error (.notAnArray e.text)

/-- What a key is set to; a missing value is null. -/
def setValueOf (model : Json) (locals : Locals) (bag : Bag) : SetValue → Json
  | .literal text => .str text
  | .expr e => (valueOf model locals bag e).getD .null

/-- What an echo node writes. -/
def echoed (model : Json) (locals : Locals) (bag : Bag) (e : Expr) (escaped : Bool) :
    Except Fault String := do
  let text ← textOf e (← requiredValue model locals bag e)
  return if escaped then Html.escape text else text

/-- What a loop runs over. -/
def loopItems (model : Json) (locals : Locals) (bag : Bag) (e : Expr) : Except Fault (List Json) := do
  itemsOf e (← requiredValue model locals bag e)

/-! ### Nodes -/

/-- Ends the run with the fault of a node. -/
def orFault {α : Type} (cx : PageContext) (pos : Position) : Except Fault α → Render α
  | .ok a => pure a
  | .error fault => throw (.runtime cx.template pos fault)

/-- Writes what an echo node shows. -/
def echo (cx : PageContext) (locals : Locals) (e : Expr) (escaped : Bool) (pos : Position) :
    Render Unit := do
  let text ← orFault cx pos (echoed cx.scene.model locals (← get).bag e escaped)
  writeText text

/-- Renders the content that the page wraps. -/
def renderBody (cx : PageContext) (pos : Position) : Render Unit :=
  match cx.body? with
  | some body => body
  | none => throw (.runtime cx.template pos .bodyOutsideLayout)

/-- Renders a partial view. -/
def partialView (cx : PageContext) (name : String) (pos : Position) : Render Unit :=
  match cx.scene.deeper? with
  | none => throw (.runtime cx.template pos (.tooDeep cx.scene.maxDepth name))
  | some render => do
    checkCancelled cx.scene.heedsFlag
    render name

/-- Sets a key of the bag. -/
def set (cx : PageContext) (locals : Locals) (key : String) (value : SetValue) : Render Unit :=
  modify fun s => { s with bag := s.bag.set key (setValueOf cx.scene.model locals s.bag value) }

/-- Whether a condition holds; a missing value does not. -/
def test (cx : PageContext) (locals : Locals) (e : Expr) : Render Bool := do
  return ((valueOf cx.scene.model locals (← get).bag e).map Json.truthy).getD false

/-- Runs something for each item in order and adds the results up. -/
def sumOver {α : Type} (run : α → Render Nat) : List α → Render Nat
  | [] => pure 0
  | a :: as => do
    let n ← run a
    let m ← sumOver run as
    return n + m

/-- Runs a page; gives how many times the wrapped content was rendered. -/
def runPage (cx : PageContext) : Page → Locals → Render Nat
  | .done, _ => pure 0
  | .text content rest, locals => do
    writeText content
    runPage cx rest locals
  | .echo e escaped pos rest, locals => do
    echo cx locals e escaped pos
    runPage cx rest locals
  | .renderBody pos rest, locals => do
    renderBody cx pos
    let n ← runPage cx rest locals
    return 1 + n
  | .partialView name pos rest, locals => do
    partialView cx name pos
    runPage cx rest locals
  | .set key value rest, locals => do
    set cx locals key value
    runPage cx rest locals
  | .cond e yes no rest, locals => do
    let n ← if ← test cx locals e then runPage cx yes locals else runPage cx no locals
    let m ← runPage cx rest locals
    return n + m
  | .each source binding body pos rest, locals => do
    let items ← orFault cx pos (loopItems cx.scene.model locals (← get).bag source)
    let n ← sumOver (fun item => runPage cx body ((binding, item) :: locals)) items
    let m ← runPage cx rest locals
    return n + m

end Render

end LayeredViews
