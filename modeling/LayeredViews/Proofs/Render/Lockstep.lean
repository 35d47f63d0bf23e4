import LayeredViews.Proofs.Related
import LayeredViews.Proofs.Template.Nodes
import LayeredViews.Render.Layers

/-!
# Lockstep — two runs of the same pages

Two runs of a page in different contexts match if what each of its nodes does by itself matches: `StepMatches`
has a clause for each kind of node, and `runPage_matches` is the one induction over pages.  The layers of two
scenes match if their pages do in whatever they wrap, as long as that matches.
-/

namespace LayeredViews

open Template (Page Node Expr)
open Text (Position)

namespace Render

/-- What a loop runs over, or the fault of its node. -/
def items (cx : PageContext) (locals : Locals) (source : Expr) (pos : Position) : Render (List Json) := do
  orFault cx pos (loopItems cx.scene.model locals (← get).bag source)

theorem runPage_each (cx : PageContext) (locals : Locals) (source : Expr) (binding : String)
    (body rest : Page) (pos : Position) :
    runPage cx (.each source binding body pos rest) locals = (do
      let items ← items cx locals source pos
      let n ← sumOver (fun item => runPage cx body ((binding, item) :: locals)) items
      let m ← runPage cx rest locals
      return n + m) := by
  simp only [runPage, items, bind_assoc]

section Matching

variable {κ : Type} (r : State → State → Prop) (g : ExecError → κ)

/-- What a node does by itself matches between two contexts. -/
def StepMatches (cx cx' : PageContext) (locals : Locals) : Node → Prop
  | .text content => Matches r g (writeText content) (writeText content)
  | .echo e escaped pos => Matches r g (echo cx locals e escaped pos) (echo cx' locals e escaped pos)
  | .renderBody pos => Matches r g (renderBody cx pos) (renderBody cx' pos)
  | .partialView name pos => Matches r g (partialView cx name pos) (partialView cx' name pos)
  | .set key value => Matches r g (set cx locals key value) (set cx' locals key value)
  | .cond e => Matches r g (test cx locals e) (test cx' locals e)
  | .each source _ pos => Matches r g (items cx locals source pos) (items cx' locals source pos)

variable {r g}

theorem add_matches {x x' y y' : Render Nat} (hx : Matches r g x x') (hy : Matches r g y y') :
    Matches r g
      (do
        let n ← x
        let m ← y
        return n + m)
      (do
        let n ← x'
        let m ← y'
        return n + m) :=
  hx.bind fun n => hy.bind fun m => .pure (n + m)

theorem sumOver_matches {α : Type} {run run' : α → Render Nat} (hrun : ∀ a, Matches r g (run a) (run' a))
    (as : List α) : Matches r g (sumOver run as) (sumOver run' as) := by
  induction as with
  | nil => exact .pure 0
  | cons a as ih => exact add_matches (hrun a) ih

/-- Pages match whose nodes do. -/
theorem runPage_matches {cx cx' : PageContext} {page : Page}
    (hsteps : ∀ node ∈ page.nodes, ∀ locals, StepMatches r g cx cx' locals node) (locals : Locals) :
    Matches r g (runPage cx page locals) (runPage cx' page locals) := by
  induction page generalizing locals with
  | done => exact .pure 0
  | text content rest ih =>
    obtain ⟨hnode, hrest⟩ := List.forall_mem_cons.mp hsteps
    exact (hnode locals).bind fun _ => ih hrest locals
  | echo e escaped pos rest ih =>
    obtain ⟨hnode, hrest⟩ := List.forall_mem_cons.mp hsteps
    exact (hnode locals).bind fun _ => ih hrest locals
  | renderBody pos rest ih =>
    obtain ⟨hnode, hrest⟩ := List.forall_mem_cons.mp hsteps
    exact (hnode locals).bind fun _ => (ih hrest locals).bind fun n => .pure (1 + n)
  | partialView name pos rest ih =>
    obtain ⟨hnode, hrest⟩ := List.forall_mem_cons.mp hsteps
    exact (hnode locals).bind fun _ => ih hrest locals
  | set key value rest ih =>
    obtain ⟨hnode, hrest⟩ := List.forall_mem_cons.mp hsteps
    exact (hnode locals).bind fun _ => ih hrest locals
  | cond e yes no rest ihyes ihno ih =>
    obtain ⟨hnode, hbranches⟩ := List.forall_mem_cons.mp hsteps
    obtain ⟨hyes, hothers⟩ := List.forall_mem_append.mp hbranches
    obtain ⟨hno, hrest⟩ := List.forall_mem_append.mp hothers
    refine (hnode locals).bind fun b => ?_
    cases b with
    | true => exact add_matches (ihyes hyes locals) (ih hrest locals)
    | false => exact add_matches (ihno hno locals) (ih hrest locals)
  | each source binding body pos rest ihbody ih =>
    obtain ⟨hnode, hbodies⟩ := List.forall_mem_cons.mp hsteps
    obtain ⟨hinner, hrest⟩ := List.forall_mem_append.mp hbodies
    rw [runPage_each, runPage_each]
    refine (hnode locals).bind fun items => ?_
    exact add_matches (sumOver_matches (fun item => ihbody hinner ((binding, item) :: locals)) items)
      (ih hrest locals)

/-- Layers match whose pages do. -/
theorem runLayers_matches {scene scene' : Scene} {layers : List Layer}
    (hstart : ∀ template, Matches r g
      (do checkCancelled scene.heedsFlag; noteStart template scene.depth)
      (do checkCancelled scene'.heedsFlag; noteStart template scene'.depth))
    (hsteps : ∀ layer ∈ layers, ∀ body? body?', Option.Rel (Matches r g) body? body?' →
      ∀ node ∈ layer.page.nodes, ∀ locals,
        StepMatches r g ⟨scene, layer.template, body?⟩ ⟨scene', layer.template, body?'⟩ locals node) :
    Matches r g (runLayers scene layers) (runLayers scene' layers) := by
  have hlayer : ∀ layer ∈ layers, ∀ body? body?', Option.Rel (Matches r g) body? body?' →
      Matches r g (runLayer scene layer body?) (runLayer scene' layer body?') := by
    intro layer hmem body? body?' hbody
    have hpage := runPage_matches (hsteps layer hmem body? body?' hbody) []
    have hboth := (hstart layer.template).bind fun _ => hpage
    simpa only [bind_assoc, runLayer] using hboth
  clear hsteps
  induction layers with
  | nil => exact .pure ()
  | cons outer inner ih =>
    obtain ⟨houter, hinner⟩ := List.forall_mem_cons.mp hlayer
    cases inner with
    | nil => exact (houter none none .none).bind fun _ => .pure ()
    | cons next others =>
      refine (houter _ _ (.some (ih hinner))).bind fun rendered => ?_
      split
      · exact ih hinner
      · exact .pure ()

end Matching

end Render

end LayeredViews
