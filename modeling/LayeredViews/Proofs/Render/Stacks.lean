import LayeredViews.Proofs.Render.Lockstep
import LayeredViews.Proofs.Template.Scoping
import Mathlib.Logic.Function.Basic

/-!
# Stacks — loop variables as they come and go

A page is run with the loop variables that it is given.  Here the same pages run on a machine that keeps a stack of
loop variables for each layer for as long as the layers run: a turn of a loop pushes its variable and takes it off
again, also if it ends in an error, and expressions are looked up with what is on the stack.  The machine does what
the pages do and leaves its stacks as it found them (`Mirrors`), and it tells what it saw of them: a page always
starts on the stack that its layer had in the beginning, and an expression is looked up with one more variable
for each loop around it (`runPage_mirrors`, `runLayers_mirrors`).
-/

namespace LayeredViews

open Template (Page Node Expr Loop Site)
open Text (Position)

/-! ### Machines -/

/-- A turn of a loop, with the item that its variable stands for. -/
structure Turn where
  loop : Loop
  item : Json

namespace Turn

/-- The loop variable of a turn. -/
def entry (t : Turn) : String × Json := (t.loop.binding, t.item)

/-- The loop variables of some turns, the innermost one first. -/
def stack (turns : List Turn) : Locals := turns.map entry

@[simp] theorem stack_nil : stack [] = [] := rfl

@[simp] theorem stack_cons (t : Turn) (turns : List Turn) : stack (t :: turns) = t.entry :: stack turns := rfl

/-- A loop variable stands for the item of the innermost turn that binds it. -/
theorem find?_stack (name : String) (turns : List Turn) :
    Table.find? name (stack turns) = (turns.find? fun t => t.loop.binding = name).map item := by
  induction turns with
  | nil => rfl
  | cons t turns ih =>
    by_cases hname : t.loop.binding = name
    · simp [Table.find?, entry, hname]
    · simpa [Table.find?, entry, hname] using ih

end Turn

/-- What is to be seen of the stacks while layers run. -/
inductive Sight where
  /-- The page of a layer starts. -/
  | started (layer : Nat) (stack : Locals)
  /-- An expression is looked up during some turns of loops, the innermost one first. -/
  | lookedUp (layer : Nat) (turns : List Turn) (e : Expr) (stack : Locals)

/-- The layer whose stack is seen. -/
def Sight.layer : Sight → Nat
  | .started layer _ => layer
  | .lookedUp layer _ _ _ => layer

/-- The page of a layer starts without loop variables, and looks each expression up where it stands, with one
variable for each loop around it. -/
def Sight.At (page : Page) : Sight → Prop
  | .started _ stack => stack = []
  | .lookedUp _ turns e stack => stack = Turn.stack turns ∧ ⟨turns.map Turn.loop, e⟩ ∈ page.sites []

/-- A loop variable that is looked up stands for the item of the innermost turn that binds it. -/
def Sight.Resolves : Sight → Prop
  | .started _ _ => True
  | .lookedUp _ turns e stack => ∀ name, e.root = .loop name →
    ∃ turn, turns.find? (fun t => t.loop.binding = name) = some turn ∧
      ∀ model bag, Render.valueOf model stack bag e = turn.item.lookup e.path

/-- The state of a render, with a stack of loop variables for each layer and what has been seen of them. -/
structure Machine where
  state : State
  /-- The stack of each layer, the innermost variable first. -/
  held : Nat → Locals
  sights : List Sight

namespace Machine

def push (m : Machine) (layer : Nat) (entry : String × Json) : Machine :=
  { m with held := Function.update m.held layer (entry :: m.held layer) }

def pop (m : Machine) (layer : Nat) : Machine :=
  { m with held := Function.update m.held layer (m.held layer).tail }

def see (m : Machine) (sights : List Sight) : Machine := { m with sights := m.sights ++ sights }

end Machine

/-- A computation on a machine that may end early. -/
abbrev Stacked := EStateM ExecError Machine

namespace Stacked

variable {α β : Type}

/-- Does something apart from the stacks. -/
def lift (x : Render α) : Stacked α := fun m =>
  match x m.state with
  | .ok a state => .ok a { m with state }
  | .error e state => .error e { m with state }

/-- Does something with the stack of a layer as it is, which it sees when it looks expressions up. -/
def lookUp (layer : Nat) (turns : List Turn) (es : List Expr) (x : Locals → Render α) : Stacked α := fun m =>
  let stack := m.held layer
  lift (x stack) (m.see (es.map fun e => .lookedUp layer turns e stack))

/-- Does something with one more loop variable on the stack of a layer, and takes one off whichever way it
ends. -/
def bound (layer : Nat) (entry : String × Json) (x : Stacked α) : Stacked α := fun m =>
  match x (m.push layer entry) with
  | .ok a m' => .ok a (m'.pop layer)
  | .error e m' => .error e (m'.pop layer)

/-- Runs something for each item in order and adds the results up. -/
def sumOver (run : α → Stacked Nat) : List α → Stacked Nat
  | [] => pure 0
  | a :: as => do
    let n ← run a
    let m ← sumOver run as
    return n + m

/-- Renders the content that the page of a layer wraps. -/
def renderBody (cx : PageContext) (body? : Option (Stacked Unit)) (pos : Position) : Stacked Unit :=
  match body? with
  | some body => body
  | none => lift (throw (.runtime cx.template pos .bodyOutsideLayout))

/-- Runs a page of a layer during some turns of loops. -/
def runPage (cx : PageContext) (layer : Nat) (body? : Option (Stacked Unit)) : Page → List Turn → Stacked Nat
  | .done, _ => pure 0
  | .text content rest, turns => do
    lift (Render.writeText content)
    runPage cx layer body? rest turns
  | .echo e escaped pos rest, turns => do
    lookUp layer turns [e] fun locals => Render.echo cx locals e escaped pos
    runPage cx layer body? rest turns
  | .renderBody pos rest, turns => do
    renderBody cx body? pos
    let n ← runPage cx layer body? rest turns
    return 1 + n
  | .partialView name pos rest, turns => do
    lift (Render.partialView cx name pos)
    runPage cx layer body? rest turns
  | .set key value rest, turns => do
    lookUp layer turns (Node.set key value).exprs fun locals => Render.set cx locals key value
    runPage cx layer body? rest turns
  | .cond e yes no rest, turns => do
    let n ← if ← lookUp layer turns [e] fun locals => Render.test cx locals e
      then runPage cx layer body? yes turns else runPage cx layer body? no turns
    let m ← runPage cx layer body? rest turns
    return n + m
  | .each source binding body pos rest, turns => do
    let items ← lookUp layer turns [source] fun locals => Render.items cx locals source pos
    let n ← sumOver (fun item => bound layer (binding, item)
      (runPage cx layer body? body (⟨⟨source, binding, pos⟩, item⟩ :: turns))) items
    let m ← runPage cx layer body? rest turns
    return n + m

/-- Starts the page of a layer, on the stack that the layer has. -/
def runLayer (scene : Scene) (depth : Nat) (layer : Layer) (body? : Option (Stacked Unit)) : Stacked Nat := do
  lift (Render.checkCancelled scene.heedsFlag)
  lift (Render.noteStart layer.template scene.depth)
  modify fun m => m.see [.started depth (m.held depth)]
  runPage ⟨scene, layer.template, none⟩ depth body? layer.page []

/-- Runs layers, the outermost one first, from a number of layers inwards. -/
def runLayers (scene : Scene) : Nat → List Layer → Stacked Unit
  | _, [] => pure ()
  | depth, [leaf] => do
    let _ ← runLayer scene depth leaf none
  | depth, outer :: next :: others => do
    let rendered ← runLayer scene depth outer (some (runLayers scene (depth + 1) (next :: others)))
    if rendered = 0 then runLayers scene (depth + 1) (next :: others)

/-! ### Machines and renders -/

/-- From stacks of a kind a machine does what a render does, leaves the stacks as it found them whichever way it
ends, and sees of them what it should. -/
def Mirrors (Start : (Nat → Locals) → Prop) (Seen : Sight → Prop) (x : Stacked α) (y : Render α) : Prop :=
  ∀ m : Machine, Start m.held → ∃ sights, (∀ sight ∈ sights, Seen sight) ∧
    ending x m = ((ending y m.state).1, ⟨(ending y m.state).2, m.held, m.sights ++ sights⟩)

theorem ending_lift (x : Render α) (m : Machine) :
    ending (lift x) m = ((ending x m.state).1, { m with state := (ending x m.state).2 }) := by
  unfold ending lift
  cases x m.state <;> rfl

namespace Mirrors

variable {Start : (Nat → Locals) → Prop} {Seen : Sight → Prop}

theorem mono {Start' : (Nat → Locals) → Prop} {x : Stacked α} {y : Render α} (h : Mirrors Start Seen x y)
    (hstart : ∀ held, Start' held → Start held) : Mirrors Start' Seen x y :=
  fun m hm => h m (hstart m.held hm)

theorem pure (a : α) : Mirrors Start Seen (pure a) (pure a) := by
  intro m _
  refine ⟨[], by simp, ?_⟩
  rw [List.append_nil]
  rfl

theorem lift (x : Render α) : Mirrors Start Seen (lift x) x := by
  intro m _
  refine ⟨[], by simp, ?_⟩
  rw [ending_lift, List.append_nil]

theorem bind {x : Stacked α} {y : Render α} {f : α → Stacked β} {g : α → Render β} (hx : Mirrors Start Seen x y)
    (hf : ∀ a, Mirrors Start Seen (f a) (g a)) : Mirrors Start Seen (x >>= f) (y >>= g) := by
  intro m hm
  obtain ⟨sights, hsights, hend⟩ := hx m hm
  rcases hy : ending y m.state with ⟨e | a, state⟩ <;> rw [hy] at hend
  · exact ⟨sights, hsights, by rw [ending_bind_error hend, ending_bind_error hy]⟩
  · obtain ⟨more, hmore, hend'⟩ := hf a ⟨state, m.held, m.sights ++ sights⟩ hm
    refine ⟨sights ++ more, List.forall_mem_append.mpr ⟨hsights, hmore⟩, ?_⟩
    rw [ending_bind_ok hend, ending_bind_ok hy, hend', List.append_assoc]

theorem lookUp {layer : Nat} {turns : List Turn} {es : List Expr} {locals : Locals}
    (hstack : ∀ held, Start held → held layer = locals)
    (hseen : ∀ e ∈ es, Seen (.lookedUp layer turns e locals)) (x : Locals → Render α) :
    Mirrors Start Seen (lookUp layer turns es x) (x locals) := by
  intro m hm
  refine ⟨es.map fun e => .lookedUp layer turns e locals, List.forall_mem_map.mpr hseen, ?_⟩
  show ending (Stacked.lift (x (m.held layer))) _ = _
  rw [hstack m.held hm, ending_lift]
  rfl

/-- A turn of a loop leaves the stack as it was. -/
theorem bound {Inner : (Nat → Locals) → Prop} {layer : Nat} {entry : String × Json} {x : Stacked α} {y : Render α}
    (hinner : ∀ held, Start held → Inner (Function.update held layer (entry :: held layer)))
    (hx : Mirrors Inner Seen x y) : Mirrors Start Seen (bound layer entry x) y := by
  intro m hm
  obtain ⟨sights, hsights, hend⟩ := hx (m.push layer entry) (hinner m.held hm)
  refine ⟨sights, hsights, ?_⟩
  have hpop : ∀ state, Machine.pop ⟨state, (m.push layer entry).held, m.sights ++ sights⟩ layer =
      ⟨state, m.held, m.sights ++ sights⟩ := by
    intro state
    simp [Machine.pop, Machine.push]
  have hbound : ending (Stacked.bound layer entry x) m =
      ((ending x (m.push layer entry)).1, (ending x (m.push layer entry)).2.pop layer) := by
    unfold ending Stacked.bound
    cases x (m.push layer entry) <;> rfl
  rw [hbound, hend]
  exact Prod.ext rfl (hpop _)

theorem add {x x' : Stacked Nat} {y y' : Render Nat} (hx : Mirrors Start Seen x y)
    (hx' : Mirrors Start Seen x' y') :
    Mirrors Start Seen
      (do
        let n ← x
        let m ← x'
        return n + m)
      (do
        let n ← y
        let m ← y'
        return n + m) :=
  hx.bind fun n => hx'.bind fun m => .pure (n + m)

theorem sumOver {run : α → Stacked Nat} {run' : α → Render Nat} (hrun : ∀ a, Mirrors Start Seen (run a) (run' a))
    (as : List α) : Mirrors Start Seen (sumOver run as) (Render.sumOver run' as) := by
  induction as with
  | nil => exact .pure 0
  | cons a as ih => exact (hrun a).add ih

end Mirrors

/-! ### Pages -/

/-- A layer has the variables of some turns on top of what it had in the beginning, and the layers inside of it
have what they had. -/
structure Entered (base : Nat → Locals) (layer : Nat) (turns : List Turn) (held : Nat → Locals) : Prop where
  own : held layer = Turn.stack turns ++ base layer
  inner : ∀ further, layer < further → held further = base further

namespace Entered

variable {base held : Nat → Locals} {layer : Nat} {turns : List Turn}

theorem push (h : Entered base layer turns held) (t : Turn) :
    Entered base layer (t :: turns) (Function.update held layer (t.entry :: held layer)) where
  own := by simp [h.own]
  inner further hfurther := by
    have hne : further ≠ layer := by omega
    simpa [hne] using h.inner further hfurther

theorem next (h : Entered base layer turns held) : Entered base (layer + 1) [] held where
  own := h.inner (layer + 1) (by omega)
  inner further hfurther := h.inner further (by omega)

end Entered

section Pages

variable {base : Nat → Locals} {Seen : Sight → Prop} (cx : PageContext) {layer : Nat}
  {body? : Option (Stacked Unit)} {wrapped? : Option (Render Unit)}
  (hbody : ∀ turns, Option.Rel (Mirrors (Entered base layer turns) Seen) body? wrapped?)
include hbody

theorem renderBody_mirrors (turns : List Turn) (pos : Position) :
    Mirrors (Entered base layer turns) Seen (renderBody cx body? pos)
      (Render.renderBody { cx with body? := wrapped? } pos) := by
  unfold renderBody Render.renderBody
  cases hbody turns with
  | none => exact .lift _
  | some hrender => exact hrender

/-- By induction on the page: a loop runs its body with one more turn, on a stack with one more variable. -/
theorem runPage_mirrors (page : Page) (turns : List Turn)
    (hseen : ∀ (inner : List Turn) (e : Expr), ⟨inner.map Turn.loop, e⟩ ∈ page.sites (turns.map Turn.loop) →
      Seen (.lookedUp layer inner e (Turn.stack inner ++ base layer))) :
    Mirrors (Entered base layer turns) Seen (runPage cx layer body? page turns)
      (Render.runPage { cx with body? := wrapped? } page (Turn.stack turns ++ base layer)) := by
  induction page generalizing turns with
  | done => exact .pure 0
  | text content rest ih => exact (Mirrors.lift _).bind fun _ => ih turns hseen
  | echo e escaped pos rest ih =>
    have hrest := ih turns fun inner e he => hseen inner e (List.mem_cons_of_mem _ he)
    have hown := hseen turns e List.mem_cons_self
    exact .bind (.lookUp (fun _ h => h.own) (List.forall_mem_singleton.mpr hown) _) fun _ => hrest
  | renderBody pos rest ih =>
    exact (renderBody_mirrors cx hbody turns pos).bind fun _ => (ih turns hseen).bind fun n => .pure (1 + n)
  | partialView name pos rest ih => exact (Mirrors.lift _).bind fun _ => ih turns hseen
  | set key value rest ih =>
    have hrest := ih turns fun inner e he => hseen inner e (List.mem_append_right _ he)
    refine .bind (.lookUp (fun _ h => h.own) (fun e he => ?_) _) fun _ => hrest
    exact hseen turns e (List.mem_append_left _ (List.mem_map_of_mem he))
  | cond e yes no rest ihyes ihno ih =>
    have hown := hseen turns e List.mem_cons_self
    have hyes := ihyes turns fun inner e he => hseen inner e (List.mem_cons_of_mem _ (List.mem_append_left _ he))
    have hno := ihno turns fun inner e he =>
      hseen inner e (List.mem_cons_of_mem _ (List.mem_append_right _ (List.mem_append_left _ he)))
    have hrest := ih turns fun inner e he =>
      hseen inner e (List.mem_cons_of_mem _ (List.mem_append_right _ (List.mem_append_right _ he)))
    refine .bind (.lookUp (fun _ h => h.own) (List.forall_mem_singleton.mpr hown) _) fun b => ?_
    cases b with
    | true => exact hyes.add hrest
    | false => exact hno.add hrest
  | each source binding body pos rest ihbody ih =>
    have hrest := ih turns fun inner e he => hseen inner e (List.mem_cons_of_mem _ (List.mem_append_right _ he))
    have hown := hseen turns source List.mem_cons_self
    rw [Render.runPage_each]
    refine .bind (.lookUp (fun _ h => h.own) (List.forall_mem_singleton.mpr hown) _) fun items => ?_
    refine .add (.sumOver (fun item => ?_) items) hrest
    let turn : Turn := ⟨⟨source, binding, pos⟩, item⟩
    have hturn := ihbody (turn :: turns) fun inner e he =>
      hseen inner e (List.mem_cons_of_mem _ (List.mem_append_left _ he))
    exact .bound (fun _ h => h.push turn) hturn

end Pages

/-! ### Layers -/

section Layers

variable {Seen : Sight → Prop} {scene : Scene}

theorem runLayer_mirrors {depth : Nat} {layer : Layer} {body? : Option (Stacked Unit)}
    {wrapped? : Option (Render Unit)}
    (hbody : ∀ turns, Option.Rel (Mirrors (Entered (fun _ => []) depth turns) Seen) body? wrapped?)
    (hseen : ∀ sight : Sight, sight.layer = depth → sight.At layer.page → Seen sight) :
    Mirrors (Entered (fun _ => []) depth []) Seen (runLayer scene depth layer body?)
      (Render.runLayer scene layer wrapped?) := by
  have hpage := runPage_mirrors ⟨scene, layer.template, none⟩ hbody layer.page [] fun turns e he =>
    hseen _ rfl ⟨List.append_nil _, he⟩
  have hstart : Mirrors (Entered (fun _ => []) depth []) Seen
      (modify fun m => m.see [.started depth (m.held depth)] : Stacked PUnit) (Pure.pure ()) := by
    intro m hm
    have hown : m.held depth = [] := hm.own
    refine ⟨[.started depth (m.held depth)], ?_, rfl⟩
    simpa using hseen (.started depth (m.held depth)) rfl hown
  refine (Mirrors.lift _).bind fun _ => (Mirrors.lift _).bind fun _ => ?_
  have hboth := hstart.bind fun _ => hpage
  simpa using hboth

/-- By induction on the layers: whenever the page of the outermost one renders what it wraps, from inside of
whichever loops, the layers further in have no loop variables left. -/
theorem runLayers_mirrors (depth : Nat) (layers : List Layer)
    (hseen : ∀ i layer, layers[i]? = some layer → ∀ sight : Sight, sight.layer = depth + i →
      sight.At layer.page → Seen sight) :
    Mirrors (Entered (fun _ => []) depth []) Seen (runLayers scene depth layers)
      (Render.runLayers scene layers) := by
  induction layers generalizing depth with
  | nil => exact .pure ()
  | cons outer inner ih =>
    have houter := hseen 0 outer rfl
    have hinner := ih (depth + 1) fun i layer hlayer sight hsight =>
      hseen (i + 1) layer hlayer sight (by omega)
    cases inner with
    | nil => exact (runLayer_mirrors (fun _ => .none) houter).bind fun _ => .pure ()
    | cons next others =>
      refine (runLayer_mirrors (fun _ => .some (hinner.mono fun _ h => h.next)) houter).bind fun rendered => ?_
      split
      · exact hinner.mono fun _ h => h.next
      · exact .pure ()

end Layers

/-! ### Compiled pages -/

/-- If all expressions of a page are in scope, then what it looks up in a loop variable, it looks up in the item
of the innermost loop that binds this. -/
theorem resolves_of_at {page : Page} (hscope : ∀ site ∈ page.sites [], site.InScope) {sight : Sight}
    (h : sight.At page) : sight.Resolves := by
  cases sight with
  | started layer stack => trivial
  | lookedUp layer turns e stack =>
    obtain ⟨rfl, hsite⟩ := h
    intro name hroot
    have hbound : (turns.find? fun t => t.loop.binding = name).isSome := by
      obtain ⟨loop, hloop, hbinding⟩ := hscope _ hsite name hroot
      obtain ⟨turn, hturn, rfl⟩ := List.mem_map.mp hloop
      exact List.find?_isSome.mpr ⟨turn, hturn, by simpa using hbinding⟩
    obtain ⟨turn, hturn⟩ := Option.isSome_iff_exists.mp hbound
    refine ⟨turn, hturn, fun model bag => ?_⟩
    simp only [Render.valueOf, hroot, Turn.find?_stack, hturn, Option.map_some, Option.bind_some]

/-- The content that a page wraps does not see the stacks. -/
theorem lifted_mirrors (Start : (Nat → Locals) → Prop) (Seen : Sight → Prop) (body? : Option (Render Unit)) :
    Option.Rel (Mirrors Start Seen) (body?.map lift) body? := by
  cases body? with
  | none => exact .none
  | some body => exact .some (.lift body)

/-- In the page of a source each expression that is rooted in a loop variable stands in a loop that binds it.
However the page runs, it does on a stack what it does when it is handed its loop variables; each expression is
looked up with one variable on the stack for each loop around it, with the item that the loop is at, so that a
loop variable is that of the innermost loop that binds it.  Whatever page runs on whatever stack, that is
afterwards as it was, also after an error; so layers, whose pages may run again and again inside of the loops of
the layers around them, start without loop variables each time. -/
theorem loopVariables_scoped {source : String} {page : Page} (h : Template.parse source = .ok page) :
    (∀ site ∈ page.sites [], ∀ name, site.expr.root = .loop name →
      ∃ loop ∈ site.loops, loop.binding = name) ∧
    (∀ (cx : PageContext) (layer : Nat) (m : Machine), m.held layer = [] →
      ∃ sights, ending (runPage cx layer (cx.body?.map lift) page []) m =
          ((ending (Render.runPage cx page []) m.state).1,
            ⟨(ending (Render.runPage cx page []) m.state).2, m.held, m.sights ++ sights⟩) ∧
        ∀ sight ∈ sights, sight.At page ∧ sight.Resolves) ∧
    (∀ (cx : PageContext) (layer : Nat) (p : Page) (m : Machine),
      (ending (runPage cx layer (cx.body?.map lift) p []) m).2.held = m.held) ∧
    ∀ (scene : Scene) (layers : List Layer) (m : Machine),
      (∀ layer ∈ layers, ∃ source, Template.parse source = .ok layer.page) → (∀ depth, m.held depth = []) →
        ∃ sights, ending (runLayers scene 0 layers) m =
            ((ending (Render.runLayers scene layers) m.state).1,
              ⟨(ending (Render.runLayers scene layers) m.state).2, m.held, m.sights ++ sights⟩) ∧
          ∀ sight ∈ sights, ∃ layer, layers[sight.layer]? = some layer ∧ sight.At layer.page ∧
            sight.Resolves := by
  have hscope := Template.parse_inScope h
  refine ⟨hscope, fun cx layer m hm => ?_, fun cx layer p m => ?_, fun scene layers m hlayers hm => ?_⟩
  · have hpage : Mirrors (Entered m.held layer []) (fun sight => sight.At page)
        (runPage cx layer (cx.body?.map lift) page []) (Render.runPage cx page (m.held layer)) := by
      refine runPage_mirrors cx (fun _ => lifted_mirrors _ _ cx.body?) page [] fun turns e he => ?_
      rw [hm, List.append_nil]
      exact ⟨rfl, he⟩
    obtain ⟨sights, hsights, hend⟩ := hpage m ⟨rfl, fun _ _ => rfl⟩
    rw [hm] at hend
    exact ⟨sights, hend, fun sight hsight => ⟨hsights sight hsight, resolves_of_at hscope (hsights sight hsight)⟩⟩
  · have hpage : Mirrors (Entered m.held layer []) (fun _ => True)
        (runPage cx layer (cx.body?.map lift) p []) (Render.runPage cx p (m.held layer)) :=
      runPage_mirrors cx (fun _ => lifted_mirrors _ _ cx.body?) p [] fun _ _ _ => trivial
    obtain ⟨sights, -, hend⟩ := hpage m ⟨rfl, fun _ _ => rfl⟩
    rw [hend]
  · have hall : Mirrors (Entered (fun _ => []) 0 [])
        (fun sight => ∃ layer, layers[sight.layer]? = some layer ∧ sight.At layer.page)
        (runLayers scene 0 layers) (Render.runLayers scene layers) :=
      runLayers_mirrors 0 layers fun i layer hlayer sight hsight hat =>
        ⟨layer, by rw [hsight, Nat.zero_add, hlayer], hat⟩
    obtain ⟨sights, hsights, hend⟩ := hall m ⟨hm 0, fun further _ => hm further⟩
    refine ⟨sights, hend, fun sight hsight => ?_⟩
    obtain ⟨layer, hlayer, hat⟩ := hsights sight hsight
    obtain ⟨source', hsource⟩ := hlayers layer (List.mem_of_getElem? hlayer)
    exact ⟨layer, hlayer, hat, resolves_of_at (Template.parse_inScope hsource) hat⟩

/-- A loop over groups around a loop over a group, with one name for both variables. -/
def nested : String :=
  "\x7b\x7b each model.xs |x| \x7d\x7d\x7b\x7b each x |x| \x7d\x7d\x7b\x7b raw x \x7d\x7d\x7b\x7b /each \x7d\x7d" ++
    "\x7b\x7b /each \x7d\x7d"

theorem loopVariables_scoped_of_nested :
    let inner : Loop := ⟨⟨.loop "x", [], "x"⟩, "x", ⟨1, 24⟩⟩
    let outer : Loop := ⟨⟨.model, ["xs"], "model.xs"⟩, "x", ⟨1, 1⟩⟩
    let shown : Expr := ⟨.loop "x", [], "x"⟩
    let cx : PageContext :=
      ⟨⟨.obj [("xs", .arr [.arr [.str "a"], .arr [.arr []]])], 0, 0, false, none⟩, "page", none⟩
    let m : Machine := ⟨⟨.executing, .empty, .on .accepting 16, false, 0, .empty⟩, fun _ => [], []⟩
    ∃ page, Template.parse nested = .ok page ∧ ⟨[inner, outer], shown⟩ ∈ page.sites [] ∧
      (∃ sights, ending (runPage cx 0 none page []) m =
          ((ending (Render.runPage cx page []) m.state).1,
            ⟨(ending (Render.runPage cx page []) m.state).2, m.held, m.sights ++ sights⟩) ∧
        ∀ sight ∈ sights, sight.At page ∧ sight.Resolves) ∧
      (ending (runPage cx 0 none page []) m).1 = .error (.runtime "page" ⟨1, 40⟩ (.arrayEcho "x")) ∧
      .lookedUp 0 [⟨inner, .str "a"⟩, ⟨outer, .arr [.str "a"]⟩] shown
          [("x", .str "a"), ("x", .arr [.str "a"])] ∈ (ending (runPage cx 0 none page []) m).2.sights := by
  intro inner outer shown cx m
  have hparse : Template.parse nested = .ok (.each outer.source "x"
      (.each inner.source "x" (.echo shown false ⟨1, 40⟩ .done) inner.pos .done) outer.pos .done) := by
    decide +kernel
  refine ⟨_, hparse, by decide, (loopVariables_scoped hparse).2.1 cx 0 m rfl, ?_, ?_⟩
  · decide +kernel
  · exact List.mem_of_getElem? (i := 2) rfl

end Stacked

end LayeredViews
